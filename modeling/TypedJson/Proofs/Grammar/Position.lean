import TypedJson.Proofs.Lexing.Exact

set_option autoImplicit false
set_option relaxedAutoImplicit false

namespace TypedJson.Grammar

open Utf8 (encode)
open TypedJson.Tree (itemEvents memberEvents itemDepth memberDepth)

inductive Place where
  | firstItem
  | nextItem
  | firstMember
  | memberValue
  | nextMember
  deriving DecidableEq, Repr

/-- What may come from a place on, up to the closing bracket, with its units; inside of it arrays
and objects nest at most `room` deep. -/
def Place.Admits (N : List Char → Prop) (room : Nat) : Place → List Char → List Event → Prop
  | .firstItem, s, units => ∃ items, Elements ']' (Value N) items s ∧ itemDepth items ≤ room ∧
      units = itemEvents items
  | .nextItem, s, units => ∃ items, Tail ']' (Value N) items s ∧ itemDepth items ≤ room ∧
      units = itemEvents items
  | .firstMember, s, units => ∃ members, Elements '}' (Member (Value N)) members s ∧
      memberDepth members ≤ room ∧ units = memberEvents members
  | .memberValue, s, units => ∃ t v members s', Valued (Value N) t v ∧
      Tail '}' (Member (Value N)) members s' ∧ t.depth ≤ room ∧ memberDepth members ≤ room ∧
      s = v ++ s' ∧ units = t.events ++ memberEvents members
  | .nextMember, s, units => ∃ members, Tail '}' (Member (Value N)) members s ∧
      memberDepth members ≤ room ∧ units = memberEvents members

/-- What may follow inside some open arrays and objects, the innermost first, up to the end of the
document. -/
def Follow (N : List Char → Prop) : List Place → Nat → List UInt8 → List Event → Prop
  | [], _, bs, evs => evs = [] ∧ ∃ w, Blank w ∧ bs = encode w
  | place :: places, room, bs, evs => ∃ s units rest evs', place.Admits N room s units ∧
      Follow N places (room + 1) rest evs' ∧ bs = encode s ++ rest ∧ evs = units ++ evs'

def ValueThen (N : List Char → Prop) (places : List Place) (room : Nat) (bs : List UInt8)
    (evs : List Event) : Prop :=
  ∃ t v rest evs', Value N t v ∧ t.depth ≤ room ∧ Follow N places room rest evs' ∧
    bs = encode v ++ rest ∧ evs = t.events ++ evs'

def NameThen (N : List Char → Prop) (places : List Place) (room : Nat) (bs : List UInt8)
    (evs : List Event) : Prop :=
  ∃ name n rest evs', Quoted name n ∧ Follow N (.memberValue :: places) room rest evs' ∧
    bs = encode n ++ rest ∧ evs = .name name :: evs'

def EndThen (N : List Char → Prop) (bracket : UInt8) (unit : Event) (places : List Place)
    (room : Nat) (bs : List UInt8) (evs : List Event) : Prop :=
  ∃ rest evs', Follow N places (room + 1) rest evs' ∧ bs = bracket :: rest ∧ evs = unit :: evs'

/-- What may follow behind a unit that has been lexed. -/
def Behind (N : List Char → Prop) (places : List Place) (room : Nat) (bs : List UInt8)
    (evs : List Event) : Lexeme → Prop
  | .beginObject => ∃ inner evs', room = inner + 1 ∧ evs = .beginObject :: evs' ∧
      Follow N (.firstMember :: places) inner bs evs'
  | .beginArray => ∃ inner evs', room = inner + 1 ∧ evs = .beginArray :: evs' ∧
      Follow N (.firstItem :: places) inner bs evs'
  | .endObject => ∃ evs', evs = .endObject :: evs' ∧ Follow N places.tail (room + 1) bs evs'
  | .endArray => ∃ evs', evs = .endArray :: evs' ∧ Follow N places.tail (room + 1) bs evs'
  | .name s => ∃ evs', evs = .name s :: evs' ∧ Follow N places room bs evs'
  | .string s => ∃ evs', evs = .string s :: evs' ∧ Follow N places room bs evs'
  | .number s => ∃ evs', evs = .number s :: evs' ∧ Follow N places room bs evs'
  | .boolean b => ∃ evs', evs = .boolean b :: evs' ∧ Follow N places room bs evs'
  | .null => ∃ evs', evs = .null :: evs' ∧ Follow N places room bs evs'
  | .endDocument => evs = [] ∧ bs = [] ∧ places = []

variable {N : List Char → Prop} {places : List Place} {room : Nat} {bs : List UInt8}
variable {evs : List Event}

private theorem encode_close (w : List Char) (rest : List UInt8) :
    encode (w ++ [']']) ++ rest = encode w ++ Ascii.closeBracket :: rest ∧
      encode (w ++ ['}']) ++ rest = encode w ++ Ascii.closeBrace :: rest := by
  constructor <;>
  · rw [Utf8.encode_append, List.append_assoc]
    rfl

private theorem encode_comma (w u v s : List Char) (rest : List UInt8) :
    encode (w ++ ',' :: (u ++ (v ++ s))) ++ rest =
      encode w ++ Ascii.comma :: (encode u ++ (encode v ++ (encode s ++ rest))) := by
  simp only [Utf8.encode_append, Utf8.encode_cons, List.append_assoc]
  rfl

private theorem encode_parts (u v s : List Char) (rest : List UInt8) :
    encode (u ++ (v ++ s)) ++ rest = encode u ++ (encode v ++ (encode s ++ rest)) := by
  simp only [Utf8.encode_append, List.append_assoc]

private theorem valueThen_of_item {t : Tree} {v s : List Char} {items : List Tree}
    {rest : List UInt8} {evs' : List Event} (hv : Value N t v) (hs : Tail ']' (Value N) items s)
    (hd : itemDepth (t :: items) ≤ room) (hf : Follow N places (room + 1) rest evs') :
    ValueThen N (.nextItem :: places) room (encode v ++ (encode s ++ rest))
      (itemEvents (t :: items) ++ evs') := by
  have hd := Nat.max_le.mp hd
  refine ⟨t, v, encode s ++ rest, itemEvents items ++ evs', hv, hd.1, ?_, rfl, ?_⟩
  · exact ⟨s, _, rest, evs', ⟨items, hs, hd.2, rfl⟩, hf, rfl, rfl⟩
  · rw [itemEvents, List.append_assoc]

private theorem item_of_valueThen {rest : List UInt8}
    (h : ValueThen N (.nextItem :: places) room rest evs) :
    ∃ t v s items rest' evs', Value N t v ∧ Tail ']' (Value N) items s ∧
      itemDepth (t :: items) ≤ room ∧ Follow N places (room + 1) rest' evs' ∧
      rest = encode v ++ (encode s ++ rest') ∧ evs = itemEvents (t :: items) ++ evs' := by
  obtain ⟨t, v, _, _, hv, hd, ⟨s, _, rest', evs', ⟨items, hs, hd', rfl⟩, hf, rfl, rfl⟩, rfl,
    rfl⟩ := h
  exact ⟨t, v, s, items, rest', evs', hv, hs, Nat.max_le.mpr ⟨hd, hd'⟩, hf, rfl,
    by rw [itemEvents, List.append_assoc]⟩

theorem follow_firstItem :
    Follow N (.firstItem :: places) room bs evs ↔ ∃ w rest, Blank w ∧ bs = encode w ++ rest ∧
      (EndThen N Ascii.closeBracket .endArray places room rest evs ∨
        ValueThen N (.nextItem :: places) room rest evs) := by
  constructor
  · rintro ⟨s, _, rest, evs', ⟨items, h, hd, rfl⟩, hf, rfl, rfl⟩
    cases h with
    | none hw => exact ⟨_, _, hw, (encode_close _ _).1, .inl ⟨rest, evs', hf, rfl, rfl⟩⟩
    | some hu hv hs =>
        exact ⟨_, _, hu, encode_parts _ _ _ _, .inr (valueThen_of_item hv hs hd hf)⟩
  · rintro ⟨w, _, hw, rfl, ⟨rest, evs', hf, rfl, rfl⟩ | h⟩
    · exact ⟨_, _, rest, evs', ⟨[], .none hw, Nat.zero_le _, rfl⟩, hf, (encode_close _ _).1.symm,
        rfl⟩
    · obtain ⟨t, v, s, items, rest, evs', hv, hs, hd, hf, rfl, rfl⟩ := item_of_valueThen h
      exact ⟨_, _, rest, evs', ⟨t :: items, .some hw hv hs, hd, rfl⟩, hf,
        (encode_parts _ _ _ _).symm, rfl⟩

theorem follow_nextItem :
    Follow N (.nextItem :: places) room bs evs ↔ ∃ w rest, Blank w ∧ bs = encode w ++ rest ∧
      (EndThen N Ascii.closeBracket .endArray places room rest evs ∨
        ∃ u rest', Blank u ∧ rest = Ascii.comma :: (encode u ++ rest') ∧
          ValueThen N (.nextItem :: places) room rest' evs) := by
  constructor
  · rintro ⟨s, _, rest, evs', ⟨items, h, hd, rfl⟩, hf, rfl, rfl⟩
    cases h with
    | done hw => exact ⟨_, _, hw, (encode_close _ _).1, .inl ⟨rest, evs', hf, rfl, rfl⟩⟩
    | more hw hu hv hs =>
        exact ⟨_, _, hw, encode_comma _ _ _ _ _,
          .inr ⟨_, _, hu, rfl, valueThen_of_item hv hs hd hf⟩⟩
  · rintro ⟨w, _, hw, rfl, ⟨rest, evs', hf, rfl, rfl⟩ | ⟨u, _, hu, rfl, h⟩⟩
    · exact ⟨_, _, rest, evs', ⟨[], .done hw, Nat.zero_le _, rfl⟩, hf, (encode_close _ _).1.symm,
        rfl⟩
    · obtain ⟨t, v, s, items, rest, evs', hv, hs, hd, hf, rfl, rfl⟩ := item_of_valueThen h
      exact ⟨_, _, rest, evs', ⟨t :: items, .more hw hu hv hs, hd, rfl⟩, hf,
        (encode_comma _ _ _ _ _).symm, rfl⟩

private theorem nameThen_of_member {name : String} {t : Tree} {v s : List Char}
    {members : List (String × Tree)} {rest : List UInt8} {evs' : List Event}
    (hm : Member (Value N) (name, t) v) (hs : Tail '}' (Member (Value N)) members s)
    (hd : memberDepth ((name, t) :: members) ≤ room) (hf : Follow N places (room + 1) rest evs') :
    NameThen N places room (encode v ++ (encode s ++ rest))
      (memberEvents ((name, t) :: members) ++ evs') := by
  cases hm with
  | named hn hv =>
      have hd := Nat.max_le.mp hd
      refine ⟨name, _, _, _, hn, ⟨_, _, rest, evs',
        ⟨t, _, members, s, hv, hs, hd.1, hd.2, rfl, rfl⟩, hf, rfl, rfl⟩, ?_, ?_⟩
      · simp only [Utf8.encode_append, List.append_assoc]
      · simp only [memberEvents, List.cons_append, List.append_assoc]

private theorem member_of_nameThen {rest : List UInt8} (h : NameThen N places room rest evs) :
    ∃ name t v s members rest' evs', Member (Value N) (name, t) v ∧
      Tail '}' (Member (Value N)) members s ∧ memberDepth ((name, t) :: members) ≤ room ∧
      Follow N places (room + 1) rest' evs' ∧ rest = encode v ++ (encode s ++ rest') ∧
      evs = memberEvents ((name, t) :: members) ++ evs' := by
  obtain ⟨name, n, _, _, hn, ⟨_, _, rest', evs', ⟨t, v, members, s, hv, hs, hd, hd', rfl, rfl⟩, hf,
    rfl, rfl⟩, rfl, rfl⟩ := h
  refine ⟨name, t, n ++ v, s, members, rest', evs', .named hn hv, hs, Nat.max_le.mpr ⟨hd, hd'⟩, hf,
    ?_, ?_⟩
  · simp only [Utf8.encode_append, List.append_assoc]
  · simp only [memberEvents, List.cons_append, List.append_assoc]

theorem follow_firstMember :
    Follow N (.firstMember :: places) room bs evs ↔ ∃ w rest, Blank w ∧ bs = encode w ++ rest ∧
      (EndThen N Ascii.closeBrace .endObject places room rest evs ∨
        NameThen N places room rest evs) := by
  constructor
  · rintro ⟨s, _, rest, evs', ⟨members, h, hd, rfl⟩, hf, rfl, rfl⟩
    cases h with
    | none hw => exact ⟨_, _, hw, (encode_close _ _).2, .inl ⟨rest, evs', hf, rfl, rfl⟩⟩
    | some hu hm hs =>
        exact ⟨_, _, hu, encode_parts _ _ _ _, .inr (nameThen_of_member hm hs hd hf)⟩
  · rintro ⟨w, _, hw, rfl, ⟨rest, evs', hf, rfl, rfl⟩ | h⟩
    · exact ⟨_, _, rest, evs', ⟨[], .none hw, Nat.zero_le _, rfl⟩, hf, (encode_close _ _).2.symm,
        rfl⟩
    · obtain ⟨name, t, v, s, members, rest, evs', hm, hs, hd, hf, rfl, rfl⟩ := member_of_nameThen h
      exact ⟨_, _, rest, evs', ⟨(name, t) :: members, .some hw hm hs, hd, rfl⟩, hf,
        (encode_parts _ _ _ _).symm, rfl⟩

theorem follow_nextMember :
    Follow N (.nextMember :: places) room bs evs ↔ ∃ w rest, Blank w ∧ bs = encode w ++ rest ∧
      (EndThen N Ascii.closeBrace .endObject places room rest evs ∨
        ∃ u rest', Blank u ∧ rest = Ascii.comma :: (encode u ++ rest') ∧
          NameThen N places room rest' evs) := by
  constructor
  · rintro ⟨s, _, rest, evs', ⟨members, h, hd, rfl⟩, hf, rfl, rfl⟩
    cases h with
    | done hw => exact ⟨_, _, hw, (encode_close _ _).2, .inl ⟨rest, evs', hf, rfl, rfl⟩⟩
    | more hw hu hm hs =>
        exact ⟨_, _, hw, encode_comma _ _ _ _ _,
          .inr ⟨_, _, hu, rfl, nameThen_of_member hm hs hd hf⟩⟩
  · rintro ⟨w, _, hw, rfl, ⟨rest, evs', hf, rfl, rfl⟩ | ⟨u, _, hu, rfl, h⟩⟩
    · exact ⟨_, _, rest, evs', ⟨[], .done hw, Nat.zero_le _, rfl⟩, hf, (encode_close _ _).2.symm,
        rfl⟩
    · obtain ⟨name, t, v, s, members, rest, evs', hm, hs, hd, hf, rfl, rfl⟩ := member_of_nameThen h
      exact ⟨_, _, rest, evs', ⟨(name, t) :: members, .more hw hu hm hs, hd, rfl⟩, hf,
        (encode_comma _ _ _ _ _).symm, rfl⟩

theorem follow_memberValue :
    Follow N (.memberValue :: places) room bs evs ↔ ∃ w u rest, Blank w ∧ Blank u ∧
      bs = encode w ++ Ascii.colon :: (encode u ++ rest) ∧
      ValueThen N (.nextMember :: places) room rest evs := by
  have colon (w u v s : List Char) (rest : List UInt8) :
      encode (w ++ ':' :: (u ++ v) ++ s) ++ rest =
        encode w ++ Ascii.colon :: (encode u ++ (encode v ++ (encode s ++ rest))) := by
    simp only [Utf8.encode_append, Utf8.encode_cons, List.append_assoc]
    rfl
  constructor
  · rintro ⟨_, _, rest, evs', ⟨t, v, members, s, hv, hs, hd, hd', rfl, rfl⟩, hf, rfl, rfl⟩
    cases hv with
    | colon hw hu hv =>
        refine ⟨_, _, _, hw, hu, colon _ _ _ _ _, t, _, _, memberEvents members ++ evs', hv, hd, ?_,
          rfl, ?_⟩
        · exact ⟨_, _, rest, evs', ⟨members, hs, hd', rfl⟩, hf, rfl, rfl⟩
        · rw [List.append_assoc]
  · rintro ⟨w, u, _, hw, hu, rfl, t, v, _, _, hv, hd,
      ⟨s, _, rest, evs', ⟨members, hs, hd', rfl⟩, hf, rfl, rfl⟩, rfl, rfl⟩
    exact ⟨_, _, rest, evs', ⟨t, _, members, s, .colon hw hu hv, hs, hd, hd', rfl, rfl⟩, hf,
      (colon _ _ _ _ _).symm, by rw [List.append_assoc]⟩

theorem valueThen_iff :
    ValueThen N places room bs evs ↔ ∃ l s rest, Opening N l s ∧ bs = encode s ++ rest ∧
      Behind N places room rest evs l := by
  constructor
  · rintro ⟨t, v, rest, evs', hv, hd, hf, rfl, rfl⟩
    cases hv with
    | @object members s hs =>
        rw [Tree.depth] at hd
        obtain ⟨inner, rfl⟩ : ∃ inner, room = inner + 1 := ⟨room - 1, by omega⟩
        refine ⟨_, _, encode s ++ rest, .object, by rw [Utf8.encode_cons]; rfl, inner, _, rfl, ?_,
          s, _, rest, evs', ⟨members, hs, by omega, rfl⟩, hf, rfl, rfl⟩
        rw [Tree.events, List.cons_append]
    | @array items s hs =>
        rw [Tree.depth] at hd
        obtain ⟨inner, rfl⟩ : ∃ inner, room = inner + 1 := ⟨room - 1, by omega⟩
        refine ⟨_, _, encode s ++ rest, .array, by rw [Utf8.encode_cons]; rfl, inner, _, rfl, ?_,
          s, _, rest, evs', ⟨items, hs, by omega, rfl⟩, hf, rfl, rfl⟩
        rw [Tree.events, List.cons_append]
    | string hq => exact ⟨_, _, rest, .string hq, rfl, evs', by rw [Tree.events]; rfl, hf⟩
    | number hn => exact ⟨_, _, rest, .number hn, rfl, evs', by rw [Tree.events]; rfl, hf⟩
    | yes => exact ⟨_, _, rest, .yes, rfl, evs', by rw [Tree.events]; rfl, hf⟩
    | no => exact ⟨_, _, rest, .no, rfl, evs', by rw [Tree.events]; rfl, hf⟩
    | null => exact ⟨_, _, rest, .null, rfl, evs', by rw [Tree.events]; rfl, hf⟩
  · rintro ⟨l, s, rest, hl, rfl, h⟩
    cases hl with
    | object =>
        obtain ⟨inner, _, rfl, rfl, s, _, rest, evs', ⟨members, hs, hd, rfl⟩, hf, rfl, rfl⟩ := h
        refine ⟨_, _, rest, evs', .object hs, by rw [Tree.depth]; omega, hf, ?_, ?_⟩
        · rw [Utf8.encode_cons, List.append_assoc]
          rfl
        · rw [Tree.events, List.cons_append]
    | array =>
        obtain ⟨inner, _, rfl, rfl, s, _, rest, evs', ⟨items, hs, hd, rfl⟩, hf, rfl, rfl⟩ := h
        refine ⟨_, _, rest, evs', .array hs, by rw [Tree.depth]; omega, hf, ?_, ?_⟩
        · rw [Utf8.encode_cons, List.append_assoc]
          rfl
        · rw [Tree.events, List.cons_append]
    | string hq =>
        obtain ⟨evs', rfl, hf⟩ := h
        exact ⟨_, _, rest, evs', .string hq, Nat.zero_le _, hf, rfl, by rw [Tree.events]; rfl⟩
    | number hn =>
        obtain ⟨evs', rfl, hf⟩ := h
        exact ⟨_, _, rest, evs', .number hn, Nat.zero_le _, hf, rfl, by rw [Tree.events]; rfl⟩
    | yes =>
        obtain ⟨evs', rfl, hf⟩ := h
        exact ⟨_, _, rest, evs', .yes, Nat.zero_le _, hf, rfl, by rw [Tree.events]; rfl⟩
    | no =>
        obtain ⟨evs', rfl, hf⟩ := h
        exact ⟨_, _, rest, evs', .no, Nat.zero_le _, hf, rfl, by rw [Tree.events]; rfl⟩
    | null =>
        obtain ⟨evs', rfl, hf⟩ := h
        exact ⟨_, _, rest, evs', .null, Nat.zero_le _, hf, rfl, by rw [Tree.events]; rfl⟩

end TypedJson.Grammar
