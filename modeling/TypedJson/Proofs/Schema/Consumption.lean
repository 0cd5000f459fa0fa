import TypedJson.Document
import TypedJson.Proofs.Reader.Scalars
import TypedJson.Proofs.Reader.Skipping
import TypedJson.Proofs.Schema.Members
import TypedJson.Proofs.Schema.Typing
import TypedJson.Sample.Catalog

set_option autoImplicit false
set_option relaxedAutoImplicit false

namespace TypedJson

open Operation
open Reader (Consumes)
open ReadM (nextEvent peekLexeme)

variable {α β κ : Type} {n fuel : Nat} {r r' : Reader} {a : α} {settings : ReaderSettings}

section Assembly

variable [DecidableEq κ]

mutual

inductive Assembled (catalog : Catalog κ) (lenient : Bool) : FieldType κ → Value κ → Prop
  | scalar {t : ScalarType} {s : Scalar} : s.hasType t = true → s.FromText lenient →
      Assembled catalog lenient (.scalar t) (.scalar s)
  | absent {t : FieldType κ} : Assembled catalog lenient (.optional t) .absent
  | present {t : FieldType κ} {v : Value κ} : Assembled catalog lenient t v →
      Assembled catalog lenient (.optional t) (.present v)
  | boxed {t : FieldType κ} {v : Value κ} : Assembled catalog lenient t v →
      Assembled catalog lenient (.boxed t) v
  | list {t : FieldType κ} {vs : List (Value κ)} : (∀ v ∈ vs, Assembled catalog lenient t v) →
      Assembled catalog lenient (.list t) (.list vs)
  | record {k : κ} {fields : List (Value κ)} : Filled catalog lenient (catalog k) fields →
      Assembled catalog lenient (.record k) (.record (catalog k).key fields)

/-- The fields that a record can have while it is read: those it starts with, some of them replaced
by values read for their slots. -/
inductive Filled (catalog : Catalog κ) (lenient : Bool) : Schema κ → List (Value κ) → Prop
  | initial {s : Schema κ} : Filled catalog lenient s (s.fields.map Field.initial)
  | set {s : Schema κ} {p : Property κ} {slot : Slot κ} {fields : List (Value κ)} {v : Value κ} :
      Filled catalog lenient s fields → s.readSlot p = some slot →
      Assembled catalog lenient slot.type v →
      Filled catalog lenient s (fields.set slot.position v)

end

end Assembly

namespace BindM

/-- From a state with these settings and at most so many units left, the operation, if it succeeds,
has consumed a value, and its answer has `Q`. -/
def Takes (settings : ReaderSettings) (n : Nat) (x : BindM α) (Q : α → Prop) : Prop :=
  ∀ r a r', r.settings = settings → r.unitsLeft ≤ n → x r = .ok a r' →
    (∃ t : Tree, Consumes t.events r r') ∧ Q a

theorem Takes.of_peeked {x : BindM α} {Q : α → Prop} (hx : Takes settings n x Q) {r₁ : Reader}
    {l : Lexeme} (same : r.settings = settings) (few : r.unitsLeft ≤ n)
    (look : peekLexeme r = .ok l r₁) (h : x r₁ = .ok a r') :
    (∃ t : Tree, Consumes t.events r r') ∧ Q a := by
  have kept := (Reader.settings_of_peekLexeme look).trans same
  have fewer := (ReadM.ensures_peekLexeme n r l r₁ few look).1
  obtain ⟨⟨t, consumes⟩, answer⟩ := hx r₁ a r' kept fewer h
  obtain ⟨e, es, head, -⟩ := t.events_head
  refine ⟨⟨t, ?_⟩, answer⟩
  rw [head] at consumes ⊢
  exact consumes.of_peeked look

theorem read_eq_ok {x : ReadM α} (h : read x r = .ok a r') : x r = .ok a r' := by
  unfold read at h
  split at h
  · rename_i run
    cases h
    exact run
  · cases h

theorem within_eq_ok {x : BindM α} {context : Option String} {name : String}
    (h : within context name x r = .ok a r') : x r = .ok a r' := by
  unfold within at h
  split at h
  · cases h
  · exact h

theorem collecting_eq_ok {x : FillM β Unit} {start b : β} (h : collecting start x r = .ok b r') :
    x (r, start) = .ok () (r', b) := by
  unfold collecting at h
  split at h
  · rename_i run
    cases h
    exact run
  · cases h

theorem state_of_resolve {s : Schema κ} {d : Descriptor κ} (h : resolve s r = .ok d r') :
    r' = r := by
  unfold resolve at h
  cases described : s.descriptor with
  | ok d' =>
      rw [described] at h
      cases h
      rfl
  | error fault =>
      rw [described] at h
      cases h

end BindM

namespace FillM

open BindM (Takes)

variable {b b' : β} {Q : α → Prop}

theorem typed_eq_ok {x : BindM α} (h : (typed x : FillM β α) (r, b) = .ok a (r', b')) :
    x r = .ok a r' ∧ b' = b := by
  unfold typed at h
  dsimp only at h
  split at h
  · rename_i run
    cases h
    exact ⟨run, rfl⟩
  · cases h

theorem read_eq_ok {x : ReadM α} (h : (read x : FillM β α) (r, b) = .ok a (r', b')) :
    x r = .ok a r' ∧ b' = b := by
  obtain ⟨run, same⟩ := typed_eq_ok h
  exact ⟨BindM.read_eq_ok run, same⟩

/-- One round for each element of a container. A round begins behind a look at the next unit, from a
state in which nothing else has been looked ahead to. -/
theorem consumes_each {ι : Type} {units : ι → List Event} {body : FillM β Unit} {I : β → Prop}
    (filled : ∀ i, units i ≠ [])
    (step : ∀ (r r₁ r' : Reader) (l : Lexeme) (b b' : β), r.lookahead = none →
      r.settings = settings → r.unitsLeft ≤ n → peekLexeme r = .ok l r₁ → I b →
      body (r₁, b) = .ok () (r', b') → (∃ i, Consumes (units i) r r') ∧ I b')
    (unseen : r.lookahead = none) (same : r.settings = settings) (few : r.unitsLeft ≤ n) (hb : I b)
    (h : each body fuel (r, b) = .ok () (r', b')) :
    (∃ is : List ι, ∀ e r'', nextEvent r' = .ok (some e) r'' →
      Consumes (is.flatMap units ++ [e]) r r'') ∧ I b' := by
  induction fuel generalizing r b with
  | zero =>
      cases h
      exact ⟨⟨[], fun e r'' closes => .single closes⟩, hb⟩
  | succ fuel ih =>
      obtain ⟨more, ⟨r₁, b₁⟩, looking, rest⟩ := bind_eq_ok.mp h
      obtain ⟨hasNext, rfl⟩ := read_eq_ok looking
      obtain ⟨l, r₂, look, answer⟩ := bind_eq_ok.mp hasNext
      obtain rfl : r₂ = r₁ := by cases l <;> cases answer <;> rfl
      cases more with
      | false =>
          cases rest
          exact ⟨⟨[], fun e r'' closes => (Consumes.single closes).of_peeked look⟩, hb⟩
      | true =>
          obtain ⟨_, ⟨r₃, b₃⟩, element, rest⟩ := bind_eq_ok.mp rest
          obtain ⟨⟨i, first⟩, hb₃⟩ := step r r₂ r₃ l _ b₃ unseen same few look hb element
          obtain ⟨e, es, head⟩ := List.exists_cons_of_ne_nil (filled i)
          have shorter := first.unitsLeft_le
          have behind : r₃.lookahead = none ∧ r₃.settings = r.settings := by
            rw [head] at first
            exact first.behind
          obtain ⟨⟨is, later⟩, hb'⟩ :=
            ih behind.1 (behind.2.trans same) (by omega) hb₃ rest
          refine ⟨⟨i :: is, fun e r'' closes => ?_⟩, hb'⟩
          rw [List.flatMap_cons, List.append_assoc]
          exact first.append (later e r'' closes)

theorem consumes_items {item : BindM α} (hitem : Takes settings n item Q) {vs vs' : List α}
    (same : r.settings = settings) (few : r.unitsLeft ≤ n) (hvs : ∀ v ∈ vs, Q v)
    (h : items fuel item (r, vs) = .ok () (r', vs')) :
    (∃ t : Tree, Consumes t.events r r') ∧ ∀ v ∈ vs', Q v := by
  obtain ⟨_, ⟨r₁, vs₁⟩, opening, rest⟩ := bind_eq_ok.mp h
  obtain ⟨_, ⟨r₂, vs₂⟩, elements, closing⟩ := bind_eq_ok.mp rest
  obtain ⟨begun, rfl⟩ := read_eq_ok opening
  obtain ⟨ended, rfl⟩ := read_eq_ok closing
  have first := Consumes.single (ReadM.event_of_beginArray begun)
  have shorter := first.unitsLeft_le
  have step (r r₁ r' : Reader) (l : Lexeme) (vs vs' : List α) (_ : r.lookahead = none)
      (same : r.settings = settings) (few : r.unitsLeft ≤ n) (look : peekLexeme r = .ok l r₁)
      (hvs : ∀ v ∈ vs, Q v) (element : push item (r₁, vs) = .ok () (r', vs')) :
      (∃ t : Tree, Consumes t.events r r') ∧ ∀ v ∈ vs', Q v := by
    obtain ⟨v, ⟨r₂, vs₂⟩, run, pushed⟩ := bind_eq_ok.mp element
    cases pushed
    obtain ⟨read, rfl⟩ := typed_eq_ok run
    obtain ⟨consumed, hv⟩ := hitem.of_peeked same few look read
    exact ⟨consumed, List.forall_mem_cons.mpr ⟨hv, hvs⟩⟩
  have filled (t : Tree) : t.events ≠ [] := by
    obtain ⟨e, es, head, -⟩ := t.events_head
    simp [head]
  obtain ⟨unseen, kept⟩ := first.behind
  obtain ⟨⟨ts, consumes⟩, hvs'⟩ :=
    consumes_each filled step unseen (kept.trans same) (by omega) hvs elements
  refine ⟨⟨.array ts, ?_⟩, hvs'⟩
  rw [Tree.events, Tree.itemEvents_eq]
  exact first.append (consumes .endArray r' (ReadM.event_of_endArray ended))

end FillM

namespace Schema

open BindM (Takes)

variable [DecidableEq κ] {catalog : Catalog κ} {s : Schema κ}

theorem consumes_fillMemberBy {readField : FieldType κ → BindM (Value κ)} {d : Descriptor κ}
    (hf : ∀ t, Takes settings n (readField t) (Assembled catalog settings.lenient t))
    (enough : n < fuel) {r₁ : Reader} {l : Lexeme} {fields fields' : List (Value κ)}
    (unseen : r.lookahead = none) (same : r.settings = settings) (few : r.unitsLeft ≤ n)
    (look : peekLexeme r = .ok l r₁) (filled : Filled catalog settings.lenient s fields)
    (h : s.fillMemberBy fuel readField d (r₁, fields) = .ok () (r', fields')) :
    (∃ m : String × Tree, Consumes (Tree.ofMember m) r r') ∧
      Filled catalog settings.lenient s fields' := by
  rw [fillMemberBy_eq] at h
  obtain ⟨name, ⟨r₂, fields₂⟩, naming, rest⟩ := bind_eq_ok.mp h
  obtain ⟨named, rfl⟩ := FillM.read_eq_ok naming
  have unit : nextEvent r = .ok (some (.name name)) r₂ :=
    (ReadM.nextEvent_of_peeked look).trans (ReadM.event_of_nextName named)
  have first := Consumes.single unit
  obtain ⟨seen, kept⟩ := first.behind
  have fewer := first.unitsLeft_le
  have member (value : ∃ t : Tree, Consumes t.events r₂ r') :
      ∃ m : String × Tree, Consumes (Tree.ofMember m) r r' := by
    obtain ⟨t, consumes⟩ := value
    exact ⟨(name, t), .cons unit consumes⟩
  cases target : s.slotOf d name with
  | none =>
      rw [target] at rest
      obtain ⟨run, rfl⟩ := FillM.read_eq_ok rest
      obtain ⟨places, inside⟩ := ReadM.named_of_nextEvent unseen unit
      exact ⟨member (ReadM.tree_of_skipWithin seen inside (by omega) run), filled⟩
  | some slot =>
      rw [target] at rest
      obtain ⟨v, ⟨r₃, fields₃⟩, reading, updated⟩ := bind_eq_ok.mp rest
      obtain ⟨read, rfl⟩ := FillM.typed_eq_ok reading
      cases updated
      obtain ⟨value, assembled⟩ :=
        hf slot.type r₂ v _ (kept.trans same) (by omega) (BindM.within_eq_ok read)
      obtain ⟨p, -, found⟩ := Option.bind_eq_some_iff.mp target
      exact ⟨member value, .set filled found assembled⟩

theorem takes_readBy {readField : FieldType κ → BindM (Value κ)}
    (hf : ∀ m < n, ∀ t, Takes settings m (readField t) (Assembled catalog settings.lenient t))
    (enough : n < fuel) : Takes settings n (s.readBy fuel readField) fun v =>
      ∃ fields, v = .record s.key fields ∧ Filled catalog settings.lenient s fields := by
  intro r v r' same few h
  obtain ⟨fields, r₁, run, ⟨⟩⟩ := bind_eq_ok.mp h
  obtain ⟨d, ⟨r₂, fields₂⟩, resolving, object⟩ := bind_eq_ok.mp (BindM.collecting_eq_ok run)
  obtain ⟨resolved, rfl⟩ := FillM.typed_eq_ok resolving
  obtain rfl := (BindM.state_of_resolve resolved).symm
  obtain ⟨_, ⟨r₃, fields₃⟩, opening, rest⟩ := bind_eq_ok.mp object
  obtain ⟨_, ⟨r₄, fields₄⟩, members, closing⟩ := bind_eq_ok.mp rest
  obtain ⟨begun, rfl⟩ := FillM.read_eq_ok opening
  obtain ⟨ended, rfl⟩ := FillM.read_eq_ok closing
  have unit := ReadM.event_of_beginObject begun
  have less : r₃.unitsLeft < n := ReadM.ensures_nextEvent n r _ r₃ few unit rfl
  have first := Consumes.single unit
  obtain ⟨unseen, kept⟩ := first.behind
  have step (r r₁ r' : Reader) (l : Lexeme) (fields fields' : List (Value κ))
      (unseen : r.lookahead = none) (same : r.settings = settings)
      (few : r.unitsLeft ≤ r₃.unitsLeft) (look : peekLexeme r = .ok l r₁)
      (filled : Filled catalog settings.lenient s fields)
      (h : s.fillMemberBy fuel readField d (r₁, fields) = .ok () (r', fields')) :=
    consumes_fillMemberBy (hf _ less) (by omega) unseen same few look filled h
  obtain ⟨⟨ms, consumes⟩, filled⟩ := FillM.consumes_each (fun _ => List.cons_ne_nil _ _) step unseen
    (kept.trans same) (Nat.le_refl _) .initial members
  refine ⟨⟨.object ms, ?_⟩, _, rfl, filled⟩
  rw [Tree.events, Tree.memberEvents_eq]
  exact first.append (consumes .endObject r' (ReadM.event_of_endObject ended))

end Schema

namespace BindM

variable [DecidableEq κ] {catalog : Catalog κ}

theorem takes_fieldBy {readRecord : κ → BindM (Value κ)}
    (hr : ∀ k, Takes settings n (readRecord k) (Assembled catalog settings.lenient (.record k)))
    (t : FieldType κ) :
    Takes settings n (fieldBy fuel readRecord t) (Assembled catalog settings.lenient t) := by
  induction t with
  | scalar t =>
      intro r v r' same few h
      obtain ⟨s, r₁, run, ⟨⟩⟩ := bind_eq_ok.mp h
      obtain ⟨consumed, typed, text⟩ := ReadM.nextScalar_eq_ok (read_eq_ok run)
      rw [same] at text
      exact ⟨consumed, .scalar typed text⟩
  | optional t ih =>
      intro r v r' same few h
      obtain ⟨token, r₁, looking, rest⟩ := bind_eq_ok.mp h
      obtain ⟨l, r₂, look, ⟨⟩⟩ := bind_eq_ok.mp (read_eq_ok looking)
      split at rest
      · obtain ⟨_, r₃, run, ⟨⟩⟩ := bind_eq_ok.mp rest
        have unit := ReadM.event_of_nextNull (read_eq_ok run)
        refine ⟨⟨.null, ?_⟩, .absent⟩
        rw [Tree.events]
        exact (Consumes.single unit).of_peeked look
      · obtain ⟨v, r₃, run, ⟨⟩⟩ := bind_eq_ok.mp rest
        obtain ⟨consumed, assembled⟩ := Takes.of_peeked ih same few look run
        exact ⟨consumed, .present assembled⟩
  | boxed t ih =>
      intro r v r' same few h
      obtain ⟨consumed, assembled⟩ := ih r v r' same few h
      exact ⟨consumed, .boxed assembled⟩
  | list t ih =>
      intro r v r' same few h
      obtain ⟨vs, r₁, run, ⟨⟩⟩ := bind_eq_ok.mp h
      obtain ⟨reversed, r₂, run, ⟨⟩⟩ := bind_eq_ok.mp run
      have none : ∀ v ∈ ([] : List (Value κ)), Assembled catalog settings.lenient t v := nofun
      obtain ⟨consumed, items⟩ :=
        FillM.consumes_items ih same few none (collecting_eq_ok run)
      exact ⟨consumed, .list fun v hv => items v (List.mem_reverse.mp hv)⟩
  | record k => exact hr k

theorem takes_recordWithin {depth : Nat} (shallow : n < depth) (enough : n < fuel) (k : κ) :
    Takes settings n (recordWithin catalog fuel depth k)
      (Assembled catalog settings.lenient (.record k)) := by
  induction depth generalizing n k with
  | zero => exact absurd shallow (Nat.not_lt_zero n)
  | succ depth ih =>
      intro r v r' same few h
      have inner (m : Nat) (less : m < n) (t : FieldType κ) :
          Takes settings m (fieldBy fuel (recordWithin catalog fuel depth) t)
            (Assembled catalog settings.lenient t) :=
        takes_fieldBy (fun k => ih (by omega) (by omega) k) t
      obtain ⟨consumed, fields, rfl, filled⟩ := Schema.takes_readBy inner enough r v r' same few h
      exact ⟨consumed, .record filled⟩

/-- Reading by a type that succeeds has consumed a value and assembled its answer from it. -/
theorem field_eq_ok {t : FieldType κ} {v : Value κ} (h : field catalog t r = .ok v r') :
    (∃ t : Tree, Consumes t.events r r') ∧ Assembled catalog r.settings.lenient t v := by
  have deep := Nat.lt_succ_self r.unitsLeft
  exact takes_fieldBy (takes_recordWithin deep deep) t r v r' rfl (Nat.le_refl _) h

/-- If reading by a type succeeds, from whatever state, so does skipping, and it leaves the same
state; what lies between is the units of one value. -/
theorem skipValue_of_field {t : FieldType κ} {v : Value κ} (h : field catalog t r = .ok v r') :
    ReadM.skipValue r = .ok () r' ∧ ∃ tree : Tree, Consumes tree.events r r' := by
  obtain ⟨⟨tree, consumes⟩, -⟩ := field_eq_ok h
  exact ⟨ReadM.skipValue_of_consumes consumes, tree, consumes⟩

/-- A record with a member that it has no field for, and behind it the rest of an array. -/
theorem skipValue_of_field_entity :
    ∃ r r', r = Reader.new ⟨[.data 0x20 (Utf8.encode
        "\x7b\"id\":1,\"x\":[[],2],\"version\":null\x7d,3]".toList)], .endOfData⟩ ∧
      (∃ v, field Sample.catalog (.record .entity) r = .ok v r') ∧
      ReadM.skipValue r = .ok () r' := by
  have succeeds : (answer? (field Sample.catalog (.record .entity) (Reader.new ⟨[.data 0x20
      (Utf8.encode "\x7b\"id\":1,\"x\":[[],2],\"version\":null\x7d,3]".toList)],
        .endOfData⟩))).isSome = true := by
    decide +kernel
  obtain ⟨v, answer⟩ := Option.isSome_iff_exists.mp succeeds
  obtain ⟨r', run⟩ := answer?_eq_some answer
  exact ⟨_, r', rfl, ⟨v, run⟩, (skipValue_of_field run).1⟩

end BindM

namespace Document

variable [DecidableEq κ] {catalog : Catalog κ} {t : FieldType κ} {v : Value κ}

theorem ok_of_toOption {ε α : Type} {result : Except ε α} {a : α} (h : result.toOption = some a) :
    result = .ok a := by
  cases result with
  | ok b =>
      cases h
      rfl
  | error e => cases h

theorem parse_eq_ok {source : Source} {settings : ReaderSettings}
    (h : parse catalog t source settings = .ok v) :
    ∃ r r', BindM.field catalog t (Reader.new source settings) = .ok v r ∧
      ReadM.finish r = .ok () r' := by
  unfold parse outcome at h
  split at h
  · rename_i run
    cases h
    obtain ⟨_, r, read, rest⟩ := bind_eq_ok.mp run
    obtain ⟨_, _, finished, ⟨⟩⟩ := bind_eq_ok.mp rest
    exact ⟨r, _, read, BindM.read_eq_ok finished⟩
  · cases h

end Document

end TypedJson
