import TypedJson.Proofs.Grammar.Tree
import TypedJson.Writer.Basic

set_option autoImplicit false
set_option relaxedAutoImplicit false

namespace TypedJson.Completion

open TypedJson.Tree (itemEvents memberEvents)

/-- The units end what is unfinished: after further items or members, each container. -/
def Rest : List Bracket → List Event → Prop
  | [], evs => evs = []
  | .array :: brackets, evs => ∃ items later, evs = itemEvents items ++ later ∧ Rest brackets later
  | .object :: brackets, evs =>
      ∃ members later, evs = memberEvents members ++ later ∧ Rest brackets later

def Value (brackets : List Bracket) (evs : List Event) : Prop :=
  ∃ (t : Tree) (later : List Event), evs = t.events ++ later ∧ Rest brackets later

variable {brackets : List Bracket} {e : Event} {evs : List Event}

theorem not_value_nil : ¬ Value brackets [] := by
  rintro ⟨t, later, h, -⟩
  obtain ⟨first, tail, units, -⟩ := t.events_head
  rw [units] at h
  cases h

theorem rest_nil_iff : Rest brackets [] ↔ brackets = [] := by
  constructor
  · intro h
    match brackets, h with
    | [], _ => rfl
    | .array :: _, ⟨[], _, units, _⟩ => simp [itemEvents] at units
    | .array :: _, ⟨item :: _, _, units, _⟩ =>
        obtain ⟨first, tail, itemUnits, -⟩ := item.events_head
        simp [itemEvents, itemUnits] at units
    | .object :: _, ⟨[], _, units, _⟩ => simp [memberEvents] at units
    | .object :: _, ⟨_ :: _, _, units, _⟩ => simp [memberEvents] at units
  · rintro rfl
    rfl

def Begins (brackets : List Bracket) (e : Event) (evs : List Event) : Prop :=
  match e with
  | .beginObject => Rest (.object :: brackets) evs
  | .beginArray => Rest (.array :: brackets) evs
  | .string _ | .number _ | .boolean _ | .null => Rest brackets evs
  | .endObject | .endArray | .name _ => False

theorem value_cons : Value brackets (e :: evs) ↔ Begins brackets e evs := by
  constructor
  · rintro ⟨t, later, h, rest⟩
    cases t with
    | object members =>
        obtain ⟨rfl, rfl⟩ := List.cons.inj h
        exact ⟨members, later, rfl, rest⟩
    | array items =>
        obtain ⟨rfl, rfl⟩ := List.cons.inj h
        exact ⟨items, later, rfl, rest⟩
    | string text | number literal | boolean b | null =>
        obtain ⟨rfl, rfl⟩ := List.cons.inj h
        exact rest
  · intro h
    cases e with
    | beginObject =>
        obtain ⟨members, later, rfl, rest⟩ := h
        exact ⟨.object members, later, by rw [Tree.events]; rfl, rest⟩
    | beginArray =>
        obtain ⟨items, later, rfl, rest⟩ := h
        exact ⟨.array items, later, by rw [Tree.events]; rfl, rest⟩
    | string text => exact ⟨.string text, evs, by rw [Tree.events]; rfl, h⟩
    | number literal => exact ⟨.number literal, evs, by rw [Tree.events]; rfl, h⟩
    | boolean b => exact ⟨.boolean b, evs, by rw [Tree.events]; rfl, h⟩
    | null => exact ⟨.null, evs, by rw [Tree.events]; rfl, h⟩
    | endObject | endArray | name text => exact h.elim

theorem rest_array_cons : Rest (.array :: brackets) (e :: evs) ↔
    (e = .endArray ∧ Rest brackets evs) ∨ Value (.array :: brackets) (e :: evs) := by
  constructor
  · rintro ⟨items, later, h, rest⟩
    cases items with
    | nil =>
        obtain ⟨rfl, rfl⟩ := List.cons.inj h
        exact .inl ⟨rfl, rest⟩
    | cons item items =>
        rw [itemEvents, List.append_assoc] at h
        exact .inr ⟨item, _, h, items, later, rfl, rest⟩
  · rintro (⟨rfl, rest⟩ | ⟨item, _, h, items, later, rfl, rest⟩)
    · exact ⟨[], evs, by rw [itemEvents]; rfl, rest⟩
    · exact ⟨item :: items, later, by rw [h, itemEvents, List.append_assoc], rest⟩

theorem rest_object_cons : Rest (.object :: brackets) (e :: evs) ↔
    (e = .endObject ∧ Rest brackets evs) ∨
      ∃ text, e = .name text ∧ Value (.object :: brackets) evs := by
  constructor
  · rintro ⟨members, later, h, rest⟩
    cases members with
    | nil =>
        obtain ⟨rfl, rfl⟩ := List.cons.inj h
        exact .inl ⟨rfl, rest⟩
    | cons member members =>
        obtain ⟨text, value⟩ := member
        rw [memberEvents, List.cons_append, List.append_assoc] at h
        obtain ⟨rfl, rfl⟩ := List.cons.inj h
        exact .inr ⟨text, rfl, value, _, rfl, members, later, rfl, rest⟩
  · rintro (⟨rfl, rest⟩ | ⟨text, rfl, value, _, rfl, members, later, rfl, rest⟩)
    · exact ⟨[], evs, by rw [memberEvents]; rfl, rest⟩
    · exact ⟨(text, value) :: members, later,
        by rw [memberEvents, List.cons_append, List.append_assoc], rest⟩

/-- A document can be completed from every position. -/
theorem exists_rest (brackets : List Bracket) : ∃ evs, Rest brackets evs := by
  induction brackets with
  | nil => exact ⟨[], rfl⟩
  | cons bracket brackets ih =>
      obtain ⟨evs, rest⟩ := ih
      cases bracket with
      | array => exact ⟨_, [], evs, rfl, rest⟩
      | object => exact ⟨_, [], evs, rfl, rest⟩

theorem exists_value (brackets : List Bracket) : ∃ evs, Value brackets evs := by
  obtain ⟨evs, rest⟩ := exists_rest brackets
  exact ⟨_, .null, evs, rfl, rest⟩

theorem value_iff : Value [] evs ↔ ∃ t : Tree, t.events = evs := by
  constructor
  · rintro ⟨t, _, rfl, rfl⟩
    exact ⟨t, (List.append_nil _).symm⟩
  · rintro ⟨t, rfl⟩
    exact ⟨t, [], (List.append_nil _).symm, rfl⟩

end TypedJson.Completion
