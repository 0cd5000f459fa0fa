import TypedJson.Event

set_option autoImplicit false
set_option relaxedAutoImplicit false

namespace TypedJson

/-- A JSON value. The members of an object keep their order, and a name may occur twice; a number is
its literal. -/
inductive Tree where
  | object (members : List (String × Tree))
  | array (items : List Tree)
  | string (text : String)
  | number (literal : String)
  | boolean (value : Bool)
  | null

def Event.closes : Event → Bool
  | .endObject => true
  | .endArray => true
  | _ => false

namespace Tree

mutual

/-- The units of a value, in order of appearance. -/
def events : Tree → List Event
  | .object members => .beginObject :: memberEvents members
  | .array items => .beginArray :: itemEvents items
  | .string text => [.string text]
  | .number literal => [.number literal]
  | .boolean value => [.boolean value]
  | .null => [.null]

def itemEvents : List Tree → List Event
  | [] => [.endArray]
  | item :: items => item.events ++ itemEvents items

def memberEvents : List (String × Tree) → List Event
  | [] => [.endObject]
  | (name, value) :: members => .name name :: (value.events ++ memberEvents members)

end

mutual

/-- How deep arrays and objects nest. -/
def depth : Tree → Nat
  | .object members => memberDepth members + 1
  | .array items => itemDepth items + 1
  | _ => 0

def itemDepth : List Tree → Nat
  | [] => 0
  | item :: items => max item.depth (itemDepth items)

def memberDepth : List (String × Tree) → Nat
  | [] => 0
  | (_, value) :: members => max value.depth (memberDepth members)

end

theorem itemEvents_eq (items : List Tree) :
    itemEvents items = items.flatMap events ++ [.endArray] := by
  induction items with
  | nil => rfl
  | cons item items ih => rw [itemEvents, ih, List.flatMap_cons, List.append_assoc]

def ofMember (member : String × Tree) : List Event :=
  .name member.1 :: member.2.events

theorem memberEvents_eq (members : List (String × Tree)) :
    memberEvents members = members.flatMap ofMember ++ [.endObject] := by
  induction members with
  | nil => rfl
  | cons member members ih =>
      rw [memberEvents, ih, List.flatMap_cons, ofMember]
      simp only [List.cons_append, List.append_assoc]

/-- What holds of a tree whenever it holds of the values within it holds of all trees. -/
theorem induction {motive : Tree → Prop}
    (object : ∀ members : List (String × Tree), (∀ m ∈ members, motive m.2) →
      motive (.object members))
    (array : ∀ items : List Tree, (∀ item ∈ items, motive item) → motive (.array items))
    (string : ∀ text, motive (.string text)) (number : ∀ literal, motive (.number literal))
    (boolean : ∀ value, motive (.boolean value)) (null : motive .null) (t : Tree) : motive t := by
  refine @Tree.rec motive (fun members => ∀ m ∈ members, motive m.2)
    (fun items => ∀ item ∈ items, motive item) (fun m => motive m.2) object array string number
    boolean null nofun ?_ nofun ?_ ?_ t
  · intro member members value values
    exact List.forall_mem_cons.mpr ⟨value, values⟩
  · intro item items value values
    exact List.forall_mem_cons.mpr ⟨value, values⟩
  · intro name value h
    exact h

theorem events_head (t : Tree) :
    ∃ e evs, t.events = e :: evs ∧ e.closes = false ∧ (e = .null ↔ t = .null) := by
  cases t with
  | object members => exact ⟨_, _, by rw [events], rfl, by simp⟩
  | array items => exact ⟨_, _, by rw [events], rfl, by simp⟩
  | string text => exact ⟨_, _, by rw [events], rfl, by simp⟩
  | number literal => exact ⟨_, _, by rw [events], rfl, by simp⟩
  | boolean b => exact ⟨_, _, by rw [events], rfl, by simp⟩
  | null => exact ⟨_, _, by rw [events], rfl, by simp⟩

theorem events_opens (t : Tree) : ∃ e evs, t.events = e :: evs ∧ e.closes = false := by
  obtain ⟨e, evs, head, opens, -⟩ := t.events_head
  exact ⟨e, evs, head, opens⟩

theorem ofMember_opens (m : String × Tree) :
    ∃ e evs, ofMember m = e :: evs ∧ e.closes = false :=
  ⟨_, _, rfl, rfl⟩

end Tree

end TypedJson
