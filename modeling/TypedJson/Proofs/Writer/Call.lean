import TypedJson.Proofs.Grammar.Completion
import TypedJson.Proofs.Writer.Text

set_option autoImplicit false
set_option relaxedAutoImplicit false

namespace TypedJson

open Operation
open Utf8 (encode)

/-- The writer itself refuses the operation; the sink has no part in it. -/
def WriteError.IsRefusal : WriteError → Prop
  | .unavailable _ => False
  | _ => True

namespace WriteM

variable {w : Writer}

theorem checkOpen_open (h : w.isClosed = false) : checkOpen w = .ok () w := by
  unfold checkOpen
  rw [get_bind, if_neg (by simp [h])]
  rfl

theorem checkOpen_closed (h : w.isClosed = true) : checkOpen w = .error .closed w := by
  unfold checkOpen
  rw [get_bind, if_pos h]
  rfl

theorem beginValue_misplaced (operation : WriteOperation) (open_ : w.isClosed = false)
    (h : ¬ w.TakesValue) :
    beginValue operation w = .error (.misplaced operation w.state) w := by
  have misfit : (w.expectsName || !w.isEmpty && w.containers.isEmpty) = true := by
    by_cases named : w.expectsName = true
    · simp [named]
    have unnamed : w.expectsName = false := by simpa using named
    by_cases empty : w.isEmpty = true
    · exact absurd ⟨open_, unnamed, .inl empty⟩ h
    by_cases outside : w.containers = []
    · simp [empty, outside]
    · exact absurd ⟨open_, unnamed, .inr outside⟩ h
  unfold beginValue
  rw [bind_of_ok (checkOpen_open open_), get_bind]
  dsimp only
  rw [if_pos misfit]
  rfl

end WriteM

namespace Writer.Call

variable {w : Writer} {c : Call}

/-- The number of the call, if it has one, is not refused. -/
def IsAdmissible (lenient : Bool) (c : Call) : Prop :=
  c.Fits (fun _ => True) { lenient }

instance (lenient : Bool) : DecidablePred (IsAdmissible lenient)
  | double _ => inferInstanceAs (Decidable ((_ ∨ _) ∧ True))
  | literal _ => inferInstanceAs (Decidable (_ ∧ True))
  | beginObject | endObject | beginArray | endArray | name _ | string _ | boolean _ | integer _
  | null => .isTrue trivial

/-- The writer expects a unit like that of the call. -/
def Placed (w : Writer) : Call → Prop
  | endObject => w.isClosed = false ∧ w.inObject = true ∧ w.expectsName = true
  | endArray => w.isClosed = false ∧ w.inArray = true
  | name _ => w.isClosed = false ∧ w.expectsName = true
  | _ => w.TakesValue

instance (w : Writer) : DecidablePred (Placed w)
  | endObject => inferInstanceAs (Decidable (_ ∧ _ ∧ _))
  | endArray | name _ => inferInstanceAs (Decidable (_ ∧ _))
  | beginObject | beginArray | string _ | boolean _ | integer _ | double _ | literal _ | null =>
      inferInstanceAs (Decidable w.TakesValue)

/-- What the call puts out at its position. -/
def text (w : Writer) : Call → List Char
  | beginObject => w.gap ++ ['\x7b']
  | endObject => w.closing ++ ['\x7d']
  | beginArray => w.gap ++ ['[']
  | endArray => w.closing ++ [']']
  | name s =>
      w.separator ++
        (Escape.quoted w.settings.escape s.toList ++ WriteM.colon w.settings.pretty)
  | string s => w.gap ++ Escape.quoted w.settings.escape s.toList
  | boolean b => w.gap ++ (if b then "true" else "false").toList
  | integer n => w.gap ++ Number.integerText n
  | double x => w.gap ++ x.numeral
  | literal s => w.gap ++ s.toList
  | null => w.gap ++ "null".toList

/-- The position behind the call. -/
def next (w : Writer) : Call → Writer
  | beginObject => w.begun.entered .object
  | beginArray => w.begun.entered .array
  | endObject | endArray => w.left
  | name _ => w.named
  | _ => w.begun

theorem Placed.isOpen (h : c.Placed w) : w.isClosed = false := by
  cases c with
  | endObject => exact h.1
  | endArray => exact h.1
  | name s => exact h.1
  | _ => exact TakesValue.isOpen h

/-- A call that fits does with the outlet what putting its text does. -/
theorem puts_run (placed : c.Placed w) (admissible : c.IsAdmissible w.settings.lenient) :
    Puts c.run w (c.text w) (c.next w) := by
  cases c with
  | beginObject => exact WriteM.puts_beginObject placed
  | endObject => exact WriteM.puts_endObject ⟨placed.1, placed.2.2, placed.2.1⟩
  | beginArray => exact WriteM.puts_beginArray placed
  | endArray => exact WriteM.puts_endArray placed.1 placed.2
  | name s => exact WriteM.puts_name placed.1 placed.2 s
  | string s => exact WriteM.puts_string placed s
  | boolean b => exact WriteM.puts_boolean placed b
  | integer n => exact WriteM.puts_integer placed n
  | double x => exact WriteM.puts_double placed admissible.1
  | literal s => exact WriteM.puts_literal placed admissible.1
  | null => exact WriteM.puts_null placed

theorem run_closed (c : Call) (h : w.isClosed = true) : c.run w = .error .closed w := by
  have check : WriteM.checkOpen w = .error .closed w := WriteM.checkOpen_closed h
  have value (operation : WriteOperation) :
      WriteM.beginValue operation w = .error .closed w := bind_of_error check
  cases c with
  | endObject | endArray | name | double | literal => exact bind_of_error check
  | _ => exact bind_of_error (value _)

/-- A call that does not fit is refused. -/
theorem run_refused (h : ¬ (c.Placed w ∧ c.IsAdmissible w.settings.lenient)) :
    ∃ e, c.run w = .error e w ∧ e.IsRefusal := by
  by_cases closed : w.isClosed = true
  · exact ⟨.closed, run_closed c closed, trivial⟩
  have open_ : w.isClosed = false := by simpa using closed
  have check : WriteM.checkOpen w = .ok () w := WriteM.checkOpen_open open_
  have value (operation : WriteOperation) (misplaced : ¬ w.TakesValue) :
      WriteM.beginValue operation w = .error (.misplaced operation w.state) w :=
    WriteM.beginValue_misplaced operation open_ misplaced
  cases c with
  | endObject =>
      have misfit : (!w.inObject || !w.expectsName) = true := by
        by_cases inside : w.inObject = true
        · have unnamed : w.expectsName = false := by
            simpa [Placed, IsAdmissible, Fits, open_, inside] using h
          simp [unnamed]
        · simp [inside]
      refine ⟨.misplaced .endObject w.state, (bind_of_ok check).trans ?_, trivial⟩
      rw [get_bind]
      dsimp only
      rw [if_pos misfit]
      rfl
  | endArray =>
      have misfit : (!w.inArray) = true := by
        simpa [Placed, IsAdmissible, Fits, open_] using h
      refine ⟨.misplaced .endArray w.state, (bind_of_ok check).trans ?_, trivial⟩
      rw [get_bind, if_pos misfit]
      rfl
  | name s =>
      have misfit : (!w.expectsName) = true := by
        simpa [Placed, IsAdmissible, Fits, open_] using h
      refine ⟨.misplaced .name w.state, (bind_of_ok check).trans ?_, trivial⟩
      rw [get_bind, if_pos misfit]
      rfl
  | double x =>
      by_cases fits : x.isFinite = true ∨ w.settings.lenient = true
      · have misplaced : ¬ w.TakesValue := fun placed => h ⟨placed, fits, trivial⟩
        refine ⟨.misplaced .number w.state, (bind_of_ok check).trans ?_, trivial⟩
        rw [get_bind, if_neg (by rcases fits with finite | lenient <;> simp [*])]
        exact bind_of_error (value _ misplaced)
      · refine ⟨.nonFiniteNumber x, (bind_of_ok check).trans ?_, trivial⟩
        rw [get_bind, if_pos (by simpa using fits)]
        rfl
  | literal s =>
      by_cases fits : Number.isLiteral s.toList = true
      · have misplaced : ¬ w.TakesValue := fun placed => h ⟨placed, fits, trivial⟩
        refine ⟨.misplaced .number w.state, (bind_of_ok check).trans ?_, trivial⟩
        rw [if_neg (by simp [fits])]
        exact bind_of_error (value _ misplaced)
      · refine ⟨.invalidNumber s, (bind_of_ok check).trans ?_, trivial⟩
        rw [if_pos (by simpa using fits)]
        rfl
  | beginObject | beginArray | string | boolean | integer | null =>
      have misplaced : ¬ w.TakesValue := fun placed => h ⟨placed, trivial⟩
      exact ⟨_, bind_of_error (value _ misplaced), trivial⟩

end Writer.Call

namespace Writer

variable {w : Writer} {evs : List Event}

/-- A member name is expected in objects only. -/
def Sound (w : Writer) : Prop :=
  w.expectsName = true → w.inObject = true

theorem Sound.unnamed (sound : w.Sound) (outside : w.inObject = false) :
    w.expectsName = false := by
  by_cases named : w.expectsName = true
  · exact absurd (sound named) (by simp [outside])
  · simpa using named

/-- The units complete the document from the position of the writer. -/
def Completes (w : Writer) (evs : List Event) : Prop :=
  match w.state with
  | .emptyDocument | .expectingMemberValue => Completion.Value w.containers evs
  | _ => Completion.Rest w.containers evs

theorem exists_completes (w : Writer) : ∃ evs, w.Completes evs := by
  unfold Completes
  split
  · exact Completion.exists_value w.containers
  · exact Completion.exists_value w.containers
  · exact Completion.exists_rest w.containers

theorem completes_settled (begun : w.isEmpty = false) (name : w.expectsName = w.inObject) :
    w.Completes evs ↔ Completion.Rest w.containers evs := by
  unfold Completes state
  cases containers : w.containers with
  | nil => simp [begun]
  | cons bracket brackets =>
      cases bracket with
      | array => rfl
      | object =>
          have named : w.expectsName = true := by
            rw [name, inObject, containers]
            rfl
          simp [named]

theorem completes_begun : w.begun.Completes evs ↔ Completion.Rest w.containers evs := by
  have name : w.begun.expectsName = w.begun.inObject := by
    rw [begun_expectsName, inObject, inObject, begun_containers]
  rw [completes_settled rfl name, begun_containers]

theorem completes_left : w.left.Completes evs ↔ Completion.Rest w.containers.tail evs :=
  completes_settled rfl rfl

theorem completes_entered (bracket : Bracket) :
    (w.entered bracket).Completes evs ↔ Completion.Rest (bracket :: w.containers) evs := by
  cases bracket <;> rfl

theorem completes_named (h : w.inObject = true) :
    w.named.Completes evs ↔ Completion.Value w.containers evs := by
  have inside : w.containers.head? = some .object := of_decide_eq_true h
  obtain ⟨brackets, containers⟩ := List.head?_eq_some_iff.mp inside
  have same : w.named.containers = w.containers := w.separated_containers
  unfold Completes state
  rw [same, containers]
  rfl

theorem completes_value_cons (open_ : w.isClosed = false) (sound : w.Sound) {e : Event}
    (noEnd : e.closes = false) (noName : ∀ text, e ≠ .name text) :
    w.Completes (e :: evs) ↔ w.TakesValue ∧ Completion.Begins w.containers e evs := by
  unfold Completes state
  cases containers : w.containers with
  | nil =>
      have unnamed : w.expectsName = false := sound.unnamed (by simp [inObject, containers])
      by_cases empty : w.isEmpty = true
      · have takes : w.TakesValue := ⟨open_, unnamed, .inl empty⟩
        rw [if_pos empty]
        exact Completion.value_cons.trans (iff_and_self.mpr fun _ => takes)
      · have full : ¬ w.TakesValue := by
          rintro ⟨-, -, inside⟩
          exact inside.elim empty fun inside => inside containers
        rw [if_neg empty]
        exact iff_of_false (by simp [Completion.Rest]) fun h => full h.1
  | cons bracket brackets =>
      have inside : w.isEmpty = true ∨ w.containers ≠ [] := .inr (by simp [containers])
      cases bracket with
      | array =>
          have unnamed : w.expectsName = false := sound.unnamed (by simp [inObject, containers])
          have other : e ≠ .endArray := by
            rintro rfl
            cases noEnd
          have takes : w.TakesValue := ⟨open_, unnamed, inside⟩
          change Completion.Rest (.array :: brackets) (e :: evs) ↔ _
          rw [Completion.rest_array_cons, or_iff_right fun h => other h.1, Completion.value_cons]
          exact iff_and_self.mpr fun _ => takes
      | object =>
          by_cases named : w.expectsName = true
          · have other : e ≠ .endObject := by
              rintro rfl
              cases noEnd
            simp only [named, if_true]
            rw [Completion.rest_object_cons]
            refine iff_of_false ?_ fun h => by simpa [named] using h.1.noName
            rintro (⟨ending, -⟩ | ⟨text, name, -⟩)
            · exact other ending
            · exact noName text name
          · have takes : w.TakesValue := ⟨open_, by simpa using named, inside⟩
            simp only [named]
            exact Completion.value_cons.trans (iff_and_self.mpr fun _ => takes)

theorem completes_endArray_cons (open_ : w.isClosed = false) :
    w.Completes (.endArray :: evs) ↔
      (w.isClosed = false ∧ w.inArray = true) ∧ Completion.Rest w.containers.tail evs := by
  unfold Completes state inArray
  cases containers : w.containers with
  | nil => cases w.isEmpty <;> simp [Completion.Rest, Completion.value_cons, Completion.Begins]
  | cons bracket brackets =>
      cases bracket with
      | array =>
          simp [Completion.rest_array_cons, Completion.value_cons, Completion.Begins, open_]
      | object =>
          cases w.expectsName <;>
            simp [Completion.rest_object_cons, Completion.value_cons, Completion.Begins]

theorem completes_endObject_cons (open_ : w.isClosed = false) :
    w.Completes (.endObject :: evs) ↔
      (w.isClosed = false ∧ w.inObject = true ∧ w.expectsName = true) ∧
        Completion.Rest w.containers.tail evs := by
  unfold Completes state inObject
  cases containers : w.containers with
  | nil => cases w.isEmpty <;> simp [Completion.Rest, Completion.value_cons, Completion.Begins]
  | cons bracket brackets =>
      cases bracket with
      | array => simp [Completion.rest_array_cons, Completion.value_cons, Completion.Begins]
      | object =>
          cases w.expectsName <;>
            simp [Completion.rest_object_cons, Completion.value_cons, Completion.Begins, open_]

theorem completes_name_cons (open_ : w.isClosed = false) (sound : w.Sound) (text : String) :
    w.Completes (.name text :: evs) ↔
      (w.isClosed = false ∧ w.expectsName = true) ∧ Completion.Value w.containers evs := by
  unfold Completes state
  cases containers : w.containers with
  | nil =>
      have unnamed : w.expectsName = false := sound.unnamed (by simp [inObject, containers])
      cases w.isEmpty <;>
        simp [Completion.Rest, Completion.value_cons, Completion.Begins, unnamed]
  | cons bracket brackets =>
      cases bracket with
      | array =>
          have unnamed : w.expectsName = false := sound.unnamed (by simp [inObject, containers])
          simp [Completion.rest_array_cons, Completion.value_cons, Completion.Begins, unnamed]
      | object =>
          cases w.expectsName <;>
            simp [Completion.rest_object_cons, Completion.value_cons, Completion.Begins, open_]

/-- A call fits if and only if what completes the document may begin with its unit, and then the
position behind the call is the one behind the unit. -/
theorem completes_cons (open_ : w.isClosed = false) (sound : w.Sound) (c : Call) :
    w.Completes (c.event :: evs) ↔ c.Placed w ∧ (c.next w).Completes evs := by
  cases c with
  | endObject => exact (completes_endObject_cons open_).trans (and_congr_right' completes_left.symm)
  | endArray => exact (completes_endArray_cons open_).trans (and_congr_right' completes_left.symm)
  | name s =>
      refine (completes_name_cons open_ sound s).trans (and_congr_right fun placed => ?_)
      exact (completes_named (sound placed.2)).symm
  | beginObject | beginArray =>
      refine (completes_value_cons open_ sound rfl fun _ name => by cases name).trans (and_congr_right' ?_)
      refine Iff.trans ?_ (completes_entered _).symm
      rw [begun_containers]
      rfl
  | string | boolean | integer | double | literal | null =>
      refine (completes_value_cons open_ sound rfl fun _ name => by cases name).trans (and_congr_right' ?_)
      exact completes_begun.symm

theorem completes_nil :
    w.Completes [] ↔ w.containers = [] ∧ w.isEmpty = false := by
  unfold Completes state
  cases containers : w.containers with
  | nil => cases w.isEmpty <;> simp [Completion.not_value_nil, Completion.rest_nil_iff]
  | cons bracket brackets =>
      cases bracket with
      | array => simp [Completion.rest_nil_iff]
      | object => cases w.expectsName <;> simp [Completion.not_value_nil, Completion.rest_nil_iff]

theorem completes_new (sink : Sink) (settings : WriterSettings) :
    (new sink settings).Completes evs ↔ ∃ t : Tree, t.events = evs :=
  Completion.value_iff

end Writer

end TypedJson
