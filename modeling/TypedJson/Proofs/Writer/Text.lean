import TypedJson.Proofs.Grammar.Tree
import TypedJson.Proofs.Grammar.Text
import TypedJson.Proofs.Text.Escape
import TypedJson.Proofs.Writer.Layout
import TypedJson.Reader.Location

set_option autoImplicit false
set_option relaxedAutoImplicit false

namespace TypedJson

open Grammar (Blank Elements Tail Member)
open TypedJson.Tree (itemEvents memberEvents)

namespace Writer

/-- The calls that write one unit of a document. -/
inductive Call where
  | beginObject
  | endObject
  | beginArray
  | endArray
  | name (s : String)
  | string (s : String)
  | boolean (b : Bool)
  | integer (n : Int)
  | double (x : Number.Double)
  | literal (s : String)
  | null
  deriving DecidableEq, Repr

namespace Call

def run : Call → WriteM Unit
  | beginObject => WriteM.beginObject
  | endObject => WriteM.endObject
  | beginArray => WriteM.beginArray
  | endArray => WriteM.endArray
  | name s => WriteM.name s
  | string s => WriteM.string s
  | boolean b => WriteM.boolean b
  | integer n => WriteM.integer n
  | double x => WriteM.double x
  | literal s => WriteM.literal s
  | null => WriteM.null

def event : Call → Event
  | beginObject => .beginObject
  | endObject => .endObject
  | beginArray => .beginArray
  | endArray => .endArray
  | name s => .name s
  | string s => .string s
  | boolean b => .boolean b
  | integer n => .number (intText n)
  | double x => .number (String.ofList x.numeral)
  | literal s => .number s
  | null => .null

/-- The writer does not refuse the number of a call, and its text is among those of `N`. -/
def Fits (N : List Char → Prop) (settings : WriterSettings) : Call → Prop
  | integer n => N (Number.integerText n)
  | double x => (x.isFinite = true ∨ settings.lenient = true) ∧ N x.numeral
  | literal s => Number.isLiteral s.toList = true ∧ N s.toList
  | _ => True

end Call

/-! The separators are blank space but for a comma between elements. -/

theorem blank_indentation (level : Nat) : Blank (WriteM.indentation level) :=
  fun _ hc => .inl (List.eq_of_mem_replicate hc)

theorem blank_line (level : Nat) : Blank ('\n' :: WriteM.indentation level) :=
  List.forall_mem_cons.mpr ⟨by simp, blank_indentation level⟩

variable {w : Writer}

theorem separator_first (h : w.isEmpty = true) : Blank w.separator := by
  unfold separator
  rw [if_pos h]
  split
  · exact blank_line _
  · exact nofun

theorem separator_next (h : w.isEmpty = false) : ∃ u, w.separator = ',' :: u ∧ Blank u := by
  unfold separator
  rw [if_neg (by simp [h])]
  split
  · exact ⟨_, rfl, blank_line _⟩
  · exact ⟨[], rfl, nofun⟩

theorem blank_closing : Blank w.closing := by
  unfold closing
  split
  · exact blank_line _
  · exact nofun

theorem blank_colon (pretty : Bool) : ∃ u, WriteM.colon pretty = ':' :: u ∧ Blank u := by
  cases pretty with
  | false => exact ⟨[], rfl, nofun⟩
  | true => exact ⟨[' '], rfl, by simp [Blank]⟩

theorem gap_inArray (h : w.inArray = true) : w.gap = w.separator :=
  if_pos h

theorem named_inArray (h : w.inObject = true) : ¬ w.named.inArray = true := by
  simp only [inObject, inArray, decide_eq_true_eq] at h ⊢
  rw [named, separated_containers, h]
  decide

theorem gap_named (h : w.inObject = true) : w.named.gap = [] :=
  if_neg (named_inArray h)

/-! How the states of a value and of its container meet. -/

theorem begun_inArray (h : w.inArray = true) :
    w.begun = { w.separated with isEmpty := false, expectsName := w.inObject } := by
  rw [begun, if_pos h]

theorem begun_named (h : w.inObject = true) :
    w.named.begun = { w.separated with isEmpty := false, expectsName := true } := by
  have inside : w.named.inObject = true := by
    rw [inObject, named, separated_containers]
    exact h
  rw [begun, if_neg (named_inArray h), inside]
  rfl

theorem left_separated (expectsName : Bool) :
    ({ w.separated with isEmpty := false, expectsName } : Writer).left = w.left := by
  have level : (if !false && w.settings.pretty then w.separated.level - 1 else w.separated.level) =
      if !w.isEmpty && w.settings.pretty then w.level - 1 else w.level := by
    rw [separated_level]
    cases w.isEmpty <;> cases w.settings.pretty <;> rfl
  unfold left
  simp only [separated_containers, separated_settings, separated_outlet, separated_isClosed, level]
  rfl

theorem left_entered (b : Bracket) : (w.begun.entered b).left = w.begun := by
  have name : w.begun.inObject = w.begun.expectsName := by
    rw [inObject, begun_containers]
    rfl
  change ({ w.begun with expectsName := w.begun.inObject } : Writer) = w.begun
  rw [name]

theorem takesValue_begun (open_ : w.isClosed = false) (h : w.inArray = true) :
    w.begun.TakesValue := by
  have head : w.containers.head? = some .array := of_decide_eq_true h
  refine ⟨w.begun_isClosed.trans open_, ?_, .inr ?_⟩
  · rw [begun_expectsName, inObject, head]
    rfl
  · intro none
    rw [begun_containers] at none
    rw [none] at head
    cases head

theorem takesValue_named (h : w.TakesName) : w.named.TakesValue := by
  have head : w.containers.head? = some .object := of_decide_eq_true h.inside
  refine ⟨w.separated_isClosed.trans h.isOpen, rfl, .inr ?_⟩
  intro none
  rw [named, separated_containers] at none
  rw [none] at head
  cases head

theorem takesName_begun (h : w.TakesName) : w.named.begun.TakesName := by
  rw [begun_named h.inside]
  refine ⟨w.separated_isClosed.trans h.isOpen, rfl, ?_⟩
  have inside := h.inside
  simp only [inObject, separated_containers] at inside ⊢
  exact inside

theorem inArray_begun (h : w.inArray = true) : w.begun.inArray = true := by
  rw [inArray, begun_containers]
  exact h

theorem takesValue_entered (h : w.TakesValue) : (w.begun.entered .array).TakesValue :=
  ⟨w.begun_isClosed.trans h.isOpen, rfl, .inl rfl⟩

theorem takesName_entered (h : w.TakesValue) : (w.begun.entered .object).TakesName :=
  ⟨w.begun_isClosed.trans h.isOpen, rfl, rfl⟩

/-! The calls for a value, for the rest of an array, and for the rest of an object. -/

section

variable {N : List Char → Prop}

/-- Some calls lay out a text one after the other. -/
abbrev LaysAll (calls : List Call) (w : Writer) (cs : List Char) (w' : Writer) : Prop :=
  Lays (calls.forM Call.run) w cs w'

theorem laysAll_one {c : Call} {cs : List Char} {w' : Writer} (h : Lays c.run w cs w') :
    LaysAll [c] w cs w' := by
  have whole := h.bind (Lays.pure (ε := WriteError))
  rw [List.append_nil] at whole
  exact whole

theorem laysAll_cons {c : Call} {calls : List Call} {cs ds : List Char} {w' w'' : Writer}
    (h : Lays c.run w cs w') (hs : LaysAll calls w' ds w'') :
    LaysAll (c :: calls) w (cs ++ ds) w'' :=
  h.bind hs

theorem laysAll_append {calls calls' : List Call} {cs ds : List Char} {w' w'' : Writer}
    (h : LaysAll calls w cs w') (hs : LaysAll calls' w' ds w'') :
    LaysAll (calls ++ calls') w (cs ++ ds) w'' := by
  have split : (calls ++ calls').forM Call.run = (do calls.forM Call.run; calls'.forM Call.run) :=
    List.forM_append
  rw [LaysAll, split]
  exact h.bind hs

theorem lays_number {c : Call} {literal : String} (hc : c.event = .number literal)
    (fits : c.Fits N w.settings) (hw : w.TakesValue) :
    Lays c.run w (w.gap ++ literal.toList) w.begun ∧ N literal.toList := by
  cases c with
  | integer n =>
      cases hc
      rw [intText, String.toList_ofList]
      exact ⟨(WriteM.puts_integer hw n).lays, fits⟩
  | double x =>
      cases hc
      rw [String.toList_ofList]
      exact ⟨(WriteM.puts_double hw fits.1).lays, fits.2⟩
  | literal s =>
      cases hc
      exact ⟨(WriteM.puts_literal hw fits.1).lays, fits.2⟩
  | _ => cases hc

end

private theorem opening_call {calls : List Call} {e : Event} {evs : List Event}
    (h : calls.map Call.event = e :: evs) (he : e = .beginObject ∨ e = .beginArray) :
    ∃ rest, calls = (if e = .beginObject then Call.beginObject else .beginArray) :: rest ∧
      rest.map Call.event = evs := by
  obtain ⟨c, rest, rfl, hc, hr⟩ := List.map_eq_cons_iff.mp h
  refine ⟨rest, ?_, hr⟩
  rcases he with rfl | rfl
  · cases c <;> first | rfl | cases hc
  · cases c <;> first | rfl | cases hc

variable {N : List Char → Prop} {settings : WriterSettings}

mutual

/-- The calls for the units of a value lay out a text of the value. -/
theorem lays_value {w : Writer} (t : Tree) {calls : List Call}
    (h : calls.map Call.event = t.events) (fits : ∀ c ∈ calls, c.Fits N settings)
    (hs : w.settings = settings) (hw : w.TakesValue) :
    ∃ cs, LaysAll calls w (w.gap ++ cs) w.begun ∧ Grammar.Value N t cs := by
  cases t with
  | object members =>
      rw [Tree.events] at h
      obtain ⟨rest, rfl, hr⟩ := opening_call h (.inl rfl)
      obtain ⟨cs, lays, first, -⟩ := lays_members (w := w.begun.entered .object) members hr
        (fun c hc => fits c (List.mem_cons_of_mem _ hc)) (w.begun_settings.trans hs)
        (takesName_entered hw)
      have whole := laysAll_cons (c := .beginObject) (WriteM.puts_beginObject hw).lays lays
      rw [left_entered, List.append_assoc] at whole
      exact ⟨'\x7b' :: cs, whole, .object (first rfl)⟩
  | array items =>
      rw [Tree.events] at h
      obtain ⟨rest, rfl, hr⟩ := opening_call h (.inr rfl)
      obtain ⟨cs, lays, first, -⟩ := lays_items (w := w.begun.entered .array) items hr
        (fun c hc => fits c (List.mem_cons_of_mem _ hc)) (w.begun_settings.trans hs)
        (takesValue_entered hw) rfl
      have whole := laysAll_cons (c := .beginArray) (WriteM.puts_beginArray hw).lays lays
      rw [left_entered, List.append_assoc] at whole
      exact ⟨'[' :: cs, whole, .array (first rfl)⟩
  | string text =>
      rw [Tree.events] at h
      obtain ⟨c, rfl, hc⟩ := List.map_eq_singleton_iff.mp h
      obtain rfl : c = .string text := by
        cases c <;> cases hc
        rfl
      exact ⟨_, laysAll_one (WriteM.puts_string hw text).lays, .string (Escape.quoted_grammar _ _)⟩
  | number literal =>
      rw [Tree.events] at h
      obtain ⟨c, rfl, hc⟩ := List.map_eq_singleton_iff.mp h
      obtain ⟨lays, hN⟩ := lays_number hc (hs ▸ fits c (by simp)) hw
      exact ⟨_, laysAll_one lays, .number hN⟩
  | boolean b =>
      rw [Tree.events] at h
      obtain ⟨c, rfl, hc⟩ := List.map_eq_singleton_iff.mp h
      obtain rfl : c = .boolean b := by
        cases c <;> cases hc
        rfl
      refine ⟨_, laysAll_one (WriteM.puts_boolean hw b).lays, ?_⟩
      cases b with
      | true => exact .yes
      | false => exact .no
  | null =>
      rw [Tree.events] at h
      obtain ⟨c, rfl, hc⟩ := List.map_eq_singleton_iff.mp h
      obtain rfl : c = .null := by cases c <;> first | rfl | cases hc
      exact ⟨_, laysAll_one (WriteM.puts_null hw).lays, .null⟩

theorem lays_items {w : Writer} (items : List Tree) {calls : List Call}
    (h : calls.map Call.event = itemEvents items) (fits : ∀ c ∈ calls, c.Fits N settings)
    (hs : w.settings = settings) (hw : w.TakesValue) (inside : w.inArray = true) :
    ∃ cs, LaysAll calls w cs w.left ∧
      (w.isEmpty = true → Elements ']' (Grammar.Value N) items cs) ∧
      (w.isEmpty = false → Tail ']' (Grammar.Value N) items cs) := by
  cases items with
  | nil =>
      rw [itemEvents] at h
      obtain ⟨c, rfl, hc⟩ := List.map_eq_singleton_iff.mp h
      obtain rfl : c = .endArray := by cases c <;> first | rfl | cases hc
      exact ⟨_, laysAll_one (WriteM.puts_endArray hw.isOpen inside).lays,
        fun _ => .none blank_closing, fun _ => .done blank_closing⟩
  | cons item items =>
      rw [itemEvents] at h
      obtain ⟨first, rest, rfl, hf, hr⟩ := List.map_eq_append_iff.mp h
      obtain ⟨v, lays, hv⟩ :=
        lays_value item hf (fun c hc => fits c (List.mem_append_left _ hc)) hs hw
      obtain ⟨cs, lays', -, next⟩ := lays_items (w := w.begun) items hr
        (fun c hc => fits c (List.mem_append_right _ hc)) (w.begun_settings.trans hs)
        (takesValue_begun hw.isOpen inside) (inArray_begun inside)
      have whole := laysAll_append lays lays'
      rw [begun_inArray inside, left_separated, gap_inArray inside, List.append_assoc] at whole
      refine ⟨_, whole, fun empty => .some (separator_first empty) hv (next rfl), fun more => ?_⟩
      obtain ⟨u, hu, blank⟩ := separator_next more
      rw [hu]
      exact .more (w := []) nofun blank hv (next rfl)

theorem lays_members {w : Writer} (members : List (String × Tree)) {calls : List Call}
    (h : calls.map Call.event = memberEvents members) (fits : ∀ c ∈ calls, c.Fits N settings)
    (hs : w.settings = settings) (hw : w.TakesName) :
    ∃ cs, LaysAll calls w cs w.left ∧
      (w.isEmpty = true → Elements '\x7d' (Member (Grammar.Value N)) members cs) ∧
      (w.isEmpty = false → Tail '\x7d' (Member (Grammar.Value N)) members cs) := by
  cases members with
  | nil =>
      rw [memberEvents] at h
      obtain ⟨c, rfl, hc⟩ := List.map_eq_singleton_iff.mp h
      obtain rfl : c = .endObject := by cases c <;> first | rfl | cases hc
      exact ⟨_, laysAll_one (WriteM.puts_endObject hw).lays, fun _ => .none blank_closing,
        fun _ => .done blank_closing⟩
  | cons member members =>
      obtain ⟨name, value⟩ := member
      rw [memberEvents] at h
      obtain ⟨c, calls, rfl, hc, hm⟩ := List.map_eq_cons_iff.mp h
      obtain rfl : c = .name name := by
        cases c <;> cases hc
        rfl
      obtain ⟨first, rest, rfl, hf, hr⟩ := List.map_eq_append_iff.mp hm
      obtain ⟨v, lays, hv⟩ := lays_value (w := w.named) value hf
        (fun c hc => fits c (by simp [hc])) (w.separated_settings.trans hs) (takesValue_named hw)
      obtain ⟨cs, lays', -, next⟩ := lays_members (w := w.named.begun) members hr
        (fun c hc => fits c (by simp [hc])) (w.named.begun_settings.trans
          (w.separated_settings.trans hs)) (takesName_begun hw)
      have whole := laysAll_cons (c := .name name) (WriteM.puts_name hw.isOpen hw.name name).lays
        (laysAll_append lays lays')
      obtain ⟨u, hu, colon⟩ := blank_colon w.settings.pretty
      have member : Member (Grammar.Value N) (name, value)
          (Escape.quoted w.settings.escape name.toList ++ ([] ++ ':' :: (u ++ v))) :=
        .named (Escape.quoted_grammar _ _) (.colon nofun colon hv)
      rw [begun_named hw.inside, left_separated, gap_named hw.inside, hu] at whole
      have text : w.separator ++ (Escape.quoted w.settings.escape name.toList ++ ':' :: u) ++
          ([] ++ v ++ cs) = w.separator ++
            (Escape.quoted w.settings.escape name.toList ++ ([] ++ ':' :: (u ++ v)) ++ cs) := by
        simp only [List.nil_append, List.append_assoc, List.cons_append]
      rw [text] at whole
      refine ⟨_, whole, fun empty => .some (separator_first empty) member (next rfl),
        fun more => ?_⟩
      obtain ⟨u, hu, blank⟩ := separator_next more
      rw [hu]
      exact .more (w := []) nofun blank member (next rfl)

end

end Writer

end TypedJson
