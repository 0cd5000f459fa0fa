import TypedJson.Writer.Basic
import TypedJson.Proofs.Output.Reliable
import TypedJson.Proofs.Output.Total
import TypedJson.Proofs.Text.Utf8

set_option autoImplicit false
set_option relaxedAutoImplicit false

namespace TypedJson

open Operation
open Utf8 (encode)

/-- Two states agree on the settings, and on whether the document has been closed. -/
structure Writer.Akin (w v : Writer) : Prop where
  isClosed : v.isClosed = w.isClosed
  settings : v.settings = w.settings

namespace Writer.Akin

variable {u v w : Writer}

theorem refl : w.Akin w :=
  ⟨rfl, rfl⟩

theorem trans (h : u.Akin v) (h' : v.Akin w) : u.Akin w :=
  ⟨h'.isClosed.trans h.isClosed, h'.settings.trans h.settings⟩

end Writer.Akin

/-- From the state `w`, over whatever outlet, the operation does with the outlet what putting the
characters does. If that succeeds, it leaves the state `w'`, and otherwise it fails for the same
reason. The outlets of the two states are immaterial. -/
structure Puts (x : WriteM Unit) (w : Writer) (cs : List Char) (w' : Writer) : Prop where
  akin : w.Akin w'
  done : ∀ {o o' : Outlet}, Outlet.put (encode cs) o = .ok () o' →
    x { w with outlet := o } = .ok () { w' with outlet := o' }
  failed : ∀ {o o' : Outlet} {fault : DataFault}, Outlet.put (encode cs) o = .error fault o' →
    ∃ v : Writer, w.Akin v ∧
      x { w with outlet := o } = .error (.unavailable fault) { v with outlet := o' }

/-- From the state `w`, whatever has been put out before, the operation succeeds, writes the
characters, and leaves the state `w'`. The outlets of the two states are immaterial. -/
def Lays {ε : Type} (x : EStateM ε Writer Unit) (w : Writer) (cs : List Char) (w' : Writer) :
    Prop :=
  ∀ o out, Outlet.Holds out o → ∃ o', x { w with outlet := o } = .ok () { w' with outlet := o' } ∧
    o'.Holds (out ++ encode cs)

namespace Lays

variable {ε : Type} {w w' w'' : Writer} {cs ds : List Char}

theorem pure : Lays (Pure.pure () : EStateM ε Writer Unit) w [] w :=
  fun o out ho => ⟨o, rfl, by rwa [Utf8.encode_nil, List.append_nil]⟩

theorem bind {x : EStateM ε Writer Unit} {f : Unit → EStateM ε Writer Unit} (hx : Lays x w cs w')
    (hf : Lays (f ()) w' ds w'') : Lays (x >>= f) w (cs ++ ds) w'' := by
  intro o out ho
  obtain ⟨o', hx, ho⟩ := hx o out ho
  obtain ⟨o'', hf, ho⟩ := hf o' _ ho
  refine ⟨o'', (bind_of_ok hx).trans hf, ?_⟩
  rwa [Utf8.encode_append, ← List.append_assoc]

end Lays

namespace Puts

variable {w w' w'' : Writer} {cs ds : List Char} {x : WriteM Unit}

theorem lays (h : Puts x w cs w') : Lays x w cs w' := by
  intro o out ho
  obtain ⟨_, o', hx, ho⟩ := Outlet.attains_put (encode cs) o ho
  exact ⟨o', h.done hx, ho⟩

theorem pure : Puts (Pure.pure ()) w [] w where
  akin := .refl
  done h := by
    cases h
    rfl
  failed h := by cases h

theorem bind {f : Unit → WriteM Unit} (hx : Puts x w cs w') (hf : Puts (f ()) w' ds w'') :
    Puts (x >>= f) w (cs ++ ds) w'' where
  akin := hx.akin.trans hf.akin
  done {o o'} h := by
    rw [Utf8.encode_append, Outlet.put_append] at h
    obtain ⟨_, t, first, rest⟩ := bind_eq_ok.mp h
    exact (bind_of_ok (hx.done first)).trans (hf.done rest)
  failed {o o' fault} h := by
    rw [Utf8.encode_append, Outlet.put_append] at h
    cases first : Outlet.put (encode cs) o with
    | ok _ t =>
        rw [bind_of_ok first] at h
        obtain ⟨v, akin, rest⟩ := hf.failed h
        exact ⟨v, hx.akin.trans akin, (bind_of_ok (hx.done first)).trans rest⟩
    | error _ t =>
        rw [bind_of_error first] at h
        cases h
        obtain ⟨v, akin, first⟩ := hx.failed first
        exact ⟨v, akin, bind_of_error first⟩

theorem bind_silent {f : Unit → WriteM Unit} (hx : Puts x w [] w') (hf : Puts (f ()) w' ds w'') :
    Puts (x >>= f) w ds w'' :=
  hx.bind hf

theorem get {f : Writer → WriteM Unit} (hf : ∀ o, Puts (f { w with outlet := o }) w cs w') :
    Puts (get >>= f) w cs w' where
  akin := (hf w.outlet).akin
  done {o _} h := (hf o).done h
  failed {o _ _} h := (hf o).failed h

theorem modify {g : Writer → Writer} (akin : w.Akin w')
    (hg : ∀ o, g { w with outlet := o } = { w' with outlet := o }) :
    Puts (modify g : WriteM PUnit) w [] w' where
  akin := akin
  done {o o'} h := by
    cases h
    change EStateM.Result.ok _ _ = _
    rw [hg]
  failed h := by cases h

end Puts

namespace WriteM

variable {w : Writer}

theorem puts_emit (cs : List Char) : Puts (emit cs) w cs w where
  akin := .refl
  done h := by simp only [emit, output, h]
  failed {_ _ _} h := ⟨w, .refl, by simp only [emit, output, h]⟩

end WriteM

namespace Writer

/-! The text that goes with a move of the grammar position, and the state behind it. -/

/-- What separates the next item or member name from what comes before it. -/
def separator (w : Writer) : List Char :=
  if w.isEmpty then
    if w.settings.pretty then '\n' :: WriteM.indentation (w.level + 1) else []
  else if w.settings.pretty then ',' :: '\n' :: WriteM.indentation w.level
  else [',']

/-- The state behind the separator; the first element opens a level. -/
def separated (w : Writer) : Writer :=
  if w.isEmpty && w.settings.pretty then { w with level := w.level + 1 } else w

def gap (w : Writer) : List Char :=
  if w.inArray then w.separator else []

/-- The state in which the next value begins, and to which its end comes back. -/
def begun (w : Writer) : Writer :=
  { (if w.inArray then w.separated else w) with isEmpty := false, expectsName := w.inObject }

/-- The state behind a member name. -/
def named (w : Writer) : Writer :=
  { w.separated with expectsName := false }

def closing (w : Writer) : List Char :=
  if !w.isEmpty && w.settings.pretty then '\n' :: WriteM.indentation (w.level - 1) else []

/-- The state behind the current container. -/
def left (w : Writer) : Writer :=
  { w with
    containers := w.containers.tail
    isEmpty := false
    expectsName := inObject { w with containers := w.containers.tail }
    level := if !w.isEmpty && w.settings.pretty then w.level - 1 else w.level }

def entered (w : Writer) (b : Bracket) : Writer :=
  { w with containers := b :: w.containers, isEmpty := true, expectsName := b = .object }

theorem akin_entered (w : Writer) (b : Bracket) : w.Akin (w.entered b) :=
  ⟨rfl, rfl⟩

section

variable (w : Writer)

@[simp] theorem separated_containers : w.separated.containers = w.containers := by
  unfold separated
  split <;> rfl

@[simp] theorem separated_isClosed : w.separated.isClosed = w.isClosed := by
  unfold separated
  split <;> rfl

@[simp] theorem separated_settings : w.separated.settings = w.settings := by
  unfold separated
  split <;> rfl

@[simp] theorem separated_outlet : w.separated.outlet = w.outlet := by
  unfold separated
  split <;> rfl

theorem separated_level :
    w.separated.level = if w.isEmpty && w.settings.pretty then w.level + 1 else w.level := by
  unfold separated
  split <;> rfl

@[simp] theorem begun_expectsName : w.begun.expectsName = w.inObject :=
  rfl

@[simp] theorem begun_containers : w.begun.containers = w.containers := by
  unfold begun
  split
  · exact w.separated_containers
  · rfl

@[simp] theorem begun_isClosed : w.begun.isClosed = w.isClosed := by
  unfold begun
  split
  · exact w.separated_isClosed
  · rfl

@[simp] theorem begun_settings : w.begun.settings = w.settings := by
  unfold begun
  split
  · exact w.separated_settings
  · rfl

end

structure TakesValue (w : Writer) : Prop where
  isOpen : w.isClosed = false
  noName : w.expectsName = false
  inside : w.isEmpty = true ∨ w.containers ≠ []

instance (w : Writer) : Decidable w.TakesValue :=
  decidable_of_iff
    (w.isClosed = false ∧ w.expectsName = false ∧ (w.isEmpty = true ∨ w.containers ≠ []))
    ⟨fun ⟨isOpen, noName, inside⟩ => ⟨isOpen, noName, inside⟩,
      fun ⟨isOpen, noName, inside⟩ => ⟨isOpen, noName, inside⟩⟩

structure TakesName (w : Writer) : Prop where
  isOpen : w.isClosed = false
  name : w.expectsName = true
  inside : w.inObject = true

end Writer

namespace WriteM

variable {w : Writer}

theorem puts_checkOpen (h : w.isClosed = false) : Puts checkOpen w [] w := by
  refine Puts.get fun o => ?_
  rw [if_neg (by simp [h])]
  exact Puts.pure

theorem puts_indent : Puts indent w (indentation w.level) w :=
  Puts.get fun _ => puts_emit _

theorem puts_separate : Puts separate w w.separator w.separated := by
  refine Puts.get fun o => ?_
  unfold Writer.separator Writer.separated
  dsimp only
  by_cases he : w.isEmpty = true
  · by_cases hp : w.settings.pretty = true
    · have both : (w.isEmpty && w.settings.pretty) = true := by simp [he, hp]
      let opened : Writer := { w with level := w.level + 1 }
      have deepen : Puts (modify fun w => { w with level := w.level + 1 } : WriteM Unit) w []
          opened := Puts.modify ⟨rfl, rfl⟩ fun _ => rfl
      have indent : Puts indent opened (indentation (w.level + 1)) opened := puts_indent
      rw [if_pos he, if_pos hp, if_pos he, if_pos hp, if_pos both]
      exact (puts_emit ['\n']).bind (deepen.bind_silent indent)
    · have both : ¬ (w.isEmpty && w.settings.pretty) = true := by simp [hp]
      rw [if_pos he, if_neg hp, if_pos he, if_neg hp, if_neg both]
      exact Puts.pure
  · have both : ¬ (w.isEmpty && w.settings.pretty) = true := by simp [he]
    by_cases hp : w.settings.pretty = true
    · rw [if_neg he, if_pos hp, if_neg he, if_pos hp, if_neg both]
      exact (puts_emit [',', '\n']).bind puts_indent
    · rw [if_neg he, if_neg hp, if_neg he, if_neg hp, if_neg both]
      exact puts_emit [',']

theorem puts_beginValue (operation : WriteOperation) (h : w.TakesValue) :
    Puts (beginValue operation) w w.gap w.begun := by
  have fits : ¬ (w.expectsName || !w.isEmpty && w.containers.isEmpty) = true := by
    simp only [h.noName, Bool.false_or]
    rcases h.inside with empty | inside
    · simp [empty]
    · simp [inside]
  refine (puts_checkOpen h.isOpen).bind_silent (Puts.get fun o => ?_)
  dsimp only
  rw [if_neg fits]
  unfold Writer.gap Writer.begun
  by_cases ha : w.inArray = true
  · have ha' : ({ w with outlet := o } : Writer).inArray = true := ha
    rw [if_pos ha', if_pos ha, if_pos ha, ← List.append_nil w.separator]
    refine puts_separate.bind (Puts.modify ⟨rfl, rfl⟩ fun o => ?_)
    simp only [Writer.inObject, Writer.separated_containers]
  · have ha' : ¬ ({ w with outlet := o } : Writer).inArray = true := ha
    rw [if_neg ha', if_neg ha, if_neg ha]
    exact Puts.modify ⟨rfl, rfl⟩ fun _ => rfl

theorem puts_leave : Puts leave w w.closing w.left := by
  let inner : Writer := { w with containers := w.containers.tail }
  let outdented : Writer := { inner with level := w.level - 1 }
  have pop : Puts (modify fun w => { w with containers := w.containers.tail } : WriteM Unit) w []
      inner := Puts.modify ⟨rfl, rfl⟩ fun _ => rfl
  have outdent : Puts (modify fun w => { w with level := w.level - 1 } : WriteM Unit) inner []
      outdented := Puts.modify ⟨rfl, rfl⟩ fun _ => rfl
  refine pop.bind_silent (Puts.get fun o => ?_)
  unfold Writer.closing Writer.left
  dsimp only
  by_cases h : (!w.isEmpty && w.settings.pretty) = true
  · rw [if_pos h, if_pos h, if_pos h, ← List.append_nil (WriteM.indentation _)]
    exact (puts_emit ['\n']).bind
      (outdent.bind_silent (puts_indent.bind (Puts.modify ⟨rfl, rfl⟩ fun _ => rfl)))
  · rw [if_neg h, if_neg h, if_neg h]
    exact Puts.modify ⟨rfl, rfl⟩ fun _ => rfl

theorem puts_beginObject (h : w.TakesValue) :
    Puts beginObject w (w.gap ++ ['\x7b']) (w.begun.entered .object) :=
  (puts_beginValue _ h).bind
    (Puts.bind_silent (Puts.modify (w.begun.akin_entered .object) fun _ => rfl) (puts_emit _))

theorem puts_beginArray (h : w.TakesValue) :
    Puts beginArray w (w.gap ++ ['[']) (w.begun.entered .array) :=
  (puts_beginValue _ h).bind
    (Puts.bind_silent (Puts.modify (w.begun.akin_entered .array) fun _ => rfl) (puts_emit _))

theorem puts_endObject (h : w.TakesName) : Puts endObject w (w.closing ++ ['\x7d']) w.left := by
  refine (puts_checkOpen h.isOpen).bind_silent (Puts.get fun o => ?_)
  have fits : ¬ (!({ w with outlet := o } : Writer).inObject || !w.expectsName) = true := by
    rw [show ({ w with outlet := o } : Writer).inObject = true from h.inside, h.name]
    decide
  rw [if_neg fits]
  exact puts_leave.bind (puts_emit _)

theorem puts_endArray (open_ : w.isClosed = false) (inside : w.inArray = true) :
    Puts endArray w (w.closing ++ [']']) w.left := by
  refine (puts_checkOpen open_).bind_silent (Puts.get fun o => ?_)
  have fits : ¬ (!({ w with outlet := o } : Writer).inArray) = true := by
    rw [show ({ w with outlet := o } : Writer).inArray = true from inside]
    decide
  rw [if_neg fits]
  exact puts_leave.bind (puts_emit _)

/-! Copying a text in pieces comes to writing each of its characters in its own form. -/

theorem settings_of_emit {cs : List Char} {w' : Writer} (h : emit cs w = .ok () w') :
    w'.settings = w.settings := by
  unfold emit output at h
  split at h <;> cases h
  rfl

theorem emit_append (cs ds : List Char) :
    emit (cs ++ ds) w = (do emit cs; emit ds : WriteM Unit) w := by
  have parts : Outlet.put (encode (cs ++ ds)) w.outlet =
      (do Outlet.put (encode cs); Outlet.put (encode ds) : OutletM Unit) w.outlet := by
    rw [Utf8.encode_append, Outlet.put_append]
  cases first : Outlet.put (encode cs) w.outlet with
  | ok _ o =>
      have run : emit cs w = .ok () { w with outlet := o } := by
        simp only [emit, output, first]
      rw [bind_of_ok first] at parts
      rw [bind_of_ok run]
      simp only [emit, output, parts]
  | error fault o =>
      have run : emit cs w = .error (.unavailable fault) { w with outlet := o } := by
        simp only [emit, output, first]
      rw [bind_of_error first] at parts
      rw [bind_of_error run]
      simp only [emit, output, parts]

theorem copy_eq (front run rest : List Char) :
    copy (encode (front ++ run ++ rest)).toArray (encode front).length
      (encode (front ++ run)).length w = emit run w := by
  have slice : ((encode (front ++ run ++ rest)).toArray.extract (encode front).length
      (encode (front ++ run)).length).toList = encode run := by
    simp [List.extract_eq_take_drop]
  unfold copy
  by_cases some : (encode front).length < (encode (front ++ run)).length
  · rw [if_pos some, slice, emit]
  · cases run with
    | nil =>
        rw [if_neg some]
        rfl
    | cons c run =>
        have length := List.length_pos_iff.mpr (Utf8.encode_ne_nil (List.cons_ne_nil c run))
        rw [Utf8.encode_append, List.length_append] at some
        omega

theorem spell_eq (front run cs : List Char) :
    spell (encode (front ++ run ++ cs)).toArray (encode front).length
      (encode (front ++ run)).length cs w =
      emit (run ++ cs.flatMap (Escape.char w.settings.escape)) w := by
  induction cs generalizing front run w with
  | nil =>
      have last := copy_eq (w := w) front run []
      rw [List.append_nil] at last ⊢
      rw [List.flatMap_nil, List.append_nil, spell, List.size_toArray]
      exact last
  | cons c cs ih =>
      have next : (encode (front ++ run)).length + c.utf8Size =
          (encode (front ++ run ++ [c])).length := by
        simp [String.length_utf8EncodeChar, Nat.add_assoc]
      have parts : front ++ run ++ c :: cs = front ++ run ++ [c] ++ cs := List.append_cons ..
      rw [spell, get_bind, next, List.flatMap_cons, Escape.char]
      by_cases needed : Escape.isNeeded w.settings.escape c = true
      · rw [if_pos needed, if_pos needed, emit_append]
        refine bind_congr (copy_eq front run (c :: cs)) fun _ v copied => ?_
        rw [copy_eq] at copied
        rw [emit_append]
        refine bind_congr rfl fun _ u escaped => ?_
        have behind := ih (w := u) (front ++ run ++ [c]) []
        rw [List.append_nil, ← parts, List.nil_append] at behind
        rw [behind, settings_of_emit escaped, settings_of_emit copied]
      · have behind := ih (w := w) front (run ++ [c])
        rw [← List.append_assoc, ← parts] at behind
        rw [if_neg needed, if_neg needed, ← List.append_assoc]
        exact behind

/-- Writing a quoted text comes to putting out its written form. -/
theorem quoted_eq (s : String) : quoted s w = emit (Escape.quoted w.settings.escape s.toList) w := by
  have form : Escape.quoted w.settings.escape s.toList =
      ['"'] ++ (s.toList.flatMap (Escape.char w.settings.escape) ++ ['"']) := rfl
  rw [form, emit_append]
  refine bind_congr rfl fun _ v opened => ?_
  rw [emit_append, ← settings_of_emit opened]
  exact bind_congr (spell_eq [] [] s.toList) fun _ _ _ => rfl

theorem puts_quoted (s : String) :
    Puts (quoted s) w (Escape.quoted w.settings.escape s.toList) w where
  akin := .refl
  done h := quoted_eq s ▸ (puts_emit _).done h
  failed h := quoted_eq s ▸ (puts_emit _).failed h

def colon (pretty : Bool) : List Char :=
  if pretty then [':', ' '] else [':']

theorem puts_name (open_ : w.isClosed = false) (expected : w.expectsName = true) (s : String) :
    Puts (name s) w
      (w.separator ++ (Escape.quoted w.settings.escape s.toList ++ colon w.settings.pretty))
      w.named := by
  refine (puts_checkOpen open_).bind_silent (Puts.get fun o => ?_)
  have fits : ¬ (!({ w with outlet := o } : Writer).expectsName) = true := by simp [expected]
  rw [if_neg fits]
  refine puts_separate.bind ?_
  have quote := puts_quoted (w := w.separated) s
  rw [Writer.separated_settings] at quote
  refine quote.bind (Puts.get fun o => ?_)
  have settings : ({ w.separated with outlet := o } : Writer).settings = w.settings :=
    w.separated_settings
  rw [settings, ← List.append_nil (colon _)]
  exact (puts_emit (colon w.settings.pretty)).bind (Puts.modify ⟨rfl, rfl⟩ fun _ => rfl)

theorem puts_string (h : w.TakesValue) (s : String) :
    Puts (string s) w (w.gap ++ Escape.quoted w.settings.escape s.toList) w.begun := by
  have quote := puts_quoted (w := w.begun) s
  rw [Writer.begun_settings] at quote
  exact (puts_beginValue _ h).bind quote

theorem puts_boolean (h : w.TakesValue) (b : Bool) :
    Puts (boolean b) w (w.gap ++ (if b then "true" else "false").toList) w.begun :=
  (puts_beginValue _ h).bind (puts_emit _)

theorem puts_integer (h : w.TakesValue) (n : Int) :
    Puts (integer n) w (w.gap ++ Number.integerText n) w.begun :=
  (puts_beginValue _ h).bind (puts_emit _)

theorem puts_null (h : w.TakesValue) : Puts null w (w.gap ++ "null".toList) w.begun :=
  (puts_beginValue _ h).bind (puts_emit _)

theorem puts_double (h : w.TakesValue) {x : Number.Double}
    (hx : x.isFinite = true ∨ w.settings.lenient = true) :
    Puts (double x) w (w.gap ++ x.numeral) w.begun := by
  refine (puts_checkOpen h.isOpen).bind_silent (Puts.get fun o => ?_)
  have fits : ¬ (!x.isFinite && !w.settings.lenient) = true := by
    rcases hx with finite | lenient
    · simp [finite]
    · simp [lenient]
  dsimp only
  rw [if_neg fits]
  exact (puts_beginValue _ h).bind (puts_emit _)

theorem puts_literal (h : w.TakesValue) {s : String} (hs : Number.isLiteral s.toList = true) :
    Puts (literal s) w (w.gap ++ s.toList) w.begun := by
  refine (puts_checkOpen h.isOpen).bind_silent ?_
  rw [if_neg (by simp [hs])]
  exact (puts_beginValue _ h).bind (puts_emit _)

end WriteM

end TypedJson
