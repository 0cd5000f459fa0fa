import TypedJson.Proofs.Checked.Output
import TypedJson.Proofs.Writer.Session

/-!
# The checked writer

The operations of a writer with every access to a buffer and every subtraction checked. A failure of
the sink in the middle of an operation can leave the indentation level, the containers and the
grammar position out of step with each other; what is left of their relation is still enough for
whatever request comes next.
-/

set_option autoImplicit false
set_option relaxedAutoImplicit false

namespace TypedJson

open Operation
open CheckedM (demand fail finished plain)

abbrev CheckedWriteM := CheckedM WriteError Writer

namespace CheckedWriteM

def output {α : Type} (x : CheckedM DataFault Outlet α) : CheckedWriteM α :=
  CheckedM.onPart Writer.outlet (fun o w => { w with outlet := o })
    (fun fault _ => .unavailable fault) x

def put (bytes : List UInt8) : CheckedWriteM Unit :=
  output (Outlet.Checked.put bytes.toArray 0)

def emit (cs : List Char) : CheckedWriteM Unit :=
  put (Utf8.encode cs)

def checkOpen : CheckedWriteM Unit := do
  if (← get).isClosed then fail .closed

def misplaced {α : Type} (operation : WriteOperation) : CheckedWriteM α := do
  fail (.misplaced operation (← get).state)

def indent : CheckedWriteM Unit := do
  emit (WriteM.indentation (← get).level)

def separate : CheckedWriteM Unit := do
  let w ← get
  if w.isEmpty then
    if w.settings.pretty then
      emit ['\n']
      modify fun w => { w with level := w.level + 1 }
      indent
  else if w.settings.pretty then
    emit [',', '\n']
    indent
  else emit [',']

def beginValue (operation : WriteOperation) : CheckedWriteM Unit := do
  checkOpen
  let w ← get
  if w.expectsName || (!w.isEmpty && w.containers.isEmpty) then misplaced operation
  if w.inArray then separate
  modify fun w => { w with isEmpty := false, expectsName := w.inObject }

/-- Leaves the innermost container. The level is lowered only if it is above zero. -/
def leave : CheckedWriteM Unit := do
  modify fun w => { w with containers := w.containers.tail }
  let w ← get
  if !w.isEmpty && w.settings.pretty then
    emit ['\n']
    demand (1 ≤ (← get).level)
    modify fun w => { w with level := w.level - 1 }
    indent
  modify fun w => { w with isEmpty := false, expectsName := w.inObject }

def beginObject : CheckedWriteM Unit := do
  beginValue .beginObject
  modify fun w =>
    { w with containers := .object :: w.containers, isEmpty := true, expectsName := true }
  emit ['\x7b']

def endObject : CheckedWriteM Unit := do
  checkOpen
  let w ← get
  if !w.inObject || !w.expectsName then misplaced .endObject
  leave
  emit ['\x7d']

def beginArray : CheckedWriteM Unit := do
  beginValue .beginArray
  modify fun w =>
    { w with containers := .array :: w.containers, isEmpty := true, expectsName := false }
  emit ['[']

def endArray : CheckedWriteM Unit := do
  checkOpen
  if !(← get).inArray then misplaced .endArray
  leave
  emit [']']

def copy (bytes : Array UInt8) (start stop : Nat) : CheckedWriteM Unit := do
  if start < stop then
    demand (stop ≤ bytes.size)
    put (bytes.extract start stop).toList

def spell (bytes : Array UInt8) : Nat → Nat → List Char → CheckedWriteM Unit
  | start, _, [] => copy bytes start bytes.size
  | start, index, c :: cs => do
      let next := index + c.utf8Size
      if Escape.isNeeded (← get).settings.escape c then
        copy bytes start index
        emit (Escape.sequence c)
        spell bytes next next cs
      else spell bytes start next cs

def quoted (s : String) : CheckedWriteM Unit := do
  emit ['"']
  spell (Utf8.encode s.toList).toArray 0 0 s.toList
  emit ['"']

def name (s : String) : CheckedWriteM Unit := do
  checkOpen
  if !(← get).expectsName then misplaced .name
  separate
  quoted s
  emit (if (← get).settings.pretty then [':', ' '] else [':'])
  modify fun w => { w with expectsName := false }

def string (s : String) : CheckedWriteM Unit := do
  beginValue .string
  quoted s

def word (operation : WriteOperation) (cs : List Char) : CheckedWriteM Unit := do
  beginValue operation
  emit cs

def double (x : Number.Double) : CheckedWriteM Unit := do
  checkOpen
  if !x.isFinite && !(← get).settings.lenient then fail (.nonFiniteNumber x)
  word .number x.numeral

def literal (s : String) : CheckedWriteM Unit := do
  checkOpen
  if !Number.isLiteral s.toList then fail (.invalidNumber s)
  word .number s.toList

def flush : CheckedWriteM Unit := do
  checkOpen
  output Outlet.Checked.flush

def close : CheckedWriteM Unit := do
  let w ← get
  if w.isClosed then return
  if !w.containers.isEmpty then fail (.misplaced .close .incomplete)
  if w.isEmpty then misplaced .close
  output Outlet.Checked.flush
  modify fun w => { w with isClosed := true }

def release : CheckedWriteM Unit :=
  output Outlet.Checked.flush

def setLenient (lenient : Bool) : CheckedWriteM Unit :=
  modify fun w => { w with settings := { w.settings with lenient } }

end CheckedWriteM

namespace Writer

def Call.checked : Call → CheckedWriteM Unit
  | beginObject => CheckedWriteM.beginObject
  | endObject => CheckedWriteM.endObject
  | beginArray => CheckedWriteM.beginArray
  | endArray => CheckedWriteM.endArray
  | name s => CheckedWriteM.name s
  | string s => CheckedWriteM.string s
  | boolean b => CheckedWriteM.word .boolean (if b then "true" else "false").toList
  | integer n => CheckedWriteM.word .number (Number.integerText n)
  | double x => CheckedWriteM.double x
  | literal s => CheckedWriteM.literal s
  | null => CheckedWriteM.word .null "null".toList

def Request.checked : Request → CheckedWriteM Unit
  | call c => c.checked
  | flush => CheckedWriteM.flush
  | close => CheckedWriteM.close
  | setLenient lenient => CheckedWriteM.setLenient lenient

/-- The number of open containers that have opened a level for certain: all, except the innermost
one before its first element. -/
def opened (w : Writer) : Nat :=
  if w.isEmpty && (w.inArray || w.expectsName) then w.containers.length - 1
  else w.containers.length

/-- The level covers the containers that have opened one. After a failure it can be higher. -/
def Raised (w : Writer) : Prop :=
  w.settings.pretty = true → w.opened ≤ w.level

def Deep (w : Writer) : Prop :=
  w.settings.pretty = true → w.containers.length ≤ w.level

def Upright (P : Writer → Prop) (w : Writer) : Prop :=
  w.outlet.Within ∧ P w

variable {w : Writer}

theorem opened_le (w : Writer) : w.opened ≤ w.containers.length := by
  unfold opened
  split
  · exact Nat.sub_le _ _
  · exact Nat.le_refl _

theorem Deep.raised (deep : w.Deep) : w.Raised :=
  fun pretty => w.opened_le.trans (deep pretty)

theorem Upright.mono {P Q : Writer → Prop} (hPQ : ∀ w, P w → Q w) (h : w.Upright P) :
    w.Upright Q :=
  h.imp_right (hPQ w)

theorem Upright.raised (h : w.Upright Deep) : w.Upright Raised :=
  h.mono fun _ => Deep.raised

end Writer

namespace CheckedWriteM

open Writer (Deep Raised Upright)

variable {P Q E : Writer → Prop} {w : Writer}

theorem safe_output {α : Type} {x : CheckedM DataFault Outlet α} {y : OutletM α}
    (hx : Safe Outlet.Within x y Outlet.Within Outlet.Within)
    (frame : ∀ w o, P w → P { w with outlet := o }) :
    Safe (Upright P) (output x) (WriteM.output y) (Upright P) (Upright P) := by
  refine Safe.of_forall fun w h => ?_
  have run := hx w.outlet w.outlet ⟨rfl, h.1⟩
  unfold output CheckedM.onPart WriteM.output
  generalize x w.outlet = outcome at run ⊢
  generalize y w.outlet = result at run ⊢
  cases run with
  | ok within =>
      obtain ⟨rfl, within⟩ := within
      exact .ok ⟨rfl, within, frame w _ h.2⟩
  | error within =>
      obtain ⟨rfl, within⟩ := within
      exact .error ⟨rfl, within, frame w _ h.2⟩

theorem safe_put (bytes : List UInt8) (frame : ∀ w o, P w → P { w with outlet := o }) :
    Safe (Upright P) (put bytes) (WriteM.output (Outlet.put bytes)) (Upright P) (Upright P) :=
  safe_output (Outlet.Checked.safe_put bytes) frame

theorem safe_emit (cs : List Char) (frame : ∀ w o, P w → P { w with outlet := o }) :
    Safe (Upright P) (emit cs) (WriteM.emit cs) (Upright P) (Upright P) :=
  safe_put (Utf8.encode cs) frame

theorem safe_indent (frame : ∀ w o, P w → P { w with outlet := o }) :
    Safe (Upright P) indent WriteM.indent (Upright P) (Upright P) :=
  Safe.get fun _ h => (safe_emit _ frame).starting (fun _ same => same ▸ h)

/-! Output behind which the level covers all containers, and which may fail. -/

theorem safe_emit_deep (cs : List Char) :
    Safe (Upright Deep) (emit cs) (WriteM.emit cs) (Upright Deep) (Upright Raised) :=
  (safe_emit cs fun _ _ h => h).failing fun _ h => h.raised

theorem safe_indent_deep :
    Safe (Upright Deep) indent WriteM.indent (Upright Deep) (Upright Raised) :=
  (safe_indent fun _ _ h => h).failing fun _ h => h.raised

theorem safe_fail {α : Type} (e : WriteError) :
    Safe P (fail e : CheckedWriteM α) (throw e) Q P :=
  Realizes.fail fun _ _ h => h

theorem safe_checkOpen : Safe P checkOpen WriteM.checkOpen P P := by
  refine Safe.get fun w h => ?_
  by_cases closed : w.isClosed = true
  · rw [if_pos closed, if_pos closed]
    exact (safe_fail _).starting (fun _ same => same ▸ h)
  · rw [if_neg closed, if_neg closed]
    exact Safe.pure fun _ same => same ▸ h

theorem safe_misplaced {α : Type} (operation : WriteOperation) :
    Safe P (misplaced operation : CheckedWriteM α) (WriteM.misplaced operation) Q P :=
  Safe.get fun _ h => (safe_fail _).starting (fun _ same => same ▸ h)

theorem safe_unless {c : Prop} [Decidable c] {α : Type} {refuse : CheckedWriteM PUnit}
    {refuse' : WriteM PUnit} {x : CheckedWriteM α} {y : WriteM α}
    (hr : Safe E refuse refuse' (fun _ => False) E) (h : ∀ w, P w → E w)
    (hx : ¬ c → Safe P x y Q E) :
    Safe P (if c then (do refuse; x) else x) (if c then (do refuse'; y) else y) Q E := by
  by_cases refused : c
  · rw [if_pos refused, if_pos refused]
    exact Safe.bind (hr.starting h) fun _ _ _ none => none.2.elim
  · rw [if_neg refused, if_neg refused]
    exact hx refused

/-- The level covers the containers, or will do so once it is raised for the first element. -/
def Rising (w : Writer) : Prop :=
  w.Raised ∧ (w.settings.pretty = true → w.containers.length ≤ w.level + 1)

/-- A separator in front of the first element opens a level. A failure behind that leaves the level
too high. -/
theorem safe_separate :
    Safe (Upright fun w => Raised w ∧ (w.inArray = true ∨ w.expectsName = true)) separate
      WriteM.separate (Upright Deep) (Upright Raised) := by
  refine Safe.get fun w h => ?_
  obtain ⟨within, raised, inside⟩ := h
  have fresh : (w.inArray || w.expectsName) = true := by simpa using inside
  by_cases empty : w.isEmpty = true
  · rw [if_pos empty, if_pos empty]
    by_cases pretty : w.settings.pretty = true
    · rw [if_pos pretty, if_pos pretty]
      have rising : Rising w := by
        refine ⟨raised, fun isPretty => ?_⟩
        have le := raised isPretty
        rw [Writer.opened, empty, fresh] at le
        exact Nat.le_add_of_sub_le le
      refine Safe.bind (Q := Upright Rising) ?_ fun _ =>
        Safe.bind (Q := Upright Deep) (Safe.modify ?_) fun _ => ?_
      · exact (safe_emit _ fun _ _ h => h).weaken (fun _ same => same ▸ ⟨within, rising⟩)
          (fun _ h => h) fun _ h => h.mono fun _ => And.left
      · exact fun w h => ⟨h.1, fun isPretty => h.2.2 isPretty⟩
      · exact safe_indent_deep
    · rw [if_neg pretty, if_neg pretty]
      exact Safe.pure fun _ same => same ▸ ⟨within, fun isPretty => absurd isPretty pretty⟩
  · rw [if_neg empty, if_neg empty]
    have deep : Deep w := by
      intro isPretty
      have le := raised isPretty
      rwa [Writer.opened, Bool.eq_false_iff.mpr empty] at le
    have begins (w' : Writer) (same : w' = w) : w'.Upright Deep := same ▸ ⟨within, deep⟩
    have emitted (cs : List Char) :
        Safe (fun w' => w' = w) (emit cs) (WriteM.emit cs) (Upright Deep) (Upright Raised) :=
      (safe_emit_deep cs).starting begins
    by_cases pretty : w.settings.pretty = true
    · rw [if_pos pretty, if_pos pretty]
      exact (emitted _).bind fun _ => safe_indent_deep
    · rw [if_neg pretty, if_neg pretty]
      exact emitted _

theorem safe_elapse : Safe (Upright Deep)
    (modify fun w => { w with isEmpty := false, expectsName := w.inObject } : CheckedWriteM _)
    (modify fun w => { w with isEmpty := false, expectsName := w.inObject }) (Upright Deep)
    (Upright Raised) :=
  Safe.modify fun _ h => h

theorem safe_beginValue (operation : WriteOperation) :
    Safe (Upright Raised) (beginValue operation) (WriteM.beginValue operation) (Upright Deep)
      (Upright Raised) := by
  refine safe_checkOpen.bind fun _ => Safe.get fun w h =>
    safe_unless (safe_misplaced _) (fun _ same => same ▸ h) fun allowed => ?_
  by_cases inside : w.inArray = true
  · rw [if_pos inside, if_pos inside]
    refine Safe.bind (safe_separate.starting ?_) fun _ => safe_elapse
    exact fun _ same => same ▸ ⟨h.1, h.2, .inl inside⟩
  · rw [if_neg inside, if_neg inside]
    have unnamed : w.expectsName = false := by simp_all
    have deep : Deep w := by
      intro isPretty
      have le := h.2 isPretty
      rwa [Writer.opened, unnamed, Bool.eq_false_iff.mpr inside, Bool.or_false, Bool.and_false]
        at le
    exact safe_elapse.starting (fun _ same => same ▸ ⟨h.1, deep⟩)

/-- The level covers the containers and one more, which has been left. -/
def High (w : Writer) : Prop :=
  w.containers.length + 1 ≤ w.level

/-- The container is off the stack before its level, if it has opened one, is closed. -/
def Popped (w : Writer) : Prop :=
  w.settings.pretty = true → if w.isEmpty then w.containers.length ≤ w.level else High w

/-- A container with elements has opened a level, so that there is one to close. -/
theorem safe_leave :
    Safe (Upright fun w => Raised w ∧ w.containers ≠ [] ∧ (w.inArray = true ∨ w.expectsName = true))
      leave WriteM.leave (Upright Deep) (Upright Raised) := by
  refine Safe.bind (Q := Upright Popped) (Safe.modify ?_) fun _ => Safe.get fun w h => ?_
  · rintro w ⟨within, raised, some, inside⟩
    refine ⟨within, fun isPretty => ?_⟩
    have fresh : (w.inArray || w.expectsName) = true := by simpa using inside
    have pops : w.containers.tail.length + 1 = w.containers.length := by
      rw [List.length_tail]
      have := List.length_pos_iff.mpr some
      omega
    have le := raised isPretty
    rw [Writer.opened, fresh, Bool.and_true] at le
    change if w.isEmpty = true then w.containers.tail.length ≤ w.level
      else w.containers.tail.length + 1 ≤ w.level
    split at le <;> rename_i empty
    · rw [if_pos empty]
      omega
    · rw [if_neg empty]
      omega
  by_cases closes : (!w.isEmpty && w.settings.pretty) = true
  · rw [if_pos closes, if_pos closes]
    obtain ⟨elements, pretty⟩ : w.isEmpty = false ∧ w.settings.pretty = true := by
      simpa using closes
    have high : w.Upright High := by
      have le := h.2 pretty
      rw [elements] at le
      exact ⟨h.1, le⟩
    have covered (w : Writer) (h : w.Upright High) : w.Upright Raised :=
      h.mono fun w h _ => w.opened_le.trans ((Nat.le_succ _).trans h)
    refine Safe.bind (Q := Upright High) ?_ fun _ => Safe.demand_get ?_ ?_
    · exact (safe_emit _ fun _ _ h => h).weaken (fun _ same => same ▸ high) (fun _ h => h) covered
    · exact fun _ h => (Nat.succ_pos _).trans_le h.2
    · refine Safe.bind (Q := Upright Deep) (Safe.modify ?_) fun _ =>
        safe_indent_deep.bind fun _ => safe_elapse
      exact fun _ h => ⟨h.1, fun _ => Nat.le_sub_of_add_le h.2⟩
  · rw [if_neg closes, if_neg closes]
    refine safe_elapse.starting fun _ same => same ▸ ⟨h.1, fun isPretty => ?_⟩
    have le := h.2 isPretty
    have empty : w.isEmpty = true := by simp_all
    rwa [if_pos empty] at le

theorem safe_copy (bytes : Array UInt8) {start stop : Nat} (inside : stop ≤ bytes.size)
    (frame : ∀ w o, P w → P { w with outlet := o }) :
    Safe (Upright P) (copy bytes start stop) (WriteM.copy bytes start stop) (Upright P)
      (Upright P) := by
  unfold copy WriteM.copy
  by_cases some : start < stop
  · rw [if_pos some, if_pos some]
    exact Safe.demand (fun _ _ => inside) (safe_put _ frame)
  · rw [if_neg some, if_neg some]
    exact Safe.pure fun _ h => h

theorem safe_spell (bytes : Array UInt8) {start index : Nat} {cs : List Char}
    (inside : index + (Utf8.encode cs).length = bytes.size)
    (frame : ∀ w o, P w → P { w with outlet := o }) :
    Safe (Upright P) (spell bytes start index cs) (WriteM.spell bytes start index cs) (Upright P)
      (Upright P) := by
  induction cs generalizing start index with
  | nil => exact safe_copy bytes (Nat.le_refl _) frame
  | cons c cs ih =>
      have next : index + c.utf8Size + (Utf8.encode cs).length = bytes.size := by
        rw [← inside, Utf8.encode_cons, List.length_append, String.length_utf8EncodeChar]
        omega
      refine Safe.get fun w h => ?_
      have begins (w' : Writer) (same : w' = w) : w'.Upright P := same ▸ h
      by_cases needed : Escape.isNeeded w.settings.escape c = true
      · rw [if_pos needed, if_pos needed]
        refine ((safe_copy bytes (by omega) frame).starting begins).bind
          fun _ => (safe_emit _ frame).bind fun _ => ih next
      · rw [if_neg needed, if_neg needed]
        exact (ih next).starting begins

theorem safe_quoted (s : String) (frame : ∀ w o, P w → P { w with outlet := o }) :
    Safe (Upright P) (quoted s) (WriteM.quoted s) (Upright P) (Upright P) :=
  (safe_emit _ frame).bind fun _ => (safe_spell _ (by simp) frame).bind fun _ => safe_emit _ frame

theorem safe_begin (operation : WriteOperation) (b : Bracket) (cs : List Char) :
    Safe (Upright Raised)
      (do
        beginValue operation
        modify fun w =>
          { w with containers := b :: w.containers, isEmpty := true, expectsName := b = .object }
        emit cs)
      (do
        WriteM.beginValue operation
        modify fun w =>
          { w with containers := b :: w.containers, isEmpty := true, expectsName := b = .object }
        WriteM.emit cs)
      (Upright Raised) (Upright Raised) := by
  refine (safe_beginValue operation).bind fun _ =>
    Safe.bind (Q := Upright Raised) (Safe.modify fun w h => ⟨h.1, fun isPretty => ?_⟩) fun _ =>
      safe_emit cs fun _ _ h => h
  have deep := h.2 isPretty
  cases b <;> exact deep

theorem safe_last (cs : List Char) :
    Safe (Upright Deep) (emit cs) (WriteM.emit cs) (Upright Raised) (Upright Raised) :=
  (safe_emit_deep cs).weaken (fun _ h => h) (fun _ h => h.raised) fun _ h => h

theorem safe_word (operation : WriteOperation) (cs : List Char) :
    Safe (Upright Raised) (word operation cs) (do WriteM.beginValue operation; WriteM.emit cs)
      (Upright Raised) (Upright Raised) :=
  (safe_beginValue operation).bind fun _ => safe_last cs

theorem safe_end (cs : List Char) (h : w.Upright Raised) (some : w.containers ≠ [])
    (inside : w.inArray = true ∨ w.expectsName = true) :
    Safe (fun w' => w' = w) (do leave; emit cs) (do WriteM.leave; WriteM.emit cs)
      (Upright Raised) (Upright Raised) :=
  Safe.bind (safe_leave.starting fun _ same => same ▸ ⟨h.1, h.2, some, inside⟩) fun _ =>
    safe_last cs

theorem safe_name (s : String) :
    Safe (Upright Raised) (name s) (WriteM.name s) (Upright Raised) (Upright Raised) := by
  refine safe_checkOpen.bind fun _ => Safe.get fun w h =>
    safe_unless (safe_misplaced _) (fun _ same => same ▸ h) fun allowed => ?_
  have named : w.expectsName = true := by simpa using allowed
  refine Safe.bind (safe_separate.starting fun _ same => same ▸ ⟨h.1, h.2, .inr named⟩) fun _ => ?_
  refine Safe.bind (Q := Upright Deep) ((safe_quoted s fun _ _ h => h).failing fun _ h => h.raised)
    fun _ => Safe.get fun w' h' => ?_
  refine Safe.bind ((safe_emit_deep _).starting fun _ same => same ▸ h') fun _ => ?_
  exact Safe.modify fun w h => ⟨h.1, Deep.raised (w := { w with expectsName := false }) h.2⟩

/-- However the sink behaves, a call from a state in which the level covers the containers that have
opened one comes to the outcome that it has without checks, and leaves such a state. -/
theorem safe_call (c : Writer.Call) :
    Safe (Upright Raised) c.checked c.run (Upright Raised) (Upright Raised) := by
  cases c with
  | beginObject => exact safe_begin .beginObject .object ['\x7b']
  | beginArray => exact safe_begin .beginArray .array ['[']
  | endObject =>
      refine safe_checkOpen.bind fun _ => Safe.get fun w h =>
        safe_unless (safe_misplaced _) (fun _ same => same ▸ h) fun allowed => ?_
      obtain ⟨inside, named⟩ : w.inObject = true ∧ w.expectsName = true := by simpa using allowed
      refine safe_end _ h (fun none => ?_) (.inr named)
      simp [Writer.inObject, none] at inside
  | endArray =>
      refine safe_checkOpen.bind fun _ => Safe.get fun w h =>
        safe_unless (safe_misplaced _) (fun _ same => same ▸ h) fun allowed => ?_
      have inside : w.inArray = true := by simpa using allowed
      refine safe_end _ h (fun none => ?_) (.inl inside)
      simp [Writer.inArray, none] at inside
  | name s => exact safe_name s
  | string s =>
      exact (safe_beginValue .string).bind fun _ =>
        (safe_quoted s fun _ _ h => h).starting fun _ h => h.raised
  | boolean b => exact safe_word .boolean _
  | integer n => exact safe_word .number _
  | null => exact safe_word .null _
  | double x =>
      exact safe_checkOpen.bind fun _ => Safe.get fun w h =>
        safe_unless (safe_fail _) (fun _ same => same ▸ h) fun _ =>
          (safe_word .number _).starting (fun _ same => same ▸ h)
  | literal s =>
      exact safe_checkOpen.bind fun _ =>
        safe_unless (safe_fail _) (fun _ h => h) fun _ => safe_word .number _

theorem safe_flush :
    Safe (Upright Raised) flush WriteM.flush (Upright Raised) (Upright Raised) :=
  safe_checkOpen.bind fun _ => safe_output Outlet.Checked.safe_flush fun _ _ h => h

theorem safe_release :
    Safe (Upright Raised) release WriteM.release (Upright Raised) (Upright Raised) :=
  safe_output Outlet.Checked.safe_flush fun _ _ h => h

theorem safe_close :
    Safe (Upright Raised) close WriteM.close (Upright Raised) (Upright Raised) := by
  refine Safe.get fun w h => ?_
  have begins (w' : Writer) (same : w' = w) : w'.Upright Raised := same ▸ h
  by_cases closed : w.isClosed = true
  · rw [if_pos closed, if_pos closed]
    exact Safe.pure begins
  · rw [if_neg closed, if_neg closed]
    refine safe_unless (safe_fail _) begins fun _ =>
      safe_unless (safe_misplaced _) begins fun _ => ?_
    refine Safe.bind (Q := Upright Raised) ?_ fun _ => Safe.modify fun _ h => h
    exact (safe_output Outlet.Checked.safe_flush fun _ _ h => h).starting begins

theorem safe_request (q : Writer.Request) :
    Safe (Upright Raised) q.checked q.run (Upright Raised) (Upright Raised) := by
  cases q with
  | call c => exact safe_call c
  | flush => exact safe_flush
  | close => exact safe_close
  | setLenient lenient => exact Safe.modify fun _ h => h

end CheckedWriteM

namespace Writer

variable {w : Writer}

theorem upright_new (sink : Sink) (settings : WriterSettings) :
    (new sink settings).Upright Raised :=
  ⟨Nat.zero_le _, fun _ => Nat.zero_le _⟩

theorem upright_after (h : w.Upright Raised) (requests : List Request) :
    (w.after requests).Upright Raised := by
  induction requests generalizing w with
  | nil => exact h
  | cons q requests ih =>
      exact ih ((CheckedWriteM.safe_request q).final h (fun _ h => h) fun _ h => h)

/-- Whatever the sink does in a session that goes on after errors, the bytes in the buffer stay
within it, and each round of copying bytes copies one at least, empties a buffer found full, or
fails. In a container with elements there is a level to close. Hence whatever request comes next,
and also the release of the writer, ends as it does without checks: no check of a place in a buffer
or of a subtraction fails, and no loop goes on for ever. -/
theorem checked_after (sink : Sink) (settings : WriterSettings) (requests : List Request) :
    let w := (new sink settings).after requests
    w.outlet.buffer.size ≤ Outlet.capacity ∧
      (∀ (bytes : Array UInt8) (pos : Nat), pos < bytes.size →
        (∃ pos' o, Outlet.Checked.round bytes pos w.outlet = some (.ok pos', o) ∧
          (pos < pos' ∨ pos' = pos ∧ w.outlet.buffer.size = Outlet.capacity ∧ o.buffer = #[])) ∨
        ∃ fault o, Outlet.Checked.round bytes pos w.outlet = some (.error (.error fault), o)) ∧
      (w.settings.pretty = true → w.isEmpty = false → w.containers.length ≤ w.level) ∧
      (∀ q : Request, q.checked w = finished (q.run w)) ∧
      CheckedWriteM.release w = finished (WriteM.release w) := by
  intro w
  have h : w.Upright Raised := upright_after (upright_new sink settings) requests
  refine ⟨h.1, fun bytes pos inside => ?_, fun isPretty elements => ?_, fun q => ?_, ?_⟩
  · rcases Outlet.Checked.round_progress h.1 inside with
      ⟨pos', o, run, -, -, more⟩ | ⟨fault, o, run, -⟩
    · exact .inl ⟨pos', o, run, more⟩
    · exact .inr ⟨fault, o, run⟩
  · have le := h.2 isPretty
    rwa [opened, elements] at le
  · exact (CheckedWriteM.safe_request q).eq_finished h
  · exact CheckedWriteM.safe_release.eq_finished h

end Writer

end TypedJson
