import TypedJson.Output.Outlet
import TypedJson.Text.Escape
import TypedJson.Text.Utf8
import TypedJson.Writer.Error
import TypedJson.Event
import TypedJson.Scalar

/-!
# The writer

A writer takes a document unit by unit, refuses units that do not fit, and lays the text out. When
the sink fails within an operation, the state is the one reached by then: the steps of an operation
are ordered, and those behind the failure do not happen.
-/

set_option autoImplicit false
set_option relaxedAutoImplicit false

namespace TypedJson

/-- Whether the text is laid out in lines, whether non-finite numbers are written, and what is
escaped beyond need. -/
structure WriterSettings where
  pretty : Bool := false
  lenient : Bool := false
  escape : EscapeRules := {}
  deriving DecidableEq, Repr

inductive Bracket where
  | array
  | object
  deriving DecidableEq, Repr

/-- A writer: the output, whether the current container (at top level, the document) is still empty,
whether a member name has to come next, the open containers with the innermost first, the
indentation level, and whether the document has been closed. -/
structure Writer where
  outlet : Outlet
  isEmpty : Bool := true
  expectsName : Bool := false
  containers : List Bracket := []
  level : Nat := 0
  isClosed : Bool := false
  settings : WriterSettings := {}

abbrev WriteM := EStateM WriteError Writer

namespace Writer

def new (sink : Sink) (settings : WriterSettings := {}) : Writer :=
  { outlet := { sink }, settings }

def inArray (w : Writer) : Bool := w.containers.head? = some .array

def inObject (w : Writer) : Bool := w.containers.head? = some .object

def state (w : Writer) : WriterState :=
  match w.containers with
  | [] => if w.isEmpty then .emptyDocument else .documentComplete
  | .array :: _ => .inArray
  | .object :: _ => if w.expectsName then .expectingName else .expectingMemberValue

end Writer

namespace WriteM

def output {α : Type} (x : OutletM α) : WriteM α := fun w =>
  match x w.outlet with
  | .ok a o => .ok a { w with outlet := o }
  | .error fault o => .error (.unavailable fault) { w with outlet := o }

def emit (cs : List Char) : WriteM Unit :=
  output (Outlet.put (Utf8.encode cs))

def checkOpen : WriteM Unit := do
  if (← get).isClosed then throw .closed

def misplaced {α : Type} (operation : WriteOperation) : WriteM α := do
  throw (.misplaced operation (← get).state)

def indentation (level : Nat) : List Char :=
  List.replicate (2 * level) ' '

def indent : WriteM Unit := do
  emit (indentation (← get).level)

/-- Separates an item or a member name from what comes before it in its container. The first element
of a container opens a level. -/
def separate : WriteM Unit := do
  let w ← get
  if w.isEmpty then
    if w.settings.pretty then
      emit ['\n']
      modify fun w => { w with level := w.level + 1 }
      indent
  else if w.settings.pretty then
    emit [',', '\n']
    indent
  else emit [',']

/-- Prepares for a value: checks that one may come here, separates it, and moves the grammar
position on. -/
def beginValue (operation : WriteOperation) : WriteM Unit := do
  checkOpen
  let w ← get
  if w.expectsName || (!w.isEmpty && w.containers.isEmpty) then misplaced operation
  if w.inArray then separate
  modify fun w => { w with isEmpty := false, expectsName := w.inObject }

/-- Leaves the innermost container. A container with elements closes its level on a new line. -/
def leave : WriteM Unit := do
  modify fun w => { w with containers := w.containers.tail }
  let w ← get
  if !w.isEmpty && w.settings.pretty then
    emit ['\n']
    modify fun w => { w with level := w.level - 1 }
    indent
  modify fun w => { w with isEmpty := false, expectsName := w.inObject }

def beginObject : WriteM Unit := do
  beginValue .beginObject
  modify fun w =>
    { w with containers := .object :: w.containers, isEmpty := true, expectsName := true }
  emit ['\x7b']

/-- Ends the current object, unless a name still waits for its value. -/
def endObject : WriteM Unit := do
  checkOpen
  let w ← get
  if !w.inObject || !w.expectsName then misplaced .endObject
  leave
  emit ['\x7d']

def beginArray : WriteM Unit := do
  beginValue .beginArray
  modify fun w =>
    { w with containers := .array :: w.containers, isEmpty := true, expectsName := false }
  emit ['[']

def endArray : WriteM Unit := do
  checkOpen
  if !(← get).inArray then misplaced .endArray
  leave
  emit [']']

def copy (bytes : Array UInt8) (start stop : Nat) : WriteM Unit := do
  if start < stop then output (Outlet.put (bytes.extract start stop).toList)

/-- Writes the bytes of a text from `start` on; the characters are those that begin at `index`. What
is before a character that has to be escaped is copied in one piece. -/
def spell (bytes : Array UInt8) : Nat → Nat → List Char → WriteM Unit
  | start, _, [] => copy bytes start bytes.size
  | start, index, c :: cs => do
      let next := index + c.utf8Size
      if Escape.isNeeded (← get).settings.escape c then
        copy bytes start index
        emit (Escape.sequence c)
        spell bytes next next cs
      else spell bytes start next cs

def quoted (s : String) : WriteM Unit := do
  emit ['"']
  spell (Utf8.encode s.toList).toArray 0 0 s.toList
  emit ['"']

def name (s : String) : WriteM Unit := do
  checkOpen
  if !(← get).expectsName then misplaced .name
  separate
  quoted s
  emit (if (← get).settings.pretty then [':', ' '] else [':'])
  modify fun w => { w with expectsName := false }

def string (s : String) : WriteM Unit := do
  beginValue .string
  quoted s

def boolean (b : Bool) : WriteM Unit := do
  beginValue .boolean
  emit (if b then "true" else "false").toList

def integer (n : Int) : WriteM Unit := do
  beginValue .number
  emit (Number.integerText n)

/-- Writes a floating-point number; a non-finite one only if the writer is lenient. -/
def double (x : Number.Double) : WriteM Unit := do
  checkOpen
  if !x.isFinite && !(← get).settings.lenient then throw (.nonFiniteNumber x)
  beginValue .number
  emit x.numeral

def null : WriteM Unit := do
  beginValue .null
  emit "null".toList

def literal (s : String) : WriteM Unit := do
  checkOpen
  if !Number.isLiteral s.toList then throw (.invalidNumber s)
  beginValue .number
  emit s.toList

def scalar : Scalar → WriteM Unit
  | .integer n => integer n
  | .single x => double (x.convert _)
  | .double x => double x
  | .boolean b => boolean b
  | .text s => string s

def event : Event → WriteM Unit
  | .beginObject => beginObject
  | .endObject => endObject
  | .beginArray => beginArray
  | .endArray => endArray
  | .name s => name s
  | .string s => string s
  | .number s => literal s
  | .boolean b => boolean b
  | .null => null

def flush : WriteM Unit := do
  checkOpen
  output Outlet.flush

/-- Checks that the document is complete, and flushes it. Closing twice has no further effect. -/
def close : WriteM Unit := do
  let w ← get
  if w.isClosed then return
  if !w.containers.isEmpty then throw (.misplaced .close .incomplete)
  if w.isEmpty then misplaced .close
  output Outlet.flush
  modify fun w => { w with isClosed := true }

/-- Flushes without a check, as the last operation of a writer. -/
def release : WriteM Unit :=
  output Outlet.flush

def setLenient (lenient : Bool) : WriteM Unit :=
  modify fun w => { w with settings := { w.settings with lenient } }

end WriteM

end TypedJson
