import TypedJson.Reader.Error

/-!
# The reader

A forward-only reader over one document. Its state is the cursor, one unit of lookahead, and the
containers that have been begun and not ended, each with the grammar position inside it and its
part of the path. An operation that fails leaves the state that it had reached.
-/

set_option autoImplicit false
set_option relaxedAutoImplicit false

namespace TypedJson

/-- Whether recoverable deviations from the grammar are accepted, whether paths are reported, and
how deep containers may nest. -/
structure ReaderSettings where
  lenient : Bool := false
  trackPath : Bool := true
  maxNestingDepth : Nat := 128
  deriving DecidableEq, Repr

/-- The grammar position within an object: before the first member, behind a member name, or behind
a member. -/
inductive ObjectPhase where
  | empty
  | named
  | nonEmpty
  deriving DecidableEq, Repr

/-- An open container. An array knows whether its first item has been looked for, and counts its
complete items; an object remembers its last member name. -/
inductive Container where
  | array (started : Bool) (index : Nat)
  | object (phase : ObjectPhase) (member : Option String)
  deriving DecidableEq, Repr

/-- The path step of a container; a placeholder stands for a name not read yet. -/
def Container.step : Container → PathStep
  | .array _ index => .item index
  | .object _ member => .member (member.getD "<?>")

/-- A reader: cursor, lookahead, whether the top-level value has been looked for, the open
containers with the innermost first, how many more may be opened inside them, and the settings. -/
structure Reader where
  cursor : Cursor
  lookahead : Option Lexeme
  documentStarted : Bool
  containers : List Container
  room : Nat
  settings : ReaderSettings
  deriving DecidableEq, Repr

abbrev ReadM := EStateM ReadError Reader

namespace Reader

def new (source : Source) (settings : ReaderSettings := {}) : Reader :=
  ⟨Cursor.start source, none, false, [], settings.maxNestingDepth, settings⟩

def path? (r : Reader) : Option (List PathStep) :=
  if r.settings.trackPath then some (r.containers.reverse.map Container.step) else none

def location (r : Reader) : Location :=
  { path := r.path?
    line := some ⟨r.cursor.mark.line, r.cursor.mark.column⟩
    bytes := some r.cursor.mark.bytes }

/-- The path in dot notation; the bare root if it is not tracked. -/
def path (r : Reader) : String :=
  pathText (r.path?.getD [])

/-- A bound on the units that can still be consumed: every unit but the end of the document takes at
least one byte. -/
def unitsLeft (r : Reader) : Nat :=
  r.cursor.ahead +
    match r.lookahead with
    | none | some .endDocument => 0
    | some _ => 1

def setContainer (r : Reader) (c : Container) : Reader :=
  { r with containers := c :: r.containers.tail }

/-- Counts a complete value, if the innermost container is an array. -/
def endValue (r : Reader) : Reader :=
  match r.containers with
  | .array started index :: rest => { r with containers := .array started (index + 1) :: rest }
  | _ => r

def endScalar (r : Reader) : Reader :=
  { r with lookahead := none }.endValue

/-- Leaves the innermost container, which completes a value of the enclosing one. -/
def endContainer (r : Reader) : Reader :=
  { r with containers := r.containers.tail, room := r.room + 1 }.endValue

def nameMember (r : Reader) (name : String) : Reader :=
  match r.containers with
  | .object phase _ :: rest => { r with containers := .object phase (some name) :: rest }
  | _ => r

end Reader

namespace ReadM

def fail {α : Type} (error : Location → ReadError) : ReadM α := do
  throw (error (← get).location)

def lex {α : Type} (x : LexM α) : ReadM α := fun r =>
  match x r.cursor with
  | .ok a c => .ok a { r with cursor := c }
  | .error fault c =>
      let r := { r with cursor := c }
      .error (.ofFault fault r.location) r

/-- Lexes what comes in an array behind an item: the end, or a comma and the next item. A trailing
comma is for lenient documents. -/
def nextItem (lenient : Bool) : ReadM Lexeme := lex do
  let b ← LexM.skipBlankToByte lenient
  if b = Ascii.closeBracket then
    LexM.advance
    pure .endArray
  else if b = Ascii.comma then
    LexM.advance
    let b ← LexM.skipBlankToByte lenient
    if b = Ascii.closeBracket then
      if lenient then
        LexM.advance
        pure .endArray
      else LexM.fail .trailingCommaNotEnabled
    else LexM.value lenient b
  else LexM.fail .missingComma

def firstItem (lenient : Bool) : ReadM Lexeme := lex do
  let b ← LexM.skipBlankToByte lenient
  if b = Ascii.closeBracket then
    LexM.advance
    pure .endArray
  else LexM.value lenient b

/-- Finds the first byte of the next member name of an object, or consumes the end of the object,
for which the answer is `none`. -/
def findMember (lenient first : Bool) : ReadM (Option UInt8) := lex do
  let b ← LexM.skipBlankToByte lenient
  if b = Ascii.closeBrace then
    LexM.advance
    pure none
  else if first then pure (some b)
  else if b = Ascii.comma then
    LexM.advance
    let b ← LexM.skipBlankToByte lenient
    if b = Ascii.closeBrace then
      if lenient then
        LexM.advance
        pure none
      else LexM.fail .trailingCommaNotEnabled
    else pure (some b)
  else LexM.fail .missingComma

def memberValue (lenient : Bool) : ReadM Lexeme := lex do
  let b ← LexM.skipBlankToByte lenient
  if b = Ascii.colon then
    LexM.advance
    LexM.value lenient (← LexM.skipBlankToByte lenient)
  else LexM.fail .missingColon

def topValue (lenient : Bool) : ReadM Lexeme := lex do
  LexM.value lenient (← LexM.skipBlankToByte lenient)

/-- Lexes what follows the top-level value: the end of the document, or in lenient documents another
value. -/
def afterTopValue (lenient : Bool) : ReadM Lexeme := lex do
  match ← LexM.skipBlank lenient with
  | none => pure .endDocument
  | some b => if lenient then LexM.value lenient b else LexM.fail .trailingData

/-- Lexes the next unit. The grammar position moves on before anything is consumed, so that it has
moved on also when lexing fails. -/
def nextLexeme : ReadM Lexeme := do
  let r ← get
  let lenient := r.settings.lenient
  match r.containers with
  | .array false index :: _ =>
      set (r.setContainer (.array true index))
      firstItem lenient
  | .array true _ :: _ => nextItem lenient
  | .object .named member :: _ =>
      set (r.setContainer (.object .nonEmpty member))
      memberValue lenient
  | .object phase member :: _ =>
      match ← findMember lenient (phase = .empty) with
      | none => pure .endObject
      | some b =>
          modify fun r => r.setContainer (.object .named member)
          lex (LexM.name lenient b)
  | [] =>
      if r.documentStarted then afterTopValue lenient
      else
        set { r with documentStarted := true }
        topValue lenient

def peekLexeme : ReadM Lexeme := do
  match (← get).lookahead with
  | some l => pure l
  | none =>
      let l ← nextLexeme
      modify fun r => { r with lookahead := some l }
      pure l

def peek : ReadM Token := do
  pure (← peekLexeme).token

/-- Whether the current container has another element; at top level, whether the document goes
on. -/
def hasNext : ReadM Bool := do
  match ← peekLexeme with
  | .endObject | .endArray | .endDocument => pure false
  | _ => pure true

/-- Requires the next unit to be of a kind, without touching the state if it is not. -/
def expect {α : Type} (expected : Expectation) (select : Lexeme → Option α) : ReadM α := do
  let l ← peekLexeme
  match select l with
  | some a => pure a
  | none => fail (.unexpected expected l.token)

def take (l : Lexeme) : ReadM Unit := do
  expect (.token l.token) fun actual => if actual = l then some () else none
  modify fun r => { r with lookahead := none }

def enter (c : Container) : ReadM Unit := do
  let r ← get
  match r.room with
  | 0 => fail (.malformed .maxNestingDepthExceeded)
  | room + 1 => set { r with containers := c :: r.containers, room }

def beginObject : ReadM Unit := do
  take .beginObject
  enter (.object .empty none)

def endObject : ReadM Unit := do
  take .endObject
  modify Reader.endContainer

def beginArray : ReadM Unit := do
  take .beginArray
  enter (.array false 0)

def endArray : ReadM Unit := do
  take .endArray
  modify Reader.endContainer

def nextName : ReadM String := do
  let name ← expect (.token .name) fun
    | .name s => some s
    | _ => none
  modify fun r => { r with lookahead := none }.nameMember name
  pure name

def takeScalar {α : Type} (expected : Token) (select : Lexeme → Option α) : ReadM α := do
  let a ← expect (.token expected) select
  modify Reader.endScalar
  pure a

def textOrLiteral? : Lexeme → Option String
  | .string s | .number s => some s
  | _ => none

/-- Consumes a string; a number is taken as its literal. -/
def nextString : ReadM String :=
  takeScalar .string textOrLiteral?

/-- Consumes a number and answers its literal; a string is taken as its content. -/
def nextNumberText : ReadM String :=
  takeScalar .number textOrLiteral?

def nextBool : ReadM Bool :=
  takeScalar .boolean fun
    | .boolean b => some b
    | _ => none

def nextNull : ReadM Unit := do
  take .null
  modify Reader.endValue

/-- One round of skipping at a depth within the skipped value; the answer is the new depth, or
`none` when the value is complete. A name is skipped together with its value. -/
def skipRound (depth : Nat) : ReadM (Option Nat) := do
  let afterValue (d : Nat) : Option Nat := if d = 0 then none else some d
  match ← peekLexeme, depth with
  | .beginObject, d => do beginObject; pure (some (d + 1))
  | .beginArray, d => do beginArray; pure (some (d + 1))
  | .endObject, d + 1 => do endObject; pure (afterValue d)
  | .endArray, d + 1 => do endArray; pure (afterValue d)
  | .name _, d => do let _ ← nextName; pure (some d)
  | .string _, d | .number _, d | .boolean _, d | .null, d => do
      modify Reader.endScalar
      pure (afterValue d)
  | l, _ => fail (.unexpected .value l.token)

def skipWithin : Nat → Nat → ReadM Unit
  | 0, _ => pure ()
  | fuel + 1, depth => do
      match ← skipRound depth with
      | none => pure ()
      | some d => skipWithin fuel d

/-- Skips the next value, whatever it contains; in front of a member name, the member. Every round
consumes a unit, so the units left are rounds enough. -/
def skipValue : ReadM Unit := do
  skipWithin ((← get).unitsLeft + 1) 0

/-- Requires that nothing follows but blank space. -/
def finish : ReadM Unit := do
  expect (.token .endDocument) fun
    | .endDocument => some ()
    | _ => none

def setLenient (lenient : Bool) : ReadM Unit :=
  modify fun r => { r with settings := { r.settings with lenient } }

end ReadM

end TypedJson
