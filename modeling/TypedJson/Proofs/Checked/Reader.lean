import TypedJson.Proofs.Checked.Lexing
import TypedJson.Proofs.Reader.Session

/-!
# The checked reader

A reader that keeps the grammar position on a stack of scopes with the document at its bottom, the
path beside it, and a window on the data. Every access to the stack and every step of the counter
for the depth of a skipped value is checked, and the loops have no bound. The units that it has
consumed are tallied.
-/

set_option autoImplicit false
set_option relaxedAutoImplicit false

namespace TypedJson

open CheckedM (demand)

inductive Scope where
  | emptyDocument
  | nonEmptyDocument
  | emptyArray
  | nonEmptyArray
  | emptyObject
  | danglingName
  | nonEmptyObject
  deriving DecidableEq, Repr

namespace Scope

def IsDocument : Scope → Prop
  | emptyDocument | nonEmptyDocument => True
  | _ => False

def IsArray : Scope → Prop
  | emptyArray | nonEmptyArray => True
  | _ => False

def IsObject : Scope → Prop
  | emptyObject | danglingName | nonEmptyObject => True
  | _ => False

end Scope

/-- A reader with a stack of scopes: the window on the data, the unit that has been looked at, the
scopes and the pieces of the path with the innermost first, the settings, and the number of units
consumed. -/
structure StackReader where
  window : Window
  peeked : Option Lexeme
  scopes : List Scope
  trail : Option (List PathStep)
  settings : ReaderSettings
  taken : Nat

abbrev CheckedReadM := CheckedM ReadError StackReader

namespace StackReader

def new (source : Source) (settings : ReaderSettings := {}) : StackReader where
  window := Window.start source
  peeked := none
  scopes := [.emptyDocument]
  trail := if settings.trackPath then some [] else none
  settings := settings
  taken := 0

def location (m : StackReader) : Location :=
  { path := m.trail.map List.reverse
    line := some ⟨m.window.mark.line, m.window.mark.column⟩
    bytes := some m.window.mark.bytes }

def path (m : StackReader) : String :=
  pathText ((m.trail.map List.reverse).getD [])

def replaceTop (m : StackReader) (s : Scope) : StackReader :=
  match m.scopes with
  | _ :: rest => { m with scopes := s :: rest }
  | [] => m

def changeFirst (f : PathStep → PathStep) : List PathStep → List PathStep
  | piece :: rest => f piece :: rest
  | [] => []

def changePiece (m : StackReader) (f : PathStep → PathStep) : StackReader :=
  { m with trail := m.trail.map (changeFirst f) }

def endValue (m : StackReader) : StackReader :=
  m.changePiece fun
    | .item index => .item (index + 1)
    | piece => piece

def consume (m : StackReader) : StackReader :=
  { m with peeked := none, taken := m.taken + 1 }

def consumeScalar (m : StackReader) : StackReader :=
  m.consume.endValue

def endScope (m : StackReader) : StackReader :=
  { m with scopes := m.scopes.tail, trail := m.trail.map List.tail }.endValue

def nameMember (m : StackReader) (name : String) : StackReader :=
  m.changePiece fun
    | .member _ => .member name
    | piece => piece

end StackReader

namespace CheckedReadM

def fail {α : Type} (error : Location → ReadError) : CheckedReadM α := do
  CheckedM.fail (error (← get).location)

def lex {α : Type} (x : CheckedLexM α) : CheckedReadM α :=
  CheckedM.onPart StackReader.window (fun w m => { m with window := w })
    (fun fault m => .ofFault fault m.location) x

def topScope : CheckedReadM Scope := do
  match (← get).scopes with
  | s :: _ => pure s
  | [] => throw .astray

def replaceTop (s : Scope) : CheckedReadM Unit :=
  modify fun m => m.replaceTop s

/-- Pushes a scope, if the document scope and those above it are not too many. -/
def pushScope (s : Scope) : CheckedReadM Unit := do
  let m ← get
  if m.settings.maxNestingDepth < m.scopes.length then fail (.malformed .maxNestingDepthExceeded)
  else set { m with scopes := s :: m.scopes }

def pushPiece (piece : PathStep) : CheckedReadM Unit :=
  modify fun m => { m with trail := m.trail.map (piece :: ·) }

def nextItem (lenient : Bool) : CheckedReadM Lexeme := lex do
  let b ← CheckedLexM.skipBlankToByte lenient
  if b = Ascii.closeBracket then
    Window.advance b
    pure .endArray
  else if b = Ascii.comma then
    Window.advance b
    let b ← CheckedLexM.skipBlankToByte lenient
    if b = Ascii.closeBracket then
      if lenient then
        Window.advance b
        pure .endArray
      else CheckedLexM.refuse .trailingCommaNotEnabled
    else CheckedLexM.value lenient b
  else CheckedLexM.refuse .missingComma

def firstItem (lenient : Bool) : CheckedReadM Lexeme := lex do
  let b ← CheckedLexM.skipBlankToByte lenient
  if b = Ascii.closeBracket then
    Window.advance b
    pure .endArray
  else CheckedLexM.value lenient b

def findMember (lenient first : Bool) : CheckedReadM (Option UInt8) := lex do
  let b ← CheckedLexM.skipBlankToByte lenient
  if b = Ascii.closeBrace then
    Window.advance b
    pure none
  else if first then pure (some b)
  else if b = Ascii.comma then
    Window.advance b
    let b ← CheckedLexM.skipBlankToByte lenient
    if b = Ascii.closeBrace then
      if lenient then
        Window.advance b
        pure none
      else CheckedLexM.refuse .trailingCommaNotEnabled
    else pure (some b)
  else CheckedLexM.refuse .missingComma

def member (lenient first : Bool) : CheckedReadM Lexeme := do
  match ← findMember lenient first with
  | none => pure .endObject
  | some b =>
      replaceTop .danglingName
      lex (CheckedLexM.name lenient b)

def memberValue (lenient : Bool) : CheckedReadM Lexeme := lex do
  let b ← CheckedLexM.skipBlankToByte lenient
  if b = Ascii.colon then
    Window.advance b
    CheckedLexM.value lenient (← CheckedLexM.skipBlankToByte lenient)
  else CheckedLexM.refuse .missingColon

def topValue (lenient : Bool) : CheckedReadM Lexeme := lex do
  CheckedLexM.value lenient (← CheckedLexM.skipBlankToByte lenient)

def afterTopValue (lenient : Bool) : CheckedReadM Lexeme := lex do
  match ← CheckedLexM.skipBlank lenient with
  | none => pure .endDocument
  | some b =>
      if lenient then CheckedLexM.value lenient b else CheckedLexM.refuse .trailingData

def nextLexeme : CheckedReadM Lexeme := do
  let lenient := (← get).settings.lenient
  match ← topScope with
  | .emptyArray =>
      replaceTop .nonEmptyArray
      firstItem lenient
  | .nonEmptyArray => nextItem lenient
  | .emptyObject => member lenient true
  | .nonEmptyObject => member lenient false
  | .danglingName =>
      replaceTop .nonEmptyObject
      memberValue lenient
  | .emptyDocument =>
      replaceTop .nonEmptyDocument
      topValue lenient
  | .nonEmptyDocument => afterTopValue lenient

def peekLexeme : CheckedReadM Lexeme := do
  match (← get).peeked with
  | some l => pure l
  | none =>
      let l ← nextLexeme
      modify fun m => { m with peeked := some l }
      pure l

def peek : CheckedReadM Token := do
  pure (← peekLexeme).token

def hasNext : CheckedReadM Bool := do
  match ← peekLexeme with
  | .endObject | .endArray | .endDocument => pure false
  | _ => pure true

def expect {α : Type} (expected : Expectation) (select : Lexeme → Option α) : CheckedReadM α := do
  let l ← peekLexeme
  match select l with
  | some a => pure a
  | none => fail (.unexpected expected l.token)

def take (l : Lexeme) : CheckedReadM Unit := do
  expect (.token l.token) fun actual => if actual = l then some () else none
  modify StackReader.consume

def beginObject : CheckedReadM Unit := do
  take .beginObject
  pushScope .emptyObject
  pushPiece (.member "<?>")

def endObject : CheckedReadM Unit := do
  take .endObject
  modify StackReader.endScope

def beginArray : CheckedReadM Unit := do
  take .beginArray
  pushScope .emptyArray
  pushPiece (.item 0)

def endArray : CheckedReadM Unit := do
  take .endArray
  modify StackReader.endScope

def nextName : CheckedReadM String := do
  let name ← expect (.token .name) fun
    | .name s => some s
    | _ => none
  modify fun m => m.consume.nameMember name
  pure name

def takeScalar {α : Type} (expected : Token) (select : Lexeme → Option α) : CheckedReadM α := do
  let a ← expect (.token expected) select
  modify StackReader.consumeScalar
  pure a

def nextString : CheckedReadM String :=
  takeScalar .string ReadM.textOrLiteral?

def nextNumberText : CheckedReadM String :=
  takeScalar .number ReadM.textOrLiteral?

def nextBool : CheckedReadM Bool :=
  takeScalar .boolean fun
    | .boolean b => some b
    | _ => none

def nextNull : CheckedReadM Unit := do
  take .null
  modify StackReader.endValue

/-- The greatest depth that the counter of a skipped value can hold. -/
def maxDepth : Nat := 4294967295

def raise (depth : Nat) : CheckedReadM (Option Nat) := do
  demand (depth + 1 ≤ maxDepth)
  pure (some (depth + 1))

/-- Steps the depth down, behind the end of a container; the answer is `none` when the value is
complete. -/
def lower (depth : Nat) : CheckedReadM (Option Nat) := do
  demand (1 ≤ depth)
  pure (if depth - 1 = 0 then none else some (depth - 1))

/-- One round of skipping at a depth within the skipped value; the answer is the new depth, or
`none` when the value is complete. -/
def skipRound (depth : Nat) : CheckedReadM (Option Nat) := do
  match ← peekLexeme with
  | .beginObject => do beginObject; raise depth
  | .beginArray => do beginArray; raise depth
  | .endObject =>
      if 0 < depth then do endObject; lower depth
      else fail (.unexpected .value .endObject)
  | .endArray =>
      if 0 < depth then do endArray; lower depth
      else fail (.unexpected .value .endArray)
  | .name _ => do
      let _ ← nextName
      pure (some depth)
  | .string _ | .number _ | .boolean _ | .null => do
      modify StackReader.consumeScalar
      pure (if depth = 0 then none else some depth)
  | .endDocument => fail (.unexpected .value .endDocument)

def skipFrom (depth : Nat) : CheckedReadM Unit :=
  CheckedM.loop (fun depth => do
    match ← skipRound depth with
    | none => pure (.inr ())
    | some d => pure (.inl d)) depth

def skipValue : CheckedReadM Unit :=
  skipFrom 0

def finish : CheckedReadM Unit := do
  expect (.token .endDocument) fun
    | .endDocument => some ()
    | _ => none

def setLenient (lenient : Bool) : CheckedReadM Unit :=
  modify fun m => { m with settings := { m.settings with lenient } }

def convert {α : Type} (text target : String) : Except Number.ConversionFault α → CheckedReadM α
  | .ok a => pure a
  | .error .format => fail (.invalidNumber text target)
  | .error .range => fail (.outOfRange text target)

def nextInteger (type : Number.IntegerType) : CheckedReadM Int := do
  let text ← nextNumberText
  let n ← convert text type.name (Number.toInt64 text.toList)
  if type.admits n then pure n else fail (.outOfRange (intText n) type.name)

def nextDouble : CheckedReadM Number.Double := do
  let lenient := (← get).settings.lenient
  let text ← nextNumberText
  convert text Number.doubleName (Number.toDouble lenient text)

def nextSingle : CheckedReadM Number.Single := do
  pure ((← nextDouble).convert _)

def nextScalar : ScalarType → CheckedReadM Scalar
  | .integer type => do pure (.integer (← nextInteger type))
  | .single => do pure (.single (← nextSingle))
  | .double => do pure (.double (← nextDouble))
  | .boolean => do pure (.boolean (← nextBool))
  | .text => do pure (.text (← nextString))

def orNull {α : Type} (read : CheckedReadM α) : CheckedReadM (Option α) := do
  if (← peek) = .null then
    nextNull
    pure none
  else pure (some (← read))

end CheckedReadM

def Call.checked : Call → CheckedReadM Answer
  | .peek => do pure (.token (← CheckedReadM.peek))
  | .hasNext => do pure (.flag (← CheckedReadM.hasNext))
  | .beginObject => do CheckedReadM.beginObject; pure .done
  | .endObject => do CheckedReadM.endObject; pure .done
  | .beginArray => do CheckedReadM.beginArray; pure .done
  | .endArray => do CheckedReadM.endArray; pure .done
  | .nextName => do pure (.text (← CheckedReadM.nextName))
  | .nextString => do pure (.text (← CheckedReadM.nextString))
  | .nextNumberText => do pure (.text (← CheckedReadM.nextNumberText))
  | .nextBool => do pure (.flag (← CheckedReadM.nextBool))
  | .nextNull => do CheckedReadM.nextNull; pure .done
  | .skipValue => do CheckedReadM.skipValue; pure .done
  | .nextScalar type => do pure (.scalar (← CheckedReadM.nextScalar type))
  | .nextBoxed type => do pure (.boxed (← CheckedReadM.orNull (CheckedReadM.nextScalar type)))
  | .isLenient => do pure (.flag (← get).settings.lenient)
  | .setLenient lenient => do CheckedReadM.setLenient lenient; pure .done
  | .path => do pure (.text (← get).path)
  | .position => do pure (.place (← get).location)
  | .finish => do CheckedReadM.finish; pure .done

namespace StackReader

/-- A call, with the reader it leaves, unless a check fails or a loop does not end. -/
def call (m : StackReader) (c : Call) : Option (Observation × StackReader) :=
  match c.checked m with
  | some (.ok a, m') => some (⟨.ok a, m'.location⟩, m')
  | some (.error (.error e), m') => some (⟨.error e, m'.location⟩, m')
  | some (.error .astray, _) => none
  | none => none

def session (m : StackReader) : List Call → Option (List Observation × StackReader)
  | [] => some ([], m)
  | c :: calls => do
      let (seen, m') ← m.call c
      let (rest, m'') ← m'.session calls
      pure (seen :: rest, m'')

end StackReader

end TypedJson
