import TypedJson.Reader.Basic
import TypedJson.Scalar

/-!
# Reading scalars

Typed reading of numbers, and reading of any scalar by its type. A number error is located behind
the value, which has been consumed by then.
-/

set_option autoImplicit false
set_option relaxedAutoImplicit false

namespace TypedJson.ReadM

/-- Answers a conversion, or the error that quotes the text and the name of the target. -/
def convert {α : Type} (text target : String) : Except Number.ConversionFault α → ReadM α
  | .ok a => pure a
  | .error .format => fail (.invalidNumber text target)
  | .error .range => fail (.outOfRange text target)

/-- Consumes an integer of a type. It is read with 64 bits first, and out of range of a narrower
type it is quoted in its plain form. -/
def nextInteger (type : Number.IntegerType) : ReadM Int := do
  let text ← nextNumberText
  let n ← convert text type.name (Number.toInt64 text.toList)
  if type.admits n then pure n else fail (.outOfRange (intText n) type.name)

def nextDouble : ReadM Number.Double := do
  let lenient := (← get).settings.lenient
  let text ← nextNumberText
  convert text Number.doubleName (Number.toDouble lenient text)

/-- Consumes a single: the number is read as a double, which is then narrowed. -/
def nextSingle : ReadM Number.Single := do
  pure ((← nextDouble).convert _)

def nextScalar : ScalarType → ReadM Scalar
  | .integer type => do pure (.integer (← nextInteger type))
  | .single => do pure (.single (← nextSingle))
  | .double => do pure (.double (← nextDouble))
  | .boolean => do pure (.boolean (← nextBool))
  | .text => do pure (.text (← nextString))

/-- Consumes a null, for which the answer is `none`, or else what `read` reads. -/
def orNull {α : Type} (read : ReadM α) : ReadM (Option α) := do
  if (← peek) = .null then
    nextNull
    pure none
  else pure (some (← read))

end TypedJson.ReadM
