import TypedJson.Proofs.Reader.Numbers

set_option autoImplicit false
set_option relaxedAutoImplicit false

namespace TypedJson

open Operation

/-- The scalar of a type that a value stands for, given its text or literal, or its truth value. -/
def ScalarType.decode (lenient : Bool) (text : Option String) (flag : Option Bool) :
    ScalarType → Option Scalar
  | .integer type => do
      let n ← (Number.toInt64 (← text).toList).toOption
      if type.admits n then some (.integer n) else none
  | .single => do
      let x ← (Number.toDouble lenient (← text)).toOption
      some (.single (x.convert _))
  | .double => do
      let x ← (Number.toDouble lenient (← text)).toOption
      some (.double x)
  | .boolean => flag.map .boolean
  | .text => text.map .text

def Lexeme.flag? : Lexeme → Option Bool
  | .boolean b => some b
  | _ => none

theorem ScalarType.decode_none {lenient : Bool} {type : ScalarType} :
    type.decode lenient none none = none := by
  cases type <;> rfl

namespace ReadM

variable {α : Type} {r r₁ : Reader} {l : Lexeme}

theorem success?_expect {expected : Expectation} {select : Lexeme → Option α}
    (look : peekLexeme r = .ok l r₁) :
    success? (expect expected select r) = (select l).map (·, r₁) := by
  unfold expect
  rw [bind_of_ok look]
  cases select l with
  | some a => rfl
  | none => rfl

theorem success?_takeScalar {expected : Token} {select : Lexeme → Option α}
    (look : peekLexeme r = .ok l r₁) :
    success? (takeScalar expected select r) = (select l).map (·, r₁.endScalar) := by
  unfold takeScalar
  rw [success?_bind, success?_expect look]
  cases select l with
  | some a => rfl
  | none => rfl

theorem success?_convert {text target : String}
    {result : Except Number.ConversionFault α} :
    success? (convert text target result r) = result.toOption.map (·, r) := by
  cases result with
  | ok a => rfl
  | error fault => cases fault <;> rfl

theorem success?_toInteger {type : Number.IntegerType} {s : String} :
    success? (toInteger type s r) = ((Number.toInt64 s.toList).toOption.bind fun n =>
      if type.admits n then some n else none).map (·, r) := by
  unfold toInteger
  rw [success?_bind, success?_convert]
  cases (Number.toInt64 s.toList).toOption with
  | none => rfl
  | some n =>
      rw [Option.map_some, Option.bind_some, Option.bind_some]
      cases type.admits n <;> rfl

theorem success?_nextInteger {type : Number.IntegerType} (look : peekLexeme r = .ok l r₁) :
    success? (nextInteger type r) = ((textOrLiteral? l).bind fun s =>
      (Number.toInt64 s.toList).toOption.bind fun n =>
        if type.admits n then some n else none).map (·, r₁.endScalar) := by
  have run : nextInteger type r = (nextNumberText >>= toInteger type) r := rfl
  rw [run, success?_bind, nextNumberText, success?_takeScalar look]
  cases textOrLiteral? l with
  | none => rfl
  | some s => exact success?_toInteger

theorem success?_nextDouble (look : peekLexeme r = .ok l r₁) :
    success? (nextDouble r) = ((textOrLiteral? l).bind fun s =>
      (Number.toDouble r.settings.lenient s).toOption).map (·, r₁.endScalar) := by
  have run : nextDouble r = (nextNumberText >>= fun s =>
      convert s Number.doubleName (Number.toDouble r.settings.lenient s)) r := get_bind _ r
  rw [run, success?_bind, nextNumberText, success?_takeScalar look]
  cases textOrLiteral? l with
  | none => rfl
  | some s => exact success?_convert

theorem success?_nextScalar {t : ScalarType} (look : peekLexeme r = .ok l r₁) :
    success? (nextScalar t r) =
      (t.decode r.settings.lenient (textOrLiteral? l) l.flag?).map (·, r₁.endScalar) := by
  cases t with
  | integer type =>
      have run : nextScalar (.integer type) r =
          (nextInteger type >>= fun n => pure (.integer n)) r := rfl
      rw [run, success?_bind, success?_nextInteger look]
      cases textOrLiteral? l with
      | none => rfl
      | some s =>
          simp only [ScalarType.decode, bind, Option.bind_some]
          cases (Number.toInt64 s.toList).toOption with
          | none => rfl
          | some n =>
              simp only [Option.bind_some]
              cases type.admits n <;> rfl
  | single =>
      have run : nextScalar .single r = (nextSingle >>= fun x => pure (.single x)) r := rfl
      have narrow : nextSingle r = (nextDouble >>= fun x => pure (x.convert _)) r := rfl
      rw [run, success?_bind, narrow, success?_bind, success?_nextDouble look]
      cases textOrLiteral? l with
      | none => rfl
      | some s =>
          simp only [ScalarType.decode, bind, Option.bind_some]
          cases (Number.toDouble r.settings.lenient s).toOption <;> rfl
  | double =>
      have run : nextScalar .double r = (nextDouble >>= fun x => pure (.double x)) r := rfl
      rw [run, success?_bind, success?_nextDouble look]
      cases textOrLiteral? l with
      | none => rfl
      | some s =>
          simp only [ScalarType.decode, bind, Option.bind_some]
          cases (Number.toDouble r.settings.lenient s).toOption <;> rfl
  | boolean =>
      have run : nextScalar .boolean r = (nextBool >>= fun b => pure (.boolean b)) r := rfl
      rw [run, success?_bind, nextBool, success?_takeScalar look]
      cases l <;> rfl
  | text =>
      have run : nextScalar .text r = (nextString >>= fun s => pure (.text s)) r := rfl
      rw [run, success?_bind, nextString, success?_takeScalar look]
      cases textOrLiteral? l <;> rfl

end ReadM

end TypedJson
