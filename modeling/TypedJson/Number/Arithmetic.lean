import TypedJson.Number.Binary

set_option autoImplicit false
set_option relaxedAutoImplicit false

namespace TypedJson.Number.Binary

variable {f : Format}

/-- The number nearest to `x * num / den`. -/
def scale (x : Binary f) (num den : Nat) : Binary f :=
  match x with
  | .nan => .nan
  | .signed negative code =>
      if code.val = f.infinity then x
      else
        let (n, d) := quotient f code
        .signed negative (f.nearest (n * num) (d * den))

/-- The number nearest to `x + n`; a sum of zero is positive. -/
def addNat (x : Binary f) (n : Nat) : Binary f :=
  match x with
  | .nan => .nan
  | .signed negative code =>
      if code.val = f.infinity then x
      else
        let (num, den) := quotient f code
        if ¬ negative then .signed false (f.nearest (num + n * den) den)
        else if num ≤ n * den then .signed false (f.nearest (n * den - num) den)
        else .signed true (f.nearest (num - n * den) den)

end TypedJson.Number.Binary
