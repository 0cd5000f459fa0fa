import TypedJson.Number.Binary

/-!
# Shortest decimals

For a finite magnitude, the decimal with the fewest significant digits that reads back to it; of
two such decimals the nearer one, of two equally near ones the greater. Should none of at most
seventeen digits read back, the exact value itself is the answer.
-/

set_option autoImplicit false
set_option relaxedAutoImplicit false

namespace TypedJson.Number.Shortest

structure Scaled where
  digits : Nat
  exponent : Int
  deriving DecidableEq, Repr

/-- The least `k` for which the positive quotient lies below `10 ^ k`. -/
def magnitude (num den : Nat) : Int :=
  if den ≤ num then digitCount (num / den)
  else 1 - (digitCount ((den - 1) / num) : Int)

/-- Numerator and denominator of `num / den / 10 ^ e`. -/
def scaleDecimal (num den : Nat) (e : Int) : Nat × Nat :=
  if 0 ≤ e then (num, den * Nat.pow 10 e.toNat) else (num * Nat.pow 10 (-e).toNat, den)

/-- The better neighbour of a magnitude on the grid of multiples of `10 ^ e`, among those that
read back to it. -/
def onGrid (f : Format) (code : Fin (f.infinity + 1)) (num den : Nat) (e : Int) : Option Scaled :=
  let (n, d) := scaleDecimal num den e
  let below := n / d
  let readsBack (digits : Nat) : Bool := f.nearestDecimal digits e = code
  match readsBack below, readsBack (below + 1) with
  | true, true => some ⟨if 2 * n < (2 * below + 1) * d then below else below + 1, e⟩
  | true, false => some ⟨below, e⟩
  | false, true => some ⟨below + 1, e⟩
  | false, false => none

def dropZeros : Nat → Scaled → Scaled
  | 0, s => s
  | fuel + 1, s =>
      if s.digits ≠ 0 ∧ s.digits % 10 = 0 then dropZeros fuel ⟨s.digits / 10, s.exponent + 1⟩ else s

/-- Removes all trailing zeros of the digits. -/
def normalize (s : Scaled) : Scaled :=
  dropZeros (digitCount s.digits) s

def exact (f : Format) (code : Nat) : Scaled :=
  let m := Binary.significand f code
  let e := Binary.exponent f code
  if 0 ≤ e then ⟨m * Nat.pow 2 e.toNat, 0⟩ else ⟨m * Nat.pow 5 (-e).toNat, e⟩

/-- The shortest decimal of a finite magnitude; zero has the digit zero. -/
def shortest (f : Format) (code : Fin (f.infinity + 1)) : Scaled :=
  if code.val = 0 then ⟨0, 0⟩
  else
    let (num, den) := Binary.quotient f code
    let k := magnitude num den
    let found := (List.range 17).findSome? fun (n : Nat) => onGrid f code num den (k - n - 1)
    normalize (found.getD (exact f code))

end TypedJson.Number.Shortest
