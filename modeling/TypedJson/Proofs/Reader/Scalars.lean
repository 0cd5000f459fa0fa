import TypedJson.Proofs.Reader.Consumption
import TypedJson.Reader.Scalar

set_option autoImplicit false
set_option relaxedAutoImplicit false

namespace TypedJson

open Operation
open Reader (Consumes)

variable {α : Type} {r r' : Reader} {a : α}

/-- What is known of a scalar that has been read: outside of lenient documents a double is finite,
and a single has been narrowed from such a double. -/
def Scalar.FromText (lenient : Bool) : Scalar → Prop
  | .double x => x.isFinite = true ∨ lenient = true
  | .single y => ∃ x : Number.Double, (x.isFinite = true ∨ lenient = true) ∧ y = x.convert _
  | _ => True

namespace ReadM

theorem convert_eq_ok {text target : String} {result : Except Number.ConversionFault α}
    (h : convert text target result r = .ok a r') : result = .ok a ∧ r' = r := by
  cases result with
  | ok b =>
      cases h
      exact ⟨rfl, rfl⟩
  | error fault => cases fault <;> cases h

theorem nextInteger_eq_ok {type : Number.IntegerType} {n : Int}
    (h : nextInteger type r = .ok n r') :
    type.admits n = true ∧ ∃ text, nextNumberText r = .ok text r' := by
  obtain ⟨text, r₁, taken, rest⟩ := bind_eq_ok.mp h
  obtain ⟨m, r₂, converted, checked⟩ := bind_eq_ok.mp rest
  obtain ⟨-, rfl⟩ := convert_eq_ok converted
  by_cases admitted : type.admits m = true
  · rw [if_pos admitted] at checked
    cases checked
    exact ⟨admitted, text, taken⟩
  · rw [if_neg admitted] at checked
    cases checked

end ReadM

theorem Number.isFinite_of_toDouble {lenient : Bool} {s : String} {x : Number.Double}
    (h : Number.toDouble lenient s = .ok x) : x.isFinite = true ∨ lenient = true := by
  cases lenient with
  | true => exact .inr rfl
  | false =>
      unfold toDouble at h
      rw [if_neg (by simp)] at h
      split at h
      · cases h
      · dsimp only at h
        split at h
        · cases h
        · rename_i finite
          cases h
          simp [Binary.ofDecimal, Binary.isInfinite, Binary.isFinite] at finite ⊢
          omega

namespace ReadM

theorem nextDouble_eq_ok {x : Number.Double} (h : nextDouble r = .ok x r') :
    (x.isFinite = true ∨ r.settings.lenient = true) ∧ ∃ text, nextNumberText r = .ok text r' := by
  have run := (get_bind _ r).symm.trans h
  obtain ⟨text, r₁, taken, converted⟩ := bind_eq_ok.mp run
  obtain ⟨result, rfl⟩ := convert_eq_ok converted
  exact ⟨Number.isFinite_of_toDouble result, text, taken⟩

theorem nextScalar_eq_ok {t : ScalarType} {s : Scalar} (h : nextScalar t r = .ok s r') :
    (∃ t : Tree, Consumes t.events r r') ∧ s.hasType t = true ∧
      s.FromText r.settings.lenient := by
  cases t with
  | integer type =>
      obtain ⟨n, r₁, run, ⟨⟩⟩ := bind_eq_ok.mp h
      obtain ⟨admitted, text, taken⟩ := nextInteger_eq_ok run
      exact ⟨tree_of_textOrLiteral taken, admitted, trivial⟩
  | single =>
      obtain ⟨y, r₁, run, ⟨⟩⟩ := bind_eq_ok.mp h
      obtain ⟨x, r₂, run, ⟨⟩⟩ := bind_eq_ok.mp run
      obtain ⟨finite, text, taken⟩ := nextDouble_eq_ok run
      exact ⟨tree_of_textOrLiteral taken, rfl, x, finite, rfl⟩
  | double =>
      obtain ⟨x, r₁, run, ⟨⟩⟩ := bind_eq_ok.mp h
      obtain ⟨finite, text, taken⟩ := nextDouble_eq_ok run
      exact ⟨tree_of_textOrLiteral taken, rfl, finite⟩
  | boolean =>
      obtain ⟨b, r₁, run, ⟨⟩⟩ := bind_eq_ok.mp h
      exact ⟨tree_of_nextBool run, rfl, trivial⟩
  | text =>
      obtain ⟨text, r₁, run, ⟨⟩⟩ := bind_eq_ok.mp h
      exact ⟨tree_of_textOrLiteral run, rfl, trivial⟩

end ReadM

end TypedJson
