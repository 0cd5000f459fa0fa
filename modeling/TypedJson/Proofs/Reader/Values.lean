import TypedJson.Proofs.Number.Numeral
import TypedJson.Proofs.Number.Widening
import TypedJson.Proofs.Reader.Expects
import TypedJson.Proofs.Reader.Progress
import TypedJson.Reader.Scalar

set_option autoImplicit false
set_option relaxedAutoImplicit false

namespace TypedJson

open Operation
open Grammar (Numerals)

namespace ReadM

open Reader (Expects)

variable {N : List Char → Prop} {settings : ReaderSettings} {evs : List Event} {r : Reader}
variable {e : Event}

theorem settings_of_expects (h : Expects N settings evs r) : r.settings = settings := by
  cases h with
  | start => rfl
  | between _ _ _ _ kept => exact kept
  | ahead _ _ _ _ kept => exact kept

section

variable (hN : Numerals settings.lenient N)
include hN

theorem attains_event : Attains (Expects N settings evs) peekLexeme fun l r =>
    l.event? = evs.head? ∧ Expects N settings evs r := by
  intro r h
  obtain ⟨l, r', hx, h, hl⟩ := attains_peekLexeme hN r h
  exact ⟨l, r', hx, (h.behind hl).1, h⟩

theorem attains_hasNext : Attains (Expects N settings (e :: evs)) hasNext fun a r =>
    a = !e.closes ∧ Expects N settings (e :: evs) r := by
  apply (attains_event hN).bind
  intro l r h
  obtain ⟨event, h⟩ := h
  cases l with
  | endDocument => cases event
  | _ =>
      cases event
      exact ⟨_, r, rfl, rfl, h⟩

theorem attains_peek : Attains (Expects N settings (e :: evs)) peek fun a r =>
    (a = .null ↔ e = .null) ∧ Expects N settings (e :: evs) r := by
  apply (attains_event hN).bind
  intro l r h
  obtain ⟨event, h⟩ := h
  cases l with
  | endDocument => cases event
  | _ =>
      cases event
      exact ⟨_, r, rfl, by simp [Lexeme.token], h⟩

theorem attains_finish : Attains (Expects N settings []) finish fun _ _ => True := by
  apply (attains_event hN).bind
  intro l r h
  obtain rfl : l = .endDocument := Lexeme.event?_inj h.1
  exact ⟨(), r, rfl, trivial⟩

theorem length_le_unitsLeft (h : Expects N settings evs r) : evs.length ≤ r.unitsLeft := by
  induction evs generalizing r with
  | nil => exact Nat.zero_le _
  | cons e evs ih =>
      obtain ⟨a, r', hx, rfl, rest, -⟩ := attains_nextEvent hN r h
      have less := ensures_nextEvent r.unitsLeft r _ r' (Nat.le_refl _) hx rfl
      have fewer := ih rest
      rw [List.length_cons]
      omega

theorem attains_nextInteger {type : Number.IntegerType} {n : Int} (h : type.admits n = true) :
    Attains (Expects N settings (.number (intText n) :: evs)) (nextInteger type) fun a r =>
      a = n ∧ Expects N settings evs r := by
  apply (attains_nextNumberText hN).bind
  intro text r ht
  obtain ⟨rfl, h'⟩ := ht
  have wide : Number.IntegerType.int64.admits n = true := by
    simp only [Number.IntegerType.admits, decide_eq_true_eq] at h ⊢
    cases type
    all_goals
      simp only [Number.IntegerType.least, Number.IntegerType.greatest] at h ⊢
      omega
  have value : Number.toInt64 (intText n).toList = .ok n := by
    rw [intText, String.toList_ofList]
    exact Number.toInt64_integerText wide
  refine ⟨n, r, ?_, rfl, h'⟩
  rw [value]
  exact congrFun (if_pos h) r

theorem attains_nextDouble {x : Number.Double} (h : x.isFinite = true ∨ settings.lenient = true) :
    Attains (Expects N settings (.number (String.ofList x.numeral) :: evs)) nextDouble fun a r =>
      a = x ∧ Expects N settings evs r := by
  intro r hr
  have kept := settings_of_expects hr
  obtain ⟨text, r', hx, rfl, h'⟩ := attains_nextNumberText hN r hr
  refine ⟨x, r', ?_, rfl, h'⟩
  unfold nextDouble
  rw [get_bind, kept, bind_of_ok hx, Number.toDouble_numeral h]
  rfl

/-- A single is read as the double that it was written as, and narrowed without loss. -/
theorem attains_nextSingle {x : Number.Single} (h : x.isFinite = true ∨ settings.lenient = true) :
    Attains (Expects N settings
      (.number (String.ofList (x.convert Number.Format.double).numeral) :: evs)) nextSingle
      fun a r => a = x ∧ Expects N settings evs r := by
  have widened : (x.convert Number.Format.double).isFinite = true ∨ settings.lenient = true :=
    h.imp_left (Number.Binary.isFinite_convert Number.double_widens_single)
  apply (attains_nextDouble hN widened).bind
  intro a r ha
  obtain ⟨rfl, h'⟩ := ha
  exact ⟨_, r, rfl, Number.Binary.convert_convert Number.double_widens_single x, h'⟩

end

end ReadM

end TypedJson
