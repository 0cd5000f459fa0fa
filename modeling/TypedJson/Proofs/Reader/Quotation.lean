import TypedJson.Proofs.Reader.Numbers

/-!
# What number errors quote

An error of conversion quotes the text that could not be converted. One kind of text is an
exception: a literal with a fraction or an exponent that is a 64-bit integer, but none of the
narrower type asked for. It is quoted in the plain form of that integer.
-/

set_option autoImplicit false
set_option relaxedAutoImplicit false

namespace TypedJson

open Operation

/-! Plain integers are written back as they have been read. -/

namespace Number

open Grammar (Digits Whole)

theorem digitValue_lt {c : Char} (h : c.isDigit = true) : digitValue c < 10 := by
  obtain ⟨-, bound⟩ := Char.isDigit_iff_toNat.mp h
  change c.toNat ≤ 57 at bound
  change c.toNat - 48 < 10
  omega

theorem digitChar_digitValue {c : Char} (h : c.isDigit = true) : (digitValue c).digitChar = c := by
  obtain ⟨bound, -⟩ := Char.isDigit_iff_toNat.mp h
  change 48 ≤ c.toNat at bound
  apply Char.toNat_inj.mp
  rw [Nat.toNat_digitChar_of_lt_ten (digitValue_lt h)]
  change 48 + (c.toNat - 48) = c.toNat
  omega

theorem toDigits_append {cs : List Char} (digits : ∀ c ∈ cs, c.isDigit = true) {n : Nat}
    (pos : 0 < n) :
    Nat.toDigits 10 n ++ cs =
      Nat.toDigits 10 (cs.foldl (fun n c => 10 * n + digitValue c) n) := by
  induction cs generalizing n with
  | nil => simp
  | cons c cs ih =>
      obtain ⟨digit, digits⟩ := List.forall_mem_cons.mp digits
      have small := digitValue_lt digit
      have next : Nat.toDigits 10 n ++ [c] = Nat.toDigits 10 (10 * n + digitValue c) := by
        rw [← Nat.toDigits_append_toDigits (by decide) pos small, Nat.toDigits_of_lt_base small,
          digitChar_digitValue digit]
      calc
        Nat.toDigits 10 n ++ c :: cs = Nat.toDigits 10 n ++ [c] ++ cs := by simp
        _ = Nat.toDigits 10 (10 * n + digitValue c) ++ cs := by rw [next]
        _ = _ := ih digits (by omega)

theorem toDigits_ofDigits {cs : List Char} (whole : Whole cs) :
    Nat.toDigits 10 (ofDigits cs) = cs := by
  cases whole with
  | zero => decide
  | digits positive digits =>
      rename_i c cs
      obtain ⟨digit, digits⟩ := List.forall_mem_cons.mp digits.2
      have small := digitValue_lt digit
      have pos : 0 < digitValue c := by
        apply Nat.pos_of_ne_zero
        intro zero
        apply positive
        rw [← digitChar_digitValue digit, zero]
        rfl
      have first : ofDigits (c :: cs) =
          cs.foldl (fun n c => 10 * n + digitValue c) (digitValue c) := by
        simp [ofDigits]
      rw [first, ← toDigits_append digits pos, Nat.toDigits_of_lt_base small,
        digitChar_digitValue digit]
      rfl

theorem whole_of_unsigned {cs : List Char} (number : Grammar.Unsigned cs)
    (whole : isWhole cs = true) : Whole cs := by
  have mark {c : Char} (member : c ∈ cs) : c ≠ '.' ∧ c ≠ 'e' ∧ c ≠ 'E' := by
    rw [isWhole, List.all_eq_true] at whole
    exact of_decide_eq_true (whole c member)
  obtain ⟨digits, fraction, exponent⟩ := number
  cases fraction with
  | point _ => exact absurd rfl (mark (by simp)).1
  | none =>
      cases exponent with
      | none => simpa using digits
      | plain he _ | signed he _ _ =>
          obtain ⟨-, small, capital⟩ := mark (List.mem_append_right _ List.mem_cons_self)
          exact absurd he (by simp [small, capital])

/-- A literal without fraction and exponent is the decimal text of its integer, but for a sign in
front of zero. -/
theorem integerText_of_whole {cs : List Char} (literal : isLiteral cs = true)
    (whole : isWhole cs = true) (nonzero : (Decimal.ofLiteral cs).toInt ≠ 0) :
    integerText (Decimal.ofLiteral cs).toInt = cs := by
  have number := unsigned_unsignedPart (isLiteral_iff.mp literal)
  have part := whole_of_unsigned number (isWhole_unsignedPart whole)
  have nothing := dropWhile_of_whole number (isWhole_unsignedPart whole)
  have value : mantissa (unsignedPart cs) = ofDigits (unsignedPart cs) := by
    have parts := List.takeWhile_append_dropWhile (p := Char.isDigit) (l := unsignedPart cs)
    rw [nothing, List.append_nil] at parts
    rw [mantissa, nothing, parts, fractionDigits, List.append_nil]
    intro _ empty
    cases empty
  rw [Decimal.ofLiteral_eq, Decimal.toInt, value] at nonzero ⊢
  dsimp only at nonzero ⊢
  by_cases sign : cs.head? = some '-'
  · obtain ⟨rest, rfl⟩ := List.head?_eq_some_iff.mp sign
    simp only [sign, decide_true, if_true] at nonzero ⊢
    rw [integerText, if_pos (by omega), Int.natAbs_neg, Int.natAbs_natCast, toDigits_ofDigits part]
    rfl
  · have unsigned : unsignedPart cs = cs := by
      unfold unsignedPart
      split
      · exact absurd rfl sign
      · rfl
    simp only [sign, decide_false, Bool.false_eq_true, if_false]
    rw [integerText, if_neg (by omega), Int.natAbs_natCast, toDigits_ofDigits part, unsigned]

/-- A literal with a fraction or an exponent is read as a 64-bit integer that a narrower type does
not have. -/
structure Narrows (type : IntegerType) (cs : List Char) (n : Int) : Prop where
  notWhole : isWhole cs = false
  read : toInt64 cs = .ok n
  refused : type.admits n = false

theorem integerText_of_refused {type : IntegerType} {cs : List Char} {n : Int}
    (read : toInt64 cs = .ok n) (refused : type.admits n = false) (whole : isWhole cs = true) :
    integerText n = cs := by
  obtain ⟨literal, -, taken⟩ := toInt64_eq_ok_iff.mp read
  rw [takenValue?, if_pos whole, literalValue_of_whole literal whole, Option.some_inj,
    Int.cast_inj] at taken
  subst taken
  apply integerText_of_whole literal whole
  intro zero
  rw [zero] at refused
  cases type <;> exact absurd refused (by decide)

end Number

/-- The text that an error of conversion quotes. -/
def ReadError.quoted? : ReadError → Option String
  | .outOfRange value _ _ | .invalidNumber value _ _ => some value
  | .malformed _ _ | .unexpected _ _ _ | .unavailable _ _ => none

namespace ReadM

variable {α : Type} {r r' : Reader} {s : String} {e : ReadError} {type : Number.IntegerType}

theorem quoted_of_convert {target : String} {result : Except Number.ConversionFault α}
    (h : convert s target result r = .error e r') : e.quoted? = some s := by
  cases result with
  | ok a => cases h
  | error fault => cases fault <;> cases h <;> rfl

theorem toInteger_of_narrows {n : Int} (narrows : Number.Narrows type s.toList n) :
    toInteger type s r = .error (.outOfRange (intText n) type.name r.location) r := by
  rw [toInteger, narrows.read]
  refine (bind_of_ok rfl).trans ?_
  rw [if_neg (by simp [narrows.refused])]
  rfl

theorem quoted_of_toInteger (other : ∀ n, ¬ Number.Narrows type s.toList n)
    (h : toInteger type s r = .error e r') : e.quoted? = some s := by
  obtain converting | ⟨n, r₁, converted, checked⟩ := bind_eq_error.mp h
  · exact quoted_of_convert converting
  obtain ⟨read, -⟩ := convert_eq_ok converted
  by_cases admitted : type.admits n = true
  · rw [if_pos admitted] at checked
    cases checked
  · have refused : type.admits n = false := by simpa using admitted
    have whole : Number.isWhole s.toList = true := by
      by_contra fraction
      exact other n ⟨by simpa using fraction, read, refused⟩
    rw [if_neg admitted] at checked
    cases checked
    rw [ReadError.quoted?, intText, Number.integerText_of_refused read refused whole,
      String.ofList_toList]

end ReadM

namespace Call

variable {c : Call} {r r₁ r' : Reader} {l : Lexeme} {s : String} {e : ReadError}

theorem Reads.unique {type type' : ScalarType} (h : c.Reads type) (h' : c.Reads type') :
    type = type' := by
  rcases h with rfl | rfl
  · rcases h' with h' | h' <;> cases h'
    rfl
  · rcases h' with h' | h' <;> cases h'
    rfl

/-- An accessor for numbers that finds a text in quotes or a number fails with an error that quotes
the text, character by character. It does so whether the text is no number of the type or lies
outside of it, with one exception: a literal with a fraction or an exponent that is read as a 64-bit
integer is quoted in the plain form of that integer, which it is not, if a narrower type does not
have the integer. -/
theorem quoted_of_conversion_error (accessor : c.ReadsNumber)
    (look : ReadM.peekLexeme r = .ok l r₁) (content : ReadM.textOrLiteral? l = some s)
    (h : c.run r = .error e r') :
    e.IsConversion ∧
      ((∀ type n, c.Reads (.integer type) → ¬ Number.Narrows type s.toList n) →
        e.quoted? = some s) ∧
      ∀ type n, c.Reads (.integer type) → Number.Narrows type s.toList n →
        e = .outOfRange (intText n) type.name r'.location ∧ intText n ≠ s := by
  obtain ⟨conversion, -, -⟩ := failure_of_run accessor look content h
  obtain ⟨type, numeric, reads⟩ := accessor
  obtain ⟨r₀, look, run⟩ := nextScalar_of_run reads look content h
  refine ⟨conversion, ?_, ?_⟩
  · intro other
    obtain ⟨integer, rfl, converting⟩ | ⟨-, converting⟩ :=
      ReadM.conversion_of_nextScalar numeric look content run
    · exact ReadM.quoted_of_toInteger (fun n => other integer n reads) converting
    · exact ReadM.quoted_of_convert converting
  · intro narrower n reads' narrows
    obtain rfl := Reads.unique reads reads'
    obtain ⟨integer, same, run⟩ | ⟨double, -⟩ :=
      ReadM.conversion_of_nextScalar numeric look content run
    · cases same
      rw [ReadM.toInteger_of_narrows narrows] at run
      cases run
      refine ⟨rfl, ?_⟩
      intro same
      have whole := Number.isWhole_integerText n
      rw [← String.toList_ofList (l := Number.integerText n), ← intText, same] at whole
      exact absurd (whole.symm.trans narrows.notWhole) (by decide)
    · exact absurd rfl (double narrower)

/-- A text in quotes that is no signed byte. -/
theorem quoted_of_conversion_error_inQuotes :
    ∃ r e r', r = Reader.new ⟨[.data 0x22 (Utf8.encode "-129\"".toList)], .endOfData⟩ ∧
      (nextBoxed (.integer .int8)).run r = .error e r' ∧ e.quoted? = some "-129" := by
  let r := Reader.new ⟨[.data 0x22 (Utf8.encode "-129\"".toList)], .endOfData⟩
  have accessor : ReadsNumber (.nextBoxed (.integer .int8)) :=
    ⟨.integer .int8, trivial, .inr rfl⟩
  have answer : answer? (ReadM.peekLexeme r) = some (.string "-129") := by decide +kernel
  have failure : (error? ((nextBoxed (.integer .int8)).run r)).isSome = true := by decide +kernel
  obtain ⟨r₁, look⟩ := answer?_eq_some answer
  obtain ⟨e, error⟩ := Option.isSome_iff_exists.mp failure
  obtain ⟨r', run⟩ := error?_eq_some error
  obtain ⟨-, quotes, -⟩ := quoted_of_conversion_error accessor look rfl run
  refine ⟨r, e, r', rfl, run, quotes ?_⟩
  intro type n _ narrows
  exact absurd narrows.notWhole (by decide)

/-- A literal with a fraction is not quoted as it stands. -/
theorem not_quoted_of_conversion_error :
    ¬ ∀ (source : Source) (settings : ReaderSettings) (calls : List Call) (c : Call)
      (r r₁ r' : Reader) (l : Lexeme) (s : String) (e : ReadError),
        r = ((Reader.new source settings).session calls).2 → c.ReadsNumber →
        ReadM.peekLexeme r = .ok l r₁ → ReadM.textOrLiteral? l = some s →
        c.run r = .error e r' → e.IsConversion → e.quoted? = some s := by
  intro claim
  let r := Reader.new ⟨[.data 0x32 (Utf8.encode "56.0".toList)], .endOfData⟩
  have answer : answer? (ReadM.peekLexeme r) = some (.number "256.0") := by decide +kernel
  have failure : error? ((nextScalar (.integer .int8)).run r) =
      some (.outOfRange "256" "i8" ⟨some [], some ⟨0, 5⟩, some 5⟩) := by
    decide +kernel
  obtain ⟨r₁, look⟩ := answer?_eq_some answer
  obtain ⟨r', run⟩ := error?_eq_some failure
  have same := claim _ {} [] _ r r₁ r' _ _ _ rfl ⟨.integer .int8, trivial, .inl rfl⟩ look rfl run
    trivial
  exact absurd same (by decide)

end Call

end TypedJson
