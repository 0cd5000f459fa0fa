import TypedJson.Proofs.Number.Exact
import TypedJson.Proofs.Reader.Scalars
import TypedJson.Proofs.Reader.Session
import TypedJson.Proofs.Reader.Steps

/-!
# Reading numbers

Where the next unit is a text in quotes or a number, an accessor for numbers consumes it and then
converts its content. An integer is answered for the literals that are taken for an integer of the
type. An accessor fails only in the conversion, so that the error is located behind the value: in an
array, where values are counted when they are complete, at the index after that of the value.
-/

set_option autoImplicit false
set_option relaxedAutoImplicit false

namespace TypedJson

open Operation

/-- Whether an error says that a text has no value of the type asked for. -/
def ReadError.IsConversion : ReadError → Prop
  | .outOfRange _ _ _ | .invalidNumber _ _ _ => True
  | .malformed _ _ | .unexpected _ _ _ | .unavailable _ _ => False

/-- The types that accessors for numbers read. -/
def ScalarType.IsNumeric : ScalarType → Prop
  | .integer _ | .single | .double => True
  | .boolean | .text => False

namespace ReadM

variable {α β : Type} {r r₁ r' : Reader} {l : Lexeme} {s : String} {e : ReadError}

/-! An accessor for numbers takes the content of a value and converts it. -/

theorem nextNumberText_of_content (look : peekLexeme r = .ok l r₁)
    (content : textOrLiteral? l = some s) : nextNumberText r = .ok s r₁.endScalar :=
  takeScalar_of_peek look content

def toInteger (type : Number.IntegerType) (text : String) : ReadM Int := do
  let n ← convert text type.name (Number.toInt64 text.toList)
  if type.admits n then pure n else fail (.outOfRange (intText n) type.name)

theorem nextInteger_of_content {type : Number.IntegerType} (look : peekLexeme r = .ok l r₁)
    (content : textOrLiteral? l = some s) :
    nextInteger type r = toInteger type s r₁.endScalar :=
  bind_of_ok (nextNumberText_of_content look content)

theorem nextDouble_of_content (look : peekLexeme r = .ok l r₁)
    (content : textOrLiteral? l = some s) :
    nextDouble r = convert s Number.doubleName (Number.toDouble r.settings.lenient s)
      r₁.endScalar :=
  (get_bind _ r).trans (bind_of_ok (nextNumberText_of_content look content))

/-- The reader stays as it is, and if the operation fails, then with an error of conversion located
where the reader stands. -/
def Judges (x : ReadM α) : Prop :=
  ∀ r, (∃ a, x r = .ok a r) ∨ ∃ e, x r = .error e r ∧ e.IsConversion ∧ e.location = r.location

theorem judges_pure {a : α} : Judges (pure a : ReadM α) :=
  fun _ => .inl ⟨a, rfl⟩

theorem Judges.bind {x : ReadM α} {f : α → ReadM β} (hx : Judges x) (hf : ∀ a, Judges (f a)) :
    Judges (x >>= f) := by
  intro r
  obtain ⟨a, run⟩ | ⟨e, run, failed⟩ := hx r
  · rw [bind_of_ok run]
    exact hf a r
  · exact .inr ⟨e, bind_of_error run, failed⟩

theorem judges_outOfRange {value target : String} :
    Judges (fail (.outOfRange value target) : ReadM α) :=
  fun _ => .inr ⟨_, rfl, trivial, rfl⟩

theorem judges_convert {text target : String} {result : Except Number.ConversionFault α} :
    Judges (convert text target result) := by
  cases result with
  | ok a => exact judges_pure
  | error fault =>
      cases fault with
      | range => exact judges_outOfRange
      | format => exact fun _ => .inr ⟨_, rfl, trivial, rfl⟩

theorem judges_toInteger {type : Number.IntegerType} : Judges (toInteger type s) := by
  refine judges_convert.bind ?_
  intro n
  cases type.admits n with
  | true => exact judges_pure
  | false => exact judges_outOfRange

theorem Judges.of_error {x : ReadM α} (hx : Judges x) (h : x r = .error e r') :
    e.IsConversion ∧ r' = r ∧ e.location = r.location := by
  obtain ⟨a, run⟩ | ⟨_, run, conversion, at_⟩ := hx r
  · cases run.symm.trans h
  · cases run.symm.trans h
    exact ⟨conversion, rfl, at_⟩

theorem conversion_of_nextScalar {type : ScalarType} (numeric : type.IsNumeric)
    (look : peekLexeme r = .ok l r₁) (content : textOrLiteral? l = some s)
    (h : nextScalar type r = .error e r') :
    (∃ integer, type = .integer integer ∧ toInteger integer s r₁.endScalar = .error e r') ∨
      (∀ integer, type ≠ .integer integer) ∧
        convert s Number.doubleName (Number.toDouble r.settings.lenient s) r₁.endScalar =
          .error e r' := by
  cases type with
  | integer type =>
      obtain run | ⟨_, _, -, ⟨⟩⟩ := bind_eq_error.mp h
      exact .inl ⟨type, rfl, (nextInteger_of_content look content).symm.trans run⟩
  | single =>
      obtain narrowing | ⟨_, _, -, ⟨⟩⟩ := bind_eq_error.mp h
      obtain run | ⟨_, _, -, ⟨⟩⟩ := bind_eq_error.mp narrowing
      exact .inr ⟨nofun, (nextDouble_of_content look content).symm.trans run⟩
  | double =>
      obtain run | ⟨_, _, -, ⟨⟩⟩ := bind_eq_error.mp h
      exact .inr ⟨nofun, (nextDouble_of_content look content).symm.trans run⟩
  | boolean | text => exact absurd numeric id

/-- An accessor for numbers fails in the conversion, behind the value that it has consumed. -/
theorem failure_of_nextScalar {type : ScalarType} (numeric : type.IsNumeric)
    (look : peekLexeme r = .ok l r₁) (content : textOrLiteral? l = some s)
    (h : nextScalar type r = .error e r') :
    e.IsConversion ∧ r' = r₁.endScalar ∧ e.location = r₁.endScalar.location := by
  obtain ⟨_, -, run⟩ | ⟨-, run⟩ := conversion_of_nextScalar numeric look content h
  · exact judges_toInteger.of_error run
  · exact judges_convert.of_error run

/-! Which integers are answered. -/

theorem toInteger_eq_ok_iff {type : Number.IntegerType} {n : Int} :
    toInteger type s r = .ok n r' ↔ r' = r ∧ Number.isLiteral s.toList = true ∧
      type.admits n = true ∧ Number.takenValue? s.toList = some (n : ℚ) := by
  constructor
  · intro h
    obtain ⟨m, r₁, converted, checked⟩ := bind_eq_ok.mp h
    obtain ⟨result, rfl⟩ := convert_eq_ok converted
    by_cases admitted : type.admits m = true
    · rw [if_pos admitted] at checked
      cases checked
      obtain ⟨literal, -, taken⟩ := Number.toInt64_eq_ok_iff.mp result
      exact ⟨rfl, literal, admitted, taken⟩
    · rw [if_neg admitted] at checked
      cases checked
  · rintro ⟨rfl, literal, admitted, taken⟩
    have result := Number.toInt64_eq_ok_iff.mpr
      ⟨literal, Number.IntegerType.admits_int64 admitted, taken⟩
    rw [toInteger, result]
    refine (bind_of_ok rfl).trans ?_
    rw [if_pos admitted]
    rfl

/-- An accessor for integers answers the integer of its type that the content is taken for, and
otherwise an error of conversion. What it answers is what the content denotes, unless the content is
misread; and that happens only to literals with a fraction or an exponent that are not short. -/
theorem nextInteger_of_textOrLiteral (look : peekLexeme r = .ok l r₁)
    (content : textOrLiteral? l = some s) :
    (∀ type n r', nextInteger type r = .ok n r' ↔ r' = r₁.endScalar ∧
      Number.isLiteral s.toList = true ∧ type.admits n = true ∧
      Number.takenValue? s.toList = some (n : ℚ)) ∧
    (∀ type, (∃ n, nextInteger type r = .ok n r₁.endScalar) ∨
      ∃ e, nextInteger type r = .error e r₁.endScalar ∧ e.IsConversion) ∧
    ((∀ type n, (∃ r', nextInteger type r = .ok n r') ↔ Number.isLiteral s.toList = true ∧
      type.admits n = true ∧ Number.literalValue s.toList = n) ↔ ¬ Number.Misread s.toList) ∧
    (Number.Misread s.toList → Number.isWhole s.toList = false ∧ ¬ Number.IsShort s.toList) := by
  have answers (type : Number.IntegerType) (n : Int) (r' : Reader) :
      nextInteger type r = .ok n r' ↔ r' = r₁.endScalar ∧ Number.isLiteral s.toList = true ∧
        type.admits n = true ∧ Number.takenValue? s.toList = some (n : ℚ) := by
    rw [nextInteger_of_content look content, toInteger_eq_ok_iff]
  refine ⟨answers, ?_, ?_, ?_⟩
  · intro type
    have judged : Judges (toInteger type s) := judges_toInteger
    rw [nextInteger_of_content look content]
    obtain answered | ⟨e, failed, conversion, -⟩ := judged r₁.endScalar
    · exact .inl answered
    · exact .inr ⟨e, failed, conversion⟩
  · rw [← Number.toInt64_exact_iff]
    constructor
    · intro exact n
      rw [Number.toInt64_eq_ok_iff, ← exact .int64 n]
      simp only [answers, exists_eq_left]
    · intro exact type n
      simp only [answers, exists_eq_left]
      by_cases admitted : type.admits n = true
      · have same := exact n
        rw [Number.toInt64_eq_ok_iff] at same
        simpa only [admitted, Number.IntegerType.admits_int64 admitted, true_and] using same
      · simp [admitted]
  · intro misread
    refine ⟨?_, fun short => short.not_misread misread⟩
    obtain ⟨-, n, -, differs⟩ := misread
    by_contra whole
    apply differs
    rw [Number.takenValue?, if_pos (Bool.eq_true_of_not_eq_false whole), Option.some_inj]

/-- Fifteen, with a fraction and an exponent, as a text in quotes. -/
theorem nextInteger_of_textOrLiteral_fifteen :
    ∃ r r', r = Reader.new ⟨[.data 0x22 (Utf8.encode "1.5e1\"".toList)], .endOfData⟩ ∧
      nextInteger .uint8 r = .ok 15 r' := by
  have answer : answer? (peekLexeme (Reader.new
      ⟨[.data 0x22 (Utf8.encode "1.5e1\"".toList)], .endOfData⟩)) = some (.string "1.5e1") := by
    decide +kernel
  obtain ⟨r₁, look⟩ := answer?_eq_some answer
  obtain ⟨-, -, exact, short⟩ := nextInteger_of_textOrLiteral look rfl
  have mantissa : Number.mantissa (Number.unsignedPart "1.5e1".toList) = 15 := by decide
  have scale : Number.scale (Number.unsignedPart "1.5e1".toList) = 0 := by decide
  have value : Number.literalValue "1.5e1".toList = (15 : Int) := by
    rw [Number.literalValue, mantissa, scale, if_neg (by decide)]
    norm_num
  have small : Number.IsShort "1.5e1".toList := by
    refine ⟨by rw [mantissa]; norm_num, by rw [value]; norm_num, by rw [scale]; norm_num, ?_⟩
    decide
  obtain ⟨r', run⟩ := (exact.mpr (fun misread => (short misread).2 small) .uint8 15).mpr
    ⟨by decide, by decide, value⟩
  exact ⟨_, r', rfl, run⟩

/-- A literal with a fraction that no double equals. -/
theorem not_nextInteger_of_textOrLiteral :
    ¬ ∀ (source : Source) (settings : ReaderSettings) (calls : List Call) (r r₁ : Reader)
      (l : Lexeme) (s : String) (type : Number.IntegerType) (n : Int),
        r = ((Reader.new source settings).session calls).2 → peekLexeme r = .ok l r₁ →
        textOrLiteral? l = some s →
        ((∃ r', nextInteger type r = .ok n r') ↔ Number.isLiteral s.toList = true ∧
          type.admits n = true ∧ Number.literalValue s.toList = n) := by
  intro claim
  let r := Reader.new ⟨[.data 0x39 (Utf8.encode "007199254740993.0".toList)], .endOfData⟩
  have answer : answer? (peekLexeme r) = some (.number "9007199254740993.0") := by decide +kernel
  have integer : answer? (nextInteger .int64 r) = some 9007199254740992 := by decide +kernel
  obtain ⟨r₁, look⟩ := answer?_eq_some answer
  have answered := answer?_eq_some integer
  obtain ⟨-, -, denotes⟩ := (claim _ {} [] r r₁ _ _ .int64 _ rfl look rfl).mp answered
  have mantissa : Number.mantissa (Number.unsignedPart "9007199254740993.0".toList) =
      90071992547409930 := by
    decide
  have scale : Number.scale (Number.unsignedPart "9007199254740993.0".toList) = -1 := by decide
  rw [Number.literalValue, mantissa, scale, if_neg (by decide)] at denotes
  norm_num at denotes

end ReadM

namespace Reader

variable {r r₁ r' : Reader} {l : Lexeme} {e : ReadError}

theorem settings_endValue (r : Reader) : r.endValue.settings = r.settings := by
  unfold endValue
  split <;> rfl

theorem path?_endScalar (tracked : r.settings.trackPath = true)
    (look : ReadM.peekLexeme r = .ok l r₁) :
    r₁.endScalar.path? = some (PathStep.counted r.steps).reverse := by
  have ended : r₁.endScalar.settings = r₁.settings := settings_endValue _
  have kept : r₁.endScalar.settings = r.settings := ended.trans (settings_of_peekLexeme look)
  have counted : r₁.endScalar.steps = PathStep.counted r₁.steps := steps_endValue _
  rw [path?_of_tracked (by rw [kept]; exact tracked), counted, steps_of_peekLexeme look]

theorem path?_of_item {outer : List PathStep} {index : Nat} (tracked : r.settings.trackPath = true)
    (look : ReadM.peekLexeme r = .ok l r₁) (at_ : r.path? = some (outer ++ [.item index])) :
    r₁.endScalar.path? = some (outer ++ [.item (index + 1)]) := by
  have steps : r.steps = .item index :: outer.reverse := by
    rw [path?_of_tracked tracked, Option.some_inj, List.reverse_eq_iff] at at_
    rw [at_, List.reverse_append]
    rfl
  rw [path?_endScalar tracked look, steps]
  simp [PathStep.counted]

theorem path?_of_no_item (tracked : r.settings.trackPath = true)
    (look : ReadM.peekLexeme r = .ok l r₁)
    (other : ∀ outer index, r.path? ≠ some (outer ++ [.item index])) :
    r₁.endScalar.path? = r.path? := by
  rw [path?_endScalar tracked look, path?_of_tracked tracked]
  cases steps : r.steps with
  | nil => rfl
  | cons step outer =>
      cases step with
      | item index =>
          refine absurd ?_ (other outer.reverse index)
          rw [path?_of_tracked tracked, steps, List.reverse_cons]
      | member name => rfl

end Reader

/-- Reading a scalar of a type, or a null in its place. -/
def Call.Reads (c : Call) (type : ScalarType) : Prop :=
  c = .nextScalar type ∨ c = .nextBoxed type

def Call.ReadsNumber (c : Call) : Prop :=
  ∃ type : ScalarType, type.IsNumeric ∧ (c = .nextScalar type ∨ c = .nextBoxed type)

namespace Call

variable {c : Call} {r r₁ r' : Reader} {l : Lexeme} {s : String} {e : ReadError}

theorem nextScalar_of_run {type : ScalarType} (reads : c.Reads type)
    (look : ReadM.peekLexeme r = .ok l r₁) (content : ReadM.textOrLiteral? l = some s)
    (h : c.run r = .error e r') :
    ∃ r₀, ReadM.peekLexeme r₀ = .ok l r₁ ∧ ReadM.nextScalar type r₀ = .error e r' := by
  rcases reads with rfl | rfl
  · obtain run | ⟨_, _, -, ⟨⟩⟩ := bind_eq_error.mp h
    exact ⟨r, look, run⟩
  · have present : l.token ≠ .null := by
      intro null
      cases l with
      | null => cases content
      | _ => cases null
    obtain run | ⟨_, _, -, ⟨⟩⟩ := bind_eq_error.mp h
    have read := (bind_of_ok (ReadM.peek_of_peek look)).symm.trans run
    rw [if_neg present] at read
    obtain read | ⟨_, _, -, ⟨⟩⟩ := bind_eq_error.mp read
    exact ⟨r₁, ReadM.peekLexeme_of_some (ReadM.lookahead_of_peek look), read⟩

theorem failure_of_run (accessor : c.ReadsNumber) (look : ReadM.peekLexeme r = .ok l r₁)
    (content : ReadM.textOrLiteral? l = some s) (h : c.run r = .error e r') :
    e.IsConversion ∧ r' = r₁.endScalar ∧ e.location = r₁.endScalar.location := by
  obtain ⟨type, numeric, reads⟩ := accessor
  obtain ⟨r₀, look, run⟩ := nextScalar_of_run reads look content h
  exact ReadM.failure_of_nextScalar numeric look content run

/-- Where an accessor for numbers finds a value that it cannot convert, it has consumed the value,
and the error is located behind it: with the path of the value, unless the value is the item of an
array, which has the next index then. -/
theorem path_of_conversion_error (accessor : c.ReadsNumber)
    (tracked : r.settings.trackPath = true) (look : ReadM.peekLexeme r = .ok l r₁)
    (content : ReadM.textOrLiteral? l = some s) (h : c.run r = .error e r') :
    e.IsConversion ∧ r' = r₁.endScalar ∧ e.location = r'.location ∧
      (∀ outer index, r.path? = some (outer ++ [.item index]) →
        e.location.path = some (outer ++ [.item (index + 1)])) ∧
      ((∀ outer index, r.path? ≠ some (outer ++ [.item index])) →
        e.location.path = r.path?) := by
  obtain ⟨conversion, rfl, at_⟩ := failure_of_run accessor look content h
  refine ⟨conversion, rfl, at_, ?_, ?_⟩
  · intro outer index item
    rw [at_]
    exact Reader.path?_of_item tracked look item
  · intro other
    rw [at_]
    exact Reader.path?_of_no_item tracked look other

/-- The second item of an array, which is no signed byte. -/
theorem path_of_conversion_error_secondItem :
    ∃ r e r', r = ((Reader.new ⟨[.data 0x5B (Utf8.encode "1,300]".toList)], .endOfData⟩).session
        [.beginArray, .skipValue]).2 ∧
      (nextScalar (.integer .int8)).run r = .error e r' ∧ r.path? = some [.item 1] ∧
      e.location.path = some [.item 2] := by
  let r := ((Reader.new ⟨[.data 0x5B (Utf8.encode "1,300]".toList)], .endOfData⟩).session
    [.beginArray, .skipValue]).2
  have accessor : ReadsNumber (.nextScalar (.integer .int8)) :=
    ⟨.integer .int8, trivial, .inl rfl⟩
  have answer : answer? (ReadM.peekLexeme r) = some (.number "300") := by decide +kernel
  have failure : (error? ((nextScalar (.integer .int8)).run r)).isSome = true := by decide +kernel
  have item : r.path? = some ([] ++ [.item 1]) := by decide +kernel
  obtain ⟨r₁, look⟩ := answer?_eq_some answer
  obtain ⟨e, error⟩ := Option.isSome_iff_exists.mp failure
  obtain ⟨r', run⟩ := error?_eq_some error
  obtain ⟨-, -, -, behind, -⟩ :=
    path_of_conversion_error accessor (by decide +kernel) look rfl run
  exact ⟨r, e, r', rfl, run, item, behind [] 1 item⟩

/-- The first item of an array is reported at the index of the second. -/
theorem not_path_of_conversion_error :
    ¬ ∀ (source : Source) (settings : ReaderSettings) (calls : List Call) (c : Call)
      (r r₁ r' : Reader) (l : Lexeme) (s : String) (e : ReadError), settings.trackPath = true →
        r = ((Reader.new source settings).session calls).2 → c.ReadsNumber →
        ReadM.peekLexeme r = .ok l r₁ → ReadM.textOrLiteral? l = some s →
        c.run r = .error e r' → e.IsConversion → e.location.path = r.path? := by
  intro claim
  let r := ((Reader.new ⟨[.data 0x5B (Utf8.encode "300]".toList)], .endOfData⟩).session
    [.beginArray]).2
  have answer : answer? (ReadM.peekLexeme r) = some (.number "300") := by decide +kernel
  have failure : error? ((nextScalar (.integer .int8)).run r) =
      some (.outOfRange "300" "i8" ⟨some [.item 1], some ⟨0, 4⟩, some 4⟩) := by
    decide +kernel
  have item : r.path? = some [.item 0] := by decide +kernel
  obtain ⟨r₁, look⟩ := answer?_eq_some answer
  obtain ⟨r', run⟩ := error?_eq_some failure
  have same := claim _ _ _ _ r r₁ r' _ _ _ rfl rfl
    ⟨.integer .int8, trivial, .inl rfl⟩ look rfl run trivial
  rw [item] at same
  exact absurd same (by decide)

end Call

end TypedJson
