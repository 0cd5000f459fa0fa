import TypedJson.Proofs.Lexing.Progress
import TypedJson.Proofs.Lexing.Spelling

/-!
# Well-formed text

The bytes behind which lexing has come are characters, quoted texts and, in lenient documents,
comments. Characters and quoted texts are well-formed UTF-8; the content of a comment is not looked
at, so that nothing is known about it.
-/

set_option autoImplicit false
set_option relaxedAutoImplicit false

namespace TypedJson

open Operation
open Utf8 (encode)

namespace Grammar

/-- The content of a text in such quotes, with its escape sequences as they are written. -/
inductive Content (quote : Char) : List Char → Prop where
  | nil : Content quote []
  | plain {cs : List Char} {c : Char} : Content quote cs → c ≠ quote → c ≠ '\\' →
      Content quote (cs ++ [c])
  | escape {cs : List Char} {c : Char} : Content quote cs → Content quote (cs ++ ['\\', c])

def EndsLine (b : UInt8) : Prop :=
  b = Ascii.lineFeed ∨ b = Ascii.carriageReturn

def LineMark (mark : List UInt8) : Prop :=
  mark = [Ascii.slash, Ascii.slash] ∨ mark = [Ascii.hash]

/-- A comment, and what may stand behind it. -/
inductive Comment : List UInt8 → List UInt8 → Prop where
  | block {body rest : List UInt8} : ¬ [Ascii.star, Ascii.slash] <:+: body →
      Comment (Ascii.slash :: Ascii.star :: (body ++ [Ascii.star, Ascii.slash])) rest
  | line {mark body rest : List UInt8} : LineMark mark → (∀ b ∈ body, ¬ EndsLine b) →
      (∀ b, rest.head? = some b → EndsLine b) → Comment (mark ++ body) rest

/-- The characters that open a quoted text or a comment. -/
def openers : List Char :=
  ['"', '\'', '/', '#']

/-- From the beginning of some bytes to a place in them, with the bytes behind it, there stand only
characters, quoted texts and, in lenient documents, comments. -/
inductive Span (lenient : Bool) (bytes : List UInt8) : List UInt8 → Prop where
  | start : Span lenient bytes bytes
  | character {c : Char} {rest : List UInt8} :
      Span lenient bytes (String.utf8EncodeChar c ++ rest) → c ∉ openers → Span lenient bytes rest
  | quoted {quote : Char} {body : List Char} {rest : List UInt8} :
      Span lenient bytes (encode (quote :: (body ++ [quote])) ++ rest) →
      quote = '"' ∨ quote = '\'' ∧ lenient = true → Content quote body → Span lenient bytes rest
  | comment {text rest : List UInt8} : Span lenient bytes (text ++ rest) → lenient = true →
      Comment text rest → Span lenient bytes rest

def Inside (lenient : Bool) (bytes : List UInt8) (quote : Char) (rest : List UInt8) : Prop :=
  ∃ body, Content quote body ∧ Span lenient bytes (encode (quote :: body) ++ rest)

variable {lenient : Bool} {bytes rest : List UInt8} {quote c : Char} {b : UInt8}

theorem Span.ascii (h : Span lenient bytes (b :: rest)) (ascii : b.toNat < 0x80)
    (plain : Ascii.toChar b ∉ openers) : Span lenient bytes rest := by
  apply Span.character (c := Ascii.toChar b) _ plain
  rw [Ascii.encode_toChar ascii]
  exact h

/-- If the comments are well-formed, so is all that lies behind. -/
theorem Span.encoded (h : Span lenient bytes rest) (comments : lenient = true → ∀ text behind,
    Span lenient bytes (text ++ behind) → Comment text behind → ∃ cs, text = encode cs) :
    ∃ cs, bytes = encode cs ++ rest := by
  induction h with
  | start => exact ⟨[], rfl⟩
  | @character c rest _ _ ih =>
      obtain ⟨cs, front⟩ := ih
      refine ⟨cs ++ [c], ?_⟩
      rw [front, Utf8.encode_append, Utf8.encode_cons, Utf8.encode_nil, List.append_nil,
        List.append_assoc]
  | @quoted quote body rest _ _ _ ih =>
      obtain ⟨cs, front⟩ := ih
      refine ⟨cs ++ quote :: (body ++ [quote]), ?_⟩
      rw [front, Utf8.encode_append, List.append_assoc]
  | @comment text rest before allowed comment ih =>
      obtain ⟨cs, front⟩ := ih
      obtain ⟨ds, content⟩ := comments allowed text rest before comment
      refine ⟨cs ++ ds, ?_⟩
      rw [front, content, Utf8.encode_append, List.append_assoc]

/-- A well-formed document. Outside comments there is nothing but characters and quoted texts, and
comments are for lenient documents. If they are well-formed too, so is the whole. -/
structure WellFormed (lenient : Bool) (bytes : List UInt8) : Prop where
  outside : Span lenient bytes []
  throughout : (lenient = true → ∀ text behind, Span lenient bytes (text ++ behind) →
    Comment text behind → ∃ cs, text = encode cs) → ∃ cs, bytes = encode cs

theorem Span.wellFormed (h : Span lenient bytes []) : WellFormed lenient bytes where
  outside := h
  throughout comments := by
    obtain ⟨cs, whole⟩ := h.encoded comments
    exact ⟨cs, by rw [whole, List.append_nil]⟩

theorem Inside.open (h : Span lenient bytes (b :: rest)) (ascii : b.toNat < 0x80) :
    Inside lenient bytes (Ascii.toChar b) rest := by
  refine ⟨[], .nil, ?_⟩
  rw [Utf8.encode_cons, Ascii.encode_toChar ascii]
  exact h

theorem Inside.plain (h : Inside lenient bytes quote (String.utf8EncodeChar c ++ rest))
    (other : c ≠ quote) (plain : c ≠ '\\') : Inside lenient bytes quote rest := by
  obtain ⟨body, content, span⟩ := h
  refine ⟨body ++ [c], .plain content other plain, ?_⟩
  rw [← List.cons_append, Utf8.encode_append, Utf8.encode_cons c, Utf8.encode_nil, List.append_nil,
    List.append_assoc]
  exact span

theorem Inside.escape (h : Inside lenient bytes quote (Ascii.backslash :: b :: rest))
    (ascii : b.toNat < 0x80) : Inside lenient bytes quote rest := by
  obtain ⟨body, content, span⟩ := h
  refine ⟨body ++ ['\\', Ascii.toChar b], .escape content, ?_⟩
  have symbol : encode ['\\', Ascii.toChar b] = [Ascii.backslash, b] := by
    rw [Utf8.encode_cons, Utf8.encode_cons, Ascii.encode_toChar ascii]
    rfl
  rw [← List.cons_append, Utf8.encode_append, symbol, List.append_assoc]
  exact span

theorem Inside.close (h : Inside lenient bytes quote (String.utf8EncodeChar quote ++ rest))
    (quotes : quote = '"' ∨ quote = '\'' ∧ lenient = true) : Span lenient bytes rest := by
  obtain ⟨body, content, span⟩ := h
  refine .quoted ?_ quotes content
  rw [← List.cons_append, Utf8.encode_append, Utf8.encode_cons quote [], Utf8.encode_nil,
    List.append_nil, List.append_assoc]
  exact span

end Grammar

open Grammar (Span Inside)

/-! Blank space. -/

namespace Blank

variable {lenient : Bool} {bytes : List UInt8}

def Skipped (lenient : Bool) (bytes : List UInt8) : Phase → List UInt8 → Prop
  | .between, bs => Span lenient bytes bs
  | .slash, bs => lenient = true ∧ Span lenient bytes (Ascii.slash :: bs)
  | .line, bs => lenient = true ∧ ∃ mark body, Grammar.LineMark mark ∧
      (∀ b ∈ body, ¬ Grammar.EndsLine b) ∧ Span lenient bytes (mark ++ (body ++ bs))
  | .block star, bs => lenient = true ∧ ∃ body, ¬ [Ascii.star, Ascii.slash] <:+: body ∧
      (star = true ↔ [Ascii.star] <:+ body) ∧
      Span lenient bytes (Ascii.slash :: Ascii.star :: (body ++ bs))

variable {current : Bool} {bs : List UInt8} {b : UInt8}

theorem skipped_mark {mark : List UInt8} (opened : Grammar.LineMark mark) (allowed : lenient = true)
    (h : Span lenient bytes (mark ++ bs)) : Skipped lenient bytes .line bs := by
  refine ⟨allowed, mark, [], opened, ?_, h⟩
  intro b absent
  exact absurd absent List.not_mem_nil

theorem span_of_blank (blank : Ascii.isBlank b = true) (h : Span lenient bytes (b :: bs)) :
    Span lenient bytes bs := by
  simp only [Ascii.isBlank, Bool.or_eq_true, decide_eq_true_eq] at blank
  rcases blank with ((rfl | rfl) | rfl) | rfl
  · exact h.ascii (by decide) (by decide)
  · exact h.ascii (by decide) (by decide)
  · exact h.ascii (by decide) (by decide)
  · exact h.ascii (by decide) (by decide)

theorem span_of_endsLine (ends : Grammar.EndsLine b)
    (h : Skipped lenient bytes .line (b :: bs)) : Span lenient bytes bs := by
  obtain ⟨allowed, mark, body, opened, within, span⟩ := h
  rw [← List.append_assoc] at span
  have line : Grammar.Comment (mark ++ body) (b :: bs) := by
    apply Grammar.Comment.line opened within
    rintro _ ⟨⟩
    exact ends
  have behind : Span lenient bytes (b :: bs) := span.comment allowed line
  apply span_of_blank _ behind
  rcases ends with rfl | rfl <;> rfl

theorem skipped_line (within : ¬ Grammar.EndsLine b)
    (h : Skipped lenient bytes .line (b :: bs)) : Skipped lenient bytes .line bs := by
  obtain ⟨allowed, mark, body, opened, before, span⟩ := h
  refine ⟨allowed, mark, body ++ [b], opened, ?_, ?_⟩
  · intro d member
    rcases List.mem_append.mp member with member | member
    · exact before d member
    · rw [List.mem_singleton.mp member]
      exact within
  · rwa [List.append_assoc, List.singleton_append]

theorem span_of_blockEnd (h : Skipped lenient bytes (.block true) (Ascii.slash :: bs)) :
    Span lenient bytes bs := by
  obtain ⟨allowed, body, unclosed, star, span⟩ := h
  obtain ⟨front, rfl⟩ := star.mp rfl
  have inner : ¬ [Ascii.star, Ascii.slash] <:+: front := by
    intro early
    exact unclosed (early.trans (List.prefix_append _ _).isInfix)
  have block : Grammar.Comment (Ascii.slash :: Ascii.star ::
      (front ++ [Ascii.star, Ascii.slash])) bs := .block inner
  refine Span.comment ?_ allowed block
  simpa using span

theorem skipped_block {star : Bool} (goesOn : ¬ (star = true ∧ b = Ascii.slash))
    (h : Skipped lenient bytes (.block star) (b :: bs)) :
    Skipped lenient bytes (.block (b = Ascii.star)) bs := by
  obtain ⟨allowed, body, unclosed, last, span⟩ := h
  refine ⟨allowed, body ++ [b], ?_, ?_, ?_⟩
  · -- An end of the comment in the longer body would end with its last byte, behind a star.
    intro closed
    rcases List.infix_concat_iff.mp closed with late | early
    · rcases List.suffix_concat_iff.mp late with empty | ⟨front, split, behind⟩
      · cases empty
      · have ends : [Ascii.star] ++ [Ascii.slash] = front ++ [b] := split
        obtain ⟨rfl, byte⟩ := List.append_inj' ends rfl
        have slash : b = Ascii.slash := (List.singleton_inj.mp byte).symm
        exact goesOn ⟨last.mpr behind, slash⟩
    · exact unclosed early
  · rw [decide_eq_true_eq, List.suffix_concat_iff]
    constructor
    · rintro rfl
      exact .inr ⟨[], rfl, List.nil_suffix⟩
    · rintro (empty | ⟨front, split, -⟩)
      · cases empty
      · have ends : [] ++ [Ascii.star] = front ++ [b] := split
        obtain ⟨-, byte⟩ := List.append_inj' ends rfl
        exact (List.singleton_inj.mp byte).symm
  · rwa [List.append_assoc, List.singleton_append]

theorem skipped_of_move (allowed : current = true → lenient = true) {p p' : Phase}
    (step : move current p b = .shift p') (before : Skipped lenient bytes p (b :: bs)) :
    Skipped lenient bytes p' bs := by
  cases p with
  | between =>
      simp only [move] at step
      split at step
      · rename_i blank
        cases step
        exact span_of_blank blank before
      · split at step
        · rename_i slash
          split at step
          · rename_i comments
            cases step
            exact ⟨allowed comments, slash ▸ before⟩
          · cases step
        · split at step
          · rename_i hash
            cases step
            exact skipped_mark (.inr rfl) (allowed hash.2) (hash.1 ▸ before)
          · cases step
  | slash =>
      obtain ⟨comments, before⟩ := before
      simp only [move] at step
      split at step
      · rename_i slash
        cases step
        exact skipped_mark (.inl rfl) comments (slash ▸ before)
      · split at step
        · rename_i star
          cases step
          exact ⟨comments, [], by simp, by simp, star ▸ before⟩
        · cases step
  | line =>
      simp only [move] at step
      split at step
      · rename_i ends
        cases step
        exact span_of_endsLine ends before
      · rename_i within
        cases step
        exact skipped_line within before
  | block star =>
      simp only [move] at step
      split at step
      · rename_i closes
        cases step
        obtain ⟨rfl, rfl⟩ := closes
        exact span_of_blockEnd before
      · rename_i goesOn
        cases step
        exact skipped_block goesOn before

theorem keeps_skipped (allowed : current = true → lenient = true) :
    (scanner current).Keeps (Skipped lenient bytes)
      fun a rest => rest.head? = a ∧ Span lenient bytes rest where
  shift step before := skipped_of_move allowed step before
  finish := by
    intro p b a bs step
    cases p <;> simp only [scanner, move] at step <;> (repeat' split at step) <;> cases step
  halt := by
    intro p b a bs step before
    cases p <;> simp only [scanner, move] at step <;> (repeat' split at step) <;> cases step
    exact ⟨rfl, before⟩
  atEnd := by
    intro p a ended before
    cases p with
    | between =>
        cases ended
        exact ⟨rfl, before⟩
    | line =>
        cases ended
        obtain ⟨comments, mark, body, opened, within, span⟩ := before
        rw [← List.append_assoc] at span
        refine ⟨rfl, span.comment comments (.line opened within ?_)⟩
        rintro b ⟨⟩
    | slash => cases ended
    | block star => cases ended

end Blank

/-! Characters of several bytes. -/

namespace Lexing

variable {σ α : Type} {next : Incomplete → σ} {complete : Char → σ} {p : Incomplete} {b : UInt8}
variable {s : σ}

theorem openCharacter_eq_shift (h : (openCharacter next b : Move LexFault σ α) = .shift s) :
    ∃ missing, s = next ⟨[b], missing⟩ := by
  unfold openCharacter at h
  split at h
  · cases h
    exact ⟨_, rfl⟩
  · cases h

theorem continueCharacter_eq_shift
    (h : (continueCharacter next complete p b : Move LexFault σ α) = .shift s) :
    (∃ missing, s = next ⟨p.bytes ++ [b], missing⟩) ∨
      ∃ c, s = complete c ∧ String.utf8EncodeChar c = p.bytes ++ [b] := by
  simp only [continueCharacter] at h
  split at h
  · cases h
    exact .inl ⟨_, rfl⟩
  · split at h
    · rename_i c decoded
      cases h
      exact .inr ⟨c, rfl, Utf8.decodeOne?_eq_some_iff.mp decoded⟩
    · cases h

theorem held_of_continueCharacter {P : List UInt8 → Prop} {bs : List UInt8} (begun : p.bytes ≠ [])
    (before : P (p.bytes ++ b :: bs))
    (h : (continueCharacter next complete p b : Move LexFault σ α) = .shift s) :
    (∃ q, s = next q ∧ q.bytes ≠ [] ∧ P (q.bytes ++ bs)) ∨
      ∃ c, s = complete c ∧ 0x80 ≤ c.toNat ∧ P (String.utf8EncodeChar c ++ bs) := by
  have held : P ((p.bytes ++ [b]) ++ bs) := by
    rwa [List.append_assoc, List.singleton_append]
  obtain ⟨missing, rfl⟩ | ⟨c, rfl, encoded⟩ := continueCharacter_eq_shift h
  · exact .inl ⟨_, rfl, List.append_ne_nil_of_left_ne_nil begun _, held⟩
  · refine .inr ⟨c, rfl, Utf8.le_of_encode_append encoded begun, ?_⟩
    rwa [encoded]

theorem openCharacter_answers {a : α} :
    (openCharacter next b : Move LexFault σ α) ≠ .finish (.ok a) ∧
      (openCharacter next b : Move LexFault σ α) ≠ .halt (.ok a) := by
  unfold openCharacter
  split <;> simp

theorem continueCharacter_answers {a : α} :
    (continueCharacter next complete p b : Move LexFault σ α) ≠ .finish (.ok a) ∧
      (continueCharacter next complete p b : Move LexFault σ α) ≠ .halt (.ok a) := by
  simp only [continueCharacter]
  split
  · simp
  · split <;> simp

end Lexing

/-! Unquoted literals. -/

namespace Bare

variable {lenient : Bool} {bytes : List UInt8}

def Read (lenient : Bool) (bytes : List UInt8) : Phase → List UInt8 → Prop
  | .plain, bs => Span lenient bytes bs
  | .character p, bs => p.bytes ≠ [] ∧ Span lenient bytes (p.bytes ++ bs)

theorem not_opener {b : UInt8} (literal : Ascii.isLiteral b = true) :
    Ascii.toChar b ∉ Grammar.openers := by
  have ne (d : UInt8) (delimiter : Ascii.isLiteral d = false) :
      Ascii.toChar b ≠ Ascii.toChar d := by
    intro same
    rw [Ascii.toChar_inj same, delimiter] at literal
    cases literal
  simp only [Grammar.openers, List.mem_cons, List.not_mem_nil, or_false, not_or]
  exact ⟨ne Ascii.doubleQuote rfl, ne Ascii.singleQuote rfl, ne Ascii.slash rfl, ne Ascii.hash rfl⟩

theorem not_opener_of_le {c : Char} (h : 0x80 ≤ c.toNat) : c ∉ Grammar.openers := by
  intro member
  simp only [Grammar.openers, List.mem_cons, List.not_mem_nil, or_false] at member
  rcases member with rfl | rfl | rfl | rfl <;> exact absurd h (by decide)

theorem read_of_move {s s' : State} {b : UInt8} {bs : List UInt8} (step : move s b = .shift s')
    (before : Read lenient bytes s.phase (b :: bs)) : Read lenient bytes s'.phase bs := by
  obtain ⟨text, phase⟩ := s
  cases phase with
  | plain =>
      simp only [move] at step
      split at step
      · cases step
      · rename_i literal
        rw [Decidable.not_not] at literal
        split at step
        · rename_i ascii
          cases step
          exact before.ascii (UInt8.lt_iff_toNat_lt.mp ascii) (not_opener literal)
        · obtain ⟨missing, rfl⟩ := Lexing.openCharacter_eq_shift step
          exact ⟨List.cons_ne_nil b [], before⟩
  | character p =>
      obtain ⟨begun, before⟩ := before
      simp only [move] at step
      obtain ⟨q, rfl, held⟩ | ⟨c, rfl, outside, behind⟩ :=
        Lexing.held_of_continueCharacter begun before step
      · exact held
      · exact Span.character behind (not_opener_of_le outside)

theorem keeps_read : scanner.Keeps (fun s bs => Read lenient bytes s.phase bs)
    fun _ rest => Span lenient bytes rest where
  shift step before := read_of_move step before
  finish := by
    intro s b a bs step
    obtain ⟨text, phase⟩ := s
    cases phase with
    | plain =>
        simp only [scanner, move] at step
        split at step
        · cases step
        · split at step
          · cases step
          · exact absurd step Lexing.openCharacter_answers.1
    | character p =>
        simp only [scanner, move] at step
        exact absurd step Lexing.continueCharacter_answers.1
  halt := by
    intro s b a bs step before
    obtain ⟨text, phase⟩ := s
    cases phase with
    | plain => exact before
    | character p =>
        simp only [scanner, move] at step
        exact absurd step Lexing.continueCharacter_answers.2
  atEnd := by
    intro s a ended before
    obtain ⟨text, phase⟩ := s
    cases phase with
    | plain => exact before
    | character p => cases ended

end Bare

/-! Quoted texts. -/

namespace Quoted

variable {lenient : Bool} {bytes bs : List UInt8} {rules : Rules} {b : UInt8}

def Opens (lenient : Bool) (quote : UInt8) : Prop :=
  quote = Ascii.doubleQuote ∨ quote = Ascii.singleQuote ∧ lenient = true

/-- Where a quoted text stands: between two symbols, behind a backslash, or in a character of
several bytes. A hexadecimal digit counts as a symbol of its own. -/
def Read (lenient : Bool) (bytes : List UInt8) (quote : Char) : Phase → List UInt8 → Prop
  | .escape, bs | .letter _, bs => Inside lenient bytes quote (Ascii.backslash :: bs)
  | .character p, bs => p.bytes ≠ [] ∧ Inside lenient bytes quote (p.bytes ++ bs)
  | .plain, bs | .unit _ _, bs | .mark _, bs | .partner _ _ _, bs => Inside lenient bytes quote bs

theorem Opens.lt (opens : Opens lenient b) : b.toNat < 0x80 := by
  rcases opens with rfl | ⟨rfl, -⟩ <;> decide

theorem Opens.quotes (opens : Opens lenient b) :
    Ascii.toChar b = '"' ∨ Ascii.toChar b = '\'' ∧ lenient = true :=
  opens.imp (congrArg Ascii.toChar) fun single => ⟨congrArg Ascii.toChar single.1, single.2⟩

theorem inside_ascii {quote : UInt8} (h : Inside lenient bytes (Ascii.toChar quote) (b :: bs))
    (ascii : b.toNat < 0x80) (other : b ≠ quote) (plain : b ≠ Ascii.backslash) :
    Inside lenient bytes (Ascii.toChar quote) bs := by
  apply Inside.plain (c := Ascii.toChar b)
  · rw [Ascii.encode_toChar ascii]
    exact h
  · intro same
    exact other (Ascii.toChar_inj same)
  · intro same
    exact plain (Ascii.toChar_inj (d := Ascii.backslash) same)

theorem inside_digit {quote : UInt8} {d : Nat} (opens : Opens lenient quote)
    (digit : Ascii.hexValue? b = some d)
    (h : Inside lenient bytes (Ascii.toChar quote) (b :: bs)) :
    Inside lenient bytes (Ascii.toChar quote) bs := by
  have ne (e : UInt8) (none : Ascii.hexValue? e = none) : b ≠ e := by
    rintro rfl
    rw [none] at digit
    cases digit
  apply Inside.plain (c := Ascii.toChar b)
  · rw [(Grammar.HexDigit.of_byte digit).1]
    exact h
  · intro same
    rcases opens with rfl | ⟨rfl, -⟩
    · exact ne Ascii.doubleQuote rfl (Ascii.toChar_inj same)
    · exact ne Ascii.singleQuote rfl (Ascii.toChar_inj same)
  · intro same
    exact ne Ascii.backslash rfl (Ascii.toChar_inj (d := Ascii.backslash) same)

theorem ascii_of_escaped {current : Bool} {c : Char} (h : escaped? current b = some c) :
    b.toNat < 0x80 := by
  unfold escaped? at h
  repeat' split at h
  · rename_i same
    rcases same with rfl | rfl | rfl <;> decide
  · rename_i same
    rw [same.1]
    decide
  · rename_i same
    rw [same]
    decide
  · rename_i same
    rw [same]
    decide
  · rename_i same
    rw [same]
    decide
  · rename_i same
    rw [same]
    decide
  · rename_i same
    rw [same]
    decide
  · cases h

theorem read_of_unitMove {s s' : State} {value : Nat} {quote : Char}
    (h : Inside lenient bytes quote bs) (step : unitMove s value = .shift s') :
    Read lenient bytes quote s'.phase bs := by
  unfold unitMove at step
  split at step
  · cases step
    exact h
  · split at step
    · cases step
    · cases step
      exact h

theorem read_of_partnerMove {s s' : State} {high value : Nat} {quote : Char}
    (h : Inside lenient bytes quote bs) (step : partnerMove s high value = .shift s') :
    Read lenient bytes quote s'.phase bs := by
  unfold partnerMove at step
  split at step
  · cases step
    exact h
  · cases step

theorem read_of_plainMove {s s' : State}
    (h : Inside lenient bytes (Ascii.toChar rules.quote) (b :: bs))
    (step : plainMove rules s b = .shift s') :
    Read lenient bytes (Ascii.toChar rules.quote) s'.phase bs := by
  unfold plainMove at step
  split at step
  · cases step
  · rename_i other
    split at step
    · rename_i backslash
      cases step
      rw [backslash] at h
      exact h
    · rename_i plain
      split at step
      · cases step
      · split at step
        · rename_i ascii
          cases step
          exact inside_ascii h (UInt8.lt_iff_toNat_lt.mp ascii) other plain
        · obtain ⟨missing, rfl⟩ := Lexing.openCharacter_eq_shift step
          exact ⟨List.cons_ne_nil b [], h⟩

theorem read_of_move (opens : Opens lenient rules.quote) {s s' : State}
    (step : move rules s b = .shift s')
    (before : Read lenient bytes (Ascii.toChar rules.quote) s.phase (b :: bs)) :
    Read lenient bytes (Ascii.toChar rules.quote) s'.phase bs := by
  obtain ⟨text, phase⟩ := s
  cases phase with
  | plain => exact read_of_plainMove before step
  | escape =>
      simp only [move] at step
      split at step
      · rename_i letter
        cases step
        exact Inside.escape before (by rw [letter]; decide)
      · split at step
        · rename_i escaped
          cases step
          exact Inside.escape before (ascii_of_escaped escaped)
        · cases step
  | unit value missing =>
      simp only [move] at step
      split at step
      · cases step
      · rename_i digit
        have behind := inside_digit opens digit before
        split at step
        · cases step
          exact behind
        · exact read_of_unitMove behind step
  | mark high =>
      simp only [move] at step
      split at step
      · rename_i backslash
        cases step
        rw [backslash] at before
        exact before
      · cases step
  | letter high =>
      simp only [move] at step
      split at step
      · rename_i letter
        cases step
        exact Inside.escape before (by rw [letter]; decide)
      · cases step
  | partner high value missing =>
      simp only [move] at step
      split at step
      · cases step
      · rename_i digit
        have behind := inside_digit opens digit before
        split at step
        · cases step
          exact behind
        · exact read_of_partnerMove behind step
  | character p =>
      obtain ⟨begun, before⟩ := before
      simp only [move] at step
      obtain ⟨q, rfl, held⟩ | ⟨c, rfl, outside, behind⟩ :=
        Lexing.held_of_continueCharacter begun before step
      · exact held
      · have ne (d : UInt8) (ascii : d.toNat < 0x80) : c ≠ Ascii.toChar d := by
          rintro rfl
          rw [Ascii.toNat_toChar ascii] at outside
          omega
        exact Inside.plain behind (ne _ opens.lt) (ne Ascii.backslash (by decide))

theorem quote_of_finish {s : State} {a : String} (step : move rules s b = .finish (.ok a)) :
    s.phase = .plain ∧ b = rules.quote := by
  obtain ⟨text, phase⟩ := s
  cases phase with
  | plain =>
      simp only [move, plainMove] at step
      split at step
      · rename_i quote
        exact ⟨rfl, quote⟩
      · repeat' split at step
        · cases step
        · cases step
        · cases step
        · exact absurd step Lexing.openCharacter_answers.1
  | character p =>
      simp only [move] at step
      exact absurd step Lexing.continueCharacter_answers.1
  | escape | unit | mark | letter | partner =>
      simp only [move, unitMove, partnerMove] at step
      repeat' split at step
      all_goals cases step

theorem not_halt {s : State} {a : String} : move rules s b ≠ .halt (.ok a) := by
  intro step
  obtain ⟨text, phase⟩ := s
  cases phase with
  | plain =>
      simp only [move, plainMove] at step
      repeat' split at step
      · cases step
      · cases step
      · cases step
      · cases step
      · exact absurd step Lexing.openCharacter_answers.2
  | character p =>
      simp only [move] at step
      exact absurd step Lexing.continueCharacter_answers.2
  | escape | unit | mark | letter | partner =>
      simp only [move, unitMove, partnerMove] at step
      repeat' split at step
      all_goals cases step

theorem keeps_read (rules : Rules) (opens : Opens lenient rules.quote) :
    (scanner rules).Keeps (fun s bs => Read lenient bytes (Ascii.toChar rules.quote) s.phase bs)
      fun _ rest => Span lenient bytes rest where
  shift step before := read_of_move opens step before
  finish := by
    intro s b a bs step before
    obtain ⟨plain, quote⟩ := quote_of_finish step
    rw [plain, quote] at before
    have closing : Inside lenient bytes (Ascii.toChar rules.quote)
        (String.utf8EncodeChar (Ascii.toChar rules.quote) ++ bs) := by
      rw [Ascii.encode_toChar opens.lt]
      exact before
    exact closing.close opens.quotes
  halt step := absurd step not_halt
  atEnd := by
    intro s a ended
    obtain ⟨text, phase⟩ := s
    cases phase <;> cases ended

end Quoted

/-! Lexing operations. -/

def Cursor.Reaches (lenient : Bool) (bytes : List UInt8) (c : Cursor) : Prop :=
  ∃ rest, Span lenient bytes rest ∧ c.Over rest

def Cursor.Faces (lenient : Bool) (bytes : List UInt8) (b : UInt8) (c : Cursor) : Prop :=
  ∃ rest, Span lenient bytes (b :: rest) ∧ c.At b rest

theorem Cursor.Faces.reaches {lenient : Bool} {bytes : List UInt8} {b : UInt8} {c : Cursor}
    (faces : c.Faces lenient bytes b) : c.Reaches lenient bytes := by
  obtain ⟨rest, span, held, -⟩ := faces
  exact ⟨b :: rest, span, held⟩

namespace LexM

variable {lenient current : Bool} {bytes : List UInt8} {b : UInt8} {l : Lexeme}

theorem ensures_skipBlank_span (allowed : current = true → lenient = true) :
    Ensures (Cursor.Reaches lenient bytes) (skipBlank current) fun a c =>
      match a with
      | none => Span lenient bytes [] ∧ c.Over []
      | some b => c.Faces lenient bytes b := by
  intro c a c' reaches h
  obtain ⟨rest, ⟨first, span⟩, held⟩ :=
    ensures_scan_keeps (s := Blank.Phase.between) (Blank.keeps_skipped allowed) c a c' reaches h
  cases rest with
  | nil =>
      cases first
      exact ⟨span, held⟩
  | cons b rest =>
      cases first
      obtain ⟨u, unread⟩ := unread_of_skipBlank h
      exact ⟨rest, span, held, by simp [unread]⟩

theorem ensures_skipBlankToByte_span (allowed : current = true → lenient = true) :
    Ensures (Cursor.Reaches lenient bytes) (skipBlankToByte current) fun b c =>
      c.Faces lenient bytes b := by
  refine Ensures.bind (ensures_skipBlank_span allowed) fun a => ?_
  cases a with
  | none => exact ensures_fail _
  | some b => exact Ensures.pure fun _ faces => faces

theorem ensures_mark_span {α : Type} {x : LexM α} {Q : α → Cursor → Prop} {d : UInt8}
    (same : b = d) (ascii : d.toNat < 0x80) (plain : Ascii.toChar d ∉ Grammar.openers)
    (hx : Ensures (Cursor.Reaches lenient bytes) x Q) :
    Ensures (Cursor.Faces lenient bytes b) (do advance; x) Q := by
  subst same
  apply Ensures.bind (Q := fun _ => Cursor.Reaches lenient bytes) (Ensures.modify _) fun _ => hx
  rintro c ⟨rest, span, at_⟩
  exact ⟨rest, span.ascii ascii plain, at_.advance⟩

theorem ensures_open_span (opens : Quoted.Opens lenient b) :
    Ensures (Cursor.Faces lenient bytes b) advance fun _ c =>
      ∃ rest, Inside lenient bytes (Ascii.toChar b) rest ∧ c.Over rest := by
  apply Ensures.modify
  rintro c ⟨rest, span, at_⟩
  exact ⟨rest, .open span opens.lt, at_.advance⟩

theorem ensures_quoted_span (opens : Quoted.Opens lenient b) :
    Ensures (fun c => ∃ rest, Inside lenient bytes (Ascii.toChar b) rest ∧ c.Over rest)
      (quoted ⟨b, current⟩) fun _ => Cursor.Reaches lenient bytes :=
  ensures_scan_keeps (s := ({} : Quoted.State)) (Quoted.keeps_read ⟨b, current⟩ opens)

theorem ensures_bare_span :
    Ensures (Cursor.Reaches lenient bytes) bare fun _ => Cursor.Reaches lenient bytes :=
  ensures_scan_keeps (s := ({} : Bare.State)) Bare.keeps_read

theorem opens_of_opensQuoted (allowed : current = true → lenient = true)
    (h : opensQuoted current b = true) : Quoted.Opens lenient b := by
  simp only [opensQuoted, Bool.or_eq_true, Bool.and_eq_true, decide_eq_true_eq] at h
  exact h.imp id fun single => ⟨single.1, allowed single.2⟩

theorem ensures_pure_span : Ensures (Cursor.Reaches lenient bytes) (pure l : LexM Lexeme)
    fun _ => Cursor.Reaches lenient bytes :=
  Ensures.pure fun _ reaches => reaches

theorem ensures_value_span (allowed : current = true → lenient = true) :
    Ensures (Cursor.Faces lenient bytes b) (value current b) fun _ =>
      Cursor.Reaches lenient bytes := by
  unfold value
  split
  · rename_i brace
    exact ensures_mark_span brace (by decide) (by decide) ensures_pure_span
  · split
    · rename_i bracket
      exact ensures_mark_span bracket (by decide) (by decide) ensures_pure_span
    · split
      · rename_i quote
        have opens := opens_of_opensQuoted allowed quote
        exact Ensures.bind (ensures_open_span opens) fun _ =>
          Ensures.bind (ensures_quoted_span opens) fun _ => ensures_pure_span
      · repeat' split
        · exact ensures_fail _
        · exact ensures_fail _
        · exact ensures_fail _
        · refine (Ensures.bind ensures_bare_span fun s => ?_).weaken
            (fun _ faces => Cursor.Faces.reaches faces) fun _ _ reaches => reaches
          cases Lexing.classify current s with
          | ok l => exact ensures_pure_span
          | error fault => exact ensures_fail _
        · exact ensures_fail _

theorem ensures_name_span (allowed : current = true → lenient = true) :
    Ensures (Cursor.Faces lenient bytes b) (name current b) fun _ =>
      Cursor.Reaches lenient bytes := by
  unfold name
  split
  · rename_i quote
    have opens := opens_of_opensQuoted allowed quote
    exact Ensures.bind (ensures_open_span opens) fun _ =>
      Ensures.bind (ensures_quoted_span opens) fun _ => ensures_pure_span
  · split
    · exact (Ensures.bind ensures_bare_span fun _ => ensures_pure_span).weaken
        (fun _ faces => Cursor.Faces.reaches faces) fun _ _ reaches => reaches
    · exact ensures_fail _

end LexM

end TypedJson
