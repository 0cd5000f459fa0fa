import TypedJson.Proofs.Grammar.Tree

/-!
# The grammar of JSON texts

RFC 8259 as a relation between texts and the trees they stand for. What may stand as a number is a
parameter, since lenient documents admit words for non-finite numbers. A surrogate in an escape
sequence has to be half of a pair.
-/

set_option autoImplicit false
set_option relaxedAutoImplicit false

namespace TypedJson.Grammar

/-- Insignificant whitespace. -/
def Blank (cs : List Char) : Prop :=
  ∀ c ∈ cs, c = ' ' ∨ c = '\t' ∨ c = '\n' ∨ c = '\r'

/-! Numbers. -/

def Digits (cs : List Char) : Prop :=
  cs ≠ [] ∧ ∀ c ∈ cs, c.isDigit = true

inductive Whole : List Char → Prop where
  | zero : Whole ['0']
  | digits {c : Char} {cs : List Char} : c ≠ '0' → Digits (c :: cs) → Whole (c :: cs)

inductive Fraction : List Char → Prop where
  | none : Fraction []
  | point {cs : List Char} : Digits cs → Fraction ('.' :: cs)

inductive Exponent : List Char → Prop where
  | none : Exponent []
  | plain {e : Char} {cs : List Char} : e = 'e' ∨ e = 'E' → Digits cs → Exponent (e :: cs)
  | signed {e sign : Char} {cs : List Char} : e = 'e' ∨ e = 'E' → sign = '+' ∨ sign = '-' →
      Digits cs → Exponent (e :: sign :: cs)

inductive Unsigned : List Char → Prop where
  | parts {whole fraction exponent : List Char} : Whole whole → Fraction fraction →
      Exponent exponent → Unsigned (whole ++ (fraction ++ exponent))

inductive Number : List Char → Prop where
  | plain {cs : List Char} : Unsigned cs → Number cs
  | minus {cs : List Char} : Unsigned cs → Number ('-' :: cs)

/-! Strings. -/

inductive HexDigit : Char → Nat → Prop where
  | decimal {c : Char} : 48 ≤ c.toNat → c.toNat ≤ 57 → HexDigit c (c.toNat - 48)
  | upper {c : Char} : 65 ≤ c.toNat → c.toNat ≤ 70 → HexDigit c (c.toNat - 65 + 10)
  | lower {c : Char} : 97 ≤ c.toNat → c.toNat ≤ 102 → HexDigit c (c.toNat - 97 + 10)

inductive CodeUnit : List Char → Nat → Prop where
  | digits {a b c d : Char} {i j k l : Nat} : HexDigit a i → HexDigit b j → HexDigit c k →
      HexDigit d l → CodeUnit [a, b, c, d] (16 * (16 * (16 * i + j) + k) + l)

/-- The letters that escape one character, with that character. -/
def shortEscapes : List (Char × Char) :=
  [('"', '"'), ('\\', '\\'), ('/', '/'), ('b', '\x08'), ('f', '\x0c'), ('n', '\n'), ('r', '\r'),
    ('t', '\t')]

inductive Symbol : Char → List Char → Prop where
  | plain {c : Char} : 0x20 ≤ c.toNat → c ≠ '"' → c ≠ '\\' → Symbol c [c]
  | short {letter c : Char} : (letter, c) ∈ shortEscapes → Symbol c ['\\', letter]
  | unit {c : Char} {digits : List Char} : CodeUnit digits c.toNat →
      Symbol c ('\\' :: 'u' :: digits)
  | pair {c : Char} {first second : List Char} {high low : Nat} : CodeUnit first high →
      CodeUnit second low → 0xD800 ≤ high → high ≤ 0xDBFF → 0xDC00 ≤ low → low ≤ 0xDFFF →
      c.toNat = 0x10000 + (high - 0xD800) * 0x400 + (low - 0xDC00) →
      Symbol c ('\\' :: 'u' :: (first ++ '\\' :: 'u' :: second))

inductive Spells : List Char → List Char → Prop where
  | nil : Spells [] []
  | cons {c : Char} {symbol cs text : List Char} : Symbol c symbol → Spells cs text →
      Spells (c :: cs) (symbol ++ text)

inductive Quoted : String → List Char → Prop where
  | quotes {s : String} {body : List Char} : Spells s.toList body →
      Quoted s ('"' :: (body ++ ['"']))

/-! Values. -/

section

variable {α : Type} (close : Char) (P : α → List Char → Prop)

/-- What may follow an element of an array or object, up to the closing bracket. -/
inductive Tail : List α → List Char → Prop where
  | done {w : List Char} : Blank w → Tail [] (w ++ [close])
  | more {w u v s : List Char} {a : α} {as : List α} : Blank w → Blank u → P a v → Tail as s →
      Tail (a :: as) (w ++ ',' :: (u ++ (v ++ s)))

inductive Elements : List α → List Char → Prop where
  | none {w : List Char} : Blank w → Elements [] (w ++ [close])
  | some {u v s : List Char} {a : α} {as : List α} : Blank u → P a v → Tail close P as s →
      Elements (a :: as) (u ++ (v ++ s))

end

/-- What follows the name of a member: its value, behind a colon. -/
inductive Valued (P : Tree → List Char → Prop) : Tree → List Char → Prop where
  | colon {w u v : List Char} {t : Tree} : Blank w → Blank u → P t v →
      Valued P t (w ++ ':' :: (u ++ v))

inductive Member (P : Tree → List Char → Prop) : String × Tree → List Char → Prop where
  | named {name : String} {t : Tree} {n v : List Char} : Quoted name n → Valued P t v →
      Member P (name, t) (n ++ v)

/-- The texts of a value, `N` being the texts of numbers. -/
inductive Value (N : List Char → Prop) : Tree → List Char → Prop where
  | object {members : List (String × Tree)} {s : List Char} :
      Elements '}' (Member (Value N)) members s → Value N (.object members) ('{' :: s)
  | array {items : List Tree} {s : List Char} :
      Elements ']' (Value N) items s → Value N (.array items) ('[' :: s)
  | string {text : String} {s : List Char} : Quoted text s → Value N (.string text) s
  | number {literal : String} : N literal.toList → Value N (.number literal) literal.toList
  | yes : Value N (.boolean true) "true".toList
  | no : Value N (.boolean false) "false".toList
  | null : Value N .null "null".toList

/-- The texts of a whole document. -/
inductive Text (N : List Char → Prop) : Tree → List Char → Prop where
  | padded {u v w : List Char} {t : Tree} : Blank u → Value N t v → Blank w →
      Text N t (u ++ (v ++ w))

theorem blank_nil : Blank [] :=
  fun _ absent => absurd absent List.not_mem_nil

theorem Text.of_value {N : List Char → Prop} {t : Tree} {v : List Char} (h : Value N t v) :
    Text N t v := by
  have text := Text.padded blank_nil h blank_nil
  rwa [List.nil_append, List.append_nil] at text

end TypedJson.Grammar
