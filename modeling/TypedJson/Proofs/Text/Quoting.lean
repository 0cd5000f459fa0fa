import Mathlib.Data.List.Basic
import TypedJson.Proofs.Text.Alphabet

/-!
# Inside and outside of strings

Which characters of a text stand outside of its strings can be told from the quotes and the escape
marks in front of them. Outside of strings, blanks and line feeds are layout, and brackets begin and
end containers; inside of strings, none of these means anything.
-/

set_option autoImplicit false
set_option relaxedAutoImplicit false

namespace TypedJson

/-- Where a place in a text lies: outside of its strings, inside of one of them, or inside of one of
them and behind an escape mark. -/
inductive Quoting where
  | outside
  | inside
  | escaped
  deriving DecidableEq, Repr

namespace Quoting

def next : Quoting → Char → Quoting
  | outside, c => if c = '"' then inside else outside
  | inside, c => if c = '"' then outside else if c = '\\' then escaped else inside
  | escaped, _ => inside

def after (q : Quoting) (cs : List Char) : Quoting :=
  cs.foldl next q

def located : Quoting → List Char → List (Quoting × Char)
  | _, [] => []
  | q, c :: cs => (q, c) :: located (q.next c) cs

variable {cs ds : List Char}

theorem after_append (q : Quoting) (cs ds : List Char) :
    q.after (cs ++ ds) = (q.after cs).after ds :=
  List.foldl_append

theorem located_append (q : Quoting) (cs ds : List Char) :
    q.located (cs ++ ds) = q.located cs ++ (q.after cs).located ds := by
  induction cs generalizing q with
  | nil => rfl
  | cons c cs ih => exact congrArg ((q, c) :: ·) (ih (q.next c))

theorem map_snd_located (q : Quoting) (cs : List Char) : (q.located cs).map Prod.snd = cs := by
  induction cs generalizing q with
  | nil => rfl
  | cons c cs ih => exact congrArg (c :: ·) (ih (q.next c))

structure Within (cs : List Char) : Prop where
  stays : inside.after cs = inside
  inner : ∀ m ∈ inside.located cs, m.1 ≠ outside

theorem Within.append (h : Within cs) (h' : Within ds) : Within (cs ++ ds) where
  stays := by rw [after_append, h.stays, h'.stays]
  inner := by
    rw [located_append, h.stays]
    exact List.forall_mem_append.mpr ⟨h.inner, h'.inner⟩

theorem Within.nil : Within [] :=
  ⟨rfl, nofun⟩

end Quoting

open Quoting (outside inside)

namespace Escape

open Quoting (Within)

theorem within_plain {c : Char} (quote : c ≠ '"') (mark : c ≠ '\\') : Within [c] where
  stays := by
    change (if c = '"' then outside else if c = '\\' then Quoting.escaped else inside) = inside
    rw [if_neg quote, if_neg mark]
  inner := by simp [Quoting.located]

theorem within_short (c : Char) : Within ['\\', c] where
  stays := rfl
  inner := by simp [Quoting.located, Quoting.next]

theorem hexDigit_plain : ∀ n < 16, hexDigit n ≠ '"' ∧ hexDigit n ≠ '\\' := by
  decide

theorem within_unit (n : Nat) : Within (unit n) := by
  have digit (k : Nat) : Within [hexDigit (k % 16)] :=
    have plain := hexDigit_plain _ (Nat.mod_lt k (by decide))
    within_plain plain.1 plain.2
  exact (within_short 'u').append
    ((digit _).append ((digit _).append ((digit _).append (digit _))))

theorem within_flatMap {α : Type} {f : α → List Char} (h : ∀ a, Within (f a)) (as : List α) :
    Within (as.flatMap f) := by
  induction as with
  | nil => exact .nil
  | cons a as ih => exact (h a).append ih

theorem within_sequence (c : Char) : Within (sequence c) := by
  unfold sequence
  repeat' split
  all_goals first | exact within_short _ | exact within_flatMap within_unit _

theorem within_char (rules : EscapeRules) (c : Char) : Within (char rules c) := by
  unfold char
  by_cases needed : isNeeded rules c = true
  · rw [if_pos needed]
    exact within_sequence c
  · rw [if_neg needed]
    simp only [isNeeded, Bool.or_eq_true, decide_eq_true_eq, not_or] at needed
    obtain ⟨⟨⟨⟨⟨⟨quote, mark⟩, -⟩, -⟩, -⟩, -⟩, -⟩ := needed
    exact within_plain quote mark

end Escape

namespace Quoting

/-! What a text is like outside of its strings. -/

/-- Blanks and line feeds outside of strings. -/
def isLayout (m : Quoting × Char) : Bool :=
  m.1 = outside && (m.2 = ' ' || m.2 = '\n')

/-- A text without the blanks and line feeds outside of its strings. -/
def squeezed (cs : List Char) : List Char :=
  ((outside.located cs).filter fun m => !isLayout m).map Prod.snd

/-- How many characters of a kind a text has outside of its strings. -/
def count (p : Char → Bool) (cs : List Char) : Nat :=
  (outside.located cs).countP fun m => m.1 = outside && p m.2

def isOpening (c : Char) : Bool :=
  c = '[' || c = '\x7b'

def isClosing (c : Char) : Bool :=
  c = ']' || c = '\x7d'

section

variable {cs ds : List Char} (h : outside.after cs = outside)
include h

theorem squeezed_append : squeezed (cs ++ ds) = squeezed cs ++ squeezed ds := by
  rw [squeezed, located_append, h, List.filter_append, List.map_append]
  rfl

theorem count_append (p : Char → Bool) : count p (cs ++ ds) = count p cs + count p ds := by
  rw [count, located_append, h, List.countP_append]
  rfl

end

def marks : List Char :=
  [' ', '\n', '[', ']', '\x7b', '\x7d']

theorem mem_marks {c : Char} (h : isOpening c = true ∨ isClosing c = true) : c ∈ marks := by
  simp only [isOpening, isClosing, Bool.or_eq_true, decide_eq_true_eq] at h
  rcases h with (rfl | rfl) | (rfl | rfl) <;> decide

/-- A text in one line that ends outside of its strings, and that has neither layout nor brackets
there. -/
structure Atomic (cs : List Char) : Prop where
  leaves : outside.after cs = outside
  bare : ∀ m ∈ outside.located cs, m.1 = outside → m.2 ∉ marks
  line : '\n' ∉ cs

namespace Atomic

variable {cs ds : List Char}

theorem squeezed_eq (h : Atomic cs) : squeezed cs = cs := by
  have kept : (outside.located cs).filter (fun m => !isLayout m) = outside.located cs := by
    refine List.filter_eq_self.mpr fun m hm => ?_
    have bare := h.bare m hm
    simp only [marks, List.mem_cons, not_or] at bare
    by_cases outer : m.1 = outside
    · simp [isLayout, (bare outer).1, (bare outer).2.1]
    · simp [isLayout, outer]
  rw [squeezed, kept, map_snd_located]

theorem count_eq {p : Char → Bool} (h : Atomic cs)
    (brackets : ∀ c, p c = true → isOpening c = true ∨ isClosing c = true) : count p cs = 0 := by
  refine List.countP_eq_zero.mpr fun m hm found => ?_
  simp only [Bool.and_eq_true, decide_eq_true_eq] at found
  exact h.bare m hm found.1 (mem_marks (brackets m.2 found.2))

theorem append (h : Atomic cs) (h' : Atomic ds) : Atomic (cs ++ ds) where
  leaves := by rw [after_append, h.leaves, h'.leaves]
  bare := by
    rw [located_append, h.leaves]
    exact List.forall_mem_append.mpr ⟨h.bare, h'.bare⟩
  line := by
    rw [List.mem_append]
    exact fun inside => inside.elim h.line h'.line

theorem nil : Atomic [] :=
  ⟨rfl, nofun, nofun⟩

theorem single {c : Char} (quote : c ≠ '"') (bare : c ∉ marks) : Atomic [c] where
  leaves := if_neg quote
  bare := by simpa [located] using bare
  line := by
    rw [List.mem_singleton]
    rintro rfl
    exact bare (by decide)

theorem of_bare (h : ∀ c ∈ cs, c ≠ '"' ∧ c ∉ marks) : Atomic cs := by
  induction cs with
  | nil => exact .nil
  | cons c cs ih =>
      obtain ⟨⟨quote, bare⟩, rest⟩ := List.forall_mem_cons.mp h
      exact (single quote bare).append (ih rest)

/-- The written form of a text leaves its string at its last quote only. -/
theorem quoted (rules : EscapeRules) (text : List Char) : Atomic (Escape.quoted rules text) := by
  have within := Escape.within_flatMap (Escape.within_char rules) text
  have located : outside.located (Escape.quoted rules text) = (outside, '"') ::
      (inside.located (text.flatMap (Escape.char rules)) ++ [(inside, '"')]) := by
    have parts := inside.located_append (text.flatMap (Escape.char rules)) ['"']
    rw [within.stays] at parts
    exact congrArg ((outside, '"') :: ·) parts
  refine ⟨?_, fun m hm outer => ?_, fun feed => ?_⟩
  · change inside.after (text.flatMap (Escape.char rules) ++ ['"']) = outside
    rw [after_append, within.stays]
    rfl
  · rw [located, List.mem_cons, List.mem_append, List.mem_singleton] at hm
    rcases hm with rfl | inner | rfl
    · decide
    · exact absurd outer (within.inner m inner)
    · cases outer
  · exact absurd (Escape.admits_quoted text _ feed).printable (by decide)

theorem head {c : Char} (h : Atomic (c :: cs)) : c ∉ marks :=
  h.bare (outside, c) List.mem_cons_self rfl

end Atomic

structure Spacing (cs : List Char) : Prop where
  leaves : outside.after cs = outside
  layout : ∀ m ∈ outside.located cs, isLayout m = true

namespace Spacing

variable {cs : List Char}

theorem of_forall (h : ∀ c ∈ cs, c = ' ' ∨ c = '\n') : Spacing cs := by
  induction cs with
  | nil => exact ⟨rfl, nofun⟩
  | cons c cs ih =>
      obtain ⟨first, rest⟩ := List.forall_mem_cons.mp h
      have stays : outside.next c = outside := by rcases first with rfl | rfl <;> rfl
      have located : outside.located (c :: cs) = (outside, c) :: outside.located cs := by
        rw [located, stays]
      refine ⟨?_, ?_⟩
      · change (outside.next c).after cs = outside
        rw [stays, (ih rest).leaves]
      · rw [located]
        exact List.forall_mem_cons.mpr ⟨by simpa [isLayout] using first, (ih rest).layout⟩

theorem squeezed_eq (h : Spacing cs) : squeezed cs = [] := by
  rw [squeezed, List.map_eq_nil_iff, List.filter_eq_nil_iff]
  intro m hm
  simp [h.layout m hm]

theorem count_eq {p : Char → Bool} (h : Spacing cs)
    (brackets : ∀ c, p c = true → isOpening c = true ∨ isClosing c = true) : count p cs = 0 := by
  refine List.countP_eq_zero.mpr fun m hm found => ?_
  have layout := h.layout m hm
  simp only [isLayout, Bool.and_eq_true, Bool.or_eq_true, decide_eq_true_eq] at layout found
  have bracket := brackets m.2 found.2
  rcases layout.2 with same | same
  · exact absurd (same ▸ bracket) (by decide)
  · exact absurd (same ▸ bracket) (by decide)

end Spacing

theorem append_eq_lineFeed_iff {cs ds front back : List Char} (line : '\n' ∉ ds) :
    ds ++ cs = front ++ '\n' :: back ↔ ∃ more, front = ds ++ more ∧ cs = more ++ '\n' :: back := by
  constructor
  · intro parts
    obtain ⟨more, rfl, rest⟩ | ⟨more, rfl, tail⟩ := List.append_eq_append_iff.mp parts
    · exact ⟨more, rfl, rest⟩
    · cases more with
      | nil => exact ⟨[], by simp, tail.symm⟩
      | cons c more =>
          obtain ⟨rfl, -⟩ := List.cons.inj tail
          exact absurd (List.mem_append_right front List.mem_cons_self) line
  · rintro ⟨more, rfl, rfl⟩
    exact (List.append_assoc ..).symm

end Quoting

end TypedJson
