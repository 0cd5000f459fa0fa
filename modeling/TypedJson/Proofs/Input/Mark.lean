import Mathlib.Data.List.DropRight
import TypedJson.Proofs.Input.Delivery
import TypedJson.Proofs.Text.Utf8

set_option autoImplicit false
set_option relaxedAutoImplicit false

namespace TypedJson

namespace Lines

/-- The line breaks in a run of bytes: CR, LF and CR LF are one each. -/
def breaks : List UInt8 → Nat
  | [] => 0
  | 0x0D :: 0x0A :: rest => breaks rest + 1
  | b :: rest => if b = Ascii.lineFeed ∨ b = Ascii.carriageReturn then breaks rest + 1
      else breaks rest

/-- Whether a byte belongs to a line rather than to the break behind it. -/
def within (b : UInt8) : Bool :=
  b ≠ Ascii.lineFeed && b ≠ Ascii.carriageReturn

def last (bytes : List UInt8) : List UInt8 :=
  bytes.rtakeWhile within

def characters (bytes : List UInt8) : Nat :=
  bytes.countP fun b => !Mark.isContinuation b

def lastOf (cs : List Char) : List Char :=
  cs.rtakeWhile fun c => c ≠ '\n' && c ≠ '\r'

theorem return_ne_feed : Ascii.carriageReturn ≠ Ascii.lineFeed := by decide

/-- Of a pair CR LF only the second byte makes a difference to the count. -/
theorem breaks_cons (b : UInt8) (bs : List UInt8) :
    breaks (b :: bs) = breaks bs +
      if b = Ascii.lineFeed ∨ (b = Ascii.carriageReturn ∧ bs.head? ≠ some Ascii.lineFeed) then 1
      else 0 := by
  by_cases pair : b = Ascii.carriageReturn ∧ bs.head? = some Ascii.lineFeed
  · obtain ⟨rfl, head⟩ := pair
    obtain ⟨rest, rfl⟩ := List.head?_eq_some_iff.mp head
    have feed : breaks (Ascii.lineFeed :: rest) = breaks rest + 1 := by
      rw [breaks, if_pos (.inl rfl)]
      rintro _ h -
      exact absurd h (by decide)
    rw [feed, if_neg (by simp [return_ne_feed])]
    rfl
  · have apart : b = Ascii.lineFeed ∨ b = Ascii.carriageReturn ↔
        b = Ascii.lineFeed ∨ (b = Ascii.carriageReturn ∧ bs.head? ≠ some Ascii.lineFeed) := by
      grind
    rw [breaks, if_congr apart rfl rfl]
    · split <;> rfl
    · rintro rest rfl rfl
      exact pair ⟨rfl, rfl⟩

theorem breaks_concat (bs : List UInt8) (b : UInt8) :
    breaks (bs ++ [b]) = breaks bs +
      if b = Ascii.carriageReturn ∨
          (b = Ascii.lineFeed ∧ bs.getLast? ≠ some Ascii.carriageReturn) then 1 else 0 := by
  induction bs with
  | nil => simp [breaks, or_comm]
  | cons first rest ih =>
      rw [List.cons_append, breaks_cons, breaks_cons first rest, ih]
      cases rest with
      | nil =>
          -- the one case in which the new byte takes part in a break already counted
          have := return_ne_feed
          simp only [List.nil_append, List.head?_cons, List.head?_nil, List.getLast?_nil,
            List.getLast?_singleton]
          grind
      | cons second more =>
          have head : (second :: more ++ [b]).head? = (second :: more).head? := rfl
          rw [head, List.getLast?_cons_cons]
          omega

theorem last_concat (bs : List UInt8) (b : UInt8) :
    last (bs ++ [b]) = if within b then last bs ++ [b] else [] := by
  split
  · exact List.rtakeWhile_concat_pos _ _ _ ‹_›
  · exact List.rtakeWhile_concat_neg _ _ _ ‹_›

theorem characters_append (bs ds : List UInt8) :
    characters (bs ++ ds) = characters bs + characters ds :=
  List.countP_append

end Lines

/-- The counters tell of the bytes in front of the mark: how many they are, the line breaks among
them, the characters behind the last break, and whether they end with a carriage return. -/
structure Mark.Describes (k : Mark) (consumed : List UInt8) : Prop where
  bytes : k.bytes = consumed.length
  line : k.line = Lines.breaks consumed
  column : k.column = Lines.characters (Lines.last consumed)
  afterReturn : k.afterReturn = true ↔ consumed.getLast? = some Ascii.carriageReturn

namespace Mark

theorem describes_start : ({} : Mark).Describes [] :=
  ⟨rfl, rfl, rfl, by simp⟩

theorem afterReturn_advance (k : Mark) (b : UInt8) :
    (k.advance b).afterReturn = true ↔ b = Ascii.carriageReturn := by
  have := Lines.return_ne_feed
  unfold Mark.advance
  repeat' split
  all_goals simp_all [Ne.symm]

theorem line_advance (k : Mark) (b : UInt8) :
    (k.advance b).line = k.line +
      if b = Ascii.carriageReturn ∨ (b = Ascii.lineFeed ∧ ¬ k.afterReturn = true) then 1 else 0 := by
  have := Lines.return_ne_feed
  unfold Mark.advance
  repeat' split
  all_goals simp_all [Ne.symm]

theorem column_advance (k : Mark) (b : UInt8) :
    (k.advance b).column =
      if Lines.within b then k.column + Lines.characters [b] else 0 := by
  unfold Mark.advance Lines.within Lines.characters
  repeat' split
  all_goals simp_all

theorem Describes.advance {k : Mark} {bs : List UInt8} (h : k.Describes bs) (b : UInt8) :
    (k.advance b).Describes (bs ++ [b]) where
  bytes := by rw [bytes_advance, h.bytes, List.length_append, List.length_singleton]
  line := by
    rw [line_advance, Lines.breaks_concat, h.line]
    simp only [h.afterReturn, ne_eq]
  column := by
    rw [column_advance, Lines.last_concat, h.column]
    split
    · rw [Lines.characters_append]
    · rfl
  afterReturn := by rw [afterReturn_advance, List.getLast?_concat, Option.some.injEq]

theorem Describes.advanceAll {k : Mark} {bs : List UInt8} (h : k.Describes bs)
    (more : List UInt8) : (k.advanceAll more).Describes (bs ++ more) := by
  induction more generalizing k bs with
  | nil => simpa [Mark.advanceAll] using h
  | cons b more ih =>
      rw [List.append_cons]
      exact ih (h.advance b)

end Mark

/-! Columns of encoded text. -/

namespace Lines

theorem last_append {bs ds : List UInt8} (h : ∀ d ∈ ds, within d = true) :
    last (bs ++ ds) = last bs ++ ds := by
  induction ds using List.reverseRecOn with
  | nil => simp
  | append_singleton ds d ih =>
      rw [← List.append_assoc, last_concat, if_pos (h d (by simp)), ih fun b hb => h b (by simp [hb]),
        List.append_assoc]

theorem isContinuation_iff (b : UInt8) :
    Mark.isContinuation b = true ↔ 0x80 ≤ b.toNat ∧ b.toNat ≤ 0xBF := by
  simp [Mark.isContinuation, UInt8.le_iff_toNat_le]

theorem within_iff (b : UInt8) : within b = true ↔ b.toNat ≠ 0x0A ∧ b.toNat ≠ 0x0D := by
  simp only [within, ne_eq, ← UInt8.toNat_inj, Bool.and_eq_true, decide_eq_true_eq]
  rfl

theorem within_of_le {b : UInt8} (h : 0x80 ≤ b.toNat) : within b = true := by
  rw [within_iff]
  omega

theorem within_encode {c : Char} (h : c ≠ '\n' ∧ c ≠ '\r') :
    (∀ b ∈ String.utf8EncodeChar c, within b = true) ∧
      characters (String.utf8EncodeChar c) = 1 := by
  by_cases ascii : c.toNat < 0x80
  · have small : (UInt8.ofNat c.toNat).toNat = c.toNat := Utf8.toNat_ofNat (by omega)
    have other {d : Char} (hd : c ≠ d) : c.toNat ≠ d.toNat := fun same => hd (Char.toNat_inj.mp same)
    have opens : ¬ Mark.isContinuation (UInt8.ofNat c.toNat) = true := by
      rw [isContinuation_iff, small]
      omega
    rw [Utf8.encode_ascii ascii, Nat.toUInt8_eq]
    constructor
    · simp only [List.mem_singleton, forall_eq, within_iff, small]
      exact ⟨other h.1, other h.2⟩
    · simp [characters, opens]
  · obtain ⟨b, bs, bytes, first, rest⟩ := Utf8.encode_continued (Nat.not_lt.mp ascii)
    have opens : ¬ Mark.isContinuation b = true := by
      rw [isContinuation_iff]
      omega
    rw [bytes]
    constructor
    · simp only [List.mem_cons, forall_eq_or_imp]
      exact ⟨within_of_le (by omega), fun d hd => within_of_le (rest d hd).1⟩
    · have inside : bs.countP (fun b => !Mark.isContinuation b) = 0 := by
        rw [List.countP_eq_zero]
        intro d hd
        simp [(isContinuation_iff d).mpr (rest d hd)]
      simp [characters, opens, inside]

/-- The column behind a text is the number of characters on its last line. -/
theorem characters_last_encode (cs : List Char) :
    characters (last (Utf8.encode cs)) = (lastOf cs).length := by
  induction cs using List.reverseRecOn with
  | nil => rfl
  | append_singleton cs c ih =>
      by_cases h : c ≠ '\n' ∧ c ≠ '\r'
      · obtain ⟨inside, one⟩ := within_encode h
        rw [Utf8.encode_append, Utf8.encode_cons, Utf8.encode_nil, List.append_nil,
          last_append inside, characters_append, ih, one, lastOf, lastOf,
          List.rtakeWhile_concat_pos _ _ _ (by simpa using h), List.length_append,
          List.length_singleton]
      · rw [lastOf, List.rtakeWhile_concat_neg _ _ _ (by simpa using h)]
        obtain rfl | rfl : c = '\n' ∨ c = '\r' := by grind
        all_goals
          rw [Utf8.encode_append]
          exact congrArg characters (last_concat _ _)

end Lines

/-! The bytes in front of a cursor. -/

namespace Cursor

/-- The bytes that a cursor has consumed of a script of replies: all that the replies taken from the
script have handed over, but for the unread ones. -/
def Consumed (script : List Delivery) (c : Cursor) (bytes : List UInt8) : Prop :=
  ∃ taken, script = taken ++ c.source.replies ∧
    taken.flatMap Delivery.bytes = bytes ++ c.unread

def Located (script : List Delivery) (c : Cursor) : Prop :=
  ∃ bytes, c.Consumed script bytes ∧ c.mark.Describes bytes

variable {script replies : List Delivery} {u : List UInt8} {s : Source} {e : Ending}
variable {drained : Bool} {k : Mark}

theorem located_start (s : Source) : (start s).Located s.replies :=
  ⟨[], ⟨[], rfl, rfl⟩, Mark.describes_start⟩

theorem Located.consume {taken : List UInt8} (h : Located script ⟨taken ++ u, s, drained, k⟩) :
    Located script ⟨u, s, drained, k.advanceAll taken⟩ := by
  obtain ⟨bytes, ⟨replied, hscript, hbytes⟩, hk⟩ := h
  refine ⟨bytes ++ taken, ⟨replied, hscript, ?_⟩, hk.advanceAll taken⟩
  rw [hbytes, List.append_assoc]

theorem Located.take {d : Delivery} (h : Located script ⟨[], ⟨d :: replies, e⟩, drained, k⟩) :
    Located script ⟨d.bytes, ⟨replies, e⟩, drained, k⟩ := by
  obtain ⟨bytes, ⟨replied, hscript, hbytes⟩, hk⟩ := h
  refine ⟨bytes, ⟨replied ++ [d], ?_, ?_⟩, hk⟩
  · rw [hscript, List.append_assoc]
    rfl
  · rw [List.append_nil] at hbytes
    simp [hbytes]

theorem Located.advance {c : Cursor} (h : c.Located script) : c.advance.Located script := by
  obtain ⟨u, s, drained, k⟩ := c
  cases u with
  | nil => exact h
  | cons b bs =>
      have first : Located script ⟨[b] ++ bs, s, drained, k⟩ := h
      exact first.consume

end Cursor

namespace Scanner

variable {ε σ α : Type} (m : Scanner ε σ α) {script : List Delivery}

theorem pass_advances (s : σ) (k : Mark) (bs : List UInt8) :
    match m.pass s k bs with
    | .stopped _ k' rest => ∃ taken, bs = taken ++ rest ∧ k' = k.advanceAll taken
    | .passed _ k' => k' = k.advanceAll bs := by
  induction bs generalizing s k with
  | nil => rfl
  | cons b bs ih =>
      simp only [pass]
      cases m.move s b with
      | shift s' =>
          have rest := ih s' (k.advance b)
          dsimp only
          cases hp : m.pass s' (k.advance b) bs with
          | stopped r k' unread =>
              rw [hp] at rest
              obtain ⟨taken, rfl, rfl⟩ := rest
              exact ⟨b :: taken, rfl, rfl⟩
          | passed s'' k' =>
              rw [hp] at rest
              exact rest
      | finish r => exact ⟨[b], rfl, rfl⟩
      | halt r => exact ⟨[], rfl, rfl⟩

theorem located_passReplies (fault : DataFault → ε) (e : Ending) {replies : List Delivery}
    {drained : Bool} {k : Mark} (h : Cursor.Located script ⟨[], ⟨replies, e⟩, drained, k⟩) (s : σ) :
    (m.passReplies fault e replies s k).2.Located script := by
  induction replies generalizing s k with
  | nil => cases e <;> exact h
  | cons d replies ih =>
      cases d with
      | interrupted => exact ih h.take s
      | endOfData => exact h.take
      | failed text => exact h.take
      | data b more =>
          have step := m.pass_advances s k (b :: more)
          have taken : Cursor.Located script ⟨b :: more, ⟨replies, e⟩, drained, k⟩ := h.take
          simp only [passReplies]
          cases hp : m.pass s k (b :: more) with
          | stopped r k' unread =>
              simp only [hp] at step
              obtain ⟨used, split, rfl⟩ := step
              rw [split] at taken
              exact taken.consume
          | passed s' k' =>
              simp only [hp] at step
              rw [step]
              rw [← List.append_nil (b :: more)] at taken
              exact ih taken.consume s'

theorem located_scan (fault : DataFault → ε) {c : Cursor} (h : c.Located script) (s : σ) :
    (m.scan fault s c).2.Located script := by
  obtain ⟨u, source, drained, k⟩ := c
  have step := m.pass_advances s k u
  simp only [scan]
  cases hp : m.pass s k u with
  | stopped r k' unread =>
      simp only [hp] at step
      obtain ⟨used, rfl, rfl⟩ := step
      exact h.consume
  | passed s' k' =>
      simp only [hp] at step
      subst step
      rw [← List.append_nil u] at h
      dsimp only
      split
      · exact h.consume
      · exact m.located_passReplies fault source.ending h.consume s'

end Scanner

theorem kept_located (script : List Delivery) : Cursor.Kept (Cursor.Located script) :=
  ⟨Cursor.Located.advance, fun m s _ h => m.located_scan .data h s⟩

end TypedJson
