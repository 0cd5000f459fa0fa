import TypedJson.Proofs.Text.Alphabet
import TypedJson.Proofs.Writer.Acceptance
import TypedJson.Proofs.Writer.Emission

/-!
# The alphabet of the output

A document is composed of layout and of units. The layout consists of commas, and of line breaks and
blanks if the text is laid out in lines; the units have no control characters at all, and what else
the rules escape is not among them either. Since this can be told from single bytes and from the
bytes of single characters, it holds of the output wherever it has been cut off.
-/

set_option autoImplicit false
set_option relaxedAutoImplicit false

namespace TypedJson

open Operation
open Utf8 (encode)

variable {pretty : Bool} {rules : EscapeRules} {cs ds : List Char}

inductive Layout (pretty : Bool) : List Char → Prop where
  | nothing : Layout pretty []
  | comma : pretty = false → Layout pretty [',']
  | line (level : Nat) : pretty = true → Layout pretty ('\n' :: WriteM.indentation level)
  | commaLine (level : Nat) : pretty = true →
      Layout pretty (',' :: '\n' :: WriteM.indentation level)

/-- A text of units, with layout in front of each. -/
inductive Composed (pretty : Bool) (rules : EscapeRules) : List Char → Prop where
  | nil : Composed pretty rules []
  | unit {layout body rest : List Char} : Layout pretty layout →
      (∀ c ∈ body, Escape.Admits rules c) → Composed pretty rules rest →
      Composed pretty rules (layout ++ body ++ rest)

theorem Layout.admits (h : Layout pretty cs) :
    ∀ c ∈ cs, Escape.Admits rules c ∨ c = '\n' ∧ pretty = true := by
  have comma : Escape.Admits rules ',' := .of_inert (by decide)
  have line (isPretty : pretty = true) (level : Nat) : ∀ c ∈ '\n' :: WriteM.indentation level,
      Escape.Admits rules c ∨ c = '\n' ∧ pretty = true := by
    refine List.forall_mem_cons.mpr ⟨.inr ⟨rfl, isPretty⟩, fun c hc => .inl ?_⟩
    rw [List.eq_of_mem_replicate hc]
    exact .of_inert (by decide)
  cases h with
  | nothing => exact fun _ absent => absurd absent List.not_mem_nil
  | comma => exact List.forall_mem_singleton.mpr (.inl comma)
  | line level isPretty => exact line isPretty level
  | commaLine level isPretty => exact List.forall_mem_cons.mpr ⟨.inl comma, line isPretty level⟩

namespace Composed

theorem append (h : Composed pretty rules cs) (h' : Composed pretty rules ds) :
    Composed pretty rules (cs ++ ds) := by
  induction h with
  | nil => exact h'
  | unit layout body _ ih =>
      rw [List.append_assoc]
      exact .unit layout body ih

theorem admits (h : Composed pretty rules cs) :
    ∀ c ∈ cs, Escape.Admits rules c ∨ c = '\n' ∧ pretty = true := by
  induction h with
  | nil => exact fun _ absent => absurd absent List.not_mem_nil
  | unit layout body _ ih =>
      exact List.forall_mem_append.mpr
        ⟨List.forall_mem_append.mpr ⟨layout.admits, fun c hc => .inl (body c hc)⟩, ih⟩

end Composed

/-! Bytes. -/

/-- Among these bytes are none that the settings exclude. The bytes with a meaning in HTML are those
of `<`, `>`, `&`, `=` and the single quote. -/
structure Clean (pretty : Bool) (rules : EscapeRules) (bytes : List UInt8) : Prop where
  control : ∀ b ∈ bytes, b < 0x20 → b = 0x0A ∧ pretty = true
  separators : ∀ c, c = '\u2028' ∨ c = '\u2029' → ¬ String.utf8EncodeChar c <:+: bytes
  ascii : rules.allNonAscii = true → ∀ b ∈ bytes, b < 0x80
  html : rules.htmlSafe = true → ∀ b ∈ bytes, b ∉ [0x3C, 0x3E, 0x26, 0x3D, 0x27]

theorem Clean.of_prefix {bytes bytes' : List UInt8} (h : Clean pretty rules bytes')
    (cut : bytes <+: bytes') : Clean pretty rules bytes where
  control b hb := h.control b (cut.subset hb)
  separators c hc inside := h.separators c hc (inside.trans cut.isInfix)
  ascii all b hb := h.ascii all b (cut.subset hb)
  html safe b hb := h.html safe b (cut.subset hb)

theorem Composed.clean (h : Composed pretty rules cs) : Clean pretty rules (encode cs) where
  control b hb low := by
    have low : b.toNat < 0x20 := UInt8.lt_iff_toNat_lt.mp low
    obtain ⟨c, hc, ⟨-, same⟩ | ⟨-, high⟩⟩ := Utf8.mem_encode hb
    · obtain admitted | ⟨rfl, isPretty⟩ := h.admits c hc
      · have printable := admitted.printable
        omega
      · exact ⟨UInt8.toNat_inj.mp same, isPretty⟩
    · omega
  separators c hc inside := by
    obtain ⟨noLine, noParagraph⟩ : c ≠ '\u2028' ∧ c ≠ '\u2029' := by
      obtain admitted | ⟨rfl, -⟩ := h.admits c (Utf8.mem_of_infix inside)
      · exact admitted.noSeparator
      · decide
    exact hc.elim noLine noParagraph
  ascii all b hb := by
    refine UInt8.lt_iff_toNat_lt.mpr ?_
    obtain ⟨c, hc, ⟨low, same⟩ | ⟨high, -⟩⟩ := Utf8.mem_encode hb
    · exact same ▸ low
    · obtain admitted | ⟨rfl, -⟩ := h.admits c hc
      · exact absurd (admitted.ascii all) (Nat.not_lt.mpr high)
      · exact absurd high (by decide)
  html safe b hb special := by
    have isHtml : Escape.isHtml (Ascii.toChar b) = true ∧ b.toNat < 0x80 := by
      simp only [List.mem_cons, List.not_mem_nil, or_false] at special
      rcases special with rfl | rfl | rfl | rfl | rfl <;> decide
    obtain ⟨c, hc, ⟨-, same⟩ | ⟨-, high⟩⟩ := Utf8.mem_encode hb
    · have character : Ascii.toChar b = c := by rw [Ascii.toChar, same, Char.ofNat_toNat]
      rw [character] at isHtml
      obtain admitted | ⟨rfl, -⟩ := h.admits c hc
      · rw [admitted.html safe] at isHtml
        exact Bool.noConfusion isHtml.1
      · exact absurd isHtml.1 (by decide)
    · omega

/-! Numbers. -/

theorem Grammar.Numeral.admits {nonFinite : Bool} (h : Grammar.Numeral nonFinite cs) :
    ∀ c ∈ cs, Escape.Admits rules c := by
  rcases h with number | ⟨-, word⟩
  · intro c hc
    refine .of_inert ?_
    rcases Grammar.numeric_of_number number c hc with digit | mark
    · have range : ∀ n, 48 ≤ n → n ≤ 57 → Escape.isInert (Char.ofNat n) = true := by decide
      simp only [Char.isDigit, Bool.and_eq_true, decide_eq_true_eq, UInt32.le_iff_toNat_le] at digit
      have inert := range c.toNat digit.1 digit.2
      rwa [Char.ofNat_toNat] at inert
    · exact List.all_eq_true.mp (by decide) c mark
  · have letters {w : String} (same : String.ofList cs = w) : cs = w.toList := by
      rw [← same, String.toList_ofList]
    simp only [Number.nonFiniteWords, List.mem_cons, List.not_mem_nil, or_false] at word
    rcases word with word | word | word
    all_goals
      rw [letters word]
      exact Escape.admits_of_all (by decide)

namespace Writer

variable {w v : Writer} {c : Call} {requests : List Request}

theorem layout_separator (w : Writer) : Layout w.settings.pretty w.separator := by
  unfold separator
  by_cases pretty : w.settings.pretty = true
  · rw [if_pos pretty, if_pos pretty]
    split
    · exact .line _ pretty
    · exact .commaLine _ pretty
  · rw [if_neg pretty, if_neg pretty]
    split
    · exact .nothing
    · exact .comma (by simpa using pretty)

theorem layout_gap (w : Writer) : Layout w.settings.pretty w.gap := by
  unfold gap
  split
  · exact w.layout_separator
  · exact .nothing

theorem layout_closing (w : Writer) : Layout w.settings.pretty w.closing := by
  unfold closing
  split
  · rename_i lines
    exact .line _ (Bool.and_eq_true_iff.mp lines).2
  · exact .nothing

theorem Call.composed_text {lenient : Bool} (w : Writer) (h : c.IsAdmissible lenient) :
    Composed w.settings.pretty w.settings.escape (c.text w) := by
  have unit {layout body : List Char} (hl : Layout w.settings.pretty layout)
      (hb : ∀ c ∈ body, Escape.Admits w.settings.escape c) :
      Composed w.settings.pretty w.settings.escape (layout ++ body) := by
    have one := Composed.unit hl hb .nil
    rwa [List.append_nil] at one
  have fits : c.Fits (Grammar.Numeral lenient) { lenient := true } := h.fits rfl
  cases c with
  | beginObject | beginArray | null =>
      exact unit w.layout_gap (Escape.admits_of_all (by decide))
  | endObject | endArray =>
      exact unit w.layout_closing (Escape.admits_of_all (by decide))
  | name s =>
      refine unit w.layout_separator (List.forall_mem_append.mpr ⟨Escape.admits_quoted _, ?_⟩)
      unfold WriteM.colon
      split <;> exact Escape.admits_of_all (by decide)
  | string s => exact unit w.layout_gap (Escape.admits_quoted _)
  | boolean b =>
      refine unit w.layout_gap ?_
      cases b <;> exact Escape.admits_of_all (by decide)
  | integer n => exact unit w.layout_gap (Grammar.Numeral.admits fits)
  | double x => exact unit w.layout_gap fits.2.admits
  | literal s => exact unit w.layout_gap fits.2.admits

theorem Request.style_of_run (q : Request) (w : Writer) :
    (final (q.run w)).settings.pretty = w.settings.pretty ∧
      (final (q.run w)).settings.escape = w.settings.escape := by
  have outcome := q.outcome w
  generalize q.run w = result at outcome
  cases outcome with
  | done placed admissible _ =>
      have akin := (Call.puts_run placed admissible).akin
      exact ⟨congrArg _ akin.settings, congrArg _ akin.settings⟩
  | broken _ _ akin _ => exact ⟨congrArg _ akin.settings, congrArg _ akin.settings⟩
  | _ => exact ⟨rfl, rfl⟩

theorem Request.exists_composed_emits (q : Request) (w : Writer) :
    ∃ cs, q.emits w = encode cs ∧ Composed w.settings.pretty w.settings.escape cs := by
  by_cases fits : ∃ c, q = .call c ∧ c.Placed w ∧ c.IsAdmissible w.settings.lenient
  · obtain ⟨c, rfl, placed, admissible⟩ := fits
    exact ⟨c.text w, emits_of_fits placed admissible, c.composed_text w admissible⟩
  · exact ⟨[], emits_of_misfit fun c same fit => fits ⟨c, same, fit⟩, .nil⟩

theorem exists_composed_emission (w : Writer) (requests : List Request) :
    ∃ cs, w.emission requests = encode cs ∧ Composed w.settings.pretty w.settings.escape cs := by
  induction requests generalizing w with
  | nil => exact ⟨[], rfl, .nil⟩
  | cons q requests ih =>
      obtain ⟨cs, first, composed⟩ := q.exists_composed_emits w
      obtain ⟨ds, rest, composed'⟩ := ih (final (q.run w))
      obtain ⟨pretty, escape⟩ := q.style_of_run w
      rw [pretty, escape] at composed'
      exact ⟨cs ++ ds, by rw [emission, first, rest, Utf8.encode_append],
        composed.append composed'⟩

theorem unbroken_of_reliable (reliable : w.outlet.sink.Reliable) (requests : List Request) :
    w.Along (fun w q => ¬ q.Breaks w) requests := by
  induction requests generalizing w with
  | nil => exact trivial
  | cons q requests ih =>
      obtain ⟨available, still⟩ := q.reliable_run reliable
      refine ⟨?_, ih still⟩
      rintro ⟨fault, v, broken⟩
      exact available fault v broken

theorem received_of_emptied (total : v.outlet.total = w.outlet.total)
    (empty : v.outlet.buffer = #[]) : v.outlet.sink.received = w.outlet.total := by
  rw [← total, Outlet.total, empty, Array.toList_empty, List.append_nil]

def Empties (w v : Writer) : Prop :=
  WriteM.flush w = .ok () v ∨ WriteM.close w = .ok () v ∨ WriteM.release w = .ok () v

/-- Over a reliable sink, what has been put out is composed of units in their layout, and the sink
has all of it but for the end that is in the buffer, until that is emptied. -/
theorem composed_of_session {sink : Sink} (reliable : sink.Reliable) (settings : WriterSettings)
    (requests : List Request) :
    let w := (new sink settings).after requests
    ∃ sent cs, w.outlet.sink.received = sink.received ++ sent ∧
      sent ++ w.outlet.buffer.toList = encode cs ∧ Composed settings.pretty settings.escape cs ∧
      ∀ v, w.Empties v → v.outlet.sink.received = sink.received ++ encode cs := by
  intro w
  have emitted := emitted_of_session (unbroken_of_reliable (w := new sink settings) reliable requests)
  obtain ⟨cs, emission, composed⟩ := exists_composed_emission (new sink settings) requests
  obtain ⟨sent, received, due⟩ := emitted.received
  rw [emission] at due
  have total : w.outlet.total = sink.received ++ encode cs := by
    rw [Outlet.total, received, List.append_assoc, due]
  refine ⟨sent, cs, received, due, composed, fun v emptied => total ▸ ?_⟩
  rcases emptied with flush | close | release
  · have outcome := Request.outcome_flush w
    rw [flush] at outcome
    cases outcome with
    | flushed _ handed =>
        obtain ⟨same, empty⟩ := Outlet.total_of_flush handed
        exact received_of_emptied (w := w) same empty
  · obtain ⟨-, -, empty, same⟩ := (tracks_of_reliable reliable settings requests).closes close
    exact received_of_emptied same empty
  · obtain ⟨same, empty⟩ := Outlet.total_of_flush (WriteM.flush_of_release release)
    exact received_of_emptied same empty

end Writer

end TypedJson
