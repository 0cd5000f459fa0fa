import TypedJson.Proofs.Text.Quoting
import TypedJson.Proofs.Writer.Pieces

set_option autoImplicit false
set_option relaxedAutoImplicit false

namespace TypedJson

open Grammar (Numeral)
open Operation
open Lines
open Quoting (Atomic Spacing count isClosing isOpening outside squeezed)
open Utf8 (encode)

variable {rules : EscapeRules} {before evs : List Event} {e : Event}

/-- What the written form of a unit is like: outside of strings, it has a bracket only if the unit
begins or ends a container, and the blank behind the colon is its only layout. -/
structure Event.Neat (rules : EscapeRules) (e : Event) : Prop where
  leaves : outside.after (e.token true rules) = outside
  compact : squeezed (e.token true rules) = e.token false rules
  line : '\n' ∉ e.token true rules
  head : ∃ c rest, e.token true rules = c :: rest ∧ c ≠ ' ' ∧ isClosing c = e.closes
  opening : count isOpening (e.token true rules) = e.opens.toNat
  closing : count isClosing (e.token true rules) = e.closes.toNat

namespace Event.Neat

theorem of_atomic {cs : List Char} (token : ∀ pretty, e.token pretty rules = cs) (h : Atomic cs)
    (some : cs ≠ []) (opens : e.opens = false) (closes : e.closes = false) : e.Neat rules where
  leaves := token true ▸ h.leaves
  compact := by rw [token, token, h.squeezed_eq]
  line := token true ▸ h.line
  head := by
    obtain ⟨c, rest, rfl⟩ := List.exists_cons_of_ne_nil some
    refine ⟨c, rest, token true, fun blank => h.head (blank ▸ by decide), ?_⟩
    rw [closes, Bool.eq_false_iff]
    exact fun closing => h.head (Quoting.mem_marks (.inr closing))
  opening := by rw [token, h.count_eq fun _ => .inl, opens, Bool.toNat_false]
  closing := by rw [token, h.count_eq fun _ => .inr, closes, Bool.toNat_false]

theorem of_bracket {b : Char} (token : ∀ pretty, e.token pretty rules = [b])
    (plain : outside.after [b] = outside ∧ squeezed [b] = [b] ∧ '\n' ∉ [b] ∧ b ≠ ' ')
    (opens : isOpening b = e.opens) (closes : isClosing b = e.closes) : e.Neat rules where
  leaves := token true ▸ plain.1
  compact := by rw [token, token, plain.2.1]
  line := token true ▸ plain.2.2.1
  head := ⟨b, [], token true, plain.2.2.2, closes⟩
  opening := by
    rw [token, ← opens]
    cases h : isOpening b <;> simp [count, Quoting.located, h]
  closing := by
    rw [token, ← closes]
    cases h : isClosing b <;> simp [count, Quoting.located, h]

theorem name (s : String) : (Event.name s).Neat rules := by
  have quoted : Atomic (Escape.quoted rules s.toList) := .quoted rules s.toList
  refine ⟨?_, ?_, ?_, ⟨'"', _, rfl, by decide, rfl⟩, ?_, ?_⟩
  · rw [token, Quoting.after_append, quoted.leaves]
    rfl
  · rw [token, Quoting.squeezed_append quoted.leaves, quoted.squeezed_eq]
    rfl
  · rw [token, List.mem_append]
    exact fun feed => feed.elim quoted.line (by decide)
  · rw [token, Quoting.count_append quoted.leaves, quoted.count_eq fun _ => .inl]
    rfl
  · rw [token, Quoting.count_append quoted.leaves, quoted.count_eq fun _ => .inr]
    rfl

end Event.Neat

theorem Bare.Plain.unmarked {c : Char} (h : Bare.Plain c) : c ≠ '"' ∧ c ∉ Quoting.marks := by
  refine ⟨?_, fun mark => ?_⟩
  · rintro rfl
    exact absurd h (by decide)
  · simp only [Quoting.marks, List.mem_cons, List.not_mem_nil, or_false] at mark
    rcases mark with rfl | rfl | rfl | rfl | rfl | rfl <;> exact absurd h (by decide)

theorem Event.Neat.of_word {s : String} (token : ∀ pretty, e.token pretty rules = s.toList)
    (plain : ∀ c ∈ s.toList, Bare.Plain c) (some : s.toList ≠ []) (opens : e.opens = false)
    (closes : e.closes = false) : e.Neat rules :=
  .of_atomic token (.of_bare fun c hc => (plain c hc).unmarked) some opens closes

namespace Writer.Call

theorem IsAdmissible.neat {c : Call} {lenient : Bool} (h : c.IsAdmissible lenient) :
    c.event.Neat rules := by
  have numerals : Grammar.Numerals lenient (Numeral lenient) := Grammar.numerals_numeral id
  have numeral {s : String} (hs : Numeral lenient s.toList) : (Event.number s).Neat rules :=
    .of_word (fun _ => rfl) (numerals.plain _ hs) (numerals.ne_nil _ hs) rfl rfl
  have word {e : Event} {s : String} (token : ∀ pretty, e.token pretty rules = s.toList)
      (plain : (s.toList.all fun c => decide (Bare.Plain c)) = true) (some : s.toList ≠ [])
      (opens : e.opens = false) (closes : e.closes = false) : e.Neat rules :=
    .of_word token (Bare.plain_of_all plain) some opens closes
  have fits : c.Fits (Numeral lenient) { lenient := true } := h.fits rfl
  cases c with
  | beginObject => exact .of_bracket (b := '\x7b') (fun _ => rfl) (by decide) rfl rfl
  | endObject => exact .of_bracket (b := '\x7d') (fun _ => rfl) (by decide) rfl rfl
  | beginArray => exact .of_bracket (b := '[') (fun _ => rfl) (by decide) rfl rfl
  | endArray => exact .of_bracket (b := ']') (fun _ => rfl) (by decide) rfl rfl
  | name s => exact .name s
  | string s =>
      exact .of_atomic (fun _ => rfl) (.quoted rules s.toList) (List.cons_ne_nil _ _) rfl rfl
  | boolean b =>
      cases b with
      | false => exact word (s := "false") (fun _ => rfl) (by decide) (by decide) rfl rfl
      | true => exact word (s := "true") (fun _ => rfl) (by decide) (by decide) rfl rfl
  | integer n => exact numeral (by rw [intText, String.toList_ofList]; exact fits)
  | double x => exact numeral (by rw [String.toList_ofList]; exact fits.2)
  | literal s => exact numeral fits.2
  | null => exact word (s := "null") (fun _ => rfl) (by decide) (by decide) rfl rfl

end Writer.Call

/-! What stands between the units. -/

theorem atomic_comma (before : List Event) (e : Event) : Atomic (comma before e) := by
  unfold comma
  split
  · exact .single (by decide) (by decide)
  · exact .nil

theorem lead_compact (before : List Event) (e : Event) : lead false before e = comma before e :=
  List.append_nil _

theorem exists_spacing (before : List Event) (e : Event) :
    ∃ cs, lead true before e = comma before e ++ cs ∧ Spacing cs := by
  refine ⟨_, rfl, .of_forall fun c hc => ?_⟩
  split at hc
  · rcases List.mem_cons.mp hc with feed | blank
    · exact .inr feed
    · exact .inl (List.eq_of_mem_replicate blank)
  · exact absurd hc List.not_mem_nil

theorem leaves_lead (before : List Event) (e : Event) :
    outside.after (lead true before e) = outside := by
  obtain ⟨cs, parts, spacing⟩ := exists_spacing before e
  rw [parts, Quoting.after_append, (atomic_comma before e).leaves, spacing.leaves]

theorem squeezed_lead (before : List Event) (e : Event) :
    squeezed (lead true before e) = lead false before e := by
  obtain ⟨cs, parts, spacing⟩ := exists_spacing before e
  have comma := atomic_comma before e
  rw [parts, Quoting.squeezed_append comma.leaves, comma.squeezed_eq, spacing.squeezed_eq,
    lead_compact, List.append_nil]

theorem count_lead {p : Char → Bool}
    (brackets : ∀ c, p c = true → isOpening c = true ∨ isClosing c = true) (before : List Event)
    (e : Event) : count p (lead true before e) = 0 := by
  obtain ⟨cs, parts, spacing⟩ := exists_spacing before e
  have comma := atomic_comma before e
  rw [parts, Quoting.count_append comma.leaves, comma.count_eq brackets, spacing.count_eq brackets]

/-! The text of a run of units. -/

/-- Each unit has a neat written form, and the units end only containers that are open. -/
def Regular (rules : EscapeRules) : List Event → List Event → Prop
  | _, [] => True
  | before, e :: evs =>
      e.Neat rules ∧ (e.closes = true → unfinished before ≠ []) ∧ Regular rules (before ++ [e]) evs

theorem Regular.append_left {more : List Event} (h : Regular rules before (evs ++ more)) :
    Regular rules before evs := by
  induction evs generalizing before with
  | nil => trivial
  | cons e evs ih => exact ⟨h.1, h.2.1, ih h.2.2⟩

theorem Regular.append_right {more : List Event} (h : Regular rules before (evs ++ more)) :
    Regular rules (before ++ evs) more := by
  induction evs generalizing before with
  | nil => rwa [List.append_nil]
  | cons e evs ih =>
      rw [List.append_cons]
      exact ih h.2.2

/-- The compact text has everything but the layout. -/
theorem squeezed_printed (h : Regular rules before evs) :
    squeezed (printed true rules before evs) = printed false rules before evs := by
  induction evs generalizing before with
  | nil => rfl
  | cons e evs ih =>
      obtain ⟨neat, -, rest⟩ := h
      have leads := leaves_lead before e
      have unit : outside.after (lead true before e ++ e.token true rules) = outside := by
        rw [Quoting.after_append, leads, neat.leaves]
      rw [printed, printed, Quoting.squeezed_append unit, Quoting.squeezed_append leads,
        squeezed_lead, neat.compact, ih rest]

/-- A text with as many open containers as the units behind which it stands. -/
structure Levels (before : List Event) (cs : List Char) : Prop where
  leaves : outside.after cs = outside
  balance : count isOpening cs = count isClosing cs + (unfinished before).length

theorem length_nest (containers : List Bracket) (fits : e.closes = true → containers ≠ []) :
    (e.nest containers).length + e.closes.toNat = containers.length + e.opens.toNat := by
  cases containers with
  | nil => cases e <;> first | rfl | exact absurd rfl (fits rfl)
  | cons b containers => cases e <;> rfl

namespace Levels

variable {cs : List Char}

theorem comma (h : Levels before cs) (e : Event) : Levels before (cs ++ comma before e) := by
  have comma := atomic_comma before e
  refine ⟨?_, ?_⟩
  · rw [Quoting.after_append, h.leaves, comma.leaves]
  · rw [Quoting.count_append h.leaves, Quoting.count_append h.leaves,
      comma.count_eq fun _ => .inl, comma.count_eq fun _ => .inr]
    exact h.balance

theorem step (h : Levels before cs) (neat : e.Neat rules)
    (fits : e.closes = true → unfinished before ≠ []) :
    Levels (before ++ [e]) (cs ++ (lead true before e ++ e.token true rules)) := by
  have leads := leaves_lead before e
  have unit (p : Char → Bool)
      (brackets : ∀ c, p c = true → isOpening c = true ∨ isClosing c = true) :
      count p (cs ++ (lead true before e ++ e.token true rules)) =
        count p cs + count p (e.token true rules) := by
    rw [Quoting.count_append h.leaves, Quoting.count_append leads, count_lead brackets,
      Nat.zero_add]
  refine ⟨?_, ?_⟩
  · rw [Quoting.after_append, h.leaves, Quoting.after_append, leads, neat.leaves]
  · have nest := length_nest (unfinished before) fits
    have balance := h.balance
    rw [unit _ fun _ => .inl, unit _ fun _ => .inr, neat.opening, neat.closing, unfinished_concat]
    omega

theorem run (h : Levels before cs) (regular : Regular rules before evs) :
    Levels (before ++ evs) (cs ++ printed true rules before evs) := by
  induction evs generalizing before cs with
  | nil => simpa [printed] using h
  | cons e evs ih =>
      have rest := ih (h.step regular.1 regular.2.1) regular.2.2
      rw [List.append_assoc, List.append_assoc] at rest
      exact rest

end Levels

/-! The lines. -/

theorem margin_line (before : List Event) (e : Event) : '\n' ∉ margin before e :=
  fun feed => absurd (List.eq_of_mem_replicate feed) (by decide)

theorem lineFeed_first {cs front back : List Char} (neat : e.Neat rules)
    (text : lead true before e ++ (e.token true rules ++ cs) = front ++ '\n' :: back) :
    (beginsLine before e = true ∧ front = comma before e ∧
        back = margin before e ++ (e.token true rules ++ cs)) ∨
      ∃ more, front = lead true before e ++ (e.token true rules ++ more) ∧
        cs = more ++ '\n' :: back := by
  rw [lead, Bool.true_and] at text ⊢
  rw [List.append_assoc] at text
  obtain ⟨more, rfl, line⟩ :=
    (Quoting.append_eq_lineFeed_iff (atomic_comma before e).line).mp text
  by_cases begins : beginsLine before e = true
  · rw [if_pos begins] at line ⊢
    cases more with
    | nil =>
        obtain ⟨-, rfl⟩ := List.cons.inj line
        exact .inl ⟨begins, List.append_nil _, rfl⟩
    | cons c more =>
        obtain ⟨rfl, blanks⟩ := List.cons.inj line
        obtain ⟨more, rfl, unit⟩ :=
          (Quoting.append_eq_lineFeed_iff (margin_line before e)).mp blanks
        obtain ⟨more, rfl, later⟩ := (Quoting.append_eq_lineFeed_iff neat.line).mp unit
        exact .inr ⟨more, by simp, later⟩
  · rw [if_neg begins] at line ⊢
    obtain ⟨more, rfl, later⟩ := (Quoting.append_eq_lineFeed_iff neat.line).mp line
    exact .inr ⟨more, by simp, later⟩

/-- The line feeds of a text are those in front of the units that begin a line. -/
theorem printed_lineFeed_iff {front back : List Char} (h : Regular rules before evs) :
    printed true rules before evs = front ++ '\n' :: back ↔
      ∃ seen e behind, evs = seen ++ e :: behind ∧ beginsLine (before ++ seen) e = true ∧
        front = printed true rules before seen ++ comma (before ++ seen) e ∧
        back = margin (before ++ seen) e ++
          (e.token true rules ++ printed true rules (before ++ seen ++ [e]) behind) := by
  constructor
  · intro text
    induction evs generalizing before front with
    | nil => cases front <;> cases text
    | cons e evs ih =>
        rw [printed, List.append_assoc] at text
        obtain ⟨line, rfl, rfl⟩ | ⟨more, rfl, later⟩ := lineFeed_first h.1 text
        · exact ⟨[], e, evs, rfl, by rwa [List.append_nil], by simp [printed], by simp⟩
        · obtain ⟨seen, e', behind, rfl, line, rfl, rfl⟩ := ih h.2.2 later
          rw [← List.append_cons] at line ⊢
          exact ⟨e :: seen, e', behind, rfl, line, by simp [printed], rfl⟩
  · rintro ⟨seen, e, behind, rfl, line, rfl, rfl⟩
    simp [printed_append, printed, lead, line]

/-- Every line feed of a text is outside of its strings, and behind it there are exactly two blanks
per container that is open there, but for a container that ends next. -/
def Indented (cs : List Char) : Prop :=
  ∀ front back, cs = front ++ '\n' :: back → outside.after front = outside ∧
    ∃ level c rest, back = List.replicate (2 * level) ' ' ++ c :: rest ∧ c ≠ ' ' ∧
      count isOpening front = count isClosing front + level + (isClosing c).toNat

theorem indented_printed (h : Regular rules [] evs) : Indented (printed true rules [] evs) := by
  intro front back text
  obtain ⟨seen, e, behind, rfl, -, rfl, rfl⟩ := (printed_lineFeed_iff h).mp text
  obtain ⟨neat, fits, -⟩ := h.append_right
  have start : Levels [] [] := ⟨rfl, rfl⟩
  have levels : Levels seen (printed true rules [] seen ++ comma seen e) :=
    (start.run h.append_left).comma e
  obtain ⟨c, rest, token, noBlank, closing⟩ := neat.head
  rw [List.nil_append] at fits ⊢
  refine ⟨levels.leaves, (unfinished seen).length - e.closes.toNat, c, _,
    by rw [margin, token, List.cons_append], noBlank, ?_⟩
  rw [levels.balance, closing, Nat.add_assoc, Nat.sub_add_cancel]
  cases closes : e.closes with
  | false => exact Nat.zero_le _
  | true => exact List.length_pos_iff.mpr (fits closes)

namespace Writer

variable {w : Writer} {calls : List Call} {t : Tree}

theorem lays_printed (isOpen : w.isClosed = false) (sound : w.Sound) (follows : Follows before w)
    (complete : w.Completes (calls.map Call.event))
    (admissible : ∀ c ∈ calls, c.IsAdmissible w.settings.lenient) :
    Regular w.settings.escape before (calls.map Call.event) ∧
      ∃ w', LaysAll calls w
          (printed w.settings.pretty w.settings.escape before (calls.map Call.event)) w' ∧
        w'.isClosed = false ∧ w'.Completes [] := by
  induction calls generalizing w before with
  | nil => exact ⟨trivial, w, Lays.pure, isOpen, complete⟩
  | cons c calls ih =>
      obtain ⟨now, later⟩ := List.forall_mem_cons.mp admissible
      obtain ⟨placed, rest⟩ := (completes_cons isOpen sound c).mp complete
      have puts := c.puts_run placed now
      obtain ⟨stillOpen, same⟩ := puts.akin
      obtain ⟨regular, w', lays, done⟩ := ih (stillOpen.trans isOpen) (sound_next c)
        (follows.next sound placed) rest (same ▸ later)
      rw [same] at regular lays
      have whole := laysAll_cons puts.lays lays
      rw [follows.text_eq placed] at whole
      exact ⟨⟨now.neat, follows.unfinished_ne_nil placed, regular⟩, w', whole, done⟩

theorem document_printed (settings : WriterSettings) (h : calls.map Call.event = t.events)
    (admissible : ∀ c ∈ calls, c.IsAdmissible settings.lenient) :
    Regular settings.escape [] t.events ∧ ∀ sink : Sink, sink.Reliable →
      ∃ w, document calls (new sink settings) = .ok () w ∧
        w.outlet.sink.received =
          sink.received ++ encode (printed settings.pretty settings.escape [] t.events) := by
  have complete : (new {} settings).Completes (calls.map Call.event) :=
    (completes_new {} settings).mpr ⟨t, h.symm⟩
  obtain ⟨regular, w', lays, isOpen, done⟩ :=
    lays_printed rfl (fun named => by cases named) (follows_new {} settings) complete admissible
  rw [h] at regular lays
  refine ⟨regular, fun sink reliable => ?_⟩
  obtain ⟨o, run, holds⟩ := lays _ _ (Outlet.holds_new reliable)
  obtain ⟨containers, nonEmpty⟩ := completes_nil.mp done
  obtain ⟨w, close, received, -⟩ := attains_close isOpen containers nonEmpty holds
  exact ⟨w, (bind_of_ok run).trans close, received⟩

/-- A document laid out in lines is the compact document with layout added to it. Its line feeds are
those in front of the items, of the member names, and of the ends of the containers that are not
empty; each line begins with two blanks per open container; and an empty container is a pair of
brackets. -/
theorem document_lines (settings : WriterSettings) (h : calls.map Call.event = t.events)
    (admissible : ∀ c ∈ calls, c.IsAdmissible settings.lenient) :
    let text (pretty : Bool) := printed pretty settings.escape [] t.events
    (∀ (pretty : Bool) (sink : Sink), sink.Reliable →
      ∃ w, document calls (new sink { settings with pretty }) = .ok () w ∧
        w.outlet.sink.received = sink.received ++ encode (text pretty)) ∧
    text false = squeezed (text true) ∧ Indented (text true) ∧
    (∀ front back, text true = front ++ '\n' :: back ↔
      ∃ before e behind, t.events = before ++ e :: behind ∧ beginsLine before e = true ∧
        front = printed true settings.escape [] before ++ comma before e ∧
        back = margin before e ++ (e.token true settings.escape ++
          printed true settings.escape (before ++ [e]) behind)) ∧
    ∀ before (b : Bracket) behind, t.events = before ++ b.opening :: b.ending :: behind →
      text true = printed true settings.escape [] before ++ (lead true before b.opening ++ b.pair ++
        printed true settings.escape (before ++ [b.opening, b.ending]) behind) := by
  intro text
  have regular := (document_printed settings h admissible).1
  refine ⟨fun pretty sink reliable => ?_, (squeezed_printed regular).symm, indented_printed regular,
    fun front back => printed_lineFeed_iff regular, ?_⟩
  · exact (document_printed { settings with pretty } h admissible).2 sink reliable
  · intro before b behind units
    have parts := printed_append true settings.escape [] before (b.opening :: b.ending :: behind)
    rw [← units, List.nil_append, printed_empty] at parts
    exact parts

/-- Empty containers next to others, and a member name with a blank and a bracket in it. -/
theorem document_lines_nested :
    let calls : List Call := [.beginObject, .name "a [", .beginArray, .endArray, .name "b",
      .beginArray, .integer 1, .beginObject, .name "c", .beginObject, .endObject, .endObject,
      .endArray, .endObject]
    let lines := "\x7b\n  \"a [\": [],\n  \"b\": [\n    1,\n    \x7b\n" ++
      "      \"c\": \x7b\x7d\n    \x7d\n  ]\n\x7d"
    let compact := "\x7b\"a [\":[],\"b\":[1,\x7b\"c\":\x7b\x7d\x7d]\x7d"
    (∃ w, document calls (new {} { pretty := true }) = .ok () w ∧
      w.outlet.sink.received = encode lines.toList) ∧
    (∃ w, document calls (new {}) = .ok () w ∧
      w.outlet.sink.received = encode compact.toList) ∧
    compact.toList = squeezed lines.toList ∧ Indented lines.toList := by
  intro calls lines compact
  have units : calls.map Call.event = (Tree.object [("a [", .array []), ("b", .array [.number "1",
    .object [("c", .object [])]])]).events := by decide
  have admissible : ∀ c ∈ calls, c.IsAdmissible false := by
    simp [calls, Call.IsAdmissible, Call.Fits]
  obtain ⟨arrives, squeezes, indented, -⟩ := document_lines {} units admissible
  have pretty : printed true {} [] (calls.map Call.event) = lines.toList := by decide
  have plain : printed false {} [] (calls.map Call.event) = compact.toList := by decide
  rw [units] at pretty plain
  rw [← pretty, ← plain]
  exact ⟨arrives true {} Sink.reliable_new, arrives false {} Sink.reliable_new, squeezes, indented⟩

end Writer

end TypedJson
