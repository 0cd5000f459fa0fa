import TypedJson.Proofs.Checked.Binding
import TypedJson.Proofs.Reader.Ending

set_option autoImplicit false
set_option relaxedAutoImplicit false

namespace TypedJson

open CheckedM (answered answered_ne_astray)

namespace StackReader

/-- The bytes of the input that have not been consumed. -/
def remaining (m : StackReader) : Nat :=
  m.window.unread.length + m.window.source.ahead

/-- The units that have been looked at and not consumed: one at most. -/
def pending (m : StackReader) : Nat :=
  if m.peeked.isSome then 1 else 0

/-- An operation comes to an answer or an error, the same however deep calls may be nested, as long
as that is deeper than there is input left. It consumes a unit for each byte at most, and the one
that had been looked at. -/
def Ends {ε σ α : Type} (part : σ → StackReader) (run : Nat → CheckedM ε σ α) (s : σ) : Prop :=
  ∃ outcome, outcome ≠ .error .astray ∧ ∀ depth, (part s).remaining + 1 < depth →
    ∃ s', run depth s = some (outcome, s') ∧
      (part s').taken + (part s').remaining ≤
        (part s).taken + (part s).remaining + (part s).pending

variable {κ : Type} [DecidableEq κ]

/-- The states that a reader comes to by calls and by typed reading in any order, whether or not
they succeed. -/
inductive Reached (catalog : Catalog κ) (source : Source) (settings : ReaderSettings) :
    StackReader → Prop
  | new : Reached catalog source settings (new source settings)
  | call {m m' : StackReader} {c : Call} {seen : Observation} :
      Reached catalog source settings m → m.call c = some (seen, m') →
      Reached catalog source settings m'
  | field {m m' : StackReader} {depth : Nat} {t : FieldType κ}
      {outcome : Except (Stop BindError) (Value κ)} :
      Reached catalog source settings m → m.remaining + 1 < depth →
      CheckedBindM.field catalog depth t m = some (outcome, m') →
      Reached catalog source settings m'
  | collection {m m' : StackReader} {depth : Nat} {t : FieldType κ} {initial : List (Value κ)}
      {outcome : Except (Stop BindError) (List (Value κ))} :
      Reached catalog source settings m → m.remaining + 1 < depth →
      CheckedBindM.collection catalog depth t initial m = some (outcome, m') →
      Reached catalog source settings m'
  | fill {m m' : StackReader} {depth : Nat} {s : Schema κ} {fields fields' : List (Value κ)}
      {outcome : Except (Stop BindError) Unit} :
      Reached catalog source settings m → m.remaining + 1 < depth →
      CheckedFillM.fill catalog depth s (m, fields) = some (outcome, (m', fields')) →
      Reached catalog source settings m'

end StackReader

open StackReader (Ends Reached)

variable {o : Origin} {budget : Nat} {m : StackReader} {r : Reader}

theorem Represents.remaining (h : Represents o m r) : m.remaining = r.cursor.ahead := by
  rw [StackReader.remaining, h.window.unread, h.window.source, Cursor.ahead]

theorem Represents.unitsLeft (h : Represents o m r) :
    r.unitsLeft ≤ m.remaining + m.pending := by
  rw [h.remaining, StackReader.pending, h.peeked, Reader.unitsLeft]
  refine Nat.add_le_add_left ?_ _
  cases r.lookahead with
  | none => exact Nat.le_refl _
  | some l => cases l <;> simp

namespace Counted

theorem here (h : Counted o budget m r) : Counted o (m.taken + r.unitsLeft) m r :=
  ⟨h.represents, Nat.le_refl _⟩

theorem few {depth : Nat} (h : Counted o budget m r) (deep : m.remaining + 1 < depth) :
    Few o budget depth m r := by
  refine ⟨h, ?_⟩
  have left := h.represents.unitsLeft
  have one : m.pending ≤ 1 := by
    rw [StackReader.pending]
    split <;> decide
  omega

theorem bound {m' : StackReader} {r' : Reader} (h : Counted o budget m r)
    (h' : Counted o (m.taken + r.unitsLeft) m' r') :
    m'.taken + m'.remaining ≤ m.taken + m.remaining + m.pending := by
  have left := h.represents.unitsLeft
  have paid := h'.paid
  have ahead : m'.remaining ≤ r'.unitsLeft := by
    rw [h'.represents.remaining]
    exact ReadM.ahead_le_unitsLeft r'
  omega

variable {α : Type}

theorem ends {x : CheckedReadM α} {y : ReadM α} (h : Counted o budget m r)
    (hx : ∀ budget, CheckedReadM.Follows o budget x y) : Ends id (fun _ => x) m := by
  refine ⟨answered (y r), answered_ne_astray _, fun _ _ => ?_⟩
  obtain ⟨m', run, h'⟩ := (hx _ m r h.here).exists_final
  exact ⟨m', run, h.bound h'⟩

theorem ends_bind {x : Nat → CheckedBindM α} {y : BindM α} (h : Counted o budget m r)
    (hx : ∀ budget depth, CheckedBindM.Follows o budget depth (x depth) y) : Ends id x m := by
  refine ⟨answered (y r), answered_ne_astray _, fun depth deep => ?_⟩
  obtain ⟨m', run, h'⟩ := (hx _ depth m r (h.here.few deep)).exists_final
  exact ⟨m', run, h.bound h'⟩

theorem ends_fill {κ : Type} [DecidableEq κ] (h : Counted o budget m r) (catalog : Catalog κ)
    (s : Schema κ) (fields : List (Value κ)) :
    Ends Prod.fst (fun depth => CheckedFillM.fill catalog depth s) (m, fields) := by
  refine ⟨answered (s.fill catalog (r, fields)), answered_ne_astray _, fun depth deep => ?_⟩
  obtain ⟨s', run, h'⟩ := (CheckedFillM.realizes_fill catalog s (m, fields) (r, fields)
    ⟨h.here.few deep, rfl⟩).exists_final
  exact ⟨s', run, h.bound h'.1⟩

theorem progress (h : Counted o budget m r) (unseen : m.peeked = none) :
    ∃ outcome m', CheckedReadM.nextLexeme m = some (outcome, m') ∧ outcome ≠ .error .astray ∧
      ∀ l, outcome = .ok l →
        l = .endDocument ∧ m'.window.unread = [] ∧ m'.window.drained = true ∨
          m.window.mark.bytes < m'.window.mark.bytes := by
  have before := h.represents
  have atEnd : Operation.Ensures (fun _ => True) ReadM.nextLexeme
      fun l r => l = .endDocument → r.cursor.AtEnd :=
    fun _ _ _ _ run last => ReadM.atEnd_of_endDocument (last ▸ run)
  have start : Unseen o m.taken r.cursor.ahead m r :=
    ⟨before, before.peeked.symm.trans unseen, rfl, Nat.le_refl _⟩
  have run := CheckedReadM.realizes_nextLexeme.ensuring atEnd (fun _ _ _ => trivial) m r start
  generalize CheckedReadM.nextLexeme m = outcome at run ⊢
  generalize ReadM.nextLexeme r = result at run
  cases run with
  | @error e m' r' _ => exact ⟨_, m', rfl, nofun, nofun⟩
  | @ok l m' r' h' =>
      obtain ⟨⟨behind, -, taken⟩, ended⟩ := h'
      refine ⟨_, m', rfl, nofun, ?_⟩
      rintro _ ⟨⟩
      have window := behind.represents.window
      by_cases last : l = .endDocument
      · obtain ⟨nothing, drained⟩ := ended last
        exact .inl ⟨last, window.unread.trans nothing, window.drained.trans drained⟩
      · have less := taken last
        have bytes := before.window.bytes
        have bytes' := window.bytes
        rw [before.window.mark, window.mark]
        exact .inr (by omega)

end Counted

namespace StackReader

variable {κ : Type} [DecidableEq κ] {catalog : Catalog κ} {source : Source}
variable {settings : ReaderSettings}

theorem Reached.counted (fits : source.Fits)
    (limit : settings.maxNestingDepth ≤ CheckedReadM.maxDepth)
    (h : Reached catalog source settings m) :
    ∃ r, Counted ⟨settings, limit, source.ahead⟩ source.ahead m r := by
  induction h with
  | new => exact ⟨_, counted_new fits limit⟩
  | @call m m' c seen _ run ih =>
      obtain ⟨r, h⟩ := ih
      obtain ⟨m₁, called, h₁⟩ := h.call c
      obtain ⟨-, rfl⟩ := Prod.mk.inj (Option.some_inj.mp (called.symm.trans run))
      exact ⟨_, h₁⟩
  | @field m m' depth t outcome _ deep run ih =>
      obtain ⟨r, h⟩ := ih
      exact ⟨_, (CheckedBindM.follows_field catalog t m r (h.few deep)).related run⟩
  | @collection m m' depth t initial outcome _ deep run ih =>
      obtain ⟨r, h⟩ := ih
      exact ⟨_, (CheckedBindM.follows_collection catalog t initial m r (h.few deep)).related run⟩
  | @fill m m' depth s fields fields' outcome _ deep run ih =>
      obtain ⟨r, h⟩ := ih
      have read := CheckedFillM.realizes_fill catalog s (m, fields) (r, fields) ⟨h.few deep, rfl⟩
      exact ⟨_, (read.related run).1⟩

theorem Reached.session {calls : List Call} {seen : List Observation} {m' : StackReader}
    (h : Reached catalog source settings m) (run : m.session calls = some (seen, m')) :
    Reached catalog source settings m' := by
  induction calls generalizing m seen with
  | nil =>
      cases run
      exact h
  | cons c calls ih =>
      obtain ⟨⟨seen₁, m₁⟩, called, rest⟩ := Option.bind_eq_some_iff.mp run
      obtain ⟨⟨seen₂, m₂⟩, later, same⟩ := Option.bind_eq_some_iff.mp rest
      cases same
      exact ih (h.call called) later

/-- From every state that a reader comes to, with either leniency and in every scope, whatever the
input: lexing a unit ends, and has taken a byte unless it has found the end of the document with no
input left. Skipping a value ends, and so does reading a value of any type, a collection of such
values, or an object into any record, also if record types contain themselves. None of them consumes
more units than there are bytes left, except for the one that had been looked at. -/
theorem reads_end (catalog : Catalog κ) (fits : source.Fits)
    (limit : settings.maxNestingDepth ≤ CheckedReadM.maxDepth)
    (h : Reached catalog source settings m) :
    (m.peeked = none →
      ∃ outcome m', CheckedReadM.nextLexeme m = some (outcome, m') ∧ outcome ≠ .error .astray ∧
        ∀ l, outcome = .ok l →
          l = .endDocument ∧ m'.window.unread = [] ∧ m'.window.drained = true ∨
            m.window.mark.bytes < m'.window.mark.bytes) ∧
    Ends id (fun _ => CheckedReadM.skipValue) m ∧
    (∀ t, Ends id (fun depth => CheckedBindM.field catalog depth t) m) ∧
    (∀ t initial, Ends id (fun depth => CheckedBindM.collection catalog depth t initial) m) ∧
    ∀ s fields, Ends Prod.fst (fun depth => CheckedFillM.fill catalog depth s) (m, fields) := by
  obtain ⟨r, counted⟩ := h.counted fits limit
  exact ⟨counted.progress, counted.ends fun _ => CheckedReadM.follows_skipValue,
    fun t => counted.ends_bind fun _ _ => CheckedBindM.follows_field catalog t,
    fun t initial => counted.ends_bind fun _ _ =>
      CheckedBindM.follows_collection catalog t initial,
    counted.ends_fill catalog⟩

/-- A record type that contains itself is read from data that end within a name, behind a look at
the next unit. -/
theorem reads_end_truncated :
    ∃ (source : Source) (settings : ReaderSettings) (seen : List Observation) (m : StackReader),
      source = ⟨[.data 0x5B (Utf8.encode "\x7b\"parent\":\x7b".toList), .interrupted,
        .data 0x22 (Utf8.encode "par".toList)], .endOfData⟩ ∧
      settings = { lenient := true } ∧
      (new source settings).session [.beginArray, .peek] = some (seen, m) ∧
      Ends id (fun depth => CheckedBindM.field Sample.catalog depth (.record .treeNode)) m := by
  let source : Source := ⟨[.data 0x5B (Utf8.encode "\x7b\"parent\":\x7b".toList), .interrupted,
    .data 0x22 (Utf8.encode "par".toList)], .endOfData⟩
  let settings : ReaderSettings := { lenient := true }
  have fits : source.Fits := by decide +kernel
  have limit : settings.maxNestingDepth ≤ CheckedReadM.maxDepth := by decide
  obtain ⟨m, run, -⟩ := (counted_new fits limit).session [.beginArray, .peek]
  have reached : Reached Sample.catalog source settings m := Reached.new.session run
  exact ⟨source, settings, _, m, rfl, rfl, run,
    (reads_end Sample.catalog fits limit reached).2.2.1 _⟩

end StackReader

end TypedJson
