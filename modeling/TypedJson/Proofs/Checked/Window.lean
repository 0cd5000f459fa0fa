import TypedJson.Proofs.Checked.Operation
import TypedJson.Proofs.Input.Delivery
import TypedJson.Proofs.Lexing.Progress

set_option autoImplicit false
set_option relaxedAutoImplicit false

namespace TypedJson

open Operation
open CheckedM (demand fail)

/-- The answer of a source to one read attempt, and the source behind it. -/
def Source.attempt (s : Source) : Delivery × Source :=
  match s.replies, s.ending with
  | d :: rest, _ => (d, { s with replies := rest })
  | [], .endOfData => (.endOfData, s)
  | [], .failed text => (.failed text, s)

/-- No read hands over more bytes than the buffer has room for. -/
def Source.Fits (s : Source) : Prop :=
  ∀ d ∈ s.replies, d.bytes.length ≤ Source.capacity

instance (s : Source) : Decidable s.Fits :=
  inferInstanceAs (Decidable (∀ d ∈ s.replies, d.bytes.length ≤ Source.capacity))

/-- A buffer in front of a source: its cells, the place of the next byte, the end of the cells that
have been filled, whether the source has reported the end of the data, and the place in the data. -/
structure Window where
  cells : Vector UInt8 Source.capacity
  position : Nat
  filled : Nat
  drained : Bool
  source : Source
  mark : Mark

abbrev CheckedLexM := CheckedM LexFault Window

namespace Window

def start (s : Source) : Window :=
  ⟨Vector.replicate _ 0, 0, 0, false, s, {}⟩

/-- The bytes that have been filled in and not consumed. -/
def unread (w : Window) : List UInt8 :=
  (w.cells.toList.take w.filled).drop w.position

def load (w : Window) (bytes : List UInt8) : Window :=
  { w with
    cells := Vector.ofFn fun i => bytes[i]?.getD w.cells[i]
    position := 0
    filled := bytes.length }

/-- One attempt to fill the buffer, unless the data are known to have ended. -/
def fillRound : CheckedLexM (Unit ⊕ Bool) := do
  let w ← get
  if w.drained then pure (.inr false)
  else
    let (reply, source) := w.source.attempt
    set { w with source }
    match reply with
    | .interrupted => pure (.inl ())
    | .endOfData => do
        modify fun w => { w with drained := true }
        pure (.inr false)
    | .failed text => fail (.data (.device text))
    | .data b more => do
        demand ((b :: more).length ≤ Source.capacity)
        modify fun w => w.load (b :: more)
        pure (.inr true)

/-- Fills the buffer anew. Interrupted attempts are repeated; the answer is false at the end of the
data. -/
def fill : CheckedLexM Bool :=
  CheckedM.loop (fun _ => fillRound) ()

def cell : CheckedLexM UInt8 := do
  let w ← get
  match w.cells[w.position]? with
  | some b => pure b
  | none => throw .astray

def peek : CheckedLexM (Option UInt8) := do
  let w ← get
  if w.filled ≤ w.position then
    if ← fill then
      let b ← cell
      pure (some b)
    else pure none
  else
    let b ← cell
    pure (some b)

def advance (b : UInt8) : CheckedLexM Unit :=
  modify fun w => { w with position := w.position + 1, mark := w.mark.advance b }

def conclude {α : Type} : Except LexFault α → CheckedLexM α
  | .ok a => pure a
  | .error fault => fail fault

/-- What a scanner does about the next byte. In each of its states the subtractions that it makes
there have to be possible. -/
def scanRound {σ α : Type} (m : Scanner LexFault σ α) (possible : σ → Bool) (s : σ) :
    CheckedLexM (σ ⊕ α) := do
  demand (possible s = true)
  match ← peek with
  | none => .inr <$> conclude (m.atEnd s)
  | some b =>
      match m.move s b with
      | .shift s' => do
          advance b
          pure (.inl s')
      | .finish r => do
          advance b
          .inr <$> conclude r
      | .halt r => .inr <$> conclude r

/-- Runs a scanner byte by byte. -/
def scan {σ α : Type} (m : Scanner LexFault σ α) (possible : σ → Bool) (s : σ) : CheckedLexM α :=
  CheckedM.loop (scanRound m possible) s

/-- A window on what is in front of a cursor, with its places within the buffer. Bytes consumed and
bytes ahead make a fixed total, and there are at most so many ahead. -/
structure Shows (total most : Nat) (w : Window) (c : Cursor) : Prop where
  unread : w.unread = c.unread
  source : w.source = c.source
  drained : w.drained = c.drained
  mark : w.mark = c.mark
  position : w.position ≤ w.filled
  filled : w.filled ≤ Source.capacity
  fits : w.source.Fits
  bytes : c.mark.bytes + c.ahead = total
  ahead : c.ahead ≤ most

namespace Shows

variable {total most most' : Nat} {w : Window} {c : Cursor}

theorem mono (h : Shows total most w c) (le : c.ahead ≤ most') : Shows total most' w c :=
  { h with ahead := le }

theorem tight (h : Shows total most w c) : Shows total c.ahead w c :=
  h.mono (Nat.le_refl _)

end Shows

end Window

namespace LexM

def refill : List Delivery → LexM Bool
  | [] => do
      match (← get).source.ending with
      | .endOfData =>
          modify fun c => { c with drained := true }
          pure false
      | .failed text => throw (.data (.device text))
  | reply :: rest => do
      modify fun c => { c with source := { c.source with replies := rest } }
      match reply with
      | .interrupted => refill rest
      | .endOfData =>
          modify fun c => { c with drained := true }
          pure false
      | .failed text => throw (.data (.device text))
      | .data b more =>
          modify fun c => { c with unread := b :: more }
          pure true

def look : LexM (Option UInt8) := do
  let c ← get
  match c.unread, c.drained with
  | [], false => do
      let _ ← refill c.source.replies
      pure (← get).unread.head?
  | unread, _ => pure unread.head?

/-- What a scanner does about the byte in front of the cursor, or about the end of the data. -/
def respond {σ α : Type} (m : Scanner LexFault σ α) (s : σ) : Option UInt8 → LexM α
  | none => result (m.atEnd s)
  | some b =>
      match m.move s b with
      | .shift s' => do
          advance
          scan m s'
      | .finish r => do
          advance
          result r
      | .halt r => result r

variable {σ α : Type} (m : Scanner LexFault σ α) (s : σ)

theorem scan_of_unread {b : UInt8} {bs : List UInt8} {c : Cursor} (h : c.unread = b :: bs) :
    scan m s c = respond m s (some b) c := by
  obtain ⟨unread, source, drained, mark⟩ := c
  obtain rfl : unread = b :: bs := h
  unfold respond
  simp only [scan, Scanner.scan, Scanner.pass]
  cases move : m.move s b with
  | shift s' => rfl
  | finish r => cases r <;> rfl
  | halt r => cases r <;> rfl

theorem scan_of_drained {source : Source} {k : Mark} :
    scan m s ⟨[], source, true, k⟩ = respond m s none ⟨[], source, true, k⟩ := by
  unfold respond
  rw [scan_eq_result]
  rfl

theorem scan_of_replies {replies : List Delivery} {ending : Ending} {k : Mark} :
    scan m s ⟨[], ⟨replies, ending⟩, false, k⟩ =
      (do
        let _ ← refill replies
        respond m s (← get).unread.head?) ⟨[], ⟨replies, ending⟩, false, k⟩ := by
  induction replies with
  | nil =>
      cases ending with
      | endOfData =>
          rw [scan_eq_result]
          rfl
      | failed text => rfl
  | cons reply rest ih =>
      cases reply with
      | interrupted => exact ih
      | endOfData =>
          rw [scan_eq_result]
          rfl
      | failed text => rfl
      | data b more =>
          change _ = respond m s (some b) ⟨b :: more, ⟨rest, ending⟩, false, k⟩
          rw [← scan_of_unread m s rfl, scan_eq_result, scan_eq_result]
          simp only [Scanner.scan, Scanner.passReplies]
          rfl

theorem scan_eq (c : Cursor) : scan m s c = (do let b ← look; respond m s b) c := by
  obtain ⟨unread, ⟨replies, ending⟩, drained, k⟩ := c
  cases unread with
  | cons b bs => exact scan_of_unread m s rfl
  | nil =>
      cases drained with
      | true => exact scan_of_drained m s
      | false =>
          have looking : look ⟨[], ⟨replies, ending⟩, false, k⟩ =
              (do
                let _ ← refill replies
                pure (← get).unread.head?) ⟨[], ⟨replies, ending⟩, false, k⟩ := rfl
          rw [scan_of_replies]
          refine Eq.symm ((bind_congr looking fun _ _ _ => rfl).trans ?_)
          simp only [bind_assoc, pure_bind]

end LexM

namespace Window

variable {total most : Nat} {w : Window} {c : Cursor}

theorem unread_of_lt (inside : w.position < w.filled) (filled : w.filled ≤ Source.capacity) :
    ∃ b, w.cells[w.position]? = some b ∧ w.unread = b :: (w.unread).tail := by
  have cell : w.position < Source.capacity := by omega
  have place : w.position < (w.cells.toList.take w.filled).length := by
    simp
    omega
  refine ⟨w.cells[w.position], Vector.getElem?_eq_getElem cell, ?_⟩
  rw [unread, List.drop_eq_getElem_cons place]
  simp

theorem unread_of_le (behind : w.filled ≤ w.position) : w.unread = [] := by
  refine List.drop_eq_nil_of_le ?_
  rw [List.length_take]
  omega

theorem unread_load {bytes : List UInt8} (fits : bytes.length ≤ Source.capacity) :
    (w.load bytes).unread = bytes := by
  refine List.ext_getElem (by simp [load, unread, fits]) fun i hi hi' => ?_
  have place : i < Source.capacity := by omega
  simp [load, unread, hi']

theorem Shows.unread_eq_nil_iff (h : Shows total most w c) :
    c.unread = [] ↔ w.filled ≤ w.position := by
  rw [← h.unread]
  constructor
  · refine fun empty => Nat.le_of_not_lt fun inside => ?_
    obtain ⟨b, -, more⟩ := unread_of_lt inside h.filled
    rw [empty] at more
    cases more
  · exact unread_of_le

theorem realized_fill (h : Shows total most w c) (empty : c.unread = [])
    (flowing : c.drained = false) :
    Realized (fun more w' c' => Shows total most w' c' ∧ (more = true ↔ c'.unread ≠ []) ∧
      c'.mark = c.mark) (Shows total most) (fill w) (LexM.refill c.source.replies c) := by
  obtain ⟨unread, ⟨replies, ending⟩, drained, k⟩ := c
  obtain ⟨cells, position, filled, drained', source, k'⟩ := w
  obtain ⟨shown, source_eq, drained_eq, mark_eq, behind, within, fits, bytes, left⟩ := h
  dsimp only at *
  subst empty flowing source_eq drained_eq mark_eq
  induction replies with
  | nil =>
      cases ending with
      | endOfData =>
          have run : fill ⟨cells, position, filled, false, ⟨[], .endOfData⟩, k'⟩ =
              some (.ok false, ⟨cells, position, filled, true, ⟨[], .endOfData⟩, k'⟩) :=
            CheckedM.loop_of_inr rfl
          rw [run]
          exact .ok ⟨⟨shown, rfl, rfl, rfl, behind, within, fits, bytes, left⟩, by simp, rfl⟩
      | failed text =>
          have run : fill ⟨cells, position, filled, false, ⟨[], .failed text⟩, k'⟩ =
              some (.error (.error (.data (.device text))),
                ⟨cells, position, filled, false, ⟨[], .failed text⟩, k'⟩) :=
            CheckedM.loop_of_stop rfl
          rw [run]
          exact .error ⟨shown, rfl, rfl, rfl, behind, within, fits, bytes, left⟩
  | cons reply rest ih =>
      have fits' : Source.Fits ⟨rest, ending⟩ := fun d hd => fits d (List.mem_cons_of_mem _ hd)
      -- a reply moves its bytes from the source to the bytes at hand
      have moved : (⟨reply.bytes, ⟨rest, ending⟩, false, k'⟩ : Cursor).ahead =
          (⟨[], ⟨reply :: rest, ending⟩, false, k'⟩ : Cursor).ahead := by
        simp [Cursor.ahead, Source.ahead, Delivery.total]
      rw [← moved] at bytes left
      cases reply with
      | interrupted =>
          have run : fill ⟨cells, position, filled, false, ⟨.interrupted :: rest, ending⟩, k'⟩ =
              fill ⟨cells, position, filled, false, ⟨rest, ending⟩, k'⟩ :=
            CheckedM.loop_of_inl rfl
          rw [run]
          exact ih fits' shown bytes left
      | endOfData =>
          have run : fill ⟨cells, position, filled, false, ⟨.endOfData :: rest, ending⟩, k'⟩ =
              some (.ok false, ⟨cells, position, filled, true, ⟨rest, ending⟩, k'⟩) :=
            CheckedM.loop_of_inr rfl
          rw [run]
          exact .ok ⟨⟨shown, rfl, rfl, rfl, behind, within, fits', bytes, left⟩, by simp, rfl⟩
      | failed text =>
          have run : fill ⟨cells, position, filled, false, ⟨.failed text :: rest, ending⟩, k'⟩ =
              some (.error (.error (.data (.device text))),
                ⟨cells, position, filled, false, ⟨rest, ending⟩, k'⟩) :=
            CheckedM.loop_of_stop rfl
          rw [run]
          exact .error ⟨shown, rfl, rfl, rfl, behind, within, fits', bytes, left⟩
      | data b more =>
          have room : (b :: more).length ≤ Source.capacity := fits _ List.mem_cons_self
          have run : fill ⟨cells, position, filled, false, ⟨.data b more :: rest, ending⟩, k'⟩ =
              some (.ok true, load ⟨cells, position, filled, false, ⟨rest, ending⟩, k'⟩
                (b :: more)) :=
            CheckedM.loop_of_inr (congrFun (CheckedM.demand_bind room _) _)
          rw [run]
          exact .ok ⟨⟨unread_load room, rfl, rfl, rfl, Nat.zero_le _, room, fits', bytes, left⟩,
            by simp, rfl⟩

theorem cell_eq {b : UInt8} (h : w.cells[w.position]? = some b) : cell w = some (.ok b, w) := by
  unfold cell
  rw [CheckedM.get_bind, h]
  rfl

theorem realized_cell (h : Shows total most w c) (more : c.unread ≠ []) :
    ∃ b, c.unread.head? = some b ∧ cell w = some (.ok b, w) := by
  have inside : w.position < w.filled :=
    Nat.lt_of_not_le fun behind => more (h.unread_eq_nil_iff.mpr behind)
  obtain ⟨b, held, shown⟩ := unread_of_lt inside h.filled
  refine ⟨b, ?_, cell_eq held⟩
  rw [← h.unread, shown]
  rfl

theorem realizes_peek (k : Mark) :
    Realizes (fun w c => Shows total most w c ∧ c.mark = k) peek LexM.look
      (fun b w c => Shows total most w c ∧ c.unread.head? = b ∧ c.mark = k) (Shows total most) := by
  rintro w c ⟨h, rfl⟩
  unfold peek
  rw [CheckedM.get_bind]
  by_cases behind : w.filled ≤ w.position
  · have empty := h.unread_eq_nil_iff.mpr behind
    rw [if_pos behind]
    cases flowing : c.drained with
    | true =>
        have filled : fill w = some (.ok false, w) := by
          refine CheckedM.loop_of_inr ?_
          unfold fillRound
          rw [CheckedM.get_bind, if_pos (h.drained.trans flowing)]
          rfl
        have looked : LexM.look c = .ok none c := by
          unfold LexM.look
          rw [get_bind, empty, flowing]
          rfl
        rw [CheckedM.bind_of_ok filled, looked]
        exact .ok ⟨h, by rw [empty, List.head?_nil], rfl⟩
    | false =>
        have run := realized_fill h empty flowing
        have looked : LexM.look c = (do
            let _ ← LexM.refill c.source.replies
            pure (← get).unread.head?) c := by
          unfold LexM.look
          rw [get_bind, empty, flowing]
        rw [looked]
        generalize hf : fill w = outcome at run
        generalize hr : LexM.refill c.source.replies c = result at run
        cases run with
        | @ok more w' c' run =>
            obtain ⟨h', more_iff, mark⟩ := run
            rw [CheckedM.bind_of_ok hf, bind_of_ok hr]
            cases more with
            | true =>
                obtain ⟨b, next, held⟩ := realized_cell h' (more_iff.mp rfl)
                rw [if_pos rfl, CheckedM.bind_of_ok held, get_bind, next]
                exact .ok ⟨h', next, mark⟩
            | false =>
                have none : c'.unread = [] := by simpa using more_iff
                rw [if_neg Bool.false_ne_true, get_bind, none]
                exact .ok ⟨h', by rw [none, List.head?_nil], mark⟩
        | error h' =>
            rw [CheckedM.bind_of_stop hf, bind_of_error hr]
            exact .error h'
  · have more : c.unread ≠ [] := fun empty => behind (h.unread_eq_nil_iff.mp empty)
    obtain ⟨b, next, held⟩ := realized_cell h more
    have looked : LexM.look c = .ok (some b) c := by
      obtain ⟨bs, unread⟩ := List.head?_eq_some_iff.mp next
      unfold LexM.look
      rw [get_bind, unread]
      rfl
    rw [if_neg behind, CheckedM.bind_of_ok held, looked]
    exact .ok ⟨h, next, rfl⟩

theorem Shows.advance {b : UInt8} (h : Shows total most w c) (next : c.unread.head? = some b) :
    Shows total most { w with position := w.position + 1, mark := w.mark.advance b } c.advance := by
  obtain ⟨bs, unread⟩ := List.head?_eq_some_iff.mp next
  have inside : w.position < w.filled := Nat.lt_of_not_le fun behind => by
    rw [h.unread_eq_nil_iff.mpr behind] at unread
    cases unread
  obtain ⟨unread', source, drained, mark⟩ := c
  obtain rfl : unread' = b :: bs := unread
  have shown : (w.cells.toList.take w.filled).drop w.position = b :: bs := h.unread
  refine ⟨?_, h.source, h.drained, congrArg (·.advance b) h.mark, inside, h.filled, h.fits, ?_, ?_⟩
  · rw [Window.unread, ← List.tail_drop, shown]
    rfl
  · have bytes := h.bytes
    simp only [Cursor.advance, Cursor.ahead, List.length_cons, Mark.bytes_advance] at bytes ⊢
    omega
  · have left := h.ahead
    simp only [Cursor.advance, Cursor.ahead, List.length_cons] at left ⊢
    omega

theorem realizes_advance {b : UInt8} :
    Realizes (fun w c => Shows total most w c ∧ c.unread.head? = some b) (advance b) LexM.advance
      (fun _ => Shows total most) (Shows total most) :=
  Realizes.modify fun _ _ h => h.1.advance h.2

theorem realizes_conclude {α : Type} (r : Except LexFault α) :
    Realizes (Shows total most) (conclude r) (LexM.result r) (fun _ => Shows total most)
      (Shows total most) := by
  intro w c h
  cases r with
  | ok a => exact .ok h
  | error fault => exact .error h

theorem scan_step {σ α : Type} (m : Scanner LexFault σ α) (possible : σ → Bool) (s : σ) :
    scan m possible s = (do
      demand (possible s = true)
      match ← peek with
      | none => conclude (m.atEnd s)
      | some b =>
          match m.move s b with
          | .shift s' => do
              advance b
              scan m possible s'
          | .finish r => do
              advance b
              conclude r
          | .halt r => conclude r) := by
  rw [scan, CheckedM.loop_step, scanRound, bind_assoc]
  refine bind_congr fun _ => ?_
  rw [bind_assoc]
  refine bind_congr fun next => ?_
  cases next with
  | none => simp only [bind_map_left, bind_pure]
  | some b =>
      cases move : m.move s b with
      | shift s' => simp only [move, bind_assoc, pure_bind, scan]
      | finish r => simp only [move, bind_assoc, bind_map_left, bind_pure]
      | halt r => simp only [move, bind_map_left, bind_pure]

/-- Scanning through a window ends as on a cursor, if its subtractions are possible in the state in
which it begins and stay possible. -/
theorem realizes_scan {σ α : Type} {m : Scanner LexFault σ α} {possible : σ → Bool}
    (keeps : ∀ s b s', possible s = true → m.move s b = .shift s' → possible s' = true) {s : σ}
    (start : possible s = true) :
    Realizes (Shows total most) (scan m possible s) (LexM.scan m s) (fun _ => Shows total most)
      (Shows total most) := by
  intro w c h
  induction left : c.ahead using Nat.strongRecOn generalizing s w c with
  | _ n ih =>
  rw [scan_step, CheckedM.demand_bind start, LexM.scan_eq]
  refine Realizes.bind (realizes_peek c.mark) (fun b => ?_) w c ⟨h, rfl⟩
  rintro w' c' ⟨h', next, mark⟩
  have same : c'.ahead = c.ahead := by
    have total := h'.bytes
    have total' := h.bytes
    rw [mark] at total
    omega
  cases b with
  | none => exact realizes_conclude _ w' c' h'
  | some b =>
      unfold LexM.respond
      cases move : m.move s b with
      | shift s' =>
          simp only [move]
          have less := Cursor.ahead_advance (c := c') (fun none => by rw [none] at next; cases next)
          exact ih c'.advance.ahead (by omega) (keeps s b s' start move) _ _ (h'.advance next) rfl
      | finish r =>
          simp only [move]
          exact (realizes_advance.bind fun _ => realizes_conclude r) w' c' ⟨h', next⟩
      | halt r =>
          simp only [move]
          exact realizes_conclude r w' c' h'

end Window

end TypedJson
