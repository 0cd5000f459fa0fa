import TypedJson.Proofs.Writer.Acceptance

/-!
# Documents over a failing sink

There is no repetition within a writer, and nothing that has been put out is taken back. A document
that can be closed is well-formed as long as no failure of the sink strikes in the middle of a
request; a flush that is repeated behind such a failure sends some bytes twice.
-/

set_option autoImplicit false
set_option relaxedAutoImplicit false

namespace TypedJson.Writer

open Operation
open Grammar (Numeral)
open Utf8 (encode)

variable {sink : Sink} {settings : WriterSettings} {requests : List Request} {v : Writer}

theorem laysAll_unique {calls : List Call} {w w' w'' : Writer} {cs ds : List Char}
    (h : LaysAll calls w cs w') (h' : LaysAll calls w ds w'') : encode cs = encode ds := by
  obtain ⟨o, run, holds⟩ := h _ _ (Outlet.holds_new Sink.reliable_new)
  obtain ⟨o', run', holds'⟩ := h' _ _ (Outlet.holds_new Sink.reliable_new)
  have same : o = o' := congrArg (fun r => (final r).outlet) (run.symm.trans run')
  have text := holds.2
  rw [same, holds'.2] at text
  exact (List.append_cancel_left text).symm

/-- Whether the writer has been lenient at some time. -/
def everLenient (settings : WriterSettings) (requests : List Request) : Bool :=
  settings.lenient || requests.contains (.setLenient true)

/-- A writer that has begun its only value, with bytes of it in the buffer. -/
def holding (settings : WriterSettings) (replies : List Acceptance) (bytes : List UInt8) : Writer :=
  { (new { replies } settings).begun with
    outlet := { sink := { replies }, buffer := bytes.toArray } }

section

variable {text : String} {replies : List Acceptance} {s : String}

/-- The sink fails at once when a string makes the buffer full. As much of the string as there is
room for is then in the buffer. -/
theorem run_of_failed_string
    (long : Outlet.capacity ≤ (encode (Escape.quoted settings.escape s.toList)).length) :
    (Call.string s).run (new { replies := .failed text :: replies } settings) =
      .error (.unavailable (.device text)) (holding settings replies
        ((encode (Escape.quoted settings.escape s.toList)).take Outlet.capacity)) := by
  let w := new { replies := .failed text :: replies } settings
  have takes : w.TakesValue := ⟨rfl, rfl, .inl rfl⟩
  have begin_ : WriteM.beginValue .string w = .ok () { w.begun with outlet := w.outlet } :=
    (WriteM.puts_beginValue .string takes).done rfl
  have put : Outlet.put (encode (Escape.quoted settings.escape s.toList)) w.outlet = _ :=
    Outlet.put_of_failed rfl long
  refine (bind_of_ok begin_).trans ((WriteM.quoted_eq s).trans ?_)
  change WriteM.emit (Escape.quoted settings.escape s.toList) w.begun = _
  simp only [WriteM.emit, WriteM.output]
  rw [show w.begun.outlet = w.outlet from rfl, put]
  rfl

theorem run_of_filling_string
    (fills : (encode (Escape.quoted settings.escape s.toList)).length = Outlet.capacity) :
    (Call.string s).run (new { replies := .failed text :: replies } settings) =
      .error (.unavailable (.device text))
        (holding settings replies (encode (Escape.quoted settings.escape s.toList))) := by
  rw [run_of_failed_string (Nat.le_of_eq fills.symm), List.take_of_length_le (Nat.le_of_eq fills)]

theorem harmless_of_filling_string
    (fills : (encode (Escape.quoted settings.escape s.toList)).length = Outlet.capacity) :
    (Request.call (.string s)).Harmless
      (new { replies := .failed text :: replies } settings) := by
  intro fault v h
  cases (run_of_filling_string fills).symm.trans h
  exact .inr ⟨rfl, rfl⟩

/-- A call in which the buffer becomes full and the sink fails is not repeated. What it has not put
out by then is missing, and the document can be closed without it. -/
theorem close_of_failed_string (reliable : ∀ a ∈ replies, a.IsReliable)
    (long : Outlet.capacity ≤ (encode (Escape.quoted settings.escape s.toList)).length) :
    ∃ v, WriteM.close ((new { replies := .failed text :: replies } settings).after
        [.call (.string s)]) = .ok () v ∧
      v.outlet.sink.received =
        (encode (Escape.quoted settings.escape s.toList)).take Outlet.capacity := by
  let kept := (encode (Escape.quoted settings.escape s.toList)).take Outlet.capacity
  have holds : (holding settings replies kept).outlet.Holds kept :=
    ⟨Sink.reliable_of_replies reliable, by simp [holding]⟩
  obtain ⟨v, close, received, -⟩ :=
    attains_close (w := holding settings replies kept) rfl rfl rfl holds
  refine ⟨v, ?_, received⟩
  change WriteM.close (final ((Call.string s).run _)) = _
  rw [run_of_failed_string long]
  exact close

end

/-- If no failure of the sink has damaged the document, and it can be closed, then the sink has
received one well-formed text, and its units are those of the calls that came through. -/
theorem text_of_close (harmless : (new sink settings).Along (fun w q => q.Harmless w) requests)
    (closes : WriteM.close ((new sink settings).after requests) = .ok () v) :
    ∃ t cs, Grammar.Text (Numeral (everLenient settings requests)) t cs ∧
      t.events = ((new sink settings).gather Request.added requests).map Call.event ∧
      v.outlet.sink.received = sink.received ++ encode cs := by
  have switched : .setLenient true ∈ requests → everLenient settings requests = true := by
    intro asked
    simp [everLenient, asked]
  have start : Tracks (everLenient settings requests) (new sink settings) (new sink settings) [] :=
    tracks_new fun lenient => by simp [everLenient, lenient]
  have tracks := start.after harmless switched
  rw [List.nil_append] at tracks
  obtain ⟨complete, -, empty, total⟩ := tracks.closes closes
  obtain ⟨t, units⟩ := (completes_new sink settings).mp ((tracks.completes []).mpr complete)
  rw [List.append_nil] at units
  have takes : (new sink settings).shape.TakesValue := ⟨rfl, rfl, .inl rfl⟩
  have fits (c : Call) (hc : c ∈ (new sink settings).gather Request.added requests) :
      c.Fits (Numeral (everLenient settings requests)) (new sink settings).shape.settings :=
    (tracks.admitted c hc).fits rfl
  obtain ⟨cs, lays, value⟩ := lays_value t units.symm fits rfl takes
  obtain ⟨ds, laid, put⟩ := tracks.laid
  have text := Grammar.Text.of_value value
  refine ⟨t, cs, text, units, ?_⟩
  have received : v.outlet.sink.received = v.outlet.total := by
    rw [Outlet.total, empty, Array.toList_empty, List.append_nil]
  have buffered : (new sink settings).outlet.total = sink.received := List.append_nil _
  have same : encode cs = encode ds := laysAll_unique lays laid
  rw [received, total, put, buffered, same]

/-- The last byte of a string makes the buffer full, and the sink fails, as it does in a flush that
follows. It has taken nothing by then, and the document is whole in the buffer. -/
theorem text_of_close_repeated :
    ∃ s w v, s = String.ofList (List.replicate 1022 'a') ∧
      w = new { replies := [.failed "busy", .failed "busy"] } ∧
      (∃ u, (Call.string s).run w = .error (.unavailable (.device "busy")) u) ∧
      WriteM.close (w.after [.call (.string s), .flush]) = .ok () v ∧
      ∃ t cs, Grammar.Text (Numeral false) t cs ∧ t.events = [.string s] ∧
        v.outlet.sink.received = encode cs := by
  obtain ⟨s, same, fills⟩ : ∃ s, s = String.ofList (List.replicate 1022 'a') ∧
      (encode (Escape.quoted ({} : WriterSettings).escape s.toList)).length = Outlet.capacity := by
    refine ⟨_, rfl, ?_⟩
    rw [String.toList_ofList]
    decide +kernel
  let w := new { replies := [.failed "busy", .failed "busy"] }
  let bytes := encode (Escape.quoted ({} : WriterSettings).escape s.toList)
  have failed : (Call.string s).run w =
      .error (.unavailable (.device "busy")) (holding {} [.failed "busy"] bytes) :=
    run_of_filling_string fills
  have flush : WriteM.flush (holding {} [.failed "busy"] bytes) =
      .error (.unavailable (.device "busy")) (holding {} [] bytes) := rfl
  have behind : final ((Call.string s).run w) = holding {} [.failed "busy"] bytes := by
    rw [failed]
    rfl
  have state : w.after [.call (.string s), .flush] = holding {} [] bytes := by
    change final (WriteM.flush (final ((Call.string s).run w))) = _
    rw [behind, flush]
    rfl
  have harmless : w.Along (fun w q => q.Harmless w) [.call (.string s), .flush] := by
    refine ⟨harmless_of_filling_string fills, ?_, trivial⟩
    change Request.flush.Harmless (final ((Call.string s).run w))
    rw [behind]
    intro fault v h
    cases flush.symm.trans h
    exact .inl rfl
  have added : w.gather Request.added [.call (.string s), .flush] = [.string s] := by
    have some : bytes ≠ [] :=
      List.ne_nil_of_length_pos (Nat.lt_of_lt_of_eq (Nat.zero_lt_succ _) fills.symm)
    have put : Request.added w (.call (.string s)) = [.string s] := by
      simp only [Request.added, Request.run, failed]
      exact if_neg some
    have silent : Request.added (holding {} [.failed "busy"] bytes) .flush = [] := by
      simp only [Request.added, Request.run, Request.calls, flush, ite_self]
    simp only [gather, Request.run, put, behind, silent, List.append_nil]
  have close : WriteM.close (holding {} [] bytes) = .ok () _ := rfl
  rw [← state] at close
  obtain ⟨t, cs, grammar, units, received⟩ := text_of_close harmless close
  rw [added] at units
  exact ⟨s, w, _, same, rfl, ⟨_, failed⟩, close, t, cs, grammar, units, received⟩

/-- The sink takes two bytes and fails. The next attempt to hand the text over sends them again. -/
theorem not_text_of_close : ¬ ∀ (sink : Sink) (settings : WriterSettings)
    (requests : List Request) (v : Writer),
    WriteM.close ((new sink settings).after requests) = .ok () v →
      ∃ t cs, Grammar.Text Grammar.Number t cs ∧
        v.outlet.sink.received = sink.received ++ encode cs := by
  intro claim
  obtain ⟨t, cs, text, received⟩ :=
    claim { replies := [.accepted 2, .failed "sink error"] } {} [.call .null, .flush] _ rfl
  have delivers : Source.Delivers ⟨[.data 0x6E [0x75, 0x6E, 0x75, 0x6C, 0x6C]], .endOfData⟩
      (encode "nunull".toList) .endOfData := .data .exhausted
  have same : encode "nunull".toList = encode cs := received
  have expected : Reader.Expects Grammar.Number { maxNestingDepth := t.depth } t.events
      (Reader.new _ { maxNestingDepth := t.depth }) :=
    (Reader.expects_new delivers).mpr ⟨t, cs, same, text, Nat.le_refl _, rfl⟩
  obtain ⟨r, events, -⟩ := Reader.events_of_expects (Grammar.numerals_number _) expected
  have failed : (Reader.new ⟨[.data 0x6E [0x75, 0x6E, 0x75, 0x6C, 0x6C]], .endOfData⟩
      { maxNestingDepth := t.depth }).events.1.2.isSome = true := rfl
  rw [events] at failed
  cases failed

end TypedJson.Writer
