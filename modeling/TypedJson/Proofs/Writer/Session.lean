import TypedJson.Proofs.Writer.Call
import TypedJson.Proofs.Writer.Readback

/-!
# Sessions of a writer

What a request does to a writer, whatever its sink does, and what a session of requests leaves
behind. As long as no failure of the sink strikes in the middle of a request, the position of the
writer and the bytes put out are those of the calls that came through, one after the other.
-/

set_option autoImplicit false
set_option relaxedAutoImplicit false

namespace TypedJson

open Operation
open Grammar (Numeral)
open Utf8 (encode)

namespace Puts

variable {w w' v : Writer} {cs : List Char} {x : WriteM Unit}

theorem of_ok (h : Puts x w cs w') (hx : x w = .ok () v) :
    ∃ o, Outlet.put (encode cs) w.outlet = .ok () o ∧ v = { w' with outlet := o } := by
  cases put : Outlet.put (encode cs) w.outlet with
  | ok _ o =>
      have same := (h.done put).symm.trans hx
      cases same
      exact ⟨o, rfl, rfl⟩
  | error fault o =>
      obtain ⟨u, -, failed⟩ := h.failed put
      cases failed.symm.trans hx

theorem of_error {e : WriteError} (h : Puts x w cs w') (hx : x w = .error e v) :
    ∃ fault, e = .unavailable fault ∧ w.Akin v ∧
      Outlet.put (encode cs) w.outlet = .error fault v.outlet := by
  cases put : Outlet.put (encode cs) w.outlet with
  | ok _ o => cases (h.done put).symm.trans hx
  | error fault o =>
      obtain ⟨u, akin, failed⟩ := h.failed put
      cases failed.symm.trans hx
      exact ⟨fault, rfl, ⟨akin.isClosed, akin.settings⟩, rfl⟩

end Puts

namespace Writer

variable {w : Writer} {c : Call} {settings : WriterSettings}

/-! The position as far as the text to come depends on it. -/

/-- What decides on the texts of the calls to come. The outlet, leniency, and whether the document
has been closed do not. -/
def shape (w : Writer) : Writer :=
  { w with
    outlet := { sink := {} }
    isClosed := false
    settings := { w.settings with lenient := true } }

theorem text_shape (c : Call) : c.text w.shape = c.text w := by
  cases c <;> rfl

theorem separated_shape : w.shape.separated = w.separated.shape := by
  unfold separated
  change (if (w.isEmpty && w.settings.pretty) = true then _ else _) = _
  split <;> rfl

theorem begun_shape : w.shape.begun = w.begun.shape := by
  unfold begun
  by_cases inside : w.inArray = true
  · have inside' : w.shape.inArray = true := inside
    rw [if_pos inside, if_pos inside', separated_shape]
    rfl
  · have outside' : ¬ w.shape.inArray = true := inside
    rw [if_neg inside, if_neg outside']
    rfl

theorem left_shape : w.shape.left = w.left.shape :=
  rfl

theorem named_shape : w.shape.named = w.named.shape := by
  rw [named, separated_shape]
  rfl

theorem next_shape (c : Call) : c.next w.shape = (c.next w).shape := by
  cases c with
  | endObject | endArray => exact left_shape
  | name s => exact named_shape
  | beginObject | beginArray =>
      change w.shape.begun.entered _ = (w.begun.entered _).shape
      rw [begun_shape]
      rfl
  | string | boolean | integer | double | literal | null => exact begun_shape

theorem Call.Placed.shape (h : c.Placed w) : c.Placed w.shape := by
  cases c with
  | endObject | endArray | name s => exact ⟨rfl, h.2⟩
  | _ =>
      have takes : w.TakesValue := h
      exact ⟨rfl, takes.noName, takes.inside⟩

theorem Call.IsAdmissible.weaken {lenient lenient' : Bool} (h : c.IsAdmissible lenient)
    (more : lenient = true → lenient' = true) : c.IsAdmissible lenient' := by
  cases c with
  | double x => exact ⟨h.1.imp_right more, trivial⟩
  | _ => exact h

theorem Call.IsAdmissible.fits {nonFinite : Bool} (h : c.IsAdmissible nonFinite)
    (lenient : settings.lenient = true) : c.Fits (Numeral nonFinite) settings := by
  cases c with
  | integer n => exact .inl (Number.number_integerText n)
  | double x => exact ⟨.inr lenient, Number.numeral_double h.1⟩
  | literal s => exact ⟨h.1, .inl (Number.isLiteral_iff.mp h.1)⟩
  | _ => exact trivial

theorem Call.IsAdmissible.text_ne_nil {lenient : Bool} (h : c.IsAdmissible lenient) :
    c.text w ≠ [] := by
  have fits : c.Fits (Numeral lenient) { lenient := true } := h.fits rfl
  have numerals : Grammar.Numerals lenient (Numeral lenient) := Grammar.numerals_numeral id
  have numeral {cs : List Char} (hcs : Numeral lenient cs) : cs ≠ [] := numerals.ne_nil cs hcs
  cases c with
  | integer n => exact List.append_ne_nil_of_right_ne_nil _ (numeral fits)
  | double x => exact List.append_ne_nil_of_right_ne_nil _ (numeral fits.2)
  | literal s => exact List.append_ne_nil_of_right_ne_nil _ (numeral fits.2)
  | boolean b => cases b <;> simp [text]
  | _ => simp [text, Escape.quoted]

theorem sound_next (c : Call) : (c.next w).Sound := by
  have begun : w.begun.Sound := by
    intro named
    rw [inObject, begun_containers]
    exact named
  cases c with
  | name s =>
      intro named
      cases named
  | endObject | endArray => exact id
  | beginObject => exact fun _ => rfl
  | beginArray =>
      intro named
      cases named
  | _ => exact begun

/-- The calls, the flushes, the attempts to close, and the changes of leniency in a session. -/
inductive Request where
  | call (c : Call)
  | flush
  | close
  | setLenient (lenient : Bool)
  deriving DecidableEq, Repr

namespace Request

def run : Request → WriteM Unit
  | call c => c.run
  | flush => WriteM.flush
  | close => WriteM.close
  | setLenient lenient => WriteM.setLenient lenient

def calls : Request → List Call
  | call c => [c]
  | _ => []

/-- Everything that can come of a request. -/
inductive Outcome (w : Writer) : Request → EStateM.Result WriteError Writer Unit → Prop where
  | refused {q : Request} {e : WriteError} : e.IsRefusal → Outcome w q (.error e w)
  | done {c : Call} {o : Outlet} : c.Placed w → c.IsAdmissible w.settings.lenient →
      Outlet.put (encode (c.text w)) w.outlet = .ok () o →
      Outcome w (.call c) (.ok () { c.next w with outlet := o })
  | broken {c : Call} {fault : DataFault} {v : Writer} : c.Placed w →
      c.IsAdmissible w.settings.lenient → w.Akin v →
      Outlet.put (encode (c.text w)) w.outlet = .error fault v.outlet →
      Outcome w (.call c) (.error (.unavailable fault) v)
  | flushed {o : Outlet} : w.isClosed = false → Outlet.flush w.outlet = .ok () o →
      Outcome w .flush (.ok () { w with outlet := o })
  | closed {o : Outlet} : w.isClosed = false → w.Completes [] →
      Outlet.flush w.outlet = .ok () o →
      Outcome w .close (.ok () { w with outlet := o, isClosed := true })
  | unflushed {q : Request} {fault : DataFault} {o : Outlet} : q = .flush ∨ q = .close →
      w.isClosed = false → Outlet.flush w.outlet = .error fault o →
      Outcome w q (.error (.unavailable fault) { w with outlet := o })
  | idle : w.isClosed = true → Outcome w .close (.ok () w)
  | switched {lenient : Bool} :
      Outcome w (.setLenient lenient) (.ok () { w with settings := { w.settings with lenient } })

theorem outcome_call (w : Writer) (c : Call) : Outcome w (.call c) (c.run w) := by
  by_cases fits : c.Placed w ∧ c.IsAdmissible w.settings.lenient
  · have puts := c.puts_run fits.1 fits.2
    cases h : c.run w with
    | ok _ v =>
        obtain ⟨o, put, rfl⟩ := puts.of_ok h
        exact .done fits.1 fits.2 put
    | error e v =>
        obtain ⟨fault, rfl, akin, put⟩ := puts.of_error h
        exact .broken fits.1 fits.2 akin put
  · obtain ⟨e, refused, refusal⟩ := Call.run_refused fits
    rw [refused]
    exact .refused refusal

theorem outcome_flush (w : Writer) : Outcome w .flush (WriteM.flush w) := by
  by_cases closed : w.isClosed = true
  · have refused : WriteM.flush w = .error .closed w :=
      bind_of_error (WriteM.checkOpen_closed closed)
    rw [refused]
    exact .refused trivial
  · have open_ : w.isClosed = false := by simpa using closed
    have run : WriteM.flush w = WriteM.output Outlet.flush w :=
      bind_of_ok (WriteM.checkOpen_open open_)
    rw [run, WriteM.output]
    cases flush : Outlet.flush w.outlet with
    | ok _ o => exact .flushed open_ flush
    | error fault o => exact .unflushed (.inl rfl) open_ flush

theorem outcome_close (w : Writer) : Outcome w .close (WriteM.close w) := by
  unfold WriteM.close
  rw [get_bind]
  by_cases closed : w.isClosed = true
  · rw [if_pos closed]
    exact .idle closed
  have open_ : w.isClosed = false := by simpa using closed
  rw [if_neg closed]
  by_cases unfinished : (!w.containers.isEmpty) = true
  · rw [if_pos unfinished]
    exact .refused trivial
  rw [if_neg unfinished]
  by_cases empty : w.isEmpty = true
  · rw [if_pos empty]
    exact .refused trivial
  have complete : w.Completes [] := by
    refine completes_nil.mpr ⟨?_, by simpa using empty⟩
    simpa using unfinished
  rw [if_neg empty]
  change Outcome w .close ((do
    WriteM.output Outlet.flush
    modify fun w => { w with isClosed := true } : WriteM Unit) w)
  cases flush : Outlet.flush w.outlet with
  | ok _ o =>
      have output : WriteM.output Outlet.flush w = .ok () { w with outlet := o } := by
        rw [WriteM.output, flush]
      rw [bind_of_ok output]
      exact .closed open_ complete flush
  | error fault o =>
      have output : WriteM.output Outlet.flush w =
          .error (.unavailable fault) { w with outlet := o } := by
        rw [WriteM.output, flush]
      rw [bind_of_error output]
      exact .unflushed (.inr rfl) open_ flush

theorem outcome (q : Request) (w : Writer) : Outcome w q (q.run w) := by
  cases q with
  | call c => exact outcome_call w c
  | flush => exact outcome_flush w
  | close => exact outcome_close w
  | setLenient lenient => exact .switched

/-- The calls of a request that succeeds. -/
def accepted (w : Writer) (q : Request) : List Call :=
  match q.run w with
  | .ok _ _ => q.calls
  | .error _ _ => []

/-- The calls that a request adds to the document: those of a request that succeeds, or that fails
only behind what it puts out. -/
def added (w : Writer) (q : Request) : List Call :=
  match q.run w with
  | .ok _ _ => q.calls
  | .error _ v => if v.outlet.total = w.outlet.total then [] else q.calls

/-- Between two states, around a failure of the sink, the document has not been damaged. A call has
left nothing or all that it does; of a flush, the sink has taken none of the bytes or all of them. -/
def Spares (w v : Writer) : Request → Prop
  | call c =>
      v.shape = w.shape ∧ v.outlet.total = w.outlet.total ∨
        v.shape = (c.next w).shape ∧ v.outlet.total = w.outlet.total ++ encode (c.text w)
  | _ => v.outlet.sink.received = w.outlet.sink.received ∨ v.outlet.buffer = #[]

/-- If the sink fails in the request, this does not damage the document. -/
def Harmless (w : Writer) (q : Request) : Prop :=
  ∀ fault v, q.run w = .error (.unavailable fault) v → q.Spares w v

end Request

/-! Sessions, which go on after errors. -/

/-- The state behind some requests. -/
def after : Writer → List Request → Writer
  | w, [] => w
  | w, q :: requests => (final (q.run w)).after requests

/-- Each request has the property in the state in which it comes. -/
def Along (P : Writer → Request → Prop) : Writer → List Request → Prop
  | _, [] => True
  | w, q :: requests => P w q ∧ (final (q.run w)).Along P requests

/-- What the requests yield, each in the state in which it comes. -/
def gather (f : Writer → Request → List Call) : Writer → List Request → List Call
  | _, [] => []
  | w, q :: requests => f w q ++ (final (q.run w)).gather f requests

/-- The state goes back to the calls: they lead from one grammar position to the other, and their
texts have been put out. Non-finite numbers are among them only if admitted. -/
structure Tracks (nonFinite : Bool) (start w : Writer) (calls : List Call) : Prop where
  sound : w.Sound
  completes : ∀ evs, start.Completes (calls.map Call.event ++ evs) ↔ w.Completes evs
  laid : ∃ cs, LaysAll calls start.shape cs w.shape ∧
    w.outlet.total = start.outlet.total ++ encode cs
  lenient : w.settings.lenient = true → nonFinite = true
  admitted : ∀ c ∈ calls, c.IsAdmissible nonFinite
  closed : w.isClosed = true → w.Completes [] ∧ w.outlet.buffer = #[]

section

variable {nonFinite : Bool} {start v : Writer} {calls : List Call} {q : Request}
variable {requests : List Request}

theorem sound_congr (h : v.shape = w.shape) : v.Sound ↔ w.Sound := by
  change v.shape.Sound ↔ w.shape.Sound
  rw [h]

theorem completes_congr (h : v.shape = w.shape) {evs : List Event} :
    v.Completes evs ↔ w.Completes evs := by
  change v.shape.Completes evs ↔ w.shape.Completes evs
  rw [h]

theorem tracks_new {sink : Sink} (lenient : settings.lenient = true → nonFinite = true) :
    Tracks nonFinite (new sink settings) (new sink settings) [] where
  sound := nofun
  completes _ := Iff.rfl
  laid := ⟨[], Lays.pure, by rw [Utf8.encode_nil, List.append_nil]⟩
  lenient := lenient
  admitted := nofun
  closed := nofun

namespace Tracks

theorem keep (h : Tracks nonFinite start w calls) (shape : v.shape = w.shape)
    (total : v.outlet.total = w.outlet.total)
    (lenient : v.settings.lenient = true → nonFinite = true)
    (closed : v.isClosed = true → w.Completes [] ∧ v.outlet.buffer = #[]) :
    Tracks nonFinite start v calls where
  sound := (sound_congr shape).mpr h.sound
  completes evs := (h.completes evs).trans (completes_congr shape).symm
  laid := by
    rw [shape, total]
    exact h.laid
  lenient := lenient
  admitted := h.admitted
  closed isClosed := (closed isClosed).imp_left (completes_congr shape).mpr

theorem add (h : Tracks nonFinite start w calls) (placed : c.Placed w)
    (admissible : c.IsAdmissible w.settings.lenient) (akin : w.Akin v)
    (shape : v.shape = (c.next w).shape)
    (total : v.outlet.total = w.outlet.total ++ encode (c.text w)) :
    Tracks nonFinite start v (calls ++ [c]) where
  sound := (sound_congr shape).mpr (sound_next c)
  completes evs := by
    have step : w.Completes (c.event :: evs) ↔ v.Completes evs := by
      rw [completes_cons placed.isOpen h.sound, and_iff_right placed, completes_congr shape]
    rw [List.map_append, List.append_assoc]
    exact (h.completes (c.event :: evs)).trans step
  laid := by
    obtain ⟨cs, lays, earlier⟩ := h.laid
    have puts := c.puts_run placed.shape (admissible.weaken fun _ => rfl)
    rw [text_shape, next_shape, ← shape] at puts
    refine ⟨cs ++ c.text w, laysAll_append lays (laysAll_one puts.lays), ?_⟩
    rw [total, earlier, Utf8.encode_append, List.append_assoc]
  lenient isLenient := h.lenient (akin.settings ▸ isLenient)
  admitted := by
    intro c' hc'
    rcases List.mem_append.mp hc' with earlier | last
    · exact h.admitted c' earlier
    · rw [List.mem_singleton.mp last]
      exact admissible.weaken h.lenient
  closed isClosed := by
    rw [akin.isClosed, placed.isOpen] at isClosed
    cases isClosed

theorem step (h : Tracks nonFinite start w calls) (harmless : q.Harmless w)
    (lenient : q = .setLenient true → nonFinite = true) :
    Tracks nonFinite start (final (q.run w)) (calls ++ q.added w) := by
  have outcome := q.outcome w
  unfold Request.Harmless at harmless
  unfold Request.added
  generalize q.run w = result at outcome harmless
  cases outcome with
  | refused =>
      dsimp only
      rw [if_pos rfl, List.append_nil]
      exact h
  | done placed admissible put =>
      have total := Outlet.ensures_put _ _ _ _ rfl put
      have akin := (Call.puts_run placed admissible).akin
      exact h.add placed admissible ⟨akin.isClosed, akin.settings⟩ rfl total
  | broken placed admissible akin put =>
      dsimp only
      rcases harmless _ _ rfl with ⟨shape, total⟩ | ⟨shape, total⟩
      · rw [if_pos total, List.append_nil]
        have isOpen := akin.isClosed.trans placed.isOpen
        exact h.keep shape total (fun isLenient => h.lenient (akin.settings ▸ isLenient))
          fun isClosed => absurd (isOpen.symm.trans isClosed) nofun
      · have text := Utf8.encode_ne_nil (admissible.text_ne_nil (w := w))
        have more : ¬ (w.outlet.total ++ encode (Call.text w _) = w.outlet.total) :=
          fun same => text (List.append_right_eq_self.mp same)
        rw [total, if_neg more]
        exact h.add placed admissible akin shape total
  | @flushed o isOpen flush =>
      change Tracks nonFinite start { w with outlet := o } (calls ++ [])
      obtain ⟨total, -⟩ := Outlet.total_of_flush flush
      rw [List.append_nil]
      exact h.keep rfl total h.lenient fun isClosed => absurd (isOpen.symm.trans isClosed) nofun
  | @closed o isOpen complete flush =>
      change Tracks nonFinite start { w with outlet := o, isClosed := true } (calls ++ [])
      obtain ⟨total, empty⟩ := Outlet.total_of_flush flush
      rw [List.append_nil]
      exact h.keep rfl total h.lenient fun _ => ⟨complete, empty⟩
  | @unflushed _ _ o asked isOpen flush =>
      have whole : o.sink.received = w.outlet.sink.received ∨ o.buffer = #[] := by
        rcases asked with rfl | rfl
        · exact harmless _ _ rfl
        · exact harmless _ _ rfl
      have total : o.total = w.outlet.total := Outlet.total_of_failed_flush flush whole
      dsimp only
      rw [if_pos total, List.append_nil]
      exact h.keep rfl total h.lenient fun isClosed => absurd (isOpen.symm.trans isClosed) nofun
  | idle isClosed =>
      change Tracks nonFinite start w (calls ++ [])
      rw [List.append_nil]
      exact h
  | @switched switch =>
      change Tracks nonFinite start { w with settings := { w.settings with lenient := switch } }
        (calls ++ [])
      rw [List.append_nil]
      exact h.keep rfl rfl (fun isLenient => lenient (congrArg _ isLenient)) h.closed

theorem after (h : Tracks nonFinite start w calls)
    (harmless : w.Along (fun w q => q.Harmless w) requests)
    (lenient : .setLenient true ∈ requests → nonFinite = true) :
    Tracks nonFinite start (w.after requests) (calls ++ w.gather Request.added requests) := by
  induction requests generalizing w calls with
  | nil =>
      rw [gather, List.append_nil]
      exact h
  | cons q requests ih =>
      have first := h.step harmless.1 fun same => lenient (same ▸ List.mem_cons_self)
      rw [gather, ← List.append_assoc]
      exact ih first harmless.2 fun later => lenient (List.mem_cons_of_mem _ later)

end Tracks

end

end Writer

end TypedJson
