import TypedJson.Proofs.Input.Delivery
import TypedJson.Proofs.Reader.Coupled

set_option autoImplicit false
set_option relaxedAutoImplicit false

namespace TypedJson

open Operation

/-- The calls that a reader takes. -/
inductive Call where
  | peek
  | hasNext
  | beginObject
  | endObject
  | beginArray
  | endArray
  | nextName
  | nextString
  | nextNumberText
  | nextBool
  | nextNull
  | skipValue
  | nextScalar (type : ScalarType)
  | nextBoxed (type : ScalarType)
  | isLenient
  | setLenient (lenient : Bool)
  | path
  | position
  | finish
  deriving DecidableEq, Repr

/-- What calls answer. -/
inductive Answer where
  | done
  | token (t : Token)
  | flag (b : Bool)
  | text (s : String)
  | scalar (x : Scalar)
  | boxed (x : Option Scalar)
  | place (l : Location)
  deriving DecidableEq, Repr

def Call.run : Call → ReadM Answer
  | .peek => do pure (.token (← ReadM.peek))
  | .hasNext => do pure (.flag (← ReadM.hasNext))
  | .beginObject => do ReadM.beginObject; pure .done
  | .endObject => do ReadM.endObject; pure .done
  | .beginArray => do ReadM.beginArray; pure .done
  | .endArray => do ReadM.endArray; pure .done
  | .nextName => do pure (.text (← ReadM.nextName))
  | .nextString => do pure (.text (← ReadM.nextString))
  | .nextNumberText => do pure (.text (← ReadM.nextNumberText))
  | .nextBool => do pure (.flag (← ReadM.nextBool))
  | .nextNull => do ReadM.nextNull; pure .done
  | .skipValue => do ReadM.skipValue; pure .done
  | .nextScalar type => do pure (.scalar (← ReadM.nextScalar type))
  | .nextBoxed type => do pure (.boxed (← ReadM.orNull (ReadM.nextScalar type)))
  | .isLenient => do pure (.flag (← get).settings.lenient)
  | .setLenient lenient => do ReadM.setLenient lenient; pure .done
  | .path => do pure (.text (← get).path)
  | .position => do pure (.place (← get).location)
  | .finish => do ReadM.finish; pure .done

/-- What the caller sees of a call: its result, and the position behind it. -/
structure Observation where
  result : Except ReadError Answer
  position : Location

namespace Reader

/-- A call, with the reader it leaves. -/
def call (r : Reader) (c : Call) : Observation × Reader :=
  match c.run r with
  | .ok a r' => (⟨.ok a, r'.location⟩, r')
  | .error e r' => (⟨.error e, r'.location⟩, r')

/-- Calls one after the other, whether or not they fail. -/
def session (r : Reader) : List Call → List Observation × Reader
  | [] => ([], r)
  | c :: calls =>
      let (seen, r') := r.call c
      let (rest, r'') := r'.session calls
      (seen :: rest, r'')

end Reader

/-! One call. -/

section

variable {ι : Type} {C : Cursor → (ι → Cursor) → Prop} {escapes plain : LexFault → Prop}
variable {beyond : Cursor → Prop} (K : Coupling C escapes plain beyond)
include K

theorem Call.steady_run (c : Call) : ReadM.Steady C escapes plain beyond c.run := by
  have answer {α : Type} {x : ReadM α} (hx : ReadM.Steady C escapes plain beyond x)
      (f : α → Answer) : ReadM.Steady C escapes plain beyond (do pure (f (← x))) :=
    Coupled.bind hx fun a => ReadM.lockstep_pure (f a)
  cases c with
  | peek => exact answer (ReadM.steady_peek K) _
  | hasNext => exact answer (ReadM.steady_hasNext K) _
  | beginObject => exact answer (ReadM.steady_beginObject K) _
  | endObject => exact answer (ReadM.steady_endObject K) _
  | beginArray => exact answer (ReadM.steady_beginArray K) _
  | endArray => exact answer (ReadM.steady_endArray K) _
  | nextName => exact answer (ReadM.steady_nextName K) _
  | nextString => exact answer (ReadM.steady_takeScalar K _ _) _
  | nextNumberText => exact answer (ReadM.steady_takeScalar K _ _) _
  | nextBool => exact answer (ReadM.steady_takeScalar K _ _) _
  | nextNull => exact answer (ReadM.steady_nextNull K) _
  | skipValue => exact answer (ReadM.steady_skipValue K) _
  | nextScalar type => exact answer (ReadM.steady_nextScalar K type) _
  | nextBoxed type => exact answer (ReadM.steady_orNull K (ReadM.steady_nextScalar K type)) _
  | isLenient =>
      exact ReadM.lockstep_of_agree fun r =>
        ⟨pure (.flag r.settings.lenient), ReadM.lockstep_pure _, fun _ => rfl⟩
  | setLenient lenient =>
      exact answer (x := ReadM.setLenient lenient)
        (ReadM.lockstep_modify (fun _ _ => rfl) fun _ => rfl) _
  | path =>
      exact ReadM.lockstep_of_agree fun r =>
        ⟨pure (.text r.path), ReadM.lockstep_pure _, fun _ => rfl⟩
  | position =>
      refine ⟨fun r R hr => ?_, fun _ h => h⟩
      change Tie _ _ _ _ (.ok (Answer.place r.location) r)
        fun i => .ok (Answer.place (R i).location) (R i)
      simp only [hr.location K]
      exact .ok hr
  | finish => exact answer (ReadM.steady_expect K _ _) _

/-- A call of linked readers looks the same and leaves them linked, unless it meets a fault that
excuses the others. -/
theorem Linked.call {r : Reader} {R : ι → Reader} (h : Linked C r R) (c : Call) :
    ((∀ i, ((R i).call c).1 = (r.call c).1) ∧
        Linked C (r.call c).2 (fun i => ((R i).call c).2) ∧
        ∀ e, (r.call c).1.result = .error e → ReadM.Plain plain e) ∨
      ∃ f l i, (r.call c).1.result = .error (.ofFault f l) ∧ escapes f ∧
        beyond ((R i).call c).2.cursor := by
  have tie := (Call.steady_run K c).tie r R h
  simp only [Reader.call]
  generalize c.run r = result at tie ⊢
  generalize hR : (fun i => c.run (R i)) = results at tie
  cases tie with
  | @ok a t T hT =>
      left
      simp only [fun i => show c.run (R i) = _ from congrFun hR i]
      exact ⟨fun i => by rw [hT.location K i], hT, fun e he => by cases he⟩
  | @error e t T hT =>
      left
      simp only [fun i => show c.run (R i) = _ from congrFun hR i]
      refine ⟨fun i => by rw [hT.1.location K i], hT.1, ?_⟩
      rintro _ ⟨⟩
      exact hT.2
  | @escape e t _ i he hr =>
      right
      obtain ⟨f, l, rfl, hf⟩ := he
      refine ⟨f, l, i, rfl, hf, ?_⟩
      rw [← congrFun hR i] at hr
      cases hi : c.run (R i) <;> simpa only [hi, final] using hr

theorem Linked.session (hE : ∀ f, ¬ escapes f) {r : Reader} {R : ι → Reader} (h : Linked C r R)
    (calls : List Call) :
    (∀ i, ((R i).session calls).1 = (r.session calls).1) ∧
      Linked C (r.session calls).2 fun i => ((R i).session calls).2 := by
  induction calls generalizing r R with
  | nil => exact ⟨fun _ => rfl, h⟩
  | cons c calls ih =>
      obtain ⟨seen, linked, -⟩ | ⟨f, _, _, _, hf, _⟩ := h.call K c
      · obtain ⟨rest, linked⟩ := ih linked
        refine ⟨fun i => ?_, linked⟩
        simp only [Reader.session, seen i, rest i]
      · exact absurd hf (hE f)

end

/-! Whole sessions. -/

theorem Reader.session_of_delivers {s s' : Source} {bs : List UInt8} {e : Ending}
    (h : s.Delivers bs e) (h' : s'.Delivers bs e) (settings : ReaderSettings) (calls : List Call) :
    ((new s' settings).session calls).1 = ((new s settings).session calls).1 := by
  have linked : Linked (Continued bs.length e (fun _ : Unit => []) fun _ => e) (new s settings)
      fun _ => new s' settings := by
    refine ⟨fun _ => Cursor.start s', rfl, bs, Cursor.holds_start h, Nat.zero_add _, fun _ => ?_⟩
    rw [List.append_nil]
    exact ⟨Cursor.holds_start h', rfl⟩
  exact (linked.session (coupling_same bs.length e) (fun _ => id) calls).1 ()

/-- A reader never gets lost in the data: in front of it is what it has not consumed. -/
theorem Reader.holds_of_session {s : Source} {bs : List UInt8} {e : Ending} (h : s.Delivers bs e)
    (settings : ReaderSettings) (calls : List Call) :
    ∃ rest, ((new s settings).session calls).2.cursor.Holds rest e ∧
      ((new s settings).session calls).2.cursor.mark.bytes + rest.length = bs.length := by
  have linked : Linked (Continued bs.length e (fun _ : Unit => []) fun _ => e) (new s settings)
      fun _ => new s settings := by
    refine ⟨fun _ => Cursor.start s, rfl, bs, Cursor.holds_start h, Nat.zero_add _, fun _ => ?_⟩
    rw [List.append_nil]
    exact ⟨Cursor.holds_start h, rfl⟩
  obtain ⟨-, _, -, rest, hr, hn, -⟩ :=
    linked.session (coupling_same bs.length e) (fun _ => id) calls
  exact ⟨rest, hr, hn⟩

theorem Reader.position_of_call (r : Reader) (c : Call) :
    (r.call c).1.position = (r.call c).2.location := by
  unfold Reader.call
  split <;> rfl

theorem Reader.session_concat (r : Reader) (calls : List Call) (c : Call) :
    (r.session (calls ++ [c])).2 = ((r.session calls).2.call c).2 := by
  induction calls generalizing r with
  | nil => rfl
  | cons first calls ih => exact ih (r.call first).2

/-- The second reader is the first one, with data that go on where those of the first fail. -/
def Reader.Resumed (text : String) (r r' : Reader) : Prop :=
  ∃ bs more e c, r.cursor.Holds bs (.failed text) ∧ c.Holds (bs ++ more) e ∧
    c.mark = r.cursor.mark ∧ r' = { r with cursor := c }

/-- The call reports the failure of the source. -/
def Reader.Reports (r : Reader) (text : String) (c : Call) : Prop :=
  ∃ l, (r.call c).1.result = .error (.unavailable (.device text) l)

/-- Data that went on could make the call consume more than the first `n` bytes of the document. -/
def Reader.Demands (r : Reader) (text : String) (n : Nat) (c : Call) : Prop :=
  ∃ r' m, r.Resumed text r' ∧ (r'.call c).1.position.bytes = some m ∧ n < m

theorem Reader.call_of_resumed {text : String} {r r' : Reader} {c : Call}
    (hr : r.Resumed text r') (h : ¬ r.Reports text c) : (r'.call c).1 = (r.call c).1 := by
  obtain ⟨bs, more, e, cursor, hbs, hmore, hk, rfl⟩ := hr
  have linked : Linked (Continued (r.cursor.mark.bytes + bs.length) (.failed text)
      (fun _ : Unit => more) fun _ => e) r fun _ => { r with cursor } :=
    ⟨fun _ => cursor, rfl, bs, hbs, rfl, fun _ => ⟨hmore, hk⟩⟩
  have K : Coupling (Continued (r.cursor.mark.bytes + bs.length) (.failed text)
      (fun _ : Unit => more) fun _ => e) (fun f => f = .data (.device text)) LexFault.Intrinsic
      fun _ => True :=
    coupling_cut (fun S => ⟨(S ()).ahead, fun _ => Nat.le_refl _⟩) (fun _ _ => trivial)
      fun _ _ _ _ => ⟨(), fun _ _ => trivial⟩
  obtain ⟨same, -, -⟩ | ⟨f, l, _, hf, rfl, -⟩ := linked.call K c
  · exact same ()
  · exact absurd ⟨l, hf⟩ h

private def spaceOrLetter : Bool → List UInt8
  | true => [0x20]
  | false => [0x61]

theorem Reader.demands_of_reports {text : String} {r : Reader} {c : Call} {bs : List UInt8}
    (hbs : r.cursor.Holds bs (.failed text)) (h : r.Reports text c) :
    r.Demands text (r.cursor.mark.bytes + bs.length) c := by
  let S (i : Bool) : Cursor := ⟨bs ++ spaceOrLetter i, r.cursor.source, true, r.cursor.mark⟩
  have linked : Linked (Continued (r.cursor.mark.bytes + bs.length) (.failed text) spaceOrLetter
      fun _ => .endOfData) r fun i => { r with cursor := S i } :=
    ⟨S, rfl, bs, hbs, rfl, fun i => ⟨.drained, rfl⟩⟩
  have K : Coupling (Continued (r.cursor.mark.bytes + bs.length) (.failed text) spaceOrLetter
      fun _ => .endOfData) (fun f => f = .data (.device text)) LexFault.Intrinsic
      fun c => r.cursor.mark.bytes + bs.length < c.mark.bytes := by
    refine coupling_cut (fun S => ⟨(S true).ahead + (S false).ahead, fun i => ?_⟩)
      (fun le lt => Nat.lt_of_lt_of_le lt le) ?_
    · cases i <;> omega
    · intro σ α m hm s k hk
      have taken {b : UInt8} (hb : (m.move s b).Takes) :
          (m.conclude LexFault.data .endOfData (m.pass s k [b])).2.1.bytes = k.bytes + 1 := by
        simp only [Scanner.pass]
        cases hmv : m.move s b with
        | shift s' => exact k.bytes_advance b
        | finish r => exact k.bytes_advance b
        | halt r =>
            rw [hmv] at hb
            exact absurd hb id
      obtain hb | hb := hm.takes s
      · exact ⟨true, fun c hc => by rw [hc, spaceOrLetter, taken hb]; omega⟩
      · exact ⟨false, fun c hc => by rw [hc, spaceOrLetter, taken hb]; omega⟩
  obtain ⟨l, hl⟩ := h
  obtain ⟨-, -, plain⟩ | ⟨_, _, i, -, -, hi⟩ := linked.call K c
  · exact absurd (plain _ hl (.data (.device text)) l rfl) id
  · refine ⟨{ r with cursor := S i }, _, ⟨bs, _, .endOfData, S i, hbs, .drained, rfl, rfl⟩, ?_, hi⟩
    rw [position_of_call]
    rfl

/-- A call reports the failure of its source if and only if it needs the byte at which the source
fails. -/
theorem Reader.reports_iff_demands {s : Source} {bs : List UInt8} {text : String}
    (h : s.Delivers bs (.failed text)) (settings : ReaderSettings) (calls : List Call) (c : Call) :
    ((new s settings).session calls).2.Reports text c ↔
      ((new s settings).session calls).2.Demands text bs.length c := by
  obtain ⟨rest, hr, hn⟩ := holds_of_session h settings calls
  constructor
  · intro reports
    rw [← hn]
    exact demands_of_reports hr reports
  · rintro ⟨r', m, resumed, hm, lt⟩
    refine Classical.byContradiction fun not => ?_
    obtain ⟨rest', -, hn'⟩ := holds_of_session h settings (calls ++ [c])
    rw [call_of_resumed resumed not, position_of_call, ← session_concat] at hm
    cases hm
    omega

theorem Reader.kept_of_session {P : Cursor → Prop} (kept : Cursor.Kept P) {r : Reader}
    (h : P r.cursor) (calls : List Call) : P (r.session calls).2.cursor := by
  have linked : Linked (fun c (S : Unit → Cursor) => P c ∧ ∀ i, S i = c) r fun _ => r :=
    ⟨fun _ => r.cursor, rfl, h, fun _ => rfl⟩
  obtain ⟨-, _, -, after, -⟩ := linked.session (coupling_kept kept) (fun _ => id) calls
  exact after

theorem Reader.suffix_of_session {s : Source} {first rest : List Delivery}
    (h : s.replies = first ++ .endOfData :: rest) (settings : ReaderSettings) (calls : List Call) :
    rest <:+ ((new s settings).session calls).2.cursor.source.replies := by
  have start : Untaken rest (new s settings).cursor := .inl ⟨rfl, first, h.symm⟩
  obtain ⟨-, h⟩ | ⟨-, h⟩ := kept_of_session (kept_untaken rest) start calls
  · exact (List.suffix_cons _ _).trans h
  · exact h

/-- What a caller sees depends on the bytes that the source delivers and on the end behind them, not
on the sizes of the deliveries or on interrupted attempts; a failure is reported by exactly the
calls that need the byte at which it happens; and behind an end of the data nothing is asked for. -/
theorem Reader.delivery_immaterial :
    (∀ (s s' : Source) (bs : List UInt8) (e : Ending), s.Delivers bs e → s'.Delivers bs e →
      ∀ (settings : ReaderSettings) (calls : List Call),
        ((new s' settings).session calls).1 = ((new s settings).session calls).1) ∧
    (∀ (s : Source) (bs : List UInt8) (text : String), s.Delivers bs (.failed text) →
      ∀ (settings : ReaderSettings) (calls : List Call) (c : Call),
        ((new s settings).session calls).2.Reports text c ↔
          ((new s settings).session calls).2.Demands text bs.length c) ∧
    ∀ (s : Source) (first rest : List Delivery), s.replies = first ++ .endOfData :: rest →
      ∀ (settings : ReaderSettings) (calls : List Call),
        rest <:+ ((new s settings).session calls).2.cursor.source.replies :=
  ⟨fun _ _ _ _ h h' settings calls => session_of_delivers h h' settings calls,
    fun _ _ _ h settings calls c => reports_iff_demands h settings calls c,
    fun _ _ _ h settings calls => suffix_of_session h settings calls⟩

/-- An empty array in two deliveries and in one, the beginning of an array in front of a failure,
and an array with something behind the end of the data. -/
theorem Reader.delivery_immaterial_brackets :
    ((new ⟨[.data 0x5B [], .interrupted, .data 0x5D []], .endOfData⟩).session
        [.beginArray, .endArray, .finish]).1 =
      ((new ⟨[.data 0x5B [0x5D]], .endOfData⟩).session [.beginArray, .endArray, .finish]).1 ∧
    ((new ⟨[.data 0x5B []], .failed "lost"⟩).session [.beginArray]).2.Demands "lost" 1 .hasNext ∧
    [.data 0x20 []] <:+ ((new ⟨[.data 0x5B [0x5D], .endOfData, .data 0x20 []], .endOfData⟩).session
      [.skipValue, .finish, .peek]).2.cursor.source.replies :=
  ⟨delivery_immaterial.1 ⟨[.data 0x5B [0x5D]], .endOfData⟩
      ⟨[.data 0x5B [], .interrupted, .data 0x5D []], .endOfData⟩ [0x5B, 0x5D] .endOfData
      (.data .exhausted) (.data (.interrupted (.data .exhausted))) {} _,
    (delivery_immaterial.2.1 ⟨[.data 0x5B []], .failed "lost"⟩ [0x5B] "lost" (.data .exhausted) {}
      [.beginArray] .hasNext).mp ⟨_, rfl⟩,
    delivery_immaterial.2.2 _ [.data 0x5B [0x5D]] [.data 0x20 []] rfl {} _⟩

end TypedJson
