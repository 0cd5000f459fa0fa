import TypedJson.Proofs.Number.Widening
import TypedJson.Proofs.Schema.Typing
import TypedJson.Proofs.Writer.Readback
import TypedJson.Schema.Writing

set_option autoImplicit false
set_option relaxedAutoImplicit false

namespace TypedJson

open Operation

open Grammar (Numeral)

variable {settings : WriterSettings} {nonFinite : Bool} {evs evs' : List Event}

def Scalar.call : Scalar → Writer.Call
  | .integer n => .integer n
  | .single x => .double (x.convert _)
  | .double x => .double x
  | .boolean b => .boolean b
  | .text s => .string s

theorem Scalar.call_run (s : Scalar) : s.call.run = WriteM.scalar s := by
  cases s <;> rfl

theorem Scalar.tree_events (s : Scalar) : s.tree.events = [s.call.event] := by
  cases s <;> rw [tree, Tree.events] <;> rfl

theorem Scalar.call_fits (lenient : nonFinite = true → settings.lenient = true) {s : Scalar}
    (hs : s.isFinite = true ∨ nonFinite = true) : s.call.Fits (Numeral nonFinite) settings := by
  cases s with
  | integer n => exact .inl (Number.number_integerText n)
  | single x =>
      have widened : (x.convert Number.Format.double).isFinite = true ∨ nonFinite = true :=
        hs.imp_left (Number.Binary.isFinite_convert Number.double_widens_single)
      exact ⟨widened.imp_right lenient, Number.numeral_double widened⟩
  | double x => exact ⟨hs.imp_right lenient, Number.numeral_double hs⟩
  | boolean b => exact trivial
  | text s => exact trivial

namespace EmitM

variable {α β : Type}

theorem run_of_write {x : WriteM α} {a : α} {w w' : Writer} (h : write x w = .ok a w') :
    x w = .ok a w' := by
  unfold write at h
  split at h
  · rename_i run
    cases h
    exact run
  · cases h

/-- Whenever some calls for these units succeed, which the writer refuses none of, the operation
succeeds and leaves the same state. -/
def Writes (nonFinite : Bool) (settings : WriterSettings) (evs : List Event) (x : EmitM α) : Prop :=
  ∃ calls : List Writer.Call, calls.map Writer.Call.event = evs ∧
    (∀ c ∈ calls, c.Fits (Numeral nonFinite) settings) ∧
    ∀ w w', calls.forM Writer.Call.run w = .ok () w' → ∃ a, x w = .ok a w'

theorem writes_pure (a : α) : Writes nonFinite settings [] (pure a : EmitM α) := by
  refine ⟨[], rfl, nofun, fun w w' h => ⟨a, ?_⟩⟩
  cases h
  rfl

theorem writes_call (c : Writer.Call) (fits : c.Fits (Numeral nonFinite) settings) :
    Writes nonFinite settings [c.event] (write c.run) := by
  refine ⟨[c], rfl, by simpa using fits, fun w w' h => ⟨(), ?_⟩⟩
  obtain ⟨_, _, hc, done⟩ := bind_eq_ok.mp h
  cases done
  rw [write, hc]

theorem writes_then {x : EmitM α} {y : EmitM β} (hx : Writes nonFinite settings evs x)
    (hy : Writes nonFinite settings evs' y) :
    Writes nonFinite settings (evs ++ evs') (x >>= fun _ => y) := by
  obtain ⟨calls, rfl, fits, run⟩ := hx
  obtain ⟨calls', rfl, fits', run'⟩ := hy
  refine ⟨calls ++ calls', List.map_append, ?_, fun w w'' h => ?_⟩
  · intro c hc
    rcases List.mem_append.mp hc with hc | hc
    · exact fits c hc
    · exact fits' c hc
  · have split : (calls ++ calls').forM Writer.Call.run =
        (do calls.forM Writer.Call.run; calls'.forM Writer.Call.run) := List.forM_append
    rw [split] at h
    obtain ⟨_, w', h, h'⟩ := bind_eq_ok.mp h
    obtain ⟨a, hx⟩ := run w w' h
    obtain ⟨b, hy⟩ := run' w' w'' h'
    exact ⟨b, (bind_of_ok hx).trans hy⟩

theorem writes_within {x : EmitM α} (hx : Writes nonFinite settings evs x) (context : Option String)
    (name : String) : Writes nonFinite settings evs (within context name x) := by
  obtain ⟨calls, events, fits, run⟩ := hx
  refine ⟨calls, events, fits, fun w w' h => ?_⟩
  obtain ⟨a, hx⟩ := run w w' h
  refine ⟨a, ?_⟩
  cases context <;> simp only [within, hx]

theorem writes_forM {ι δ : Type} {ps : List ι} {ds : List δ} {body : ι → EmitM Unit}
    {units : δ → List Event} (same : ps.length = ds.length)
    (hb : ∀ (i : Nat) (p : ι) (d : δ), ps[i]? = some p → ds[i]? = some d →
      Writes nonFinite settings (units d) (body p)) :
    Writes nonFinite settings (ds.flatMap units) (ps.forM body) := by
  induction ps generalizing ds with
  | nil =>
      obtain rfl : ds = [] := List.length_eq_zero_iff.mp same.symm
      exact writes_pure ()
  | cons p ps ih =>
      cases ds with
      | nil => cases same
      | cons d ds =>
          have first := hb 0 p d rfl rfl
          have rest := ih (Nat.succ.inj same) fun i p d hp hd => hb (i + 1) p d hp hd
          exact writes_then first rest

end EmitM

namespace Schema

variable {κ : Type} [DecidableEq κ] {s : Schema κ} {d : Descriptor κ}

theorem writeLevelsBy_eq (fields : List (Value κ)) (writers : List (EmitM Unit))
    (levels : List (Level κ)) :
    s.writeLevelsBy fields writers levels = (levels.reverse.flatMap Level.properties).forM
      fun p => (do let _ ← s.writePropertyBy fields writers p : EmitM Unit) := by
  induction levels with
  | nil => rfl
  | cons l ancestors ih =>
      rw [writeLevelsBy, ih, List.reverse_cons, List.flatMap_append, List.flatMap_cons,
        List.flatMap_nil, List.append_nil]
      exact List.forM_append.symm

theorem writes_record (dispatches : s.Dispatches d) (described : s.descriptor = .ok d)
    {fields : List (Value κ)} {writers : List (EmitM Unit)} {members : List (String × Tree)}
    (names : members.map Prod.fst = s.fields.map Field.jsonName)
    (hw : ∀ (i : Nat) (m : String × Tree), members[i]? = some m →
      ∃ x, writers[i]? = some x ∧ EmitM.Writes nonFinite settings m.2.events x) :
    EmitM.Writes nonFinite settings (Tree.object members).events (s.writeBy fields writers) := by
  have length : members.length = s.fields.length := by
    have lengths := congrArg List.length names
    rwa [List.length_map, List.length_map] at lengths
  have member (i : Nat) (p : Property κ) (m : String × Tree) (hp : d.allProperties[i]? = some p)
      (hm : members[i]? = some m) : EmitM.Writes nonFinite settings (Tree.ofMember m)
        (do let _ ← s.writePropertyBy fields writers p : EmitM Unit) := by
    have name : (members.map Prod.fst)[i]? = (s.fields.map Field.jsonName)[i]? := by rw [names]
    rw [List.getElem?_map, List.getElem?_map, hm] at name
    obtain ⟨f, hf, same⟩ := Option.map_eq_some_iff.mp name.symm
    obtain ⟨jsonName, -, context, -, action⟩ := dispatches.entry hf hp
    obtain ⟨x, hx, writes⟩ := hw i m hm
    have property : s.writePropertyBy fields writers p = (do
        EmitM.write (Writer.Call.name p.jsonName).run
        EmitM.within context p.jsonName x
        pure true) := by
      simp only [writePropertyBy, action fields, hx, Writer.Call.run]
    have value := EmitM.writes_within writes context p.jsonName
    have done := EmitM.writes_then value (EmitM.writes_pure true)
    have written : EmitM.Writes nonFinite settings _ _ :=
      EmitM.writes_then (EmitM.writes_call (.name p.jsonName) trivial) done
    rw [← property, List.append_nil, jsonName, same] at written
    have unit := EmitM.writes_then written (EmitM.writes_pure ())
    rwa [List.append_nil] at unit
  have body := EmitM.writes_forM (dispatches.length_eq.trans length.symm) member
  rw [Descriptor.allProperties, ← writeLevelsBy_eq fields writers] at body
  have closed := EmitM.writes_then body (EmitM.writes_call .endObject trivial)
  have whole : EmitM.Writes nonFinite settings _ _ :=
    EmitM.writes_then (EmitM.writes_call .beginObject trivial) closed
  have resolved : (EmitM.resolve s : EmitM (Descriptor κ)) = pure d := by
    rw [EmitM.resolve, described]
  rw [Tree.events, Tree.memberEvents_eq, writeBy, resolved]
  exact whole

end Schema

namespace EmitM

variable {κ : Type} [DecidableEq κ] {catalog : Catalog κ}

theorem items_eq (vs : List (Value κ)) : items catalog vs = vs.forM (value catalog) := by
  induction vs with
  | nil => rfl
  | cons v vs ih =>
      rw [items, ih]
      rfl

theorem writers_eq (vs : List (Value κ)) : writers catalog vs = vs.map (value catalog) := by
  induction vs with
  | nil => rfl
  | cons v vs ih => rw [writers, ih, List.map_cons]

/-- Writing a value of a type comes down to calls for the units of its JSON value. -/
theorem writes_value (lenient : nonFinite = true → settings.lenient = true) {t : FieldType κ}
    {v : Value κ} (typed : HasType catalog t v)
    (hs : ∀ s ∈ v.scalars, s.isFinite = true ∨ nonFinite = true) :
    Writes nonFinite settings (v.tree catalog).events (value catalog v) := by
  induction typed with
  | @scalar t s _ =>
      have fits := Scalar.call_fits lenient (hs s (by simp [Value.scalars]))
      rw [Value.tree, Scalar.tree_events, value, ← Scalar.call_run]
      exact writes_call _ fits
  | absent =>
      rw [Value.tree, Tree.events, value]
      exact writes_call .null trivial
  | present _ ih =>
      rw [Value.tree, value]
      exact ih hs
  | boxed _ ih => exact ih hs
  | @list t vs _ ih =>
      have body : Writes nonFinite settings (vs.flatMap fun v => (v.tree catalog).events)
          (vs.forM (value catalog)) := by
        apply writes_forM rfl
        intro i v v' hv hv'
        cases hv.symm.trans hv'
        have mem := List.mem_of_getElem? hv
        exact ih v mem fun s h => hs s (Value.mem_scalarsOf mem h)
      have closed := writes_then body (writes_call .endArray trivial)
      have whole : Writes nonFinite settings _ _ :=
        writes_then (writes_call .beginArray trivial) closed
      rw [Value.tree, Tree.events, Tree.itemEvents_eq, Value.trees_eq, List.flatMap_map, value,
        items_eq]
      exact whole
  | @record k fields declared _ length _ ih =>
      obtain ⟨d, described, dispatches⟩ := declared.dispatches
      rw [Value.tree, value, writers_eq]
      apply Schema.writes_record dispatches described
      · rw [List.map_fst_zip]
        rw [Value.trees_eq, List.length_map, List.length_map, length]
      · intro i m hm
        obtain ⟨name, value⟩ := List.getElem?_zip_eq_some.mp hm
        rw [Value.trees_eq, List.getElem?_map] at value
        rw [List.getElem?_map] at name
        obtain ⟨f, hf, -⟩ := Option.map_eq_some_iff.mp name
        obtain ⟨v, hv, tree⟩ := Option.map_eq_some_iff.mp value
        refine ⟨EmitM.value catalog v, by rw [List.getElem?_map, hv]; rfl, ?_⟩
        rw [← tree]
        exact ih i f v hf hv fun s h => hs s (Value.mem_scalarsOf (List.mem_of_getElem? hv) h)

end EmitM

end TypedJson
