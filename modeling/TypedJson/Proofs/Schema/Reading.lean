import TypedJson.Proofs.Reader.Values
import TypedJson.Proofs.Schema.Typing
import TypedJson.Schema.Reading

set_option autoImplicit false
set_option relaxedAutoImplicit false

namespace TypedJson

open Operation
open Grammar (Numerals)
open Reader (Expects)

variable {N : List Char → Prop} {settings : ReaderSettings} {evs : List Event}
variable {α β : Type}

namespace BindM

variable {P : Reader → Prop} {Q : α → Reader → Prop}

theorem attains_read {x : ReadM α} (hx : Attains P x Q) : Attains P (read x) Q := by
  intro r hr
  obtain ⟨a, r', ha, hq⟩ := hx r hr
  exact ⟨a, r', by rw [read, ha], hq⟩

theorem attains_within {x : BindM α} (hx : Attains P x Q) (context : Option String)
    (name : String) : Attains P (within context name x) Q := by
  intro r hr
  obtain ⟨a, r', ha, hq⟩ := hx r hr
  refine ⟨a, r', ?_, hq⟩
  cases context <;> simp only [within, ha]

theorem attains_collecting {x : FillM β Unit} {start : β} {R : β → Reader → Prop}
    (hx : Attains (fun s => P s.1 ∧ s.2 = start) x fun _ s => R s.2 s.1) :
    Attains P (collecting start x) R := by
  intro r hr
  obtain ⟨_, ⟨r', b⟩, hb, hq⟩ := hx (r, start) ⟨hr, rfl⟩
  exact ⟨b, r', by simp only [collecting, hb], hq⟩

end BindM

namespace FillM

variable {P : Reader → Prop} {Q : α → Reader → Prop} {I : β → Prop}

theorem attains_typed {x : BindM α} (hx : Attains P x Q) :
    Attains (fun s => P s.1 ∧ I s.2) (typed x : FillM β α) fun a s => Q a s.1 ∧ I s.2 := by
  rintro ⟨r, b⟩ ⟨hr, hb⟩
  obtain ⟨a, r', ha, hq⟩ := hx r hr
  exact ⟨a, (r', b), by simp only [typed, ha], hq, hb⟩

theorem attains_read {x : ReadM α} (hx : Attains P x Q) :
    Attains (fun s => P s.1 ∧ I s.2) (read x : FillM β α) fun a s => Q a s.1 ∧ I s.2 :=
  attains_typed (BindM.attains_read hx)

/-- One round for each element in front of the end of the container. -/
theorem attains_each (hN : Numerals settings.lenient N) {ι : Type} {units : ι → List Event}
    {I : List ι → β → Prop} {body : FillM β Unit} {closing : Event}
    (closes : closing.closes = true)
    (opens : ∀ x, ∃ e es, units x = e :: es ∧ e.closes = false)
    (step : ∀ x xs evs, Attains (fun s => Expects N settings (units x ++ evs) s.1 ∧ I (x :: xs) s.2)
      body fun _ s => Expects N settings evs s.1 ∧ I xs s.2)
    {xs : List ι} {fuel : Nat} (enough : xs.length ≤ fuel) (evs : List Event) :
    Attains (fun s => Expects N settings (xs.flatMap units ++ closing :: evs) s.1 ∧ I xs s.2)
      (each body fuel) fun _ s => Expects N settings (closing :: evs) s.1 ∧ I [] s.2 := by
  induction fuel generalizing xs with
  | zero =>
      obtain rfl : xs = [] := List.length_eq_zero_iff.mp (by omega)
      exact Attains.pure fun _ h => h
  | succ fuel ih =>
      cases xs with
      | nil =>
          apply (attains_read (ReadM.attains_hasNext hN)).bind
          intro more s h
          obtain ⟨⟨rfl, h⟩, hI⟩ := h
          refine ⟨(), s, ?_, h, hI⟩
          rw [closes]
          rfl
      | cons x xs =>
          obtain ⟨e, es, head, opening⟩ := opens x
          have rest := (step x xs (xs.flatMap units ++ closing :: evs)).bind fun _ =>
            ih (Nat.le_of_succ_le_succ enough)
          have look : Attains (fun s : Reader × β => Expects N settings
              ((x :: xs).flatMap units ++ closing :: evs) s.1 ∧ I (x :: xs) s.2)
              (read ReadM.hasNext) fun a s => (a = true ∧ Expects N settings
                (units x ++ (xs.flatMap units ++ closing :: evs)) s.1) ∧ I (x :: xs) s.2 := by
            rw [List.flatMap_cons, List.append_assoc, head, List.cons_append]
            have next : Attains (Expects N settings (e :: (es ++ (xs.flatMap units ++
                closing :: evs)))) ReadM.hasNext _ := ReadM.attains_hasNext hN
            rw [opening] at next
            exact attains_read next
          apply look.bind
          intro more s h
          obtain ⟨⟨rfl, h⟩, hI⟩ := h
          exact rest s ⟨h, hI⟩

end FillM

namespace BindM

theorem attains_itemsAfter (hN : Numerals settings.lenient N) {ι : Type} {units : ι → List Event}
    {item : BindM α} {value : ι → α} {xs : List ι}
    (opens : ∀ x, ∃ e es, units x = e :: es ∧ e.closes = false)
    (hitem : ∀ x ∈ xs, ∀ evs, Attains (Expects N settings (units x ++ evs)) item fun a r =>
      a = value x ∧ Expects N settings evs r)
    {fuel : Nat} (enough : xs.length ≤ fuel) (initial : List α) (evs : List Event) :
    Attains (Expects N settings (.beginArray :: (xs.flatMap units ++ .endArray :: evs)))
      (itemsAfter fuel initial item) fun a r =>
        a = initial ++ xs.map value ∧ Expects N settings evs r := by
  let collected (remaining : List ι) (vs : List α) : Prop :=
    ∃ done, xs = done ++ remaining ∧ vs = (done.map value).reverse ++ initial.reverse
  have step (x : ι) (remaining : List ι) (evs : List Event) :
      Attains (fun s => Expects N settings (units x ++ evs) s.1 ∧ collected (x :: remaining) s.2)
        (FillM.push item) fun _ s => Expects N settings evs s.1 ∧ collected remaining s.2 := by
    rintro ⟨r, vs⟩ ⟨h, done, split, rfl⟩
    obtain ⟨_, r', ha, rfl, h⟩ := hitem x (by simp [split]) evs r h
    have more : value x :: ((done.map value).reverse ++ initial.reverse) =
        ((done ++ [x]).map value).reverse ++ initial.reverse := by
      simp
    refine ⟨(), (r', _), ?_, h, done ++ [x], by simp [split], more⟩
    simp only [FillM.push, FillM.typed, bind, EStateM.bind, ha]
    rfl
  have closing : Event.endArray.closes = true := rfl
  have items : Attains (fun s => Expects N settings (.beginArray :: (xs.flatMap units ++
      .endArray :: evs)) s.1 ∧ s.2 = initial.reverse) (FillM.items fuel item) fun _ s =>
        Expects N settings evs s.1 ∧ s.2 = (xs.map value).reverse ++ initial.reverse := by
    have start : Attains _ (FillM.read ReadM.beginArray) fun _ s => Expects N settings
        (xs.flatMap units ++ .endArray :: evs) s.1 ∧ collected xs s.2 :=
      FillM.attains_read (ReadM.attains_beginArray hN)
    have loop := FillM.attains_each hN closing opens step enough evs
    have finish : Attains _ (FillM.read ReadM.endArray) fun _ s =>
        Expects N settings evs s.1 ∧ collected [] s.2 :=
      FillM.attains_read (ReadM.attains_endArray hN)
    refine (start.bind fun _ => loop.bind fun _ => finish).weaken ?_ ?_
    · rintro ⟨r, vs⟩ ⟨h, rfl⟩
      exact ⟨h, [], rfl, by simp⟩
    · rintro _ ⟨r, vs⟩ ⟨h, done, split, rfl⟩
      rw [List.append_nil] at split
      rw [split]
      exact ⟨h, rfl⟩
  apply (attains_collecting (R := fun vs r => Expects N settings evs r ∧
    vs = (xs.map value).reverse ++ initial.reverse) items).bind
  intro vs r h
  obtain ⟨h, rfl⟩ := h
  exact ⟨_, r, rfl, by simp, h⟩

end BindM

namespace Schema

variable {κ : Type} [DecidableEq κ] {s : Schema κ} {d : Descriptor κ}

private theorem set_next {vs ws : List α} {n : Nat} {v : α} (hn : vs[n]? = some v)
    (same : vs.length = ws.length) :
    (vs.take n ++ ws.drop n).set n v = vs.take (n + 1) ++ ws.drop (n + 1) := by
  have below : n < vs.length := (List.getElem?_eq_some_iff.mp hn).1
  have front : (vs.take n).length = n := List.length_take_of_le below.le
  rw [List.take_add_one, hn, List.drop_eq_getElem_cons (by omega), List.set_append, front,
    if_neg (by omega), Nat.sub_self, List.set_cons_zero, Option.toList_some, List.append_assoc]
  rfl

section

variable {fuel : Nat} {readField : FieldType κ → BindM (Value κ)}
variable {members : List (String × Tree)} {result : List (Value κ)}

/-- In front of the remaining members, the fields of the members read so far have their values, and
the others those that they start with. -/
def FilledUpTo (s : Schema κ) (members : List (String × Tree)) (result : List (Value κ))
    (remaining : List (String × Tree)) (fields : List (Value κ)) : Prop :=
  ∃ n, remaining = members.drop n ∧
    fields = result.take n ++ (s.fields.map Field.initial).drop n

variable (hN : Numerals settings.lenient N) (dispatches : s.Dispatches d)
variable (names : members.map Prod.fst = s.fields.map Field.jsonName)
variable (complete : result.length = s.fields.length)
variable (hf : ∀ (i : Nat) (f : Field κ) (m : String × Tree) (v : Value κ), s.fields[i]? = some f →
  members[i]? = some m → result[i]? = some v → ∀ evs,
    Attains (Expects N settings (m.2.events ++ evs)) (readField f.type) fun a r =>
      a = v ∧ Expects N settings evs r)
include hN dispatches names complete hf

theorem attains_fillMemberBy (rounds : Nat) (m : String × Tree)
    (remaining : List (String × Tree)) (evs : List Event) :
    Attains (fun t => Expects N settings (Tree.ofMember m ++ evs) t.1 ∧
        s.FilledUpTo members result (m :: remaining) t.2)
      (s.fillMemberBy rounds readField d) fun _ t =>
        Expects N settings evs t.1 ∧ s.FilledUpTo members result remaining t.2 := by
  rintro ⟨r, fields⟩ ⟨h, n, split, rfl⟩
  have hm : members[n]? = some m := by
    have head := congrArg (·[0]?) split
    simpa using head.symm
  have rest : remaining = members.drop (n + 1) := by
    have tail := congrArg List.tail split
    simpa using tail
  have name : (members.map Prod.fst)[n]? = (s.fields.map Field.jsonName)[n]? := by rw [names]
  rw [List.getElem?_map, List.getElem?_map, hm] at name
  obtain ⟨f, hfield, same⟩ := Option.map_eq_some_iff.mp name.symm
  have below : n < s.fields.length := (List.getElem?_eq_some_iff.mp hfield).1
  obtain ⟨p, hp⟩ : ∃ p, d.allProperties[n]? = some p :=
    ⟨_, List.getElem?_eq_getElem (by rw [dispatches.length_eq]; exact below)⟩
  obtain ⟨v, hv⟩ : ∃ v, result[n]? = some v :=
    ⟨_, List.getElem?_eq_getElem (by rw [complete]; exact below)⟩
  obtain ⟨jsonName, found, context, slot, -⟩ := dispatches.entry hfield hp
  rw [jsonName, same] at found
  obtain ⟨_, r₁, hname, rfl, h⟩ := ReadM.attains_nextName hN r h
  obtain ⟨_, r₂, hvalue, rfl, h⟩ :=
    BindM.attains_within (hf n f m v hfield hm hv evs) context p.jsonName r₁ h
  have start_length : result.length = (s.fields.map Field.initial).length := by
    rw [complete, List.length_map]
  refine ⟨(), (r₂, _), ?_, h, n + 1, rest, set_next hv start_length⟩
  simp only [fillMemberBy, fillPropertyBy, FillM.read, FillM.typed, FillM.update, BindM.read,
    bind, EStateM.bind, hname, found, slot, hvalue]
  rfl

theorem attains_readBy (described : s.descriptor = .ok d) (enough : members.length ≤ fuel)
    (evs : List Event) :
    Attains (Expects N settings ((Tree.object members).events ++ evs)) (s.readBy fuel readField)
      fun a r => a = .record s.key result ∧ Expects N settings evs r := by
  have length : members.length = s.fields.length := by
    have lengths := congrArg List.length names
    rwa [List.length_map, List.length_map] at lengths
  have resolved : (BindM.resolve s : BindM (Descriptor κ)) = pure d := by
    rw [BindM.resolve, described]
  have start : Attains _ (FillM.read ReadM.beginObject) fun _ t => Expects N settings
      (members.flatMap Tree.ofMember ++ .endObject :: evs) t.1 ∧
        s.FilledUpTo members result members t.2 :=
    FillM.attains_read (ReadM.attains_beginObject hN)
  have closing : Event.endObject.closes = true := rfl
  have step := attains_fillMemberBy hN dispatches names complete hf fuel
  have loop := FillM.attains_each hN closing Tree.ofMember_opens step enough evs
  have finish : Attains _ (FillM.read ReadM.endObject) fun _ t =>
      Expects N settings evs t.1 ∧ s.FilledUpTo members result [] t.2 :=
    FillM.attains_read (ReadM.attains_endObject hN)
  have fill : Attains (fun t => Expects N settings ((Tree.object members).events ++ evs) t.1 ∧
      t.2 = s.fields.map Field.initial) (s.fillBy fuel readField) fun _ t =>
        Expects N settings evs t.1 ∧ t.2 = result := by
    rw [Tree.events, Tree.memberEvents_eq, List.cons_append, List.append_assoc, fillBy, resolved]
    refine (start.bind fun _ => loop.bind fun _ => finish).weaken ?_ ?_
    · rintro ⟨r, fields⟩ ⟨h, rfl⟩
      exact ⟨h, 0, rfl, rfl⟩
    · rintro _ ⟨r, fields⟩ ⟨h, n, split, rfl⟩
      have all : members.length ≤ n := List.drop_eq_nil_iff.mp split.symm
      have beyond : (s.fields.map Field.initial).length ≤ n := by
        rw [List.length_map]
        omega
      refine ⟨h, ?_⟩
      dsimp only
      rw [List.take_of_length_le (by omega), List.drop_of_length_le beyond, List.append_nil]
  have fields : Attains _ (BindM.collecting (s.fields.map Field.initial) (s.fillBy fuel readField))
      fun vs r => Expects N settings evs r ∧ vs = result := BindM.attains_collecting fill
  apply fields.bind
  intro fields r h
  obtain ⟨h, rfl⟩ := h
  exact ⟨_, r, rfl, rfl, h⟩

end

end Schema

namespace Value

variable {κ : Type} (catalog : Catalog κ)

section

variable {ι : Type} (units : ι → List Event) {xs : List ι}

private theorem units_le {x : ι} (hx : x ∈ xs) :
    (units x).length ≤ (xs.flatMap units).length := by
  rw [List.length_flatMap]
  exact List.le_sum_of_mem (List.mem_map_of_mem hx)

private theorem count_le (opens : ∀ x, ∃ e es, units x = e :: es ∧ e.closes = false) :
    xs.length ≤ (xs.flatMap units).length := by
  have some : ∀ n ∈ xs.map fun x => (units x).length, 1 ≤ n := by
    intro n hn
    obtain ⟨x, -, rfl⟩ := List.mem_map.mp hn
    obtain ⟨e, es, head, -⟩ := opens x
    rw [head, List.length_cons]
    omega
  have count := List.length_le_sum_of_one_le _ some
  rwa [List.length_map, ← List.length_flatMap] at count

end

/-! A list and a record have more units than what is inside them, and than there are values inside
them. -/

theorem events_list (vs : List (Value κ)) : ((Value.list vs).tree catalog).events =
    .beginArray :: (vs.flatMap (fun v => (v.tree catalog).events) ++ [.endArray]) := by
  rw [tree, Tree.events, Tree.itemEvents_eq, trees_eq, List.flatMap_map]

theorem length_lt_list {vs : List (Value κ)} {v : Value κ} (hv : v ∈ vs) :
    (v.tree catalog).events.length < ((Value.list vs).tree catalog).events.length := by
  have shorter := units_le (fun v => (v.tree catalog).events) hv
  rw [events_list, List.length_cons, List.length_append]
  omega

theorem count_lt_list (vs : List (Value κ)) :
    vs.length < ((Value.list vs).tree catalog).events.length := by
  have count : vs.length ≤ _ := count_le _ fun v => (v.tree catalog).events_opens
  rw [events_list, List.length_cons, List.length_append]
  omega

theorem events_record (k : κ) (fields : List (Value κ)) :
    ((Value.record k fields).tree catalog).events =
      .beginObject :: ((((catalog k).fields.map Field.jsonName).zip
        (fields.map (tree catalog))).flatMap Tree.ofMember ++ [.endObject]) := by
  rw [tree, Tree.events, Tree.memberEvents_eq, trees_eq]

theorem count_lt_record {k : κ} {fields : List (Value κ)}
    (complete : fields.length = (catalog k).fields.length) :
    fields.length < ((Value.record k fields).tree catalog).events.length := by
  have count : (((catalog k).fields.map Field.jsonName).zip
      (fields.map (tree catalog))).length ≤ _ := count_le Tree.ofMember Tree.ofMember_opens
  rw [List.length_zip, List.length_map, List.length_map, ← complete, Nat.min_self] at count
  rw [events_record, List.length_cons, List.length_append]
  omega

theorem length_lt_record {k : κ} {fields : List (Value κ)} {i : Nat} {f : Field κ} {v : Value κ}
    (hf : (catalog k).fields[i]? = some f) (hv : fields[i]? = some v) :
    (v.tree catalog).events.length < ((Value.record k fields).tree catalog).events.length := by
  have named : ((catalog k).fields.map Field.jsonName)[i]? = some f.jsonName := by
    rw [List.getElem?_map, hf, Option.map_some]
  have value : (fields.map (tree catalog))[i]? = some (v.tree catalog) := by
    rw [List.getElem?_map, hv, Option.map_some]
  have member : (((catalog k).fields.map Field.jsonName).zip (fields.map (tree catalog)))[i]? =
      some (f.jsonName, v.tree catalog) := List.getElem?_zip_eq_some.mpr ⟨named, value⟩
  have inside := List.mem_of_getElem? member
  have shorter := units_le Tree.ofMember inside
  rw [Tree.ofMember, List.length_cons] at shorter
  dsimp only at shorter
  rw [events_record, List.length_cons, List.length_append]
  omega

end Value

namespace BindM

variable {κ : Type} {catalog : Catalog κ} {nonFinite : Bool}

theorem attains_nextScalar (hN : Numerals settings.lenient N)
    (lenient : nonFinite = true → settings.lenient = true) {t : ScalarType} {s : Scalar}
    (typed : s.hasType t = true) (hs : s.isFinite = true ∨ nonFinite = true) :
    Attains (Expects N settings (s.tree.events ++ evs)) (ReadM.nextScalar t) fun a r =>
      a = s ∧ Expects N settings evs r := by
  have answer {γ : Type} {x : ReadM γ} {a : γ} {P : Reader → Prop} {f : γ → Scalar}
      (hx : Attains P x fun b r => b = a ∧ Expects N settings evs r) :
      Attains P (do pure (f (← x))) fun b r => b = f a ∧ Expects N settings evs r := by
    apply hx.bind
    intro b r h
    obtain ⟨rfl, h⟩ := h
    exact ⟨_, r, rfl, rfl, h⟩
  cases s with
  | integer n =>
      cases t with
      | integer type =>
          rw [Scalar.tree, Tree.events]
          exact answer (ReadM.attains_nextInteger hN typed)
      | _ => cases typed
  | single x =>
      cases t with
      | single =>
          rw [Scalar.tree, Tree.events]
          exact answer (ReadM.attains_nextSingle hN (hs.imp_right lenient))
      | _ => cases typed
  | double x =>
      cases t with
      | double =>
          rw [Scalar.tree, Tree.events]
          exact answer (ReadM.attains_nextDouble hN (hs.imp_right lenient))
      | _ => cases typed
  | boolean b =>
      cases t with
      | boolean =>
          rw [Scalar.tree, Tree.events]
          exact answer (ReadM.attains_nextBool hN)
      | _ => cases typed
  | text text =>
      cases t with
      | text =>
          rw [Scalar.tree, Tree.events]
          exact answer (ReadM.attains_nextString hN)
      | _ => cases typed

theorem attains_optional_null (hN : Numerals settings.lenient N) (t : FieldType κ) (fuel : Nat)
    (readRecord : κ → BindM (Value κ)) :
    Attains (Expects N settings (.null :: evs)) (fieldBy fuel readRecord (.optional t)) fun a r =>
      a = .absent ∧ Expects N settings evs r := by
  rw [fieldBy]
  apply (attains_read (ReadM.attains_peek hN)).bind
  intro token r h
  obtain ⟨null, h⟩ := h
  obtain ⟨_, r', hx, h⟩ := attains_read (ReadM.attains_nextNull hN) r h
  rw [if_pos (null.mpr rfl)]
  exact ⟨.absent, r', bind_of_ok hx, rfl, h⟩

theorem attains_optional_some (hN : Numerals settings.lenient N) {t : FieldType κ} {fuel : Nat}
    {readRecord : κ → BindM (Value κ)} {units : List Event} {v : Value κ} {e : Event}
    {es : List Event} (head : units = e :: es) (some : e ≠ .null)
    (ht : Attains (Expects N settings (units ++ evs)) (fieldBy fuel readRecord t) fun a r =>
      a = v ∧ Expects N settings evs r) :
    Attains (Expects N settings (units ++ evs)) (fieldBy fuel readRecord (.optional t)) fun a r =>
      a = .present v ∧ Expects N settings evs r := by
  subst head
  rw [fieldBy]
  apply (attains_read (ReadM.attains_peek hN)).bind
  intro token r h
  obtain ⟨null, h⟩ := h
  obtain ⟨_, r', hx, rfl, h⟩ := ht r h
  rw [if_neg (fun same => some (null.mp same))]
  exact ⟨_, r', bind_of_ok hx, rfl, h⟩

theorem attains_list (hN : Numerals settings.lenient N) {t : FieldType κ} {vs : List (Value κ)}
    {fuel : Nat} {readRecord : κ → BindM (Value κ)}
    (item : ∀ v ∈ vs, ∀ evs, Attains (Expects N settings ((v.tree catalog).events ++ evs))
      (fieldBy fuel readRecord t) fun a r => a = v.collapse ∧ Expects N settings evs r)
    (few : vs.length ≤ fuel) (evs : List Event) :
    Attains (Expects N settings (((Value.list vs).tree catalog).events ++ evs))
      (fieldBy fuel readRecord (.list t)) fun a r =>
        a = (Value.list vs).collapse ∧ Expects N settings evs r := by
  have items := attains_itemsAfter hN (fun v => (v.tree catalog).events_opens) item few [] evs
  rw [Value.events_list, List.cons_append, List.append_assoc, fieldBy, Value.collapse,
    Value.collapseAll_eq]
  apply items.bind
  intro a r h
  obtain ⟨rfl, h⟩ := h
  exact ⟨_, r, rfl, rfl, h⟩

theorem attains_record [DecidableEq κ] (hN : Numerals settings.lenient N) {k : κ}
    {fields : List (Value κ)} {fuel : Nat} {readField : FieldType κ → BindM (Value κ)}
    (declared : (catalog k).IsDeclared) (key : (catalog k).key = k)
    (complete : fields.length = (catalog k).fields.length)
    (field : ∀ (i : Nat) (f : Field κ) (v : Value κ), (catalog k).fields[i]? = some f →
      fields[i]? = some v → ∀ evs, Attains (Expects N settings ((v.tree catalog).events ++ evs))
        (readField f.type) fun a r => a = v.collapse ∧ Expects N settings evs r)
    (few : fields.length ≤ fuel) (evs : List Event) :
    Attains (Expects N settings (((Value.record k fields).tree catalog).events ++ evs))
      ((catalog k).readBy fuel readField) fun a r =>
        a = (Value.record k fields).collapse ∧ Expects N settings evs r := by
  obtain ⟨d, described, dispatches⟩ := declared.dispatches
  have same : ((catalog k).fields.map Field.jsonName).length =
      (Value.trees catalog fields).length := by
    rw [Value.trees_eq, List.length_map, List.length_map, complete]
  have names := List.map_fst_zip (Nat.le_of_eq same)
  have count : (((catalog k).fields.map Field.jsonName).zip
      (Value.trees catalog fields)).length ≤ fuel := by
    rw [List.length_zip, ← same, Nat.min_self, List.length_map, ← complete]
    exact few
  have result : (fields.map Value.collapse).length = (catalog k).fields.length := by
    rw [List.length_map, complete]
  have answer : (Value.record k fields).collapse =
      .record (catalog k).key (fields.map Value.collapse) := by
    rw [Value.collapse, Value.collapseAll_eq, key]
  rw [Value.tree, answer]
  refine Schema.attains_readBy hN dispatches names result ?_ described count evs
  intro i f m v hf member value evs
  rw [Value.trees_eq] at member
  obtain ⟨-, tree⟩ := List.getElem?_zip_eq_some.mp member
  rw [List.getElem?_map] at tree value
  obtain ⟨w, hw, rfl⟩ := Option.map_eq_some_iff.mp value
  rw [hw] at tree
  obtain same : w.tree catalog = m.2 := Option.some.inj tree
  rw [← same]
  exact field i f w hf hw evs

/-- Reading by the type of a value answers the value, collapsed. As much fuel as there are units is
enough for the loops and for the nesting. -/
theorem attains_fieldBy [DecidableEq κ] (hN : Numerals settings.lenient N)
    (lenient : nonFinite = true → settings.lenient = true) {t : FieldType κ} {v : Value κ}
    (typed : HasType catalog t v) (hs : ∀ s ∈ v.scalars, s.isFinite = true ∨ nonFinite = true)
    {fuel depth : Nat} (enough : (v.tree catalog).events.length ≤ fuel)
    (deep : (v.tree catalog).events.length ≤ depth) (evs : List Event) :
    Attains (Expects N settings ((v.tree catalog).events ++ evs))
      (fieldBy fuel (recordWithin catalog fuel depth) t) fun a r =>
        a = v.collapse ∧ Expects N settings evs r := by
  induction typed generalizing depth evs with
  | @scalar t s typed =>
      have plain := hs s (by simp [Value.scalars])
      rw [Value.tree, Value.collapse]
      apply (attains_read (attains_nextScalar hN lenient typed plain)).bind
      intro a r h
      obtain ⟨rfl, h⟩ := h
      exact ⟨_, r, rfl, rfl, h⟩
  | absent =>
      rw [Value.tree, Tree.events, Value.collapse]
      exact attains_optional_null hN _ _ _
  | @present t v _ ih =>
      rw [Value.tree] at enough deep ⊢
      rw [Value.collapse]
      by_cases null : v.isNull = true
      · rw [if_pos null, (v.tree_eq_null catalog).mpr null, Tree.events]
        exact attains_optional_null hN _ _ _
      · obtain ⟨e, es, head, -, empty⟩ := (v.tree catalog).events_head
        have some : e ≠ .null := fun same => null ((v.tree_eq_null catalog).mp (empty.mp same))
        rw [if_neg null]
        exact attains_optional_some hN head some (ih hs enough deep evs)
  | boxed _ ih => exact ih hs enough deep evs
  | @list t vs _ ih =>
      have count := Value.count_lt_list catalog vs
      refine attains_list hN (fun v hv evs => ?_) (by omega) evs
      have shorter := Value.length_lt_list catalog hv
      exact ih v hv (fun s h => hs s (Value.mem_scalarsOf hv h)) (by omega) (by omega) evs
  | @record k fields declared key complete _ ih =>
      have count := Value.count_lt_record catalog complete
      obtain ⟨depth, rfl⟩ := Nat.exists_eq_add_of_le' (show 1 ≤ depth by omega)
      rw [fieldBy, recordWithin]
      refine attains_record hN declared key complete (fun i f v hf hv evs => ?_) (by omega) evs
      have shorter := Value.length_lt_record catalog hf hv
      have inside := List.mem_of_getElem? hv
      exact ih i f v hf hv (fun s h => hs s (Value.mem_scalarsOf inside h)) (by omega) (by omega)
        evs

end BindM

end TypedJson
