import TypedJson.Proofs.Schema.Decoding
import TypedJson.Proofs.Schema.Visits
import TypedJson.Schema.Support

set_option autoImplicit false
set_option relaxedAutoImplicit false

namespace TypedJson

open Operation
open Reader (Consumes)

variable {κ : Type} [DecidableEq κ] {catalog : Catalog κ}

/-! What a collection holds when it has been read. -/

theorem Tree.decodeItems_eq_some {lenient : Bool} {type : FieldType κ} {items : List Tree}
    {vs : List (Value κ)} :
    Tree.decodeItems catalog lenient type items = some vs ↔
      List.Forall₂ (fun item v => item.decode catalog lenient type = some v) items vs := by
  induction items generalizing vs with
  | nil => simp [Tree.decodeItems, eq_comm]
  | cons item items ih =>
      rw [Tree.decodeItems]
      constructor
      · intro h
        obtain ⟨v, first, rest⟩ := Option.bind_eq_some_iff.mp h
        obtain ⟨ws, others, ⟨⟩⟩ := Option.bind_eq_some_iff.mp rest
        exact .cons first (ih.mp others)
      · intro h
        cases h with
        | cons first rest => simp [first, ih.mpr rest]

namespace FillM

variable {α β : Type} {item : BindM α} {fuel : Nat} {r r' : Reader} {vs vs' : List α}

theorem array_of_items {t : Tree} (h : items fuel item (r, vs) = .ok () (r', vs'))
    (consumes : Consumes t.events r r') : ∃ ts, t = .array ts := by
  obtain ⟨_, ⟨r₁, vs₁⟩, opening, -⟩ := bind_eq_ok.mp h
  have unit := ReadM.event_of_beginArray (read_eq_ok opening).1
  obtain ⟨e, q, first, array, -⟩ := Tree.first_unit consumes
  cases unit.symm.trans first
  exact array rfl

end FillM

namespace BindM

variable {t : FieldType κ} {r r' : Reader} {xs ys : List (Value κ)}

theorem success?_collection {items : List Tree} (h : Consumes (Tree.array items).events r r')
    (xs : List (Value κ)) :
    success? (collection catalog t xs r) =
      (Tree.decodeItems catalog r.settings.lenient t items).map fun vs => (xs ++ vs, r') := by
  have same (q : Reader) (less : q.unitsLeft < r.unitsLeft) :
      fieldWithin catalog (r.unitsLeft + 1) t q = field catalog t q :=
    fieldWithin_eq_field (by omega)
  have collected : success? (FillM.items (r.unitsLeft + 1)
      (fieldWithin catalog (r.unitsLeft + 1) t) (r, xs.reverse)) = _ :=
    FillM.success?_items (fun item _ => item.reads) same (Nat.le_succ _) h
  have run : collection catalog t xs r = itemsAfter (r.unitsLeft + 1) xs
      (fieldWithin catalog (r.unitsLeft + 1) t) r := rfl
  rw [run, itemsAfter, success?_bind, success?_collecting, collected]
  cases Tree.decodeItems catalog r.settings.lenient t items with
  | none => rfl
  | some vs =>
      change some ((vs.reverse ++ xs.reverse).reverse, r') = some (xs ++ vs, r')
      rw [← List.reverse_append, List.reverse_reverse]

theorem array_of_collection (h : collection catalog t xs r = .ok ys r') :
    ∃ items, Consumes (Tree.array items).events r r' := by
  obtain ⟨reversed, r₁, run, ⟨⟩⟩ := bind_eq_ok.mp h
  have loop := collecting_eq_ok run
  have deep := Nat.lt_succ_self r.unitsLeft
  have item : Takes r.settings r.unitsLeft (fieldWithin catalog (r.unitsLeft + 1) t)
      fun _ => True := by
    intro q v q' same few element
    exact ⟨(takes_fieldBy (takes_recordWithin deep deep) t q v q' same few element).1, trivial⟩
  obtain ⟨⟨tree, consumes⟩, -⟩ :=
    FillM.consumes_items item rfl (Nat.le_refl _) (fun _ _ => trivial) loop
  obtain ⟨items, rfl⟩ := FillM.array_of_items loop consumes
  exact ⟨items, consumes⟩

/-- A collection is read if and only if an array comes next whose items all have the type. Behind
the values given it then holds the values of the items, in their order. -/
theorem collection_eq_ok_iff : collection catalog t xs r = .ok ys r' ↔
    ∃ items vs, Consumes (Tree.array items).events r r' ∧
      List.Forall₂ (fun item v => item.decode catalog r.settings.lenient t = some v) items vs ∧
      ys = xs ++ vs := by
  constructor
  · intro h
    obtain ⟨items, consumes⟩ := array_of_collection h
    have outcome := success?_eq_some_iff.mpr h
    rw [success?_collection consumes] at outcome
    obtain ⟨vs, decoded, ⟨⟩⟩ := Option.map_eq_some_iff.mp outcome
    exact ⟨items, vs, consumes, Tree.decodeItems_eq_some.mp decoded, rfl⟩
  · rintro ⟨items, vs, consumes, decoded, rfl⟩
    rw [← success?_eq_some_iff, success?_collection consumes,
      Tree.decodeItems_eq_some.mpr decoded]
    rfl

end BindM

/-! Reading a schema on its own. -/

namespace Schema

variable {k : κ} {n : Nat}

theorem read_eq_field (k : κ) (r : Reader) :
    (catalog k).read catalog r = BindM.field catalog (.record k) r := by
  have deeper : (catalog k).read catalog r =
      BindM.recordWithin catalog (r.unitsLeft + 1) (r.unitsLeft + 2) k r := rfl
  rw [deeper]
  exact BindM.agree_recordWithin (Nat.le_succ _) (Nat.le_refl _) (Nat.le_refl _) (Nat.le_refl _)
    k r (Nat.lt_succ_self _)

theorem shrinks_read (k : κ) : BindM.Shrinks n ((catalog k).read catalog) := by
  intro r v r' _ h
  rw [read_eq_field] at h
  obtain ⟨⟨tree, consumes⟩, -⟩ := BindM.field_eq_ok h
  obtain ⟨e, es, head, -⟩ := tree.events_head
  rw [head] at consumes
  exact consumes.unitsLeft_lt

end Schema

/-! The loops of the support. -/

namespace Support

variable {k : κ} {d : Descriptor κ}

theorem of_described (described : (catalog k).descriptor = .ok d) :
    Support.of catalog (catalog k) =
      .ok ⟨d, (catalog k).read catalog, EmitM.value catalog⟩ := by
  rw [Support.of, described]
  rfl

/-- The loop over the reader of the support does what the loop over the record type does. -/
theorem readCollection_eq (write : Value κ → EmitM Unit) (xs : List (Value κ)) (r : Reader) :
    readCollection ⟨d, (catalog k).read catalog, write⟩ xs r =
      BindM.collection catalog (.record k) xs r := by
  have agree : BindM.Agree (r.unitsLeft + 1) ((catalog k).read catalog)
      (BindM.fieldWithin catalog (r.unitsLeft + 1) (.record k)) := by
    intro q few
    rw [Schema.read_eq_field, BindM.fieldWithin_eq_field few]
  exact agree.itemsAfter (Schema.shrinks_read k) (Nat.le_refl _) (Nat.le_refl _) xs r
    (Nat.lt_succ_self _)

end Support

namespace EmitM

theorem emits_collection {vs : List (Value κ)} {ts : List Tree}
    (values : List.Forall₂ (fun v t => Emits t.events (value catalog v)) vs ts) :
    Emits (Tree.array ts).events (collection catalog vs) := by
  have closed := emits_then (emits_forM values) (emits_call .endArray)
  have whole := emits_then (emits_call .beginArray) closed
  rw [Tree.events, Tree.itemEvents_eq]
  exact whole

end EmitM

namespace Support

variable {k : κ} {d : Descriptor κ}

/-- For a schema with a descriptor, the support and the record type of the schema read every
collection alike from every state, into the same result and the same state behind it, and write
every collection alike. If reading succeeds, an array has been consumed, and what it holds is what
it held before and the values of the items, one for each and in their order; if the next value is an
array of such items, reading succeeds. If writing succeeds, it has written an array with what is
written for each value as its items, in their order. -/
theorem collections_agree (described : (catalog k).descriptor = .ok d) :
    ∃ support, Support.of catalog (catalog k) = .ok support ∧
      (∀ xs r, support.readCollection xs r = BindM.collection catalog (.record k) xs r) ∧
      (∀ xs ys r r', support.readCollection xs r = .ok ys r' ↔
        ∃ items vs, Consumes (Tree.array items).events r r' ∧
          List.Forall₂ (fun item v =>
            item.decode catalog r.settings.lenient (.record k) = some v) items vs ∧
          ys = xs ++ vs) ∧
      ∀ vs, support.writeCollection vs = EmitM.collection catalog vs ∧
        ∃ ts, List.Forall₂ (fun v t => EmitM.Emits (Tree.events t) (EmitM.value catalog v)) vs ts ∧
          EmitM.Emits (Tree.array ts).events (support.writeCollection vs) := by
  refine ⟨_, of_described described, ?_, ?_, ?_⟩
  · exact readCollection_eq (EmitM.value catalog)
  · intro xs ys r r'
    rw [readCollection_eq]
    exact BindM.collection_eq_ok_iff
  · intro vs
    obtain ⟨ts, values⟩ := @EmitM.exists_trees _ _ catalog vs
    exact ⟨rfl, ts, values, EmitM.emits_collection values⟩

/-- Two entities, read behind another one. -/
theorem collections_agree_entity :
    ∃ (x : Value Sample.Key) (vs : List (Value Sample.Key)) (support : Support Sample.Key)
      (r r' : Reader), Support.of Sample.catalog (Sample.catalog .entity) = .ok support ∧
        r = Reader.new ⟨[.data 0x5B (Utf8.encode
          "\x7b\"id\":1\x7d, \x7b\"version\":null\x7d]".toList)], .endOfData⟩ ∧
        support.readCollection [x] r = .ok (x :: vs) r' ∧ vs.length = 2 := by
  let x : Value Sample.Key := .record .entity [.scalar (.integer 7), .absent]
  let r := Reader.new ⟨[.data 0x5B (Utf8.encode
    "\x7b\"id\":1\x7d, \x7b\"version\":null\x7d]".toList)], .endOfData⟩
  have length : (answer? (BindM.collection Sample.catalog (.record .entity) [x] r)).map
      List.length = some 3 := by
    decide +kernel
  obtain ⟨ys, answer, three⟩ := Option.map_eq_some_iff.mp length
  obtain ⟨r', run⟩ := answer?_eq_some answer
  obtain ⟨d, described⟩ : ∃ d, (Sample.catalog .entity).descriptor = .ok d := ⟨_, rfl⟩
  obtain ⟨support, of, agree, appends, -⟩ := collections_agree described
  rw [← agree] at run
  obtain ⟨items, vs, -, -, rfl⟩ := (appends _ _ _ _).mp run
  exact ⟨x, vs, support, r, r', of, rfl, run, Nat.succ.inj three⟩

end Support

end TypedJson
