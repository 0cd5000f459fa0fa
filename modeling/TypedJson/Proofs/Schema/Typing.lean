import TypedJson.Proofs.Grammar.Tree
import TypedJson.Proofs.Schema.Dispatch
import TypedJson.Reader.Location

set_option autoImplicit false
set_option relaxedAutoImplicit false

namespace TypedJson

/-- Whether a scalar is neither infinite nor NaN. -/
def Scalar.isFinite : Scalar → Bool
  | .single x => x.isFinite
  | .double x => x.isFinite
  | _ => true

def Scalar.tree : Scalar → Tree
  | .integer n => .number (intText n)
  | .single x => .number (String.ofList (x.convert Number.Format.double).numeral)
  | .double x => .number (String.ofList x.numeral)
  | .boolean b => .boolean b
  | .text s => .string s

namespace Value

variable {κ : Type}

/-- Whether a value is written as null. -/
def isNull : Value κ → Bool
  | .absent => true
  | .present v => v.isNull
  | _ => false

mutual

/-- A value without what its text cannot tell: an option over a null is an empty one. -/
def collapse : Value κ → Value κ
  | .scalar s => .scalar s
  | .absent => .absent
  | .present v => if v.isNull then .absent else .present v.collapse
  | .list vs => .list (collapseAll vs)
  | .record k fields => .record k (collapseAll fields)

def collapseAll : List (Value κ) → List (Value κ)
  | [] => []
  | v :: vs => v.collapse :: collapseAll vs

end

mutual

/-- The scalars within a value. -/
def scalars : Value κ → List Scalar
  | .scalar s => [s]
  | .absent => []
  | .present v => v.scalars
  | .list vs => scalarsOf vs
  | .record _ fields => scalarsOf fields

def scalarsOf : List (Value κ) → List Scalar
  | [] => []
  | v :: vs => v.scalars ++ scalarsOf vs

end

variable (catalog : Catalog κ)

mutual

/-- The JSON value of a value. A record is an object with all its fields in order. -/
def tree : Value κ → Tree
  | .scalar s => s.tree
  | .absent => .null
  | .present v => v.tree
  | .list vs => .array (trees vs)
  | .record k fields => .object (((catalog k).fields.map Field.jsonName).zip (trees fields))

def trees : List (Value κ) → List Tree
  | [] => []
  | v :: vs => v.tree :: trees vs

end

theorem collapseAll_eq (vs : List (Value κ)) : collapseAll vs = vs.map collapse := by
  induction vs with
  | nil => rfl
  | cons v vs ih => rw [collapseAll, ih, List.map_cons]

theorem trees_eq (vs : List (Value κ)) : trees catalog vs = vs.map (tree catalog) := by
  induction vs with
  | nil => rfl
  | cons v vs ih => rw [trees, ih, List.map_cons]

theorem mem_scalarsOf {vs : List (Value κ)} {v : Value κ} {s : Scalar} (hv : v ∈ vs)
    (hs : s ∈ v.scalars) : s ∈ scalarsOf vs := by
  induction vs with
  | nil => cases hv
  | cons first rest ih =>
      rw [scalarsOf, List.mem_append]
      rcases List.mem_cons.mp hv with rfl | hv
      · exact .inl hs
      · exact .inr (ih hv)

theorem exists_of_mem_scalarsOf {vs : List (Value κ)} {s : Scalar} (h : s ∈ scalarsOf vs) :
    ∃ v ∈ vs, s ∈ v.scalars := by
  induction vs with
  | nil => cases h
  | cons first rest ih =>
      rw [scalarsOf, List.mem_append] at h
      rcases h with h | h
      · exact ⟨first, List.mem_cons_self, h⟩
      · obtain ⟨v, hv, hs⟩ := ih h
        exact ⟨v, List.mem_cons_of_mem _ hv, hs⟩

theorem tree_eq_null : (v : Value κ) → (v.tree catalog = .null ↔ v.isNull = true)
  | .scalar s => by
      rw [tree]
      cases s <;> simp [Scalar.tree, isNull]
  | .absent => by simp [tree, isNull]
  | .present v => by
      rw [tree, isNull]
      exact tree_eq_null v
  | .list vs => by simp [tree, isNull]
  | .record k fields => by simp [tree, isNull]

end Value

/-- The values of a field type. The records within are of declared schemas, in the catalog under
their own keys, and have all fields of their type. -/
inductive HasType {κ : Type} (catalog : Catalog κ) : FieldType κ → Value κ → Prop
  | scalar {t : ScalarType} {s : Scalar} : s.hasType t = true →
      HasType catalog (.scalar t) (.scalar s)
  | absent {t : FieldType κ} : HasType catalog (.optional t) .absent
  | present {t : FieldType κ} {v : Value κ} : HasType catalog t v →
      HasType catalog (.optional t) (.present v)
  | boxed {t : FieldType κ} {v : Value κ} : HasType catalog t v → HasType catalog (.boxed t) v
  | list {t : FieldType κ} {vs : List (Value κ)} : (∀ v ∈ vs, HasType catalog t v) →
      HasType catalog (.list t) (.list vs)
  | record {k : κ} {fields : List (Value κ)} : (catalog k).IsDeclared → (catalog k).key = k →
      fields.length = (catalog k).fields.length →
      (∀ (i : Nat) (f : Field κ) (v : Value κ), (catalog k).fields[i]? = some f →
        fields[i]? = some v → HasType catalog f.type v) →
      HasType catalog (.record k) (.record k fields)

namespace FieldType

variable {κ : Type} {catalog : Catalog κ} {t : FieldType κ}

def key? : FieldType κ → Option κ
  | .scalar _ => none
  | .optional t | .boxed t | .list t => t.key?
  | .record k => some k

/-- The record types that values of a type can contain. -/
inductive Uses (catalog : Catalog κ) (t : FieldType κ) : κ → Prop
  | own {k : κ} : t.key? = some k → Uses catalog t k
  | field {k l : κ} {f : Field κ} : Uses catalog t k → f ∈ (catalog k).fields →
      f.type.key? = some l → Uses catalog t l

theorem Uses.congr {t' : FieldType κ} {k : κ} (h : t.Uses catalog k) (same : t.key? = t'.key?) :
    t'.Uses catalog k := by
  induction h with
  | own key => exact .own (same ▸ key)
  | field _ hf key ih => exact .field ih hf key

theorem Uses.of_field {k l : κ} {f : Field κ} (h : f.type.Uses catalog l)
    (hf : f ∈ (catalog k).fields) : (record k).Uses catalog l := by
  induction h with
  | own key => exact .field (.own rfl) hf key
  | field _ hg key ih => exact .field ih hg key

theorem Uses.mem_of_closed {k : κ} (h : t.Uses catalog k) (ks : List κ)
    (own : ∀ l ∈ t.key?, l ∈ ks)
    (closed : ∀ k ∈ ks, ∀ f ∈ (catalog k).fields, ∀ l ∈ f.type.key?, l ∈ ks) : k ∈ ks := by
  induction h with
  | own key => exact own _ key
  | field _ hf key ih => exact closed _ ih _ hf _ key

end FieldType

end TypedJson
