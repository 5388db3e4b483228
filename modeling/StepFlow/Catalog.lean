import StepFlow.Table

/-! # Catalogs

A **catalog** holds values under distinct keys, sorted by key. Keys are compared by code point, so a
catalog has one order whatever order its entries were given in. That its keys ascend is part of the
type.

Main statements: `get?_insert` says what a look-up finds after an entry was put in, and
`mem_iff_get?` that the entries and the look-up say the same. -/

namespace StepFlow

/-- A **catalog** of values under sorted, distinct keys. -/
structure Catalog (α : Type) where
  /-- The entries by key. -/
  entries : List (String × α) := []
  /-- The keys ascend. -/
  ascending : entries.Pairwise fun a b => a.1 < b.1 := by exact List.Pairwise.nil

namespace Catalog

variable {α β : Type}

/-- The catalog without entries. -/
def empty : Catalog α := {}

instance : Inhabited (Catalog α) := ⟨empty⟩

instance [BEq α] : BEq (Catalog α) := ⟨fun a b => a.entries == b.entries⟩

/-! ## Entry lists -/

/-- The entries with one more put in its place; an entry under the same key is replaced. -/
def place (k : String) (a : α) : List (String × α) → List (String × α)
  | [] => [(k, a)]
  | (m, b) :: rest =>
    if k < m then (k, a) :: (m, b) :: rest
    else if m < k then (m, b) :: place k a rest
    else (k, a) :: rest

theorem mem_place {k : String} {a : α} {es : List (String × α)} {e : String × α}
    (h : e ∈ place k a es) : e = (k, a) ∨ e ∈ es := by
  induction es with
  | nil => simpa [place] using h
  | cons d rest ih =>
    obtain ⟨m, b⟩ := d
    unfold place at h
    split at h
    · simpa using h
    · split at h
      · rcases List.mem_cons.1 h with rfl | h
        · exact .inr (by simp)
        · rcases ih h with h | h
          · exact .inl h
          · exact .inr (by simp [h])
      · rcases List.mem_cons.1 h with h | h
        · exact .inl h
        · exact .inr (by simp [h])

private theorem eq_of_not_lt {k m : String} (h : ¬k < m) (h' : ¬m < k) : k = m :=
  String.le_antisymm (String.not_lt.1 h') (String.not_lt.1 h)

theorem pairwise_place {k : String} {a : α} {es : List (String × α)}
    (h : es.Pairwise fun a b => a.1 < b.1) : (place k a es).Pairwise fun a b => a.1 < b.1 := by
  induction es with
  | nil => simp [place]
  | cons d rest ih =>
    obtain ⟨m, b⟩ := d
    obtain ⟨first, others⟩ := List.pairwise_cons.1 h
    unfold place
    split
    · rename_i lt
      refine List.pairwise_cons.2 ⟨fun e he => ?_, h⟩
      rcases List.mem_cons.1 he with rfl | he
      · exact lt
      · exact String.lt_trans lt (first e he)
    · split
      · rename_i lt
        refine List.pairwise_cons.2 ⟨fun e he => ?_, ih others⟩
        rcases mem_place he with rfl | he
        · exact lt
        · exact first e he
      · rename_i nlt nlt'
        have same : k = m := eq_of_not_lt nlt nlt'
        subst same
        exact List.pairwise_cons.2 ⟨first, others⟩

@[simp] theorem find?_place (k m : String) (a : α) (es : List (String × α)) :
    Table.find? m (place k a es) = if k = m then some a else Table.find? m es := by
  induction es with
  | nil => by_cases h : k = m <;> simp [place, Table.find?, h]
  | cons d rest ih =>
    obtain ⟨j, b⟩ := d
    unfold place
    split
    · by_cases h : k = m <;> simp [Table.find?, h]
    · split
      · rename_i lt
        have distinct : j ≠ k := fun h => String.lt_irrefl k (h ▸ lt)
        by_cases h : k = m
        · subst h; simp [Table.find?, distinct, ih]
        · simp [Table.find?, ih, h]
      · rename_i nlt nlt'
        have same : k = j := eq_of_not_lt nlt nlt'
        subst same
        by_cases h : k = m <;> simp [Table.find?, h]

/-! ## The operations -/

/-- The value under a key, if there is one. -/
def get? (c : Catalog α) (k : String) : Option α := Table.find? k c.entries

/-- Whether there is a value under a key. -/
def contains (c : Catalog α) (k : String) : Bool := (c.get? k).isSome

/-- The catalog with a value put under a key. -/
def insert (c : Catalog α) (k : String) (a : α) : Catalog α where
  entries := place k a c.entries
  ascending := pairwise_place c.ascending

/-- The keys, ascending. -/
def keys (c : Catalog α) : List String := c.entries.map (·.1)

/-- Whether there are no entries. -/
def isEmpty (c : Catalog α) : Bool := c.entries.isEmpty

/-- The catalog of some entries; of two under one key the later counts. -/
def ofList (es : List (String × α)) : Catalog α :=
  es.foldl (fun (c : Catalog α) (e : String × α) => c.insert e.1 e.2) empty

@[simp] theorem get?_empty (k : String) : (empty : Catalog α).get? k = none := rfl

@[simp] theorem get?_insert (c : Catalog α) (k m : String) (a : α) :
    (c.insert k a).get? m = if k = m then some a else c.get? m := find?_place k m a c.entries

private theorem mem_iff_find? {k : String} {a : α} {es : List (String × α)}
    (h : es.Pairwise fun a b => a.1 < b.1) : (k, a) ∈ es ↔ Table.find? k es = some a := by
  induction es with
  | nil => simp [Table.find?]
  | cons d rest ih =>
    obtain ⟨m, b⟩ := d
    obtain ⟨first, others⟩ := List.pairwise_cons.1 h
    unfold Table.find?
    split
    · rename_i same
      subst same
      have absent : (m, a) ∉ rest := fun he => String.lt_irrefl m (first _ he)
      simp [absent, eq_comm]
    · rename_i distinct
      have distinct' : k ≠ m := fun h => distinct h.symm
      simp [distinct', ih others]

/-- An entry is in a catalog exactly when the look-up of its key finds its value. -/
theorem mem_iff_get? {c : Catalog α} {k : String} {a : α} :
    (k, a) ∈ c.entries ↔ c.get? k = some a := mem_iff_find? c.ascending

/-- A key is listed exactly when the look-up finds something under it. -/
theorem contains_iff_mem_keys {c : Catalog α} {k : String} :
    c.contains k = true ↔ k ∈ c.keys := by
  rw [contains, keys, ← Decidable.not_iff_not, Bool.not_eq_true, Option.isSome_eq_false_iff,
    Option.isNone_iff_eq_none]
  exact Table.find?_eq_none

theorem ascending_keys (c : Catalog α) : c.keys.Pairwise (· < ·) := List.pairwise_map.2 c.ascending

theorem nodup_keys (c : Catalog α) : c.keys.Nodup := by
  refine c.ascending_keys.imp fun lower => ?_
  rintro rfl
  exact String.lt_irrefl _ lower

end Catalog

end StepFlow
