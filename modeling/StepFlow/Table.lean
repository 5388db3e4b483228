/-! # Tables keyed by name

A **table** holds at most one value for a name, in the order in which the names were first given
one. Setting a name that is already present replaces its value in place; setting a new one appends
it.

Main statements: `get?_set` says what a look-up finds after a change, `listed_collect` what values
that are listed under their names one after the other come to, and `weigh_set` how a sum over the
values moves with a change, which is what the measures of the coordinator rest on. -/

namespace StepFlow

/-- The name of a step. -/
abbrev Name := String

/-- A **table** of values keyed by name. -/
structure Table (α : Type) where
  /-- The entries in the order in which their names were first set. -/
  entries : List (Name × α) := []
deriving Repr, BEq

namespace Table

variable {α : Type}

/-- The table without entries. -/
def empty : Table α := {}

instance : Inhabited (Table α) := ⟨empty⟩

/-! ## Entry lists -/

/-- The value of the first entry for a name. -/
def find? (n : Name) : List (Name × α) → Option α
  | [] => none
  | (k, a) :: rest => if k = n then some a else find? n rest

/-- The entries after a name was set to a value. -/
def put (n : Name) (a : α) : List (Name × α) → List (Name × α)
  | [] => [(n, a)]
  | (k, b) :: rest => if k = n then (k, a) :: rest else (k, b) :: put n a rest

@[simp] theorem find?_put (n m : Name) (a : α) (es : List (Name × α)) :
    find? m (put n a es) = if n = m then some a else find? m es := by
  induction es with
  | nil => by_cases h : n = m <;> simp [put, find?, h]
  | cons e rest ih =>
    obtain ⟨k, b⟩ := e
    by_cases hk : k = n
    · subst hk; by_cases h : k = m <;> simp [put, find?, h]
    · by_cases h : n = m
      · subst h; simp [put, find?, hk, ih]
      · simp [put, find?, hk, ih, h]

theorem find?_eq_none {n : Name} {es : List (Name × α)} :
    find? n es = none ↔ n ∉ es.map (·.1) := by
  induction es with
  | nil => simp [find?]
  | cons e rest ih =>
    obtain ⟨k, a⟩ := e
    rw [find?, List.map_cons, List.mem_cons]
    by_cases same : k = n
    · simp [same]
    · simp [same, Ne.symm same, ih]

theorem mem_of_find? {n : Name} {a : α} {es : List (Name × α)} (h : find? n es = some a) :
    (n, a) ∈ es := by
  induction es with
  | nil => cases h
  | cons e rest ih =>
    obtain ⟨k, b⟩ := e
    rw [find?] at h
    split at h
    · rename_i same
      rw [← same, Option.some.inj h]
      exact List.mem_cons_self
    · exact List.mem_cons_of_mem _ (ih h)

/-! ## The operations -/

/-- The value of a name, if it has one. -/
def get? (t : Table α) (n : Name) : Option α := find? n t.entries

/-- The table with a name set to a value. -/
def set (t : Table α) (n : Name) (a : α) : Table α := ⟨put n a t.entries⟩

/-- Whether a name has a value. -/
def contains (t : Table α) (n : Name) : Bool := (t.get? n).isSome

/-- The names in the order in which they were first set. -/
def names (t : Table α) : List Name := t.entries.map (·.1)

/-- The table without a name. -/
def erase (t : Table α) (n : Name) : Table α := ⟨t.entries.filter (·.1 ≠ n)⟩

/-- The table that holds the given values in order; of two for one name the later counts. -/
def ofList (es : List (Name × α)) : Table α :=
  es.foldl (fun (t : Table α) (e : Name × α) => t.set e.1 e.2) empty

@[simp] theorem get?_empty (n : Name) : (empty : Table α).get? n = none := rfl

@[simp] theorem get?_set (t : Table α) (n m : Name) (a : α) :
    (t.set n a).get? m = if n = m then some a else t.get? m := find?_put n m a t.entries

theorem get?_erase_of_ne (t : Table α) {n m : Name} (other : n ≠ m) :
    (t.erase n).get? m = t.get? m := by
  obtain ⟨es⟩ := t
  simp only [erase, get?, ne_eq, decide_not]
  induction es with
  | nil => rfl
  | cons e rest ih =>
    obtain ⟨k, a⟩ := e
    by_cases gone : k = n
    · subst gone
      simp [find?, other, ih]
    · by_cases here : k = m
      · subst here
        simp [find?, gone]
      · simp [find?, gone, here, ih]

/-! ## Lists of values -/

/-- The values that are listed under a name; none for a name without a list. -/
def listed (t : Table (List α)) (n : Name) : List α := (t.get? n).getD []

/-- The table with one more value at the end of the list of a name. -/
def push (t : Table (List α)) (n : Name) (a : α) : Table (List α) := t.set n (t.listed n ++ [a])

/-- The table that lists values under their names, in order. -/
def collect (es : List (Name × α)) : Table (List α) :=
  es.foldl (fun t e => t.push e.1 e.2) empty

theorem listed_push (t : Table (List α)) (n m : Name) (a : α) :
    (t.push n a).listed m = if n = m then t.listed m ++ [a] else t.listed m := by
  unfold push listed
  rw [get?_set]
  by_cases same : n = m
  · subst same
    simp
  · simp [same]

private theorem listed_foldl_push (es : List (Name × α)) (t : Table (List α)) (n : Name) :
    (es.foldl (fun t e => t.push e.1 e.2) t).listed n =
      t.listed n ++ (es.filter (·.1 = n)).map (·.2) := by
  induction es generalizing t with
  | nil => simp
  | cons e rest ih =>
    rw [List.foldl_cons, ih, listed_push]
    by_cases same : e.1 = n <;> simp [same]

/-- **What is listed under a name**: its values, in order. -/
theorem listed_collect (es : List (Name × α)) (n : Name) :
    (collect es).listed n = (es.filter (·.1 = n)).map (·.2) := by
  rw [collect, listed_foldl_push]
  rfl

/-! ## Sums over the values -/

/-- The sum of a weight over the values of entries. -/
def weighEntries (w : α → Nat) : List (Name × α) → Nat
  | [] => 0
  | e :: rest => w e.2 + weighEntries w rest

/-- The sum of a weight over the values of a table. -/
def weigh (w : α → Nat) (t : Table α) : Nat := weighEntries w t.entries

/-- The weight of a name's value, and nothing when it has none. -/
def weightAt (w : α → Nat) (t : Table α) (n : Name) : Nat := ((t.get? n).map w).getD 0

@[simp] theorem weigh_empty (w : α → Nat) : weigh w (empty : Table α) = 0 := rfl

private theorem weighEntries_put (w : α → Nat) (n : Name) (a : α) (es : List (Name × α)) :
    weighEntries w (put n a es) + ((find? n es).map w).getD 0 = weighEntries w es + w a := by
  induction es with
  | nil => simp [put, find?, weighEntries]
  | cons e rest ih =>
    obtain ⟨k, b⟩ := e
    by_cases hk : k = n
    · simp [put, find?, weighEntries, hk]; omega
    · simp [put, find?, weighEntries, hk]; omega

/-- Setting a name takes the weight of its old value away and adds that of the new one. -/
theorem weigh_set (w : α → Nat) (t : Table α) (n : Name) (a : α) :
    weigh w (t.set n a) + weightAt w t n = weigh w t + w a := weighEntries_put w n a t.entries

end Table

end StepFlow
