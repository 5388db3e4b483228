import StepFlow.Table
import Mathlib.Algebra.BigOperators.Group.Finset.Piecewise
import Mathlib.Algebra.Order.BigOperators.Group.Finset

/-! # Tables with unique names

What setting a name leaves of the names of a table and of the weights of its values, and what the
sum of a weight over the values says where no name has two: it is a sum over names, so tables can be
compared name by name, and a weight that tells whether a name is of a kind counts the names of that
kind.

Main statements: `weigh_eq_sum`, and `weigh_le_weigh` and `weigh_eq_countP_names` from it. -/

namespace StepFlow

namespace Table

variable {α β : Type} {t : Table α} {u : Table β} {n : Name} {a : α}

/-! ## Names -/

/-- Setting a name that is known keeps the names of a table. -/
theorem names_set {old : α} (known : t.get? n = some old) : (t.set n a).names = t.names := by
  have keep : ∀ es : List (Name × α), find? n es = some old →
      (put n a es).map (·.1) = es.map (·.1) := by
    intro es h
    induction es with
    | nil => cases h
    | cons e rest ih =>
      obtain ⟨k, b⟩ := e
      by_cases same : k = n
      · rw [put, if_pos same]
        rfl
      · rw [find?, if_neg same] at h
        rw [put, if_neg same, List.map_cons, List.map_cons, ih h]
  exact keep t.entries known

private theorem mem_map_put {n k : Name} {a : α} {es : List (Name × α)} :
    k ∈ (put n a es).map (·.1) ↔ k = n ∨ k ∈ es.map (·.1) := by
  induction es with
  | nil => simp [put]
  | cons e rest ih =>
    obtain ⟨j, b⟩ := e
    by_cases same : j = n
    · subst same
      simp [put]
    · rw [put, if_neg same, List.map_cons, List.mem_cons, ih, List.map_cons, List.mem_cons]
      exact or_left_comm

/-- Setting a value keeps the names of a table unique. -/
theorem nodup_names_set (h : t.names.Nodup) (n : Name) (a : α) : (t.set n a).names.Nodup := by
  unfold names set at *
  simp only
  generalize t.entries = es at h
  induction es with
  | nil => simp [put]
  | cons e rest ih =>
    obtain ⟨j, b⟩ := e
    obtain ⟨fresh, nodup⟩ := List.nodup_cons.1 h
    by_cases same : j = n
    · rw [put, if_pos same]
      exact h
    · rw [put, if_neg same, List.map_cons, List.nodup_cons, mem_map_put]
      exact ⟨fun h => h.elim same fresh, ih nodup⟩

/-- Where names are unique, the value of an entry is found under its name. -/
theorem get?_of_mem (nodup : t.names.Nodup) (mem : (n, a) ∈ t.entries) : t.get? n = some a := by
  have found : ∀ es : List (Name × α), (es.map (·.1)).Nodup → (n, a) ∈ es →
      find? n es = some a := by
    intro es nodup mem
    induction es with
    | nil => cases mem
    | cons e rest ih =>
      obtain ⟨k, b⟩ := e
      obtain ⟨fresh, nodup⟩ := List.nodup_cons.1 nodup
      rcases List.mem_cons.1 mem with here | later
      · cases here
        rw [find?, if_pos rfl]
      · have different : k ≠ n := by
          rintro rfl
          exact fresh (List.mem_map.2 ⟨_, later, rfl⟩)
        rw [find?, if_neg different]
        exact ih nodup later
  exact found t.entries nodup mem

/-- A name of a table has a value. -/
theorem get?_isSome_of_mem_names (mem : n ∈ t.names) : (t.get? n).isSome = true := by
  cases found : t.get? n with
  | some _ => rfl
  | none => exact absurd mem (find?_eq_none.1 found)

/-! ## Weights -/

theorem weightAt_set (w : α → Nat) (t : Table α) (n m : Name) (a : α) :
    (t.set n a).weightAt w m = if n = m then w a else t.weightAt w m := by
  unfold weightAt
  rw [get?_set]
  by_cases h : n = m <;> simp [h]

theorem weightAt_of_get? {w : α → Nat} (h : t.get? n = some a) : t.weightAt w n = w a := by
  rw [weightAt, h]
  rfl

/-- The weight that counts the values of a kind sums up to their number. -/
theorem weigh_eq_countP (p : α → Bool) (t : Table α) :
    t.weigh (fun a => if p a then 1 else 0) = t.entries.countP fun e => p e.2 := by
  unfold weigh
  induction t.entries with
  | nil => rfl
  | cons e rest ih => rw [weighEntries, ih, List.countP_cons, Nat.add_comm]

/-- A weight that is for every value at most another one sums up to at most as much. -/
theorem weigh_mono {w v : α → Nat} (h : ∀ a, w a ≤ v a) (t : Table α) : t.weigh w ≤ t.weigh v := by
  unfold weigh
  induction t.entries with
  | nil => exact Nat.le_refl 0
  | cons e rest ih => exact Nat.add_le_add (h e.2) ih

/-- **Where names are unique, a sum over the values is one over the names.** -/
theorem weigh_eq_sum (w : α → Nat) (nodup : t.names.Nodup) (names : Finset Name)
    (known : ∀ n ∈ t.names, n ∈ names) : t.weigh w = ∑ n ∈ names, t.weightAt w n := by
  unfold Table.names at nodup known
  unfold weigh weightAt get?
  generalize t.entries = es at nodup known
  induction es with
  | nil => simp [weighEntries, find?]
  | cons e rest ih =>
    obtain ⟨j, b⟩ := e
    obtain ⟨fresh, nodup⟩ := List.nodup_cons.1 nodup
    -- the first entry adds its weight at its own name, which is not one of the rest
    have split : ∀ n, ((find? n ((j, b) :: rest)).map w).getD 0 =
        (if j = n then w b else 0) + ((find? n rest).map w).getD 0 := by
      intro n
      by_cases same : j = n
      · subst same
        rw [find?, if_pos rfl, if_pos rfl, find?_eq_none.2 fresh]
        rfl
      · rw [find?, if_neg same, if_neg same, Nat.zero_add]
    simp only [split, Finset.sum_add_distrib, Finset.sum_ite_eq]
    rw [if_pos (known j List.mem_cons_self), weighEntries,
      ih nodup fun n hn => known n (List.mem_cons_of_mem _ hn)]

/-- A table weighs nothing if no value of it does. -/
theorem weigh_eq_zero {w : α → Nat} (nodup : t.names.Nodup)
    (h : ∀ n a, t.get? n = some a → w a = 0) : t.weigh w = 0 := by
  rw [weigh_eq_sum w nodup t.names.toFinset fun n hn => List.mem_toFinset.2 hn]
  refine Finset.sum_eq_zero fun n _ => ?_
  unfold weightAt
  cases found : t.get? n with
  | none => rfl
  | some a => exact h n a found

/-- A table that weighs at most as much at every name weighs at most as much. -/
theorem weigh_le_weigh {w : α → Nat} {v : β → Nat} (nodup : t.names.Nodup)
    (nodup' : u.names.Nodup) (h : ∀ n, t.weightAt w n ≤ u.weightAt v n) :
    t.weigh w ≤ u.weigh v := by
  rw [weigh_eq_sum w nodup (t.names ++ u.names).toFinset fun n hn => by simp [hn],
    weigh_eq_sum v nodup' (t.names ++ u.names).toFinset fun n hn => by simp [hn]]
  exact Finset.sum_le_sum fun n _ => h n

/-- A weight that tells whether a name is of a kind sums up to the number of these names. -/
theorem weigh_eq_countP_names {w : α → Nat} {p : Name → Bool} {names : List Name}
    (nodup : t.names.Nodup) (nodup' : names.Nodup) (known : ∀ n ∈ t.names, n ∈ names)
    (h : ∀ n ∈ names, t.weightAt w n = if p n then 1 else 0) : t.weigh w = names.countP p := by
  rw [weigh_eq_sum w nodup names.toFinset fun n hn => List.mem_toFinset.2 (known n hn),
    Finset.sum_congr rfl fun n hn => h n (List.mem_toFinset.1 hn), ← Finset.card_filter,
    ← List.toFinset_filter, List.toFinset_card_of_nodup (nodup'.filter p),
    List.countP_eq_length_filter]

end Table

end StepFlow
