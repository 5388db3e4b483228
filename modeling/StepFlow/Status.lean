import StepFlow.Flow.Basic

/-! # Statuses

Where a step stands in a run, and the table of the statuses of all steps of a flow. The table also
counts its failed entries, so whether anything failed is known without looking at each of them.

Main statements: `StatusTable.status_set` gives every status after a change, and `knows_set` says
that no change adds or drops a name. -/

namespace StepFlow

/-- The **status** of a step. -/
inductive Status where
  | waiting
  | inProgress
  | succeeded
  | failed
deriving Repr, DecidableEq, Inhabited

namespace Status

/-- A status that no step leaves. -/
def isTerminal : Status → Bool
  | .succeeded | .failed => true
  | .waiting | .inProgress => false

/-- The status of a step that ended with an exit code: zero is success. -/
def ofExitCode (code : Int) : Status := if code = 0 then .succeeded else .failed

/-- How a status is written. -/
def text : Status → String
  | .waiting => "WAITING"
  | .inProgress => "IN_PROGRESS"
  | .succeeded => "SUCCEEDED"
  | .failed => "FAILED"

/-- The status that is written so. -/
def ofText? (s : String) : Option Status :=
  [waiting, inProgress, succeeded, failed].find? (·.text = s)

@[simp] theorem isTerminal_ofExitCode (code : Int) : (ofExitCode code).isTerminal = true := by
  unfold ofExitCode; split <;> rfl

@[simp] theorem ofText?_text (s : Status) : ofText? s.text = some s := by
  cases s <;> decide

end Status

/-- The **status table** of a run. -/
structure StatusTable where
  /-- The status of every known step. -/
  entries : Table Status := {}
  /-- The number of failed entries. -/
  failures : Nat := 0
deriving Repr, Inhabited

namespace StatusTable

/-- The table in which every step of a flow waits. -/
def ofFlow (f : Flow) : StatusTable where
  entries := ⟨f.names.map (·, .waiting)⟩

/-- Whether a name is in the table. -/
def knows (t : StatusTable) (n : Name) : Bool := t.entries.contains n

/-- The status of a name; a name that is not in the table waits. -/
def status (t : StatusTable) (n : Name) : Status := (t.entries.get? n).getD .waiting

/-- The number of failures after one entry changed from a status to another. -/
def recount (failures : Nat) (old new : Status) : Nat :=
  if old ≠ .failed ∧ new = .failed then failures + 1
  else if old = .failed ∧ new ≠ .failed then failures - 1
  else failures

/-- The table with the status of a known name replaced; an unknown name changes nothing. -/
def set (t : StatusTable) (n : Name) (s : Status) : StatusTable :=
  match t.entries.get? n with
  | none => t
  | some old => { entries := t.entries.set n s, failures := recount t.failures old s }

/-- The status that setting a name would replace; none for an unknown name. -/
def previous? (t : StatusTable) (n : Name) : Option Status := t.entries.get? n

/-- Whether a step failed. -/
def hasFailures (t : StatusTable) : Bool := t.failures > 0

/-- Whether every step has ended. -/
def allTerminal (t : StatusTable) : Bool := t.entries.entries.all (·.2.isTerminal)

/-- All names with their statuses. -/
def snapshot (t : StatusTable) : List (Name × Status) := t.entries.entries

/-- The table in which a known step that waits was moved to in progress; none for another step. -/
def claim? (t : StatusTable) (n : Name) : Option StatusTable :=
  if t.entries.get? n = some .waiting then some (t.set n .inProgress) else none

/-! ## Reading lemmas -/

theorem get?_eq_waiting_iff {t : StatusTable} {n : Name} :
    t.entries.get? n = some .waiting ↔ t.knows n = true ∧ t.status n = .waiting := by
  unfold knows status Table.contains
  cases t.entries.get? n <;> simp

theorem get?_set_of_ne {t : StatusTable} {n m : Name} (other : n ≠ m) (s : Status) :
    (t.set n s).entries.get? m = t.entries.get? m := by
  unfold set
  split
  · rfl
  · rw [Table.get?_set, if_neg other]

theorem status_set (t : StatusTable) (n m : Name) (s : Status) :
    (t.set n s).status m = if n = m ∧ t.knows n then s else t.status m := by
  unfold set knows Table.contains
  cases h : t.entries.get? n with
  | none => simp
  | some old => by_cases hm : n = m <;> simp [status, hm]

@[simp] theorem knows_set (t : StatusTable) (n m : Name) (s : Status) :
    (t.set n s).knows m = t.knows m := by
  unfold set knows Table.contains
  cases h : t.entries.get? n with
  | none => rfl
  | some old =>
    by_cases hm : n = m
    · subst hm; simp [h]
    · simp [hm]

end StatusTable

end StepFlow
