import StepFlow.Proofs.Course.FreshEvents
import StepFlow.Proofs.Course.Setup

/-! # The accounts of a run

A run keeps three counts: the table of statuses counts its failed entries, a group the children that
have not finished, and the run the steps that have not. The first is changed together with the
entries. The others follow behind the ends of steps: an end is counted after all else that follows
from it, so while cascades are nested several ends may be waiting to be counted, and the latest of
them is counted first.

Main statements: `StatusTable.Exact` and `Setup.exact` for the failures, `Ledger` and `Setup.ledger`
for the ends that are still to be counted. -/

namespace StepFlow

open Call Coordinator

/-! ## Failed entries -/

namespace StatusTable

/-- A table of statuses is **exact** for a flow when its entries are those of the steps of the flow
and it has counted the failed ones. -/
structure Exact (f : Flow) (t : StatusTable) : Prop where
  /-- Exactly the steps of the flow have entries, one each. -/
  names : t.entries.names = f.names
  /-- The failed entries were counted. -/
  failures : t.failures = t.snapshot.countP fun e => e.2 = .failed

variable {f : Flow} {t : StatusTable} (e : t.Exact f)

include e

/-- The entries are the statuses of the steps one by one. -/
theorem Exact.snapshot_eq (nodup : f.names.Nodup) :
    t.snapshot = f.names.map fun n => (n, t.status n) := by
  have distinct : t.entries.names.Nodup := by rw [e.names]; exact nodup
  rw [snapshot, ← e.names, Table.names, List.map_map]
  refine (List.map_id _).symm.trans (List.map_congr_left fun e mem => ?_)
  rw [Function.comp_apply, status, Table.get?_of_mem distinct (n := e.1) (a := e.2) mem]
  rfl

/-- The failures are the steps that have failed. -/
theorem Exact.failures_eq (nodup : f.names.Nodup) :
    t.failures = f.names.countP fun n => t.status n = .failed := by
  rw [e.failures, e.snapshot_eq nodup, List.countP_map]
  rfl

/-- A failed entry was counted. -/
theorem Exact.failures_pos {n : Name} (failed : t.previous? n = some .failed) :
    0 < t.failures := by
  rw [e.failures, List.countP_pos_iff]
  exact ⟨_, Table.mem_of_find? failed, by simp⟩

/-- Setting a status keeps a table exact. -/
theorem Exact.set (n : Name) (s : Status) : (t.set n s).Exact f := by
  unfold StatusTable.set
  cases found : t.entries.get? n with
  | none => exact e
  | some old =>
    refine ⟨(Table.names_set found).trans e.names, ?_⟩
    -- the old entry is taken from the count and the new one is added to it
    have count : ∀ t : Table Status, t.weigh (fun s => if decide (s = .failed) then 1 else 0) =
        t.entries.countP fun e => e.2 = .failed :=
      Table.weigh_eq_countP fun s : Status => s = .failed
    have moved := Table.weigh_set (fun s => if decide (s = .failed) then 1 else 0) t.entries n s
    rw [Table.weightAt_of_get? found, count, count] at moved
    have before := e.failures
    unfold snapshot at before ⊢
    unfold recount
    by_cases was : old = .failed <;> by_cases is : s = .failed <;> simp [was, is] at moved ⊢ <;>
      omega

/-- Claiming some steps keeps a table exact. -/
theorem Exact.claimAll (steps : List Step) : (claimAll steps t).2.Exact f := by
  induction steps generalizing t with
  | nil => exact e
  | cons s rest ih =>
    rw [Coordinator.claimAll]
    cases claim : t.claim? s.name with
    | none => exact ih e
    | some u =>
      obtain ⟨-, -, rfl⟩ := waiting_of_claim? claim
      exact ih (e.set _ _)

omit e in
theorem exact_ofFlow (f : Flow) : (ofFlow f).Exact f where
  names := by
    rw [ofFlow, Table.names, List.map_map]
    exact List.map_id _
  failures := by
    show 0 = List.countP _ _
    rw [eq_comm, snapshot, List.countP_eq_zero]
    intro e mem
    obtain ⟨n, -, rfl⟩ := List.mem_map.1 mem
    simp

end StatusTable

/-- **Every change keeps the table of statuses exact.** -/
theorem Orderly.exact_next {f : Flow} {m : Moment} (o : Orderly f m)
    (e : m.run.statuses.Exact f) (x : Choice) : (m.next x).run.statuses.Exact f := by
  cases o.change_next x with
  | idle _ _ _ _ agrees => rw [agrees.statuses]; exact e
  | handOver _ _ _ _ agrees => rw [agrees.statuses]; exact e
  | leaf _ _ _ _ _ _ _ statuses => rw [statuses]; exact e.set _ _
  | group _ _ _ _ _ _ _ statuses => rw [statuses]; exact e.set _ _
  | @skip s _ _ agenda _ found isGroup _ directive =>
    -- what is below the group is claimed first, and then the group
    have run : (m.next x).run = (m.run.commitSkip s).2 := by
      simp only [Moment.next, agenda, perform,
        Coordinator.evaluate_of_skip found (o.knows_of_step? found) directive]
    rw [run, commitSkip, if_pos isGroup]
    exact (e.claimAll _).set _ _
  | mark _ _ _ statuses => rw [statuses]; exact e
  | finish _ _ _ _ statuses => rw [statuses]; exact e.set _ _
  | count _ _ _ statuses => rw [statuses]; exact e
  | down _ _ _ statuses => rw [statuses]; exact e

/-- **At every moment of every run the table of statuses is exact.** -/
theorem Setup.exact (s : Setup) (xs : List Choice) :
    (s.after xs).run.statuses.Exact s.flow := by
  induction xs with
  | nil =>
    rw [after, Moment.after_nil, s.start_eq]
    exact StatusTable.exact_ofFlow s.flow
  | cons x earlier ih => exact (s.sound earlier).orderly.exact_next ih x

/-! ## Ends that are still to be counted -/

/-- Who **counts** the end of a step: its group, or the run. -/
inductive Counter where
  | group
  | run
deriving DecidableEq

namespace Counter

/-- Whether a call is one by which an end is counted. -/
def counts : Counter → Call → Bool
  | .group, .childFinished _ _ | .run, .countDown => true
  | _, _ => false

/-- The calls that count an end: one of the run, and one of the group if there is one. -/
def countsOf (k : Counter) (f : Flow) (n : Name) (code : Int) : List Call :=
  match k with
  | .group => (f.groupOf? n).toList.map (.childFinished · code)
  | .run => [.countDown]

variable {k : Counter} {call : Call} {m : Moment}

/-- What follows from an end has it counted. -/
theorem filter_propagation (k : Counter) (c : Coordinator) (n : Name) (code : Int) :
    (c.propagation n code).filter k.counts = k.countsOf c.flow n code := by
  have evaluates : ∀ l : List Dependency,
      (l.map fun d => Call.evaluate d.src).filter k.counts = [] := by
    intro l
    rw [List.filter_eq_nil_iff]
    intro call mem
    obtain ⟨d, -, rfl⟩ := List.mem_map.1 mem
    cases k <;> exact Bool.false_ne_true
  unfold propagation
  rw [List.cons_append, List.cons_append, List.filter_cons, List.filter_append, List.filter_append,
    evaluates, ← Flow.groupOf?]
  cases k <;> cases hg : c.flow.groupOf? n <;> simp [counts, countsOf, hg]

/-- A group that is closed and does not end makes no calls. -/
private theorem close_eq_nil {c : Coordinator} {g : Name} (h : c.closing? g = none) :
    (c.close g).1 = [] := by
  unfold closing? at h
  unfold Coordinator.close
  cases hp : c.progress.get? g with
  | none => rfl
  | some p =>
    rw [hp, Option.bind_some] at h
    split at h
    · cases h
    · rename_i waits
      simp only [if_neg waits]

/-- A call that may end a step makes calls only if it ends it. -/
private theorem ended?_of_mayEnd {head : Call} {n : Name} {code : Int} {rest : List Call}
    (agenda : m.agenda = head :: rest) (ends : head.MayEnd n code)
    (mem : call ∈ (m.run.perform head).1) : m.ended? ≠ none := by
  obtain ⟨agenda_, c⟩ := m
  subst agenda
  rcases ends with rfl | rfl
  · exact fun none => by cases none
  · have told : Tells (c.perform (.close n)).1 _ := c.tells_close n
    rw [Moment.ended?_of_tells told]
    cases closing : c.closing? n with
    | some last => exact fun none => by cases none
    | none =>
      have mem : call ∈ (c.close n).1 := mem
      rw [close_eq_nil closing] at mem
      cases mem

/-- Light calls count nothing. -/
theorem counts_of_isLight (light : call.isLight = true) : k.counts call = false := by
  cases k <;> cases call <;> first | rfl | cases light

/-- A count is put on the agenda only when an end is propagated. -/
theorem not_counts_of_fresh {x : Choice} (quiet : m.ended? = none) (mem : call ∈ m.fresh x) :
    k.counts call = false := by
  unfold Moment.fresh at mem
  cases agenda : m.agenda with
  | nil =>
    rw [agenda] at mem
    rcases of_mem_choose mem with requested | ⟨n, turn⟩ | ⟨n, burst, choose_⟩
    · exact counts_of_isLight (isLight_of_isRequested requested)
    · generalize (m.run.choose x).agenda = calls at turn mem
      generalize (m.run.choose x).run = d at turn
      have uncounted : ∀ call ∈ calls, k.counts call = false := by
        cases turn <;> cases k <;> simp [counts]
      exact uncounted call mem
    · rw [choose_] at mem
      exact counts_of_isLight (isLight_burstCalls n burst call mem)
  | cons head rest =>
    rw [agenda] at mem
    have makes := makes_of_mem_perform mem
    cases makes with
    | parent ends => exact absurd quiet (ended?_of_mayEnd agenda ends mem)
    | counted ends => exact absurd quiet (ended?_of_mayEnd agenda ends mem)
    | reaction _ _ requested => exact counts_of_isLight (isLight_of_isRequested requested)
    | started | root | opened | skipped | inside | spared | inner | outer | told | dependent | child
    | abandoned | again | delivery => cases k <;> rfl

end Counter

/-- The steps whose end was propagated and is **still to be counted**, the latest first. What
follows from an end is carried out before what stood on the agenda already, so it is the latest end
that is counted next. -/
def History.uncounted (k : Counter) : History → List Name
  | [] => []
  | m :: earlier =>
    match m.ended? with
    | some (n, code) => (k.countsOf m.run.flow n code).map (fun _ => n) ++ uncounted k earlier
    | none =>
      if m.agenda.head?.any k.counts then (uncounted k earlier).tail else uncounted k earlier

/-- The end of a step **was counted** if it was propagated and is not still to be counted. -/
def History.CountedBy (h : History) (k : Counter) (n : Name) : Prop :=
  n ∈ h.ends.map (·.1) ∧ n ∉ h.uncounted k

instance (h : History) (k : Counter) (n : Name) : Decidable (h.CountedBy k n) :=
  inferInstanceAs (Decidable (_ ∧ _))

/-- The **ledger** of a counter is in order when the counts on the agenda are those of the steps
that are still to be counted. -/
structure Ledger (k : Counter) (f : Flow) (m : Moment) (h : History) : Prop where
  /-- The counts on the agenda are those of the steps that are still to be counted, in order. -/
  due : List.Forall₂ (fun call n => ∃ code, (n, code) ∈ h.ends ∧ call ∈ k.countsOf f n code)
    (m.agenda.filter k.counts) (h.uncounted k)
  /-- No end is still to be counted twice. -/
  nodup : (h.uncounted k).Nodup
  /-- Only what has ended is still to be counted. -/
  ended : ∀ n ∈ h.uncounted k, n ∈ h.ends.map (·.1)

namespace Ledger

variable {k : Counter} {f : Flow} {m : Moment} {h : History}

/-- An end that was propagated before was so after a move. -/
private theorem mem_ends_cons {e : Name × Int} (mem : e ∈ h.ends) : e ∈ History.ends (m :: h) := by
  rw [History.ends_cons]
  exact List.mem_append_right _ mem

/-- **Every move keeps the ledgers in order.** -/
theorem next (o : Orderly f m) (r : Recorded f m h) (l : Ledger k f m h) (x : Choice) :
    Ledger k f (m.next x) (m :: h) := by
  have later : List.Forall₂
      (fun call n => ∃ code, (n, code) ∈ History.ends (m :: h) ∧ call ∈ k.countsOf f n code)
      (m.agenda.filter k.counts) (h.uncounted k) :=
    l.due.imp fun _ _ ⟨code, mem, here⟩ => ⟨code, mem_ends_cons mem, here⟩
  have known : ∀ n ∈ h.uncounted k, n ∈ (History.ends (m :: h)).map (·.1) := fun n hn => by
    obtain ⟨e, mem, same⟩ := List.mem_map.1 (l.ended n hn)
    exact List.mem_map.2 ⟨e, mem_ends_cons mem, same⟩
  cases ended : m.ended? with
  | some e =>
    obtain ⟨n, code⟩ := e
    obtain ⟨call, rest, agenda, cause, agenda', -⟩ := (o.change_next x).finish_of_ended? ended
    have here : (n, code) ∈ History.ends (m :: h) := by
      rw [History.ends_cons, ended]
      exact List.mem_cons_self
    have now : History.uncounted k (m :: h) =
        (k.countsOf f n code).map (fun _ => n) ++ h.uncounted k := by
      rw [History.uncounted, ended, o.flow]
    have filter : (m.next x).agenda.filter k.counts =
        k.countsOf f n code ++ m.agenda.filter k.counts := by
      rw [agenda', List.filter_append, k.filter_propagation, o.flow, agenda]
      rcases cause with rfl | ⟨rfl, -⟩ <;> cases k <;> rfl
    -- what ends now was in progress, so it was not still to be counted
    have fresh : n ∉ h.uncounted k := fun old => by
      obtain ⟨⟨_, last⟩, mem, rfl⟩ := List.mem_map.1 (l.ended n old)
      have active := (o.of_ended? (o.change_next x) ended).1
      rw [r.status_of_end _ last mem] at active
      exact Status.ofExitCode_ne_inProgress last active
    refine ⟨?_, ?_, ?_⟩
    · rw [filter, now]
      refine List.rel_append ?_ later
      rw [List.forall₂_map_right_iff, List.forall₂_same]
      exact fun call mem => ⟨code, here, mem⟩
    · rw [now]
      have one : (k.countsOf f n code).map (fun _ => n) = [] ∨
          (k.countsOf f n code).map (fun _ => n) = [n] := by
        cases k with
        | run => exact .inr rfl
        | group => cases hg : f.groupOf? n <;> simp [Counter.countsOf, hg]
      rcases one with none | single
      · rw [none]
        exact l.nodup
      · rw [single]
        exact List.nodup_cons.2 ⟨fresh, l.nodup⟩
    · rw [now]
      intro j hj
      rcases List.mem_append.1 hj with new | old
      · obtain ⟨_, -, rfl⟩ := List.mem_map.1 new
        exact List.mem_map.2 ⟨_, here, rfl⟩
      · exact known j old
  | none =>
    have filter : (m.next x).agenda.filter k.counts = m.agenda.tail.filter k.counts := by
      rw [m.agenda_next, List.filter_append, List.filter_eq_nil_iff.2, List.nil_append]
      intro call mem counts
      rw [Counter.not_counts_of_fresh ended mem] at counts
      cases counts
    have now : History.uncounted k (m :: h) =
        if m.agenda.head?.any k.counts then (h.uncounted k).tail else h.uncounted k := by
      rw [History.uncounted, ended]
    cases agenda : m.agenda with
    | nil =>
      rw [agenda] at now filter later
      exact ⟨by rw [filter, now]; exact later, by rw [now]; exact l.nodup, by rw [now]; exact known⟩
    | cons head rest =>
      rw [agenda] at now filter later
      cases counts : k.counts head with
      | false =>
        have now : History.uncounted k (m :: h) = h.uncounted k := by
          rw [now, if_neg (by simp [counts])]
        rw [List.filter_cons, if_neg (by simp [counts])] at later
        exact ⟨by rw [filter, now]; exact later, by rw [now]; exact l.nodup,
          by rw [now]; exact known⟩
      | true =>
        -- the end that is counted now is the latest
        have now : History.uncounted k (m :: h) = (h.uncounted k).tail := by
          rw [now, if_pos (by simp [counts])]
        rw [List.filter_cons, if_pos counts] at later
        refine ⟨?_, ?_, ?_⟩
        · rw [filter, now]
          obtain ⟨first, others, -, due, split⟩ := List.forall₂_cons_left_iff.1 later
          rw [split]
          exact due
        · rw [now]
          exact l.nodup.tail
        · rw [now]
          exact fun j hj => known j (List.mem_of_mem_tail hj)

theorem initial (k : Counter) (f : Flow) (workers : Nat) (registry : Registry) :
    Ledger k f (Moment.initial f workers registry) [] where
  due := .nil
  nodup := .nil
  ended _ h := by cases h

end Ledger

/-! ## What the ledgers say of the counts -/

/-- Two lists without repetitions have as many elements of the other one each. -/
private theorem countP_mem_comm {l k : List Name} (nodup : l.Nodup) (nodup' : k.Nodup) :
    l.countP (· ∈ k) = k.countP (· ∈ l) := by
  rw [List.countP_eq_length_filter, List.countP_eq_length_filter]
  apply List.Perm.length_eq
  rw [List.perm_ext_iff_of_nodup (nodup.filter _) (nodup'.filter _)]
  intro n
  simp only [List.mem_filter, decide_eq_true_eq]
  exact and_comm

namespace Ledger

variable {k : Counter} {f : Flow} {m : Moment} {h : History} (l : Ledger k f m h)

include l

/-- The weight of the counts is that of the steps that are still to be counted. -/
private theorem weight_eq {w : Call → Nat} {p : Name → Bool}
    (others : ∀ call, k.counts call = false → w call = 0)
    (counts : ∀ n code, ∀ call ∈ k.countsOf f n code, w call = if p n then 1 else 0) :
    m.weight w = (h.uncounted k).countP p := by
  have only : ∀ calls : List Call, total w calls = total w (calls.filter k.counts) := by
    intro calls
    induction calls with
    | nil => rfl
    | cons call calls ih =>
      rw [total_cons, List.filter_cons, ih]
      cases hc : k.counts call with
      | true => rw [if_pos rfl, total_cons]
      | false => rw [if_neg Bool.false_ne_true, others call hc, Nat.zero_add]
  rw [Moment.weight, only]
  have due := l.due
  generalize m.agenda.filter k.counts = calls, h.uncounted k = names at due ⊢
  induction due with
  | nil => rfl
  | cons here _ ih =>
    obtain ⟨code, -, mem⟩ := here
    rw [total_cons, List.countP_cons, ih, counts _ code _ mem, Nat.add_comm]

/-- Of some steps, those that have not been counted are the unfinished ones and those that are still
to be counted. -/
private theorem countP_not_countedBy (r : Recorded f m h) (names : List Name) :
    (names.countP fun n => ¬ h.CountedBy k n) =
      m.unfinished names + names.countP (· ∈ h.uncounted k) := by
  have ended : ∀ n, n ∈ h.ends.map (·.1) ↔ (m.status n).isTerminal = true := by
    intro n
    constructor
    · intro listed
      obtain ⟨⟨_, code⟩, mem, rfl⟩ := List.mem_map.1 listed
      rw [r.status_of_end _ code mem]
      exact Status.isTerminal_ofExitCode code
    · intro settled
      obtain ⟨code, mem, -⟩ := r.exists_end settled
      exact List.mem_map.2 ⟨_, mem, rfl⟩
  unfold Moment.unfinished
  induction names with
  | nil => rfl
  | cons n names ih =>
    rw [List.countP_cons, List.countP_cons, List.countP_cons, ih]
    have one : (if decide (¬ h.CountedBy k n) = true then 1 else 0) =
        (if (!(m.status n).isTerminal) = true then 1 else 0) +
          if decide (n ∈ h.uncounted k) = true then 1 else 0 := by
      have counted : h.CountedBy k n ↔ (m.status n).isTerminal = true ∧ n ∉ h.uncounted k :=
        and_congr_left' (ended n)
      by_cases owed : n ∈ h.uncounted k
      · -- what is still to be counted has ended
        have settled := (ended n).1 (l.ended n owed)
        simp [counted, owed, settled]
      · cases settled : (m.status n).isTerminal <;> simp [counted, owed, settled]
    omega

end Ledger

section Counts

variable {f : Flow} {m : Moment} {h : History} (con : f.Consistent) (o : Orderly f m)
  (r : Recorded f m h) (c : Counted f m)

include con r c

/-- **What is pending of a group** are the children that it has not counted. -/
theorem Ledger.pending_eq (l : Ledger .group f m h) {g : Name} {p : Progress}
    (hp : m.run.progress.get? g = some p) :
    p.pending = (f.childrenOf g).countP fun n => ¬ h.CountedBy .group n := by
  have counts : m.weight (Call.counts g) =
      (h.uncounted .group).countP fun n => f.groupOf? n = some g := by
    refine l.weight_eq (fun call other => ?_) fun n code call mem => ?_
    · cases call <;> first | rfl | cases other
    · obtain ⟨k, hk, rfl⟩ := List.mem_map.1 mem
      rw [Option.mem_toList] at hk
      simp [Call.counts, hk]
  rw [c.pending g p hp, l.countP_not_countedBy r, counts,
    countP_mem_comm (con.nodup_childrenOf g) l.nodup]
  simp only [con.mem_childrenOf]

include o in
/-- **What remains of the run** are the steps that it has not counted. -/
theorem Ledger.remaining_eq (l : Ledger .run f m h) :
    m.run.remaining = f.names.countP fun n => ¬ h.CountedBy .run n := by
  have countsDown : m.weight countsDown = (h.uncounted .run).countP fun n => n ∈ f.names := by
    have all := l.weight_eq (p := fun _ => true) (w := countsDown)
      (fun call other => by cases call <;> first | rfl | cases other)
      fun n code call mem => by rw [List.mem_singleton.1 mem]; rfl
    rw [all]
    refine List.countP_congr fun n hn => ?_
    -- what has ended is a step of the flow
    obtain ⟨⟨_, code⟩, mem, rfl⟩ := List.mem_map.1 (l.ended n hn)
    have known := o.contains_of_status fun waits =>
      Status.ofExitCode_ne_waiting code ((r.status_of_end _ code mem).symm.trans waits)
    simp [Flow.contains_iff_mem_names.1 known]
  rw [c.remaining, l.countP_not_countedBy r, countsDown, countP_mem_comm con.nodup_names l.nodup]

end Counts

namespace Setup

variable (s : Setup)

/-- **At every moment of every run the ledgers are in order.** -/
theorem ledger (k : Counter) (xs : List Choice) : Ledger k s.flow (s.after xs) (s.past xs) := by
  induction xs with
  | nil =>
    rw [after, Moment.after_nil, s.start_eq]
    exact .initial k s.flow s.workers s.registry
  | cons x earlier ih => exact ih.next (s.sound earlier).orderly (s.sound earlier).recorded x

end Setup

end StepFlow
