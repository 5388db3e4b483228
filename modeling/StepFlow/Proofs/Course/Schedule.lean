import StepFlow.Proofs.Course.Change

/-! # The schedule

The invariant on which the theory of runs rests: who is to end a step that is in progress. A leaf in
progress has exactly one of a worker that owes it an end, a call that completes it, and a place
among the claimed steps of a skipped group whose end has not begun. A group in progress closes by
itself, and while its end is still to come with that of a skipped group nothing on the agenda can
close it before.

Main statements: `Orderly` is the invariant, and `Orderly.change` says that every change keeps
it. -/

namespace StepFlow

/-! ## Weights of agendas -/

section Weights

variable {w : Call → Nat} {gone extra rest : List Call}

theorem Call.IsWeight.total_eq_zero (hw : Call.IsWeight w) {l : List Call}
    (h : ∀ call ∈ l, call.isWeightless = true) : total w l = 0 := by
  induction l with
  | nil => rfl
  | cons call l ih =>
    rw [total_cons, hw call (h call List.mem_cons_self),
      ih fun k hk => h k (List.mem_cons_of_mem _ hk)]

theorem Call.IsWeight.total_light (hw : Call.IsWeight w) {l : List Call}
    (h : ∀ call ∈ l, call.isLight = true) : total w l = 0 :=
  hw.total_eq_zero fun call hc => Call.isWeightless_of_isLight (h call hc)

theorem total_pos_of_mem {call : Call} (h : call ∈ rest) (pos : 0 < w call) :
    0 < total w rest := by
  induction rest with
  | nil => cases h
  | cons k rest ih =>
    rw [total_cons]
    rcases List.mem_cons.1 h with rfl | h
    · omega
    · have := ih h
      omega

theorem exists_of_total_pos (h : 0 < total w rest) : ∃ call ∈ rest, 0 < w call := by
  induction rest with
  | nil => cases h
  | cons k rest ih =>
    by_cases here : 0 < w k
    · exact ⟨k, List.mem_cons_self, here⟩
    · rw [total_cons] at h
      obtain ⟨call, mem, pos⟩ := ih (by omega)
      exact ⟨call, List.mem_cons_of_mem _ mem, pos⟩

end Weights

/-- The sum of a weight over the calls that are left to do on the spot. -/
def Moment.weight (m : Moment) (w : Call → Nat) : Nat := total w m.agenda

open Call

/-! ## The invariant -/

/-- A moment is **orderly** when every step that is in progress has exactly one place from which its
end will come. -/
structure Orderly (f : Flow) (m : Moment) : Prop where
  /-- The flow is the one that is run. -/
  flow : m.run.flow = f
  /-- The table of statuses knows the steps of the flow. -/
  knows : ∀ n, m.run.statuses.knows n = f.contains n
  /-- A leaf has one place from which its end will come if it is in progress, and none otherwise. -/
  leaf : ∀ n, f.isLeaf n = true →
    m.run.works n + m.weight (completes n) + m.weight (covers n) =
      if m.status n = .inProgress then 1 else 0
  /-- Only leaves have workers and are completed. -/
  other : ∀ n, f.isLeaf n = false → m.run.works n = 0 ∧ m.weight (completes n) = 0
  /-- No step is covered twice. -/
  covers_le : ∀ n, m.weight (covers n) ≤ 1
  /-- A covered step is in progress. -/
  covered : ∀ n, 0 < m.weight (covers n) → m.status n = .inProgress
  /-- Nothing else on the agenda can close a covered group. -/
  covered_close : ∀ g, 0 < m.weight (covers g) → .close g ∉ m.agenda ∧ m.weight (counts g) = 0
  /-- Skipped groups are groups, and what was claimed for them are the steps under them. -/
  skips : ∀ g claimed, .skip g claimed ∈ m.agenda →
    f.isGroup g = true ∧ (∀ t ∈ claimed, f.step? t.name = some t) ∧
      ∀ n, n ∈ claimed.map (·.name) ↔ f.Under n g
  /-- Only groups that have left their waiting are closed. -/
  closes : ∀ g, .close g ∈ m.agenda → f.isGroup g = true ∧ m.status g ≠ .waiting
  /-- Only groups that have left their waiting count their children. -/
  counting : ∀ g, 0 < m.weight (counts g) → f.isGroup g = true ∧ m.status g ≠ .waiting
  /-- Nothing in a group that waits has left its waiting. -/
  waiting_child : ∀ n g, f.groupOf? n = some g → m.status g = .waiting → m.status n = .waiting
  /-- What lies under itself is never reached. -/
  nested : ∀ n, f.Under n n → m.status n = .waiting

namespace StatusTable

/-- A name that is not in the table waits. -/
theorem status_of_not_knows {t : StatusTable} {n : Name} (h : t.knows n = false) :
    t.status n = .waiting := by
  unfold knows Table.contains at h
  unfold status
  cases hg : t.entries.get? n with
  | none => rfl
  | some s => simp [hg] at h

end StatusTable

namespace Orderly

variable {f : Flow} {m m' : Moment} (o : Orderly f m)

include o

/-! ## Consequences -/

/-- The moves of an orderly moment are changes. -/
theorem change_next (x : Choice) : Change m (m.next x) := by
  refine m.change_next ?_ x
  intro n s hs
  rw [o.flow] at hs
  rw [o.knows, Flow.contains_of_step? hs]

theorem waiting_of_not_contains {n : Name} (h : f.contains n = false) : m.status n = .waiting :=
  StatusTable.status_of_not_knows (by rw [o.knows, h])

theorem contains_of_status {n : Name} (h : m.status n ≠ .waiting) : f.contains n = true := by
  by_contra unknown
  exact h (o.waiting_of_not_contains (by simpa using unknown))

/-- Nothing that lies under a waiting group has left its waiting. -/
theorem waiting_under {n g : Name} (under : f.Under n g) (h : m.status g = .waiting) :
    m.status n = .waiting := by
  -- from the group inwards: every group on the way waits as the one around it does
  induction under using Relation.TransGen.head_induction_on with
  | single direct => exact o.waiting_child _ _ direct h
  | head direct _ ih => exact o.waiting_child _ _ direct ih

/-- A covered step is a skipped group or lies under one, and with it that group's steps are. -/
theorem exists_skip_of_covers {n : Name} (h : 0 < m.weight (covers n)) :
    ∃ g, f.isGroup g = true ∧ (n = g ∨ f.Under n g) ∧
      ∀ k, (k = g ∨ f.Under k g) → 0 < m.weight (covers k) := by
  obtain ⟨call, mem, pos⟩ := exists_of_total_pos h
  cases call with
  | skip g claimed =>
    obtain ⟨group, -, claims⟩ := o.skips g claimed mem
    -- a skip covers its group and everything under it, so one covered step brings all of them
    have covered : ∀ k, 0 < covers k (.skip g claimed) ↔ (k = g ∨ f.Under k g) := by
      intro k
      rw [← claims k, ← List.count_pos_iff, covers]
      by_cases same : g = k
      · rw [if_pos same]
        exact iff_of_true (by omega) (.inl same.symm)
      · simp [same, Ne.symm same]
    exact ⟨g, group, (covered n).1 pos, fun k hk => total_pos_of_mem mem ((covered k).2 hk)⟩
  | _ => cases pos

/-- With a group what lies under it is covered. -/
theorem covers_under {n g : Name} (under : f.Under n g) (h : 0 < m.weight (covers g)) :
    0 < m.weight (covers n) := by
  obtain ⟨k, -, same | above, all⟩ := o.exists_skip_of_covers h
  · exact all n (.inr (same ▸ under))
  · exact all n (.inr (under.trans above))

/-- A step that is to be completed is a leaf in progress that is not covered. -/
theorem of_completes {n : Name} (h : 0 < m.weight (completes n)) :
    f.isLeaf n = true ∧ m.status n = .inProgress ∧ m.run.works n = 0 ∧
      m.weight (completes n) = 1 ∧ m.weight (covers n) = 0 := by
  cases leaf : f.isLeaf n with
  | false =>
    have := (o.other n leaf).2
    omega
  | true =>
    have sum := o.leaf n leaf
    by_cases active : m.status n = .inProgress
    · -- the completion is the one place of the leaf, so there is no other
      rw [if_pos active] at sum
      exact ⟨rfl, active, by omega, by omega, by omega⟩
    · rw [if_neg active] at sum
      omega

/-- A step that has a worker is a leaf in progress. -/
theorem of_works {n : Name} (h : 0 < m.run.works n) :
    f.isLeaf n = true ∧ m.status n = .inProgress := by
  cases leaf : f.isLeaf n with
  | false =>
    have := (o.other n leaf).1
    omega
  | true =>
    have sum := o.leaf n leaf
    by_cases active : m.status n = .inProgress
    · exact ⟨rfl, active⟩
    · rw [if_neg active] at sum
      omega

/-- A step whose worker is not done is a leaf in progress. -/
theorem of_stage {n : Name} {s : Stage} (hs : m.run.stages.get? n = some s) (busy : s ≠ .done) :
    f.isLeaf n = true ∧ m.status n = .inProgress := by
  refine o.of_works ?_
  rw [Coordinator.works, Table.weightAt_of_get? hs]
  cases s <;> first | exact Nat.one_pos | exact absurd rfl busy

/-- A step that waits has no place from which its end could come. -/
theorem free_of_waiting {n : Name} (h : m.status n = .waiting) :
    m.run.works n = 0 ∧ m.weight (completes n) = 0 ∧ m.weight (covers n) = 0 ∧
      .close n ∉ m.agenda ∧ m.weight (counts n) = 0 := by
  have idle : m.status n ≠ .inProgress := by rw [h]; decide
  refine ⟨?_, ?_, ?_, ?_, ?_⟩
  · by_contra works
    exact idle (o.of_works (Nat.pos_of_ne_zero works)).2
  · by_contra ends
    exact idle (o.of_completes (Nat.pos_of_ne_zero ends)).2.1
  · by_contra covered
    exact idle (o.covered n (Nat.pos_of_ne_zero covered))
  · intro close
    exact (o.closes n close).2 h
  · by_contra counted
    exact (o.counting n (Nat.pos_of_ne_zero counted)).2 h

/-- The step that ends in a move was in progress and not covered. -/
theorem of_cause {n : Name} {code : Int} {call : Call} {rest : List Call}
    (agenda : m.agenda = call :: rest)
    (cause : call = .complete n code ∨ (call = .close n ∧ m.run.closing? n = some code)) :
    m.status n = .inProgress ∧ m.weight (covers n) = 0 := by
  rcases cause with rfl | ⟨rfl, closing⟩
  · have pos : 0 < m.weight (completes n) :=
      total_pos_of_mem (by rw [agenda]; exact List.mem_cons_self) (by simp [completes])
    obtain ⟨-, active, -, -, free⟩ := o.of_completes pos
    exact ⟨active, free⟩
  · -- a group that closes is in progress by its own check, and nothing closes a covered group
    have here : Call.close n ∈ m.agenda := by rw [agenda]; exact List.mem_cons_self
    refine ⟨?_, ?_⟩
    · unfold Coordinator.closing? at closing
      obtain ⟨p, -, hp⟩ := Option.bind_eq_some_iff.1 closing
      split at hp
      · rename_i done
        exact done.1
      · cases hp
    · by_contra covered
      exact (o.covered_close n (Nat.pos_of_ne_zero covered)).1 here

/-! ## Every change keeps the invariant -/

theorem status_set {n : Name} {s : Status} (known : f.contains n = true)
    (h : m'.run.statuses = m.run.statuses.set n s) (k : Name) :
    m'.status k = if n = k then s else m.status k := by
  rw [Moment.status, Coordinator.status, h,
    StatusTable.status_set_of_knows (by rw [o.knows, known])]
  rfl

/-- A change that keeps the statuses and what is covered. The end of a leaf may go from its worker
to the agenda, and the count of a child may become the end of its group. -/
private theorem frame (flow : m'.run.flow = m.run.flow)
    (statuses : m'.run.statuses = m.run.statuses)
    (ends : ∀ n, m'.run.works n + m'.weight (completes n) =
      m.run.works n + m.weight (completes n))
    (covers' : ∀ n, m'.weight (covers n) = m.weight (covers n))
    (counts' : ∀ g, m'.weight (counts g) ≤ m.weight (counts g))
    (skips' : ∀ g claimed, .skip g claimed ∈ m'.agenda → .skip g claimed ∈ m.agenda)
    (closes' : ∀ g, .close g ∈ m'.agenda → .close g ∈ m.agenda ∨ 0 < m.weight (counts g)) :
    Orderly f m' := by
  have status : ∀ n, m'.status n = m.status n := fun n => by
    rw [Moment.status, Moment.status, Coordinator.status, Coordinator.status, statuses]
  exact
    { flow := flow.trans o.flow
      knows := fun n => by rw [statuses, o.knows]
      leaf := fun n hn => by rw [ends, covers', status]; exact o.leaf n hn
      other := fun n hn => by
        have before := o.other n hn
        have same := ends n
        omega
      covers_le := fun n => by rw [covers']; exact o.covers_le n
      covered := fun n hn => by rw [covers'] at hn; rw [status]; exact o.covered n hn
      covered_close := fun g hg => by
        rw [covers'] at hg
        obtain ⟨noClose, noCount⟩ := o.covered_close g hg
        have fewer := counts' g
        refine ⟨fun h => ?_, by omega⟩
        rcases closes' g h with before | counted
        · exact noClose before
        · omega
      skips := fun g claimed h => o.skips g claimed (skips' g claimed h)
      closes := fun g hg => by
        rw [status]
        exact (closes' g hg).elim (o.closes g) (o.counting g)
      counting := fun g hg => by
        rw [status]
        exact o.counting g (hg.trans_le (counts' g))
      waiting_child := fun n g hg h => by rw [status] at h ⊢; exact o.waiting_child n g hg h
      nested := fun n hn => by rw [status]; exact o.nested n hn }

omit o in
/-- Light calls instead of weightless ones do not change a weight. -/
theorem weight_of_light {w : Call → Nat} (hw : IsWeight w) {gone extra rest : List Call}
    (agenda : m.agenda = gone ++ rest) (agenda' : m'.agenda = extra ++ rest)
    (gone_ : ∀ call ∈ gone, call.isWeightless = true)
    (light : ∀ call ∈ extra, call.isLight = true) :
    m'.weight w = m.weight w := by
  rw [Moment.weight, Moment.weight, agenda, agenda', total_append, total_append,
    hw.total_eq_zero gone_, hw.total_light light]

omit o in
/-- A call that is not light is not among the light ones. -/
theorem mem_of_light {call : Call} {gone extra rest : List Call} (heavy : call.isLight = false)
    (agenda : m.agenda = gone ++ rest) (agenda' : m'.agenda = extra ++ rest)
    (light : ∀ call ∈ extra, call.isLight = true) (h : call ∈ m'.agenda) : call ∈ m.agenda := by
  rw [agenda'] at h
  rw [agenda]
  rcases List.mem_append.1 h with new | old
  · rw [light call new] at heavy
    cases heavy
  · exact List.mem_append_right _ old

private theorem change_idle {gone extra rest : List Call} (agenda : m.agenda = gone ++ rest)
    (agenda' : m'.agenda = extra ++ rest) (spent : ∀ call ∈ gone, m.run.Spent call)
    (light : ∀ call ∈ extra, call.isLight = true) (agrees : Coordinator.Agrees m.run m'.run)
    (works : ∀ k, m'.run.works k = m.run.works k) : Orderly f m' := by
  have weightless := fun call hc => Coordinator.isWeightless_of_spent (spent call hc)
  have weight := fun w (hw : IsWeight w) => weight_of_light hw agenda agenda' weightless light
  exact o.frame agrees.flow agrees.statuses
    (fun n => by rw [works, weight _ (isWeight_completes n)])
    (fun n => weight _ (isWeight_covers n))
    (fun n => Nat.le_of_eq (weight _ (isWeight_counts n)))
    (fun _ _ h => mem_of_light rfl agenda agenda' light h)
    (fun _ h => .inl (mem_of_light rfl agenda agenda' light h))

private theorem change_down {rest : List Call} (agenda : m.agenda = .countDown :: rest)
    (agenda' : m'.agenda = rest) (flow : m'.run.flow = m.run.flow)
    (statuses : m'.run.statuses = m.run.statuses)
    (works : ∀ k, m'.run.works k = m.run.works k) : Orderly f m' := by
  have mem : ∀ call ∈ m'.agenda, call ∈ m.agenda := fun call h => by
    rw [agenda'] at h
    rw [agenda]
    exact List.mem_cons_of_mem _ h
  have weight : ∀ w : Call → Nat, w .countDown = 0 → m'.weight w = m.weight w := fun w hw => by
    rw [Moment.weight, Moment.weight, agenda, agenda', total_cons, hw, Nat.zero_add]
  exact o.frame flow statuses (fun n => by rw [works, weight (completes n) rfl])
    (fun n => weight (covers n) rfl) (fun n => Nat.le_of_eq (weight (counts n) rfl))
    (fun _ _ => mem _) fun _ h => .inl (mem _ h)

private theorem change_handOver {gone extra rest : List Call} {n : Name} {code : Int}
    (agenda : m.agenda = gone ++ rest) (agenda' : m'.agenda = extra ++ .complete n code :: rest)
    (spent : ∀ call ∈ gone, m.run.Spent call) (light : ∀ call ∈ extra, call.isLight = true)
    (agrees : Coordinator.Agrees m.run m'.run) (worked : m.run.works n = 1)
    (works : ∀ k, m'.run.works k = if n = k then 0 else m.run.works k) : Orderly f m' := by
  have weight : ∀ w, IsWeight w → m'.weight w = w (.complete n code) + m.weight w := fun w hw => by
    rw [Moment.weight, Moment.weight, agenda, agenda', total_append, total_append, total_cons,
      hw.total_eq_zero fun call hc => Coordinator.isWeightless_of_spent (spent call hc),
      hw.total_light light]
    omega
  have old : ∀ call : Call, call.isLight = false → (∀ k c, call ≠ .complete k c) →
      call ∈ m'.agenda → call ∈ m.agenda := by
    intro call heavy different h
    rw [agenda', List.mem_append, List.mem_cons] at h
    rw [agenda]
    rcases h with new | same | rest
    · rw [light call new] at heavy
      cases heavy
    · exact absurd same (different n code)
    · exact List.mem_append_right _ rest
  refine o.frame agrees.flow agrees.statuses (fun k => ?_) (fun k => ?_) (fun k => ?_)
    (fun g claimed => old _ rfl fun k c h => by cases h)
    (fun g h => .inl (old _ rfl (fun k c h => by cases h) h))
  · -- what the worker owed is on the agenda now
    rw [works, weight _ (isWeight_completes k), completes]
    by_cases same : n = k
    · subst same
      rw [if_pos rfl, if_pos rfl]
      omega
    · rw [if_neg same, if_neg same, Nat.zero_add]
  · rw [weight _ (isWeight_covers k)]
    exact Nat.zero_add _
  · rw [weight _ (isWeight_counts k)]
    exact Nat.le_of_eq (Nat.zero_add _)

/-- A step that is committed has a parent group that no longer waits. -/
private theorem parent_of_commit {s : Step} (found : m.run.flow.step? s.name = some s)
    (directive : m.run.directive s ≠ .noop) {g : Name} (hg : f.groupOf? s.name = some g) :
    m.status g = .inProgress := by
  rw [o.flow] at found
  rw [Flow.groupOf?_of_step? found] at hg
  exact Coordinator.released_of_directive directive hg

/-- A step that is committed does not lie under itself: its group has been reached. -/
theorem not_nested_of_commit {s : Step} (found : m.run.flow.step? s.name = some s)
    (directive : m.run.directive s ≠ .noop) : ¬ f.Under s.name s.name := by
  intro nested
  obtain ⟨g, hg, -⟩ := Flow.under_iff.1 nested
  have waits := o.nested g ((Flow.Under.of_groupOf? hg).nested nested)
  rw [o.parent_of_commit found directive hg] at waits
  cases waits

/-- After a single step has left its waiting, no waiting group has a child that has. -/
private theorem waiting_child_of_set {s : Step} (found : m.run.flow.step? s.name = some s)
    (directive : m.run.directive s ≠ .noop)
    (status : ∀ k, m'.status k = if s.name = k then .inProgress else m.status k) (n g : Name)
    (hg : f.groupOf? n = some g) (h : m'.status g = .waiting) : m'.status n = .waiting := by
  rw [status] at h ⊢
  by_cases parent : s.name = g
  · rw [if_pos parent] at h
    cases h
  · rw [if_neg parent] at h
    by_cases child : s.name = n
    · -- the step that was committed has a group in progress, which does not wait
      subst child
      rw [o.parent_of_commit found directive hg] at h
      cases h
    · rw [if_neg child]
      exact o.waiting_child n g hg h

/-- A change that commits a single step. A leaf gets a worker that owes its end, and a group may be
closed from now on. -/
private theorem commit {s : Step} (found : m.run.flow.step? s.name = some s)
    (waits : m.status s.name = .waiting) (directive : m.run.directive s ≠ .noop)
    (flow : m'.run.flow = m.run.flow)
    (statuses : m'.run.statuses = m.run.statuses.set s.name .inProgress)
    (works : ∀ k, m'.run.works k = if s.name = k ∧ f.isLeaf k = true then 1 else m.run.works k)
    (weight : ∀ w, IsWeight w → m'.weight w = m.weight w)
    (skips' : ∀ g claimed, .skip g claimed ∈ m'.agenda → .skip g claimed ∈ m.agenda)
    (closes' : ∀ g, .close g ∈ m'.agenda →
      .close g ∈ m.agenda ∨ (g = s.name ∧ f.isGroup g = true)) : Orderly f m' := by
  have known := found
  rw [o.flow] at known
  have status := o.status_set (Flow.contains_of_step? known) statuses
  obtain ⟨noWorker, noEnd, noCover, -, -⟩ := o.free_of_waiting waits
  have stays : ∀ k, m.status k ≠ .waiting → m'.status k = m.status k := fun k hk => by
    rw [status, if_neg]
    rintro rfl
    exact hk waits
  exact
    { flow := flow.trans o.flow
      knows := fun k => by rw [statuses, StatusTable.knows_set, o.knows]
      leaf := fun k hk => by
        rw [works, weight _ (isWeight_completes k), weight _ (isWeight_covers k), status]
        by_cases same : s.name = k
        · -- a leaf that waited had no place, and its new worker is the only one
          subst same
          rw [if_pos ⟨rfl, hk⟩, if_pos rfl, if_pos rfl, noEnd, noCover]
        · rw [if_neg fun h => same h.1, if_neg same]
          exact o.leaf k hk
      other := fun k hk => by
        rw [works, if_neg (by rw [hk]; rintro ⟨-, h⟩; cases h), weight _ (isWeight_completes k)]
        exact o.other k hk
      covers_le := fun k => by rw [weight _ (isWeight_covers k)]; exact o.covers_le k
      covered := fun k hk => by
        rw [weight _ (isWeight_covers k)] at hk
        have active := o.covered k hk
        rw [stays k (by rw [active]; decide), active]
      covered_close := fun g hg => by
        rw [weight _ (isWeight_covers g)] at hg
        rw [weight _ (isWeight_counts g)]
        obtain ⟨noClose, noCount⟩ := o.covered_close g hg
        refine ⟨fun h => ?_, noCount⟩
        rcases closes' g h with before | ⟨rfl, -⟩
        · exact noClose before
        · -- the group that is committed waited, so it is not covered
          omega
      skips := fun g claimed h => o.skips g claimed (skips' g claimed h)
      closes := fun g hg => by
        rcases closes' g hg with before | ⟨rfl, group⟩
        · obtain ⟨group, left⟩ := o.closes g before
          rw [stays g left]
          exact ⟨group, left⟩
        · rw [status, if_pos rfl]
          exact ⟨group, by decide⟩
      counting := fun g hg => by
        rw [weight _ (isWeight_counts g)] at hg
        obtain ⟨group, left⟩ := o.counting g hg
        rw [stays g left]
        exact ⟨group, left⟩
      waiting_child := o.waiting_child_of_set found directive status
      nested := fun k hk => by
        have different : s.name ≠ k := by
          rintro rfl
          exact o.not_nested_of_commit found directive hk
        rw [status, if_neg different]
        exact o.nested k hk }

private theorem change_leaf {s : Step} {rest : List Call}
    (agenda : m.agenda = .evaluate s.name :: rest) (agenda' : m'.agenda = rest)
    (found : m.run.flow.step? s.name = some s) (isLeaf : s.isGroup = false)
    (waits : m.status s.name = .waiting) (directive : m.run.directive s ≠ .noop)
    (flow : m'.run.flow = m.run.flow)
    (statuses : m'.run.statuses = m.run.statuses.set s.name .inProgress)
    (works : ∀ k, m'.run.works k = if s.name = k then 1 else m.run.works k) : Orderly f m' := by
  have leaf' : f.isLeaf s.name = true := by
    rw [o.flow] at found
    rw [Flow.isLeaf_of_step? found, isLeaf]
    rfl
  have old : ∀ call ∈ m'.agenda, call ∈ m.agenda := fun call h => by
    rw [agenda'] at h
    rw [agenda]
    exact List.mem_cons_of_mem _ h
  refine o.commit found waits directive flow statuses (fun k => ?_) (fun w hw => ?_)
    (fun _ _ => old _) fun _ h => .inl (old _ h)
  · rw [works]
    by_cases same : s.name = k
    · subst same
      rw [if_pos rfl, if_pos ⟨rfl, leaf'⟩]
    · rw [if_neg same, if_neg fun h => same h.1]
  · rw [Moment.weight, Moment.weight, agenda, agenda', total_cons, hw _ rfl, Nat.zero_add]

private theorem change_group {s : Step} {rest : List Call}
    (agenda : m.agenda = .evaluate s.name :: rest)
    (agenda' : m'.agenda = .notify (.started s.name) ::
      (m.run.flow.rootsIn s.name).map (fun r => Call.evaluate r.name) ++ .close s.name :: rest)
    (found : m.run.flow.step? s.name = some s) (isGroup : s.isGroup = true)
    (waits : m.status s.name = .waiting) (directive : m.run.directive s ≠ .noop)
    (flow : m'.run.flow = m.run.flow)
    (statuses : m'.run.statuses = m.run.statuses.set s.name .inProgress)
    (works : ∀ k, m'.run.works k = m.run.works k) : Orderly f m' := by
  have group' : f.isGroup s.name = true := by
    rw [o.flow] at found
    rw [Flow.isGroup_of_step? found, isGroup]
  have weightless : ∀ call ∈ Call.notify (.started s.name) ::
      (m.run.flow.rootsIn s.name).map (fun r => Call.evaluate r.name) ++ [.close s.name],
      call.isWeightless = true := by
    intro call hc
    rw [List.cons_append, List.mem_cons, List.mem_append, List.mem_map, List.mem_singleton] at hc
    rcases hc with rfl | ⟨r, -, rfl⟩ | rfl <;> rfl
  -- of the new calls only the close of the group says anything about what is still to come
  have old : ∀ call : Call, call.isLight = false → call ≠ .close s.name →
      call ∈ m'.agenda → call ∈ m.agenda := by
    intro call heavy different h
    rw [agenda', List.cons_append, List.mem_cons, List.mem_append, List.mem_map, List.mem_cons] at h
    rw [agenda]
    rcases h with rfl | ⟨r, -, rfl⟩ | same | h
    · cases heavy
    · cases heavy
    · exact absurd same different
    · exact List.mem_cons_of_mem _ h
  refine o.commit found waits directive flow statuses (fun k => ?_) (fun w hw => ?_)
    (fun g claimed => old _ rfl fun h => by cases h) fun g h => ?_
  · rw [works, if_neg]
    rintro ⟨rfl, isLeaf⟩
    exact absurd isLeaf (Flow.not_isLeaf_of_isGroup group')
  · rw [Moment.weight, Moment.weight, agenda, agenda', total_cons, hw _ rfl,
      show ∀ l : List Call, l ++ .close s.name :: rest = (l ++ [.close s.name]) ++ rest by simp,
      total_append, hw.total_eq_zero weightless]
  · by_cases same : g = s.name
    · exact .inr ⟨same, by rw [same]; exact group'⟩
    · exact .inl (old _ rfl (fun h => by cases h; exact same rfl) h)

/-! ### Skips -/

/-- What is claimed for a waiting group is all that lies under it. -/
theorem claimed_iff (con : f.Consistent) {g : Name} {names : List Name}
    (free : ¬ f.Under g g) (waits : m.status g = .waiting)
    (mem : ∀ n, n ∈ names ↔ n ∈ (m.run.flow.below g).map (·.name) ∧
      m.run.statuses.knows n = true ∧ m.status n = .waiting) (n : Name) :
    n ∈ names ↔ f.Under n g := by
  rw [mem n, o.flow, o.knows]
  constructor
  · rintro ⟨inside, -⟩
    obtain ⟨t, ht, rfl⟩ := List.mem_map.1 inside
    exact ((con.mem_below free).1 ht).2
  · intro under
    obtain ⟨t, ht⟩ := Flow.contains_iff_exists.1 under.contains
    have name := Flow.step?_name ht
    subst name
    exact ⟨List.mem_map.2 ⟨t, (con.mem_below free).2 ⟨ht, under⟩, rfl⟩, under.contains,
      o.waiting_under under waits⟩

section Skip

variable (con : f.Consistent) {s : Step} {claimed : List Step} {rest : List Call}
  (agenda : m.agenda = .evaluate s.name :: rest)
  (agenda' : m'.agenda = .notify (.started s.name) :: .skip s.name claimed :: rest)
  (free : ¬ f.Under s.name s.name) (waits : m.status s.name = .waiting)
  (mem : ∀ n, n ∈ claimed.map (·.name) ↔ n ∈ (m.run.flow.below s.name).map (·.name) ∧
    m.run.statuses.knows n = true ∧ m.status n = .waiting)

omit o in
include agenda agenda' in
private theorem weight_of_skip {w : Call → Nat} (hw : IsWeight w) :
    m'.weight w = w (.skip s.name claimed) + m.weight w := by
  rw [Moment.weight, Moment.weight, agenda, agenda', total_cons, total_cons, total_cons,
    hw (.notify _) rfl, hw (.evaluate _) rfl]
  omega

omit o in
include waits mem in
/-- What is taken has waited. -/
private theorem waiting_of_taken {n : Name} (hn : s.name = n ∨ n ∈ claimed.map (·.name)) :
    m.status n = .waiting := by
  rcases hn with rfl | inside
  · exact waits
  · exact ((mem n).1 inside).2.2

include con agenda agenda' free waits mem in
/-- Nothing covered what is taken, and now it is covered once. -/
private theorem covers_of_taken (nodup : (claimed.map (·.name)).Nodup) {n : Name}
    (hn : s.name = n ∨ n ∈ claimed.map (·.name)) : m'.weight (covers n) = 1 := by
  have claims := o.claimed_iff con free waits mem
  have waited := waiting_of_taken waits mem hn
  rw [weight_of_skip agenda agenda' (isWeight_covers n), (o.free_of_waiting waited).2.2.1, covers]
  -- the group is not under itself, so the two ways of being covered exclude each other
  rcases hn with rfl | inside
  · have apart : s.name ∉ claimed.map (·.name) := fun h =>
      free ((claims s.name).1 h)
    rw [if_pos rfl, List.count_eq_zero_of_not_mem apart]
  · have apart : s.name ≠ n := by
      rintro rfl
      exact free ((claims s.name).1 inside)
    rw [if_neg apart, List.count_eq_one_of_mem nodup inside]

omit o in
include agenda agenda' in
/-- What is not taken is covered as before. -/
private theorem covers_of_spared {n : Name} (hn : ¬ (s.name = n ∨ n ∈ claimed.map (·.name))) :
    m'.weight (covers n) = m.weight (covers n) := by
  rw [not_or] at hn
  rw [weight_of_skip agenda agenda' (isWeight_covers n), covers, if_neg hn.1,
    List.count_eq_zero_of_not_mem hn.2]
  omega

include con free waits mem in
/-- A child is not taken without its group, unless it is the step that is committed. -/
private theorem waiting_child_of_skip (found : m.run.flow.step? s.name = some s)
    (directive : m.run.directive s ≠ .noop)
    (status : ∀ n, m'.status n =
      if s.name = n ∨ n ∈ claimed.map (·.name) then .inProgress else m.status n)
    {n g : Name} (hg : f.groupOf? n = some g) (h : m'.status g = .waiting) :
    m'.status n = .waiting := by
  have claims := o.claimed_iff con free waits mem
  have outside : ¬ (s.name = g ∨ g ∈ claimed.map (·.name)) := by
    intro inside
    rw [status, if_pos inside] at h
    cases h
  rw [status, if_neg outside] at h
  have outside' : ¬ (s.name = n ∨ n ∈ claimed.map (·.name)) := by
    rintro (rfl | inside)
    · rw [o.parent_of_commit found directive hg] at h
      cases h
    · -- a claimed step has a group that is the skipped one or was claimed itself
      obtain ⟨k, hk, same | under⟩ := Flow.under_iff.1 ((claims n).1 inside)
      · rw [hg, Option.some.injEq] at hk
        exact outside (.inl (by rw [hk, same]))
      · rw [hg, Option.some.injEq] at hk
        exact outside (.inr ((claims g).2 (by rw [hk]; exact under)))
  rw [status, if_neg outside']
  exact o.waiting_child n g hg h

include con agenda agenda' free waits mem in
private theorem change_skip (found : m.run.flow.step? s.name = some s) (isGroup : s.isGroup = true)
    (directive : m.run.directive s ≠ .noop)
    (sublist : claimed.Sublist (m.run.flow.below s.name)) (nodup : (claimed.map (·.name)).Nodup)
    (flow : m'.run.flow = m.run.flow)
    (knows : ∀ n, m'.run.statuses.knows n = m.run.statuses.knows n)
    (status : ∀ n, m'.status n =
      if s.name = n ∨ n ∈ claimed.map (·.name) then .inProgress else m.status n)
    (works : ∀ k, m'.run.works k = m.run.works k) : Orderly f m' := by
  have group' : f.isGroup s.name = true := by
    rw [o.flow] at found
    rw [Flow.isGroup_of_step? found, isGroup]
  have weight : ∀ w, IsWeight w → w (.skip s.name claimed) = 0 → m'.weight w = m.weight w :=
    fun w hw skip => by rw [weight_of_skip agenda agenda' hw, skip, Nat.zero_add]
  have covers_taken := fun k => o.covers_of_taken (n := k) con agenda agenda' free waits mem nodup
  have covers_spared := fun k => covers_of_spared (n := k) agenda agenda'
  have old : ∀ call : Call, call.isLight = false → call ≠ .skip s.name claimed →
      call ∈ m'.agenda → call ∈ m.agenda := by
    intro call heavy different h
    rw [agenda', List.mem_cons, List.mem_cons] at h
    rw [agenda]
    rcases h with rfl | same | h
    · cases heavy
    · exact absurd same different
    · exact List.mem_cons_of_mem _ h
  have stays : ∀ k, m.status k ≠ .waiting → m'.status k = m.status k := fun k hk => by
    rw [status, if_neg fun taken => hk (waiting_of_taken waits mem taken)]
  exact
    { flow := flow.trans o.flow
      knows := fun k => by rw [knows, o.knows]
      leaf := fun k hk => by
        rw [works, weight _ (isWeight_completes k) rfl, status]
        by_cases taken : s.name = k ∨ k ∈ claimed.map (·.name)
        · -- what is taken waited and had no place, and the skip is its only one now
          obtain ⟨noWorker, noEnd, -⟩ := o.free_of_waiting (waiting_of_taken waits mem taken)
          rw [noWorker, noEnd, covers_taken k taken, if_pos taken, if_pos rfl]
        · rw [covers_spared k taken, if_neg taken]
          exact o.leaf k hk
      other := fun k hk => by
        rw [works, weight _ (isWeight_completes k) rfl]
        exact o.other k hk
      covers_le := fun k => by
        by_cases taken : s.name = k ∨ k ∈ claimed.map (·.name)
        · rw [covers_taken k taken]
        · rw [covers_spared k taken]
          exact o.covers_le k
      covered := fun k hk => by
        rw [status]
        by_cases taken : s.name = k ∨ k ∈ claimed.map (·.name)
        · rw [if_pos taken]
        · rw [covers_spared k taken] at hk
          rw [if_neg taken]
          exact o.covered k hk
      covered_close := fun g hg => by
        rw [weight _ (isWeight_counts g) rfl]
        have close : Call.close g ∈ m'.agenda → Call.close g ∈ m.agenda :=
          old _ rfl fun h => by cases h
        by_cases taken : s.name = g ∨ g ∈ claimed.map (·.name)
        · obtain ⟨-, -, -, noClose, noCount⟩ := o.free_of_waiting (waiting_of_taken waits mem taken)
          exact ⟨fun h => noClose (close h), noCount⟩
        · rw [covers_spared g taken] at hg
          exact ⟨fun h => (o.covered_close g hg).1 (close h), (o.covered_close g hg).2⟩
      skips := fun g others h => by
        rw [agenda', List.mem_cons, List.mem_cons] at h
        rcases h with h | h | h
        · cases h
        · cases h
          refine ⟨group', fun t ht => ?_, o.claimed_iff con free waits mem⟩
          have below := sublist.subset ht
          rw [o.flow] at below
          exact ((con.mem_below free).1 below).1
        · exact o.skips g others (by rw [agenda]; exact List.mem_cons_of_mem _ h)
      closes := fun g hg => by
        obtain ⟨group, left⟩ := o.closes g (old _ rfl (fun h => by cases h) hg)
        rw [stays g left]
        exact ⟨group, left⟩
      counting := fun g hg => by
        rw [weight _ (isWeight_counts g) rfl] at hg
        obtain ⟨group, left⟩ := o.counting g hg
        rw [stays g left]
        exact ⟨group, left⟩
      waiting_child := fun n g hg h =>
        o.waiting_child_of_skip con free waits mem found directive status hg h
      nested := fun k hk => by
        have spared : ¬ (s.name = k ∨ k ∈ claimed.map (·.name)) := by
          rintro (rfl | inside)
          · exact free hk
          · exact free (((o.claimed_iff con free waits mem k).1 inside).nested hk)
        rw [status, if_neg spared]
        exact o.nested k hk }

end Skip

/-! ### Marks, ends and counts -/

omit o in
/-- The completions that follow from a skip are those of the claimed leaves. -/
theorem total_completes_skip (c : Coordinator) (g n : Name) (claimed : List Step) :
    total (completes n) (c.skip g claimed).1 =
      ((claimed.filter (!·.isGroup)).map (·.name)).count n := by
  have ends : ∀ l : List Step,
      total (fun s : Step => completes n (.complete s.name skippedCode)) l =
        (l.map (·.name)).count n := by
    intro l
    induction l with
    | nil => rfl
    | cons t l ih =>
      rw [total_cons, ih, List.map_cons, List.count_cons, completes]
      simp only [beq_iff_eq]
      omega
  simp only [Coordinator.skip, total_append, total_map, total_cons, total_nil]
  rw [ends]
  simp [completes]

omit o in
theorem total_skip_eq_zero {w : Call → Nat} (hw : IsWeight w)
    (complete : ∀ n code, w (.complete n code) = 0) (c : Coordinator) (g : Name)
    (claimed : List Step) : total w (c.skip g claimed).1 = 0 := by
  have notify : ∀ e, w (.notify e) = 0 := fun e => hw _ rfl
  have close : ∀ n, w (.close n) = 0 := fun n => hw _ rfl
  simp [Coordinator.skip, complete, notify, close]

omit o in
/-- A call that follows from a skip starts or closes a group or completes a leaf. -/
theorem mem_skip {c : Coordinator} {g : Name} {claimed : List Step} {call : Call}
    (h : call ∈ (c.skip g claimed).1) :
    (∃ n, call = .notify (.started n)) ∨ (∃ n, call = .complete n skippedCode) ∨
      ∃ n, call = .close n ∧ (n = g ∨ ∃ t ∈ claimed, t.isGroup = true ∧ t.name = n) := by
  simp only [Coordinator.skip, List.mem_append, List.mem_map, List.mem_reverse, List.mem_filter,
    List.mem_singleton] at h
  rcases h with ((⟨t, -, rfl⟩ | ⟨t, -, rfl⟩) | ⟨t, ht, rfl⟩) | rfl
  · exact .inl ⟨_, rfl⟩
  · exact .inr (.inl ⟨_, rfl⟩)
  · exact .inr (.inr ⟨_, rfl, .inr ⟨t, ht.1, ht.2, rfl⟩⟩)
  · exact .inr (.inr ⟨_, rfl, .inl rfl⟩)

omit o in
/-- Steps are kept or dropped by name if the condition only depends on the name. -/
theorem count_filter_names {n : Name} {p : Step → Bool} {b : Bool} {steps : List Step}
    (h : ∀ t ∈ steps, t.name = n → p t = b) :
    ((steps.filter p).map (·.name)).count n =
      if b = true then (steps.map (·.name)).count n else 0 := by
  induction steps with
  | nil => simp
  | cons t steps ih =>
    have rest := ih fun u hu => h u (List.mem_cons_of_mem _ hu)
    by_cases same : t.name = n
    · have here := h t List.mem_cons_self same
      cases b <;> simp [here, same] at rest ⊢ <;> simp [rest]
    · cases keep : p t <;> simp [keep, same, rest]

omit o in
theorem count_leaves {n : Name} {claimed : List Step}
    (steps : ∀ t ∈ claimed, f.step? t.name = some t) :
    ((claimed.filter (!·.isGroup)).map (·.name)).count n =
      if f.isLeaf n = true then (claimed.map (·.name)).count n else 0 := by
  refine count_filter_names fun t ht same => ?_
  rw [← same, Flow.isLeaf_of_step? (steps t ht)]

omit o in
theorem count_groups {n : Name} {claimed : List Step}
    (steps : ∀ t ∈ claimed, f.step? t.name = some t) :
    ((claimed.filter (·.isGroup)).map (·.name)).count n =
      if f.isGroup n = true then (claimed.map (·.name)).count n else 0 := by
  refine count_filter_names fun t ht same => ?_
  rw [← same, Flow.isGroup_of_step? (steps t ht)]

section Mark

variable {g : Name} {claimed : List Step} {rest : List Call}
  (agenda : m.agenda = .skip g claimed :: rest)
  (agenda' : m'.agenda = (m.run.skip g claimed).1 ++ rest)

include agenda agenda'

omit o in
/-- The group and what was claimed for it were covered by the skip. -/
private theorem covers_of_mark (n : Name) : m.weight (covers n) =
    (if g = n then 1 else 0) + (claimed.map (·.name)).count n + m'.weight (covers n) := by
  rw [Moment.weight, Moment.weight, agenda, agenda', total_cons, total_append,
    total_skip_eq_zero (isWeight_covers n) (fun _ _ => rfl), covers]
  omega

omit o in
/-- The claimed leaves are completed instead. -/
private theorem completes_of_mark (steps : ∀ t ∈ claimed, f.step? t.name = some t) (n : Name) :
    m'.weight (completes n) =
      (if f.isLeaf n = true then (claimed.map (·.name)).count n else 0) +
        m.weight (completes n) := by
  rw [Moment.weight, Moment.weight, agenda, agenda', total_cons, total_append,
    total_completes_skip, count_leaves steps]
  simp only [completes]
  omega

/-- A group that is closed now was covered by this skip and by no other. -/
private theorem closed_of_mark {n : Name} (new : .close n ∈ m'.agenda)
    (fresh : .close n ∉ m.agenda) :
    f.isGroup n = true ∧ 0 < m.weight (covers n) ∧ m'.weight (covers n) = 0 := by
  obtain ⟨group, steps, -⟩ := o.skips g claimed (by rw [agenda]; exact List.mem_cons_self)
  have le := o.covers_le n
  rw [covers_of_mark agenda agenda'] at le ⊢
  rw [agenda', List.mem_append] at new
  rcases new with new | old
  · rcases mem_skip new with ⟨k, h⟩ | ⟨k, h⟩ | ⟨k, h, rfl | ⟨t, ht, isGroup, rfl⟩⟩
    · cases h
    · cases h
    · cases h
      rw [if_pos rfl] at le ⊢
      exact ⟨group, by omega, by omega⟩
    · cases h
      have := List.count_pos_iff.2 (List.mem_map_of_mem (f := (·.name)) ht)
      refine ⟨by rw [Flow.isGroup_of_step? (steps t ht), isGroup], ?_, ?_⟩ <;> omega
  · exact absurd (by rw [agenda]; exact List.mem_cons_of_mem _ old) fresh

private theorem change_mark (flow : m'.run.flow = m.run.flow)
    (statuses : m'.run.statuses = m.run.statuses)
    (works : ∀ k, m'.run.works k = m.run.works k) : Orderly f m' := by
  obtain ⟨group, steps, -⟩ := o.skips g claimed (by rw [agenda]; exact List.mem_cons_self)
  have status : ∀ k, m'.status k = m.status k := fun k => by
    rw [Moment.status, Moment.status, Coordinator.status, Coordinator.status, statuses]
  have covers' := covers_of_mark agenda agenda'
  have completes' := completes_of_mark agenda agenda' steps
  have counts' : ∀ n, m'.weight (counts n) = m.weight (counts n) := by
    intro n
    rw [Moment.weight, Moment.weight, agenda, agenda', total_cons, total_append,
      total_skip_eq_zero (isWeight_counts n) (fun _ _ => rfl)]
    rfl
  exact
    { flow := flow.trans o.flow
      knows := fun k => by rw [statuses, o.knows]
      leaf := fun k hk => by
        have different : g ≠ k := by
          rintro rfl
          exact absurd hk (Flow.not_isLeaf_of_isGroup group)
        -- a leaf that was claimed is completed instead of covered
        have before := o.leaf k hk
        rw [covers', if_neg different] at before
        rw [works, completes', if_pos hk, status, ← before]
        omega
      other := fun k hk => by
        rw [works, completes', if_neg (by rw [hk]; decide), Nat.zero_add]
        exact o.other k hk
      covers_le := fun k => by
        have := o.covers_le k
        rw [covers'] at this
        omega
      covered := fun k hk => by
        rw [status]
        refine o.covered k ?_
        rw [covers']
        omega
      covered_close := fun h hh => by
        rw [counts']
        -- a group that is still covered is not one that this skip closes
        have before := o.covered_close h (by rw [covers']; omega)
        refine ⟨fun close => ?_, before.2⟩
        have := (o.closed_of_mark agenda agenda' close before.1).2.2
        omega
      skips := fun h others hs => by
        rw [agenda', List.mem_append] at hs
        rcases hs with hs | hs
        · rcases mem_skip hs with ⟨n, h⟩ | ⟨n, h⟩ | ⟨n, h, -⟩ <;> cases h
        · exact o.skips h others (by rw [agenda]; exact List.mem_cons_of_mem _ hs)
      closes := fun k hk => by
        rw [status]
        by_cases old : Call.close k ∈ m.agenda
        · exact o.closes k old
        · obtain ⟨isGroup, covered, -⟩ := o.closed_of_mark agenda agenda' hk old
          refine ⟨isGroup, ?_⟩
          rw [o.covered k covered]
          decide
      counting := fun h hh => by rw [counts'] at hh; rw [status]; exact o.counting h hh
      waiting_child := fun k h hg waits => by
        rw [status] at waits ⊢
        exact o.waiting_child k h hg waits
      nested := fun k hk => by rw [status]; exact o.nested k hk }

end Mark

omit o in
/-- A call that follows from the end of a step tells it, evaluates a step, or counts it. -/
theorem mem_propagation {c : Coordinator} {n : Name} {code : Int} {call : Call}
    (h : call ∈ c.propagation n code) :
    call = .notify (.completed n code) ∨ (∃ d ∈ c.flow.edgesTo n, call = .evaluate d.src) ∨
      (∃ g, c.flow.groupOf? n = some g ∧ call = .childFinished g code) ∨ call = .countDown := by
  unfold Coordinator.propagation at h
  rw [List.mem_append, List.mem_append, List.mem_cons, List.mem_map, List.mem_singleton] at h
  rcases h with ((told | ⟨d, hd, rfl⟩) | counted) | last
  · exact .inl told
  · exact .inr (.inl ⟨d, hd, rfl⟩)
  · split at counted
    · rename_i g hg
      exact .inr (.inr (.inl ⟨g, hg, List.mem_singleton.1 counted⟩))
    · cases counted
  · exact .inr (.inr (.inr last))

omit o in
/-- Of what follows from the end of a step, its group's count and that of the run weigh. -/
theorem total_propagation {w : Call → Nat} (hw : IsWeight w) (c : Coordinator) (n : Name)
    (code : Int) : total w (c.propagation n code) =
      ((c.flow.groupOf? n).map fun g => w (.childFinished g code)).getD 0 + w .countDown := by
  have evaluate : ∀ k, w (.evaluate k) = 0 := fun k => hw _ rfl
  have notify : ∀ e, w (.notify e) = 0 := fun e => hw _ rfl
  unfold Coordinator.propagation Flow.groupOf?
  cases (c.flow.step? n).bind (·.group) <;> simp [evaluate, notify]

section Finish

variable {n : Name} {code : Int} {call : Call} {rest : List Call}
  (agenda : m.agenda = call :: rest)
  (cause : call = .complete n code ∨ (call = .close n ∧ m.run.closing? n = some code))
  (agenda' : m'.agenda = m.run.propagation n code ++ rest)

include agenda agenda'

/-- What the end of a step takes from a weight of the agenda and adds to it. -/
theorem weight_of_finish {w : Call → Nat} (hw : IsWeight w) : m'.weight w + w call =
    ((f.groupOf? n).map fun g => w (.childFinished g code)).getD 0 + w .countDown +
      m.weight w := by
  rw [Moment.weight, Moment.weight, agenda, agenda', total_cons, total_append,
    total_propagation hw, o.flow]
  omega

/-- The end of a step takes its completion from the agenda. -/
private theorem completes_of_finish (k : Name) :
    m'.weight (completes k) + completes k call = m.weight (completes k) := by
  have := o.weight_of_finish agenda agenda' (isWeight_completes k)
  cases hg : f.groupOf? n <;> simpa [hg, completes] using this

include cause

theorem covers_of_finish (k : Name) : m'.weight (covers k) = m.weight (covers k) := by
  have := o.weight_of_finish agenda agenda' (isWeight_covers k)
  rcases cause with rfl | ⟨rfl, -⟩ <;> cases hg : f.groupOf? n <;> simpa [hg, covers] using this

/-- The end of a step is counted by its group. -/
theorem counts_of_finish (k : Name) : m'.weight (counts k) =
    (if f.groupOf? n = some k then 1 else 0) + m.weight (counts k) := by
  have := o.weight_of_finish agenda agenda' (isWeight_counts k)
  rcases cause with rfl | ⟨rfl, -⟩ <;> cases hg : f.groupOf? n <;> simpa [hg, counts] using this

omit o cause in
/-- The end of a step begins no other end and no skip. -/
private theorem mem_of_finish {k : Call}
    (hk : (∃ g, k = .close g) ∨ ∃ g claimed, k = .skip g claimed) (h : k ∈ m'.agenda) :
    k ∈ m.agenda := by
  rw [agenda', List.mem_append] at h
  rw [agenda]
  rcases h with h | h
  · rcases mem_propagation h with rfl | ⟨d, -, rfl⟩ | ⟨g, -, rfl⟩ | rfl <;>
      rcases hk with ⟨g, hk⟩ | ⟨g, claimed, hk⟩ <;> cases hk
  · exact List.mem_cons_of_mem _ h

private theorem change_finish (con : f.Consistent) (flow : m'.run.flow = m.run.flow)
    (statuses : m'.run.statuses = m.run.statuses.set n (.ofExitCode code))
    (works : ∀ k, m'.run.works k = m.run.works k) : Orderly f m' := by
  obtain ⟨active, free⟩ := o.of_cause agenda cause
  have here : call ∈ m.agenda := by rw [agenda]; exact List.mem_cons_self
  have status := o.status_set (o.contains_of_status (n := n) (by rw [active]; decide)) statuses
  have ended : (Status.ofExitCode code).isTerminal = true := Status.isTerminal_ofExitCode code
  have settled : ∀ s : Status, s.isTerminal = false → m'.status n ≠ s := by
    rintro s hs same
    rw [status, if_pos rfl] at same
    rw [same, hs] at ended
    cases ended
  have covers' := o.covers_of_finish agenda cause agenda'
  have counts' := o.counts_of_finish agenda cause agenda'
  have completes' := o.completes_of_finish agenda agenda'
  have close : ∀ g, Call.close g ∈ m'.agenda → Call.close g ∈ m.agenda := fun g =>
    mem_of_finish agenda agenda' (.inl ⟨g, rfl⟩)
  have stays : ∀ k, m.status k ≠ .waiting → m'.status k ≠ .waiting := fun k hk => by
    by_cases same : n = k
    · subst same
      exact settled _ rfl
    · rw [status, if_neg same]
      exact hk
  exact
    { flow := flow.trans o.flow
      knows := fun k => by rw [statuses, StatusTable.knows_set, o.knows]
      leaf := fun k hk => by
        have before := o.leaf k hk
        have ends := completes' k
        rw [works, covers']
        by_cases same : n = k
        · subst same
          rw [if_neg (settled _ rfl)]
          rw [if_pos active] at before
          rcases cause with rfl | ⟨rfl, -⟩
          · -- the completion was its one place
            simp only [completes, if_true] at ends
            omega
          · exact absurd hk (Flow.not_isLeaf_of_isGroup (o.closes n here).1)
        · have other : completes k call = 0 := by
            rcases cause with rfl | ⟨rfl, -⟩ <;> simp [completes, same]
          rw [status, if_neg same]
          omega
      other := fun k hk => by
        have before := o.other k hk
        have ends := completes' k
        rw [works]
        omega
      covers_le := fun k => by rw [covers']; exact o.covers_le k
      covered := fun k hk => by
        rw [covers'] at hk
        have different : n ≠ k := by
          rintro rfl
          omega
        rw [status, if_neg different]
        exact o.covered k hk
      covered_close := fun g hg => by
        rw [covers'] at hg
        obtain ⟨noClose, noCount⟩ := o.covered_close g hg
        refine ⟨fun h => noClose (close g h), ?_⟩
        -- a child of a covered group is covered, and the step that ends is not
        have apart : f.groupOf? n ≠ some g := fun child => by
          have := o.covers_under (.of_groupOf? child) hg
          omega
        rw [counts', if_neg apart, noCount]
      skips := fun g claimed h =>
        o.skips g claimed (mem_of_finish agenda agenda' (.inr ⟨g, claimed, rfl⟩) h)
      closes := fun g hg => by
        obtain ⟨group, left⟩ := o.closes g (close g hg)
        exact ⟨group, stays g left⟩
      counting := fun g hg => by
        rw [counts'] at hg
        by_cases child : f.groupOf? n = some g
        · -- the group of a step in progress does not wait
          refine ⟨con.isGroup_of_groupOf? child, stays g fun waits => ?_⟩
          rw [o.waiting_child n g child waits] at active
          cases active
        · rw [if_neg child, Nat.zero_add] at hg
          obtain ⟨group, left⟩ := o.counting g hg
          exact ⟨group, stays g left⟩
      waiting_child := fun k g hg h => by
        have group : n ≠ g := fun same => settled _ rfl (same ▸ h)
        rw [status, if_neg group] at h
        have waited := o.waiting_child k g hg h
        have child : n ≠ k := by
          rintro rfl
          rw [waited] at active
          cases active
        rw [status, if_neg child]
        exact waited
      nested := fun k hk => by
        have different : n ≠ k := by
          rintro rfl
          rw [o.nested n hk] at active
          cases active
        rw [status, if_neg different]
        exact o.nested k hk }

end Finish

private theorem change_count {g : Name} {code : Int} {rest : List Call}
    (agenda : m.agenda = .childFinished g code :: rest) (agenda' : m'.agenda = .close g :: rest)
    (flow : m'.run.flow = m.run.flow) (statuses : m'.run.statuses = m.run.statuses)
    (works : ∀ k, m'.run.works k = m.run.works k) : Orderly f m' := by
  have weight : ∀ w, IsWeight w → m.weight w = w (.childFinished g code) + m'.weight w :=
    fun w hw => by
      rw [Moment.weight, Moment.weight, agenda, agenda', total_cons, total_cons, hw (.close g) rfl,
        Nat.zero_add]
  have old : ∀ call : Call, call ≠ .close g → call ∈ m'.agenda → call ∈ m.agenda := by
    intro call different h
    rw [agenda', List.mem_cons] at h
    rw [agenda]
    exact List.mem_cons_of_mem _ (h.resolve_left different)
  refine o.frame flow statuses (fun k => ?_) (fun k => ?_) (fun k => ?_)
    (fun h claimed => old _ fun same => by cases same) fun h hh => ?_
  · rw [works, weight _ (isWeight_completes k)]
    exact congrArg _ (Nat.zero_add _).symm
  · rw [weight _ (isWeight_covers k)]
    exact (Nat.zero_add _).symm
  · rw [weight _ (isWeight_counts k)]
    exact Nat.le_add_left _ _
  · -- the group that counts was to count, and no other group is to be closed anew
    by_cases same : g = h
    · subst same
      refine .inr ?_
      rw [weight _ (isWeight_counts g), counts, if_pos rfl]
      omega
    · exact .inl (old _ (fun close => by cases close; exact same rfl) hh)

/-! ### All together -/

/-- **Every change keeps a moment orderly.** -/
theorem change (con : f.Consistent) (h : Change m m') : Orderly f m' := by
  cases h with
  | idle agenda agenda' spent light agrees works =>
    exact o.change_idle agenda agenda' spent light agrees works
  | handOver agenda agenda' spent light agrees worked works =>
    exact o.change_handOver agenda agenda' spent light agrees worked works
  | leaf agenda agenda' found isLeaf waits directive flow statuses _ _ works =>
    exact o.change_leaf agenda agenda' found isLeaf waits directive flow statuses works
  | group agenda agenda' found isGroup waits directive flow statuses _ _ works =>
    exact o.change_group agenda agenda' found isGroup waits (by rw [directive]; decide) flow
      statuses works
  | @skip s _ _ agenda agenda' found isGroup waits directive sublist nodup mem flow knows status _ _
      works =>
    have decided : m.run.directive s ≠ .noop := by rw [directive]; decide
    exact o.change_skip con agenda agenda' (o.not_nested_of_commit found decided) waits mem found
      isGroup decided sublist nodup flow knows status works
  | mark agenda agenda' flow statuses _ _ works =>
    exact o.change_mark agenda agenda' flow statuses works
  | finish agenda cause agenda' flow statuses _ _ works =>
    exact o.change_finish agenda cause agenda' con flow statuses works
  | count agenda agenda' flow statuses _ _ works =>
    exact o.change_count agenda agenda' flow statuses works
  | down agenda agenda' flow statuses _ _ works =>
    exact o.change_down agenda agenda' flow statuses works

theorem next (con : f.Consistent) (x : Choice) : Orderly f (m.next x) :=
  o.change con (o.change_next x)

end Orderly

/-! ## The beginning -/

/-- In the table of a flow every step of the flow waits. -/
theorem StatusTable.get?_ofFlow (f : Flow) (n : Name) :
    (ofFlow f).entries.get? n = if f.contains n then some .waiting else none := by
  have find : ∀ l : List Name, Table.find? n (l.map (·, Status.waiting)) =
      if n ∈ l then some .waiting else none := by
    intro l
    induction l with
    | nil => rfl
    | cons k l ih =>
      by_cases same : k = n
      · simp [Table.find?, same]
      · simp [Table.find?, same, Ne.symm same, ih]
  rw [ofFlow, Table.get?, find]
  by_cases h : f.contains n = true
  · rw [if_pos h, if_pos (Flow.contains_iff_mem_names.1 h)]
  · rw [if_neg h, if_neg fun mem => h (Flow.contains_iff_mem_names.2 mem)]

namespace Moment

variable (f : Flow) (workers : Nat) (registry : Registry)

/-- The **first moment** of a run of a flow. -/
def initial : Moment := ⟨[], .initial f workers registry⟩

theorem status_initial (n : Name) : (initial f workers registry).status n = .waiting := by
  unfold Moment.status Coordinator.status initial Coordinator.initial StatusTable.status
  rw [StatusTable.get?_ofFlow]
  split <;> rfl

theorem orderly_initial : Orderly f (initial f workers registry) where
  flow := rfl
  knows n := by
    unfold StatusTable.knows initial Coordinator.initial Table.contains
    rw [StatusTable.get?_ofFlow]
    cases f.contains n <;> rfl
  leaf n _ := by rw [status_initial]; rfl
  other n _ := ⟨rfl, rfl⟩
  covers_le n := Nat.zero_le _
  covered n h := by cases h
  covered_close n h := by cases h
  skips g claimed h := by cases h
  closes g h := by cases h
  counting g h := by cases h
  waiting_child n g _ _ := status_initial f workers registry n
  nested n _ := status_initial f workers registry n

end Moment

end StepFlow
