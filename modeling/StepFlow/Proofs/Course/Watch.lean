import StepFlow.Proofs.Course.Judgement
import StepFlow.Proofs.Course.Shift

/-! # No lost wake-up

Nothing schedules the steps from above: a step is evaluated when the run is asked for, when its
group is released, or when something that it waits for ends. This is enough. A step on which the
decision rule would decide now is either about to be evaluated, or it is a root of a run that nobody
has asked for yet.

Main statements: `Watched` is the invariant, and `Watched.next` says that every move keeps it. -/

namespace StepFlow

/-- Whether a call adds or removes a listener. -/
def Call.isRegistration : Call → Bool
  | .subscribe _ | .unsubscribe _ => true
  | _ => false

/-- A moment is **watched** when every step on which the decision rule would decide is about to be
evaluated, once the run was asked for. -/
structure Watched (f : Flow) (asked : Bool) (m : Moment) : Prop where
  /-- Before the run is asked for nothing happens. -/
  unasked : asked = false → m.run.stopped = false ∧ m.run.ready = [] ∧
    (∀ n, m.run.executions.get? n = none) ∧ ∀ call ∈ m.agenda, call.isRegistration = true
  /-- A step that could be decided now is about to be evaluated, or is a root that is evaluated when
  the run is started or stopped. -/
  due : ∀ s, f.step? s.name = some s → f.directive m.run.statuses s ≠ .noop →
    .evaluate s.name ∈ m.agenda ∨
      (s ∈ f.roots ∧ (asked = false ∨ (.stop ∈ m.agenda ∧ m.run.stopped = false)))

section Opportunities

variable {f : Flow} {m m' : Moment} (o : Orderly f m) (con : f.Consistent) (c : Change m m')

include o con c

omit con in
/-- The end of a step evaluates those who wait for it. -/
private theorem evaluates_of_ended? {d : Dependency} (hd : d ∈ f.dependencies) {code : Int}
    (ended : m.ended? = some (d.dst, code)) : .evaluate d.src ∈ m'.agenda := by
  obtain ⟨call, rest, -, -, agenda', -⟩ := c.finish_of_ended? ended
  have waits : d ∈ m.run.flow.edgesTo d.dst := by
    rw [o.flow]
    exact Flow.mem_edgesTo.2 ⟨hd, rfl⟩
  rw [agenda', Coordinator.propagation]
  simp only [List.mem_append, List.mem_cons, List.mem_map]
  exact .inl (.inl (.inl (.inr ⟨d, waits, rfl⟩)))

/-- The release of a group evaluates those of its children that could be decided. -/
private theorem evaluates_of_release {s : Step} {g : Name} (found : f.step? s.name = some s)
    (hg : s.group = some g) (waits : m'.status s.name = .waiting) {v : Verdict}
    (hv : m.verdict? g = some v)
    (settled : ∀ d ∈ f.edgesFrom s.name, (m.status d.dst).isTerminal = true) :
    .evaluate s.name ∈ m'.agenda := by
  have child : f.groupOf? s.name = some g := by rw [Flow.groupOf?_of_step? found, hg]
  have held := o.waiting_of_verdict? con hv
  -- a child of a group that is skipped is claimed and does not wait
  have run : v = .run := by
    have claims : v ≠ .run → m.verdict? s.name = some .claim := by
      intro different
      rw [o.verdict?_eq_claim_iff con]
      cases v with
      | run => exact absurd rfl different
      | skip => exact ⟨g, .of_groupOf? child, hv⟩
      | claim =>
        obtain ⟨k, under, hk⟩ := (o.verdict?_eq_claim_iff con).1 hv
        exact ⟨k, (Flow.Under.of_groupOf? child).trans under, hk⟩
    by_contra different
    rw [o.active_of_verdict? con c (claims different)] at waits
    cases waits
  subst run
  have commits := Moment.commit?_of_run hv
  -- a child that depends on another child cannot be decided while the group waits
  have free : f.dependsOnMember s.name g = false := by
    rw [Flow.dependsOnMember, List.any_eq_false]
    intro d hd inside
    have inside : f.groupOf? d.dst = some g := by simpa [Flow.groupOf?] using inside
    have ended := settled d hd
    rw [o.waiting_child d.dst g inside held] at ended
    cases ended
  -- so it is one of the roots that the group evaluates
  have root : s ∈ f.rootsIn g := by
    rw [Flow.rootsIn, List.mem_filter]
    exact ⟨con.mem_children_steps.2 ⟨found, hg⟩, by rw [free]; rfl⟩
  have isGroup := con.isGroup_of_groupOf? child
  cases c with
  | @group s' rest agenda agenda' _ _ _ _ _ _ _ _ _ commit? =>
    rw [commits] at commit?
    cases commit?
    rw [agenda', o.flow]
    simp only [List.cons_append, List.mem_cons, List.mem_append, List.mem_map]
    exact .inr (.inl ⟨s, root, rfl⟩)
  | @leaf s' _ _ _ found' isLeaf _ _ _ _ _ _ _ commit? =>
    have same : s'.name = g :=
      (congrArg Prod.fst (Option.some.inj (commits.symm.trans commit?))).symm
    rw [o.flow] at found'
    rw [← same, Flow.isGroup_of_step? found', isLeaf] at isGroup
    cases isGroup
  | skip _ _ _ _ _ _ _ _ _ _ _ _ _ _ _ commit? => rw [commits] at commit?; cases commit?
  | idle _ _ _ _ _ _ commit? => rw [commits] at commit?; cases commit?
  | handOver _ _ _ _ _ _ _ commit? => rw [commits] at commit?; cases commit?
  | mark _ _ _ _ _ _ _ commit? => rw [commits] at commit?; cases commit?
  | finish _ _ _ _ _ _ _ _ commit? => rw [commits] at commit?; cases commit?
  | count _ _ _ _ _ _ _ commit? => rw [commits] at commit?; cases commit?
  | down _ _ _ _ _ _ _ commit? => rw [commits] at commit?; cases commit?

/-- **A step that can be decided now and could not before is about to be evaluated.** -/
theorem evaluates_of_opportunity {s : Step} (found : f.step? s.name = some s)
    (now : f.directive m'.run.statuses s ≠ .noop) (before : f.directive m.run.statuses s = .noop) :
    .evaluate s.name ∈ m'.agenda := by
  obtain ⟨waits, released, settled⟩ := Flow.directive_ne_noop_iff.1 now
  by_cases late : ∀ d ∈ f.edgesFrom s.name, (m.status d.dst).isTerminal = true
  · -- everything it waits for had ended, so its group is released just now
    by_cases free : ∀ g, s.group = some g → m.status g = .inProgress
    · exact absurd before (Flow.directive_ne_noop_iff.2 ⟨o.waiting_before con c waits, free, late⟩)
    · obtain ⟨g, hg⟩ := not_forall.1 free
      obtain ⟨hg, held⟩ := Classical.not_imp.1 hg
      obtain ⟨v, hv⟩ := (o.active_before con c (released g hg)).resolve_left held
      exact evaluates_of_release o con c found hg waits hv late
  · -- something that it waits for ends in this move, which evaluates those who wait for it
    obtain ⟨d, hd⟩ := not_forall.1 late
    obtain ⟨hd, running⟩ := Classical.not_imp.1 hd
    obtain ⟨mem, src⟩ := Flow.mem_edgesFrom.1 hd
    have ended : (m'.status d.dst).isTerminal = true := settled d hd
    rcases o.ended_before con c ended with same | ⟨code, he⟩
    · rw [same] at ended
      exact absurd ended running
    · rw [← src]
      exact evaluates_of_ended? o c mem he

end Opportunities

namespace Watched

variable {f : Flow} {asked : Bool} {m : Moment} (con : f.Consistent) (o : Orderly f m)
  (w : Watched f asked m)

/-- Whether the run is asked for after a move. -/
private abbrev askedAfter (asked : Bool) (m : Moment) (x : Choice) : Bool :=
  asked || (m.agenda.isEmpty && x.asks)

include w

/-- Before the run is asked for nothing happens. -/
private theorem unasked_next (x : Choice) (h : askedAfter asked m x = false) :
    (m.next x).run.stopped = false ∧ (m.next x).run.ready = [] ∧
      (∀ n, (m.next x).run.executions.get? n = none) ∧
      ∀ call ∈ (m.next x).agenda, call.isRegistration = true := by
  rw [askedAfter, Bool.or_eq_false_iff] at h
  obtain ⟨running, idle, fresh, quiet⟩ := w.unasked h.1
  obtain ⟨agenda, c⟩ := m
  cases agenda with
  | cons call rest =>
    -- what is carried out before the run is asked for adds and removes listeners only
    have tail : ∀ k ∈ rest, k.isRegistration = true := fun k hk =>
      quiet k (List.mem_cons_of_mem _ hk)
    have first := quiet call List.mem_cons_self
    cases call with
    | subscribe l => exact ⟨running, idle, fresh, tail⟩
    | unsubscribe number => exact ⟨running, idle, fresh, tail⟩
    | _ => cases first
  | nil =>
    cases x with
    | request r =>
      cases r with
      | start => cases h.2
      | stop => cases h.2
      | release n =>
        have none : c.executions.get? n = none := fresh n
        have result : c.release n =
            if n ∈ c.released then c else { c with released := n :: c.released } := by
          unfold Coordinator.release
          rw [none]
        simp only [Moment.next, Coordinator.choose, result]
        split <;> exact ⟨running, idle, fresh, fun call h => by cases h⟩
    | subscribe l =>
      exact ⟨running, idle, fresh, fun call h => by rw [List.mem_singleton.1 h]; rfl⟩
    | unsubscribe number =>
      exact ⟨running, idle, fresh, fun call h => by rw [List.mem_singleton.1 h]; rfl⟩
    | turn t burst =>
      -- no task is ready, so none has a turn
      have absent : t ∉ c.ready := by rw [show c.ready = [] from idle]; exact List.not_mem_nil
      simp only [Moment.next, Coordinator.choose, if_neg absent]
      exact ⟨running, idle, fresh, fun call h => by cases h⟩

include con o

/-- **Every move keeps a moment watched.** -/
theorem next (x : Choice) : Watched f (askedAfter asked m x) (m.next x) where
  unasked := w.unasked_next x
  due s found now := by
    have c := o.change_next x
    by_cases before : f.directive m.run.statuses s = .noop
    · exact .inl (evaluates_of_opportunity o con c found now before)
    · have root : s ∈ f.roots → .evaluate s.name ∈ m.run.startCalls := fun hs => by
        rw [Coordinator.startCalls, o.flow]
        exact List.mem_map.2 ⟨s, hs, rfl⟩
      obtain ⟨agenda, d⟩ := m
      cases agenda with
      | cons call rest =>
        rcases w.due s found before with evaluated | ⟨isRoot, unasked | ⟨stop, running⟩⟩
        · rcases List.mem_cons.1 evaluated with rfl | later
          · -- the evaluation that comes first commits the step
            have decided : d.directive s ≠ .noop :=
              Coordinator.directive_ne_noop_iff.2 (by rw [o.flow]; exact before)
            have commits : (Moment.mk (.evaluate s.name :: rest) d).commit? =
                some (s.name, d.directive s) :=
              Moment.commit?_eq_some.2 ⟨decided, s, rest, rfl, by rw [o.flow]; exact found, rfl⟩
            have waits :
                ((Moment.mk (.evaluate s.name :: rest) d).next x).status s.name = .waiting :=
              (Flow.directive_ne_noop_iff.1 now).1
            have verdict := Moment.verdict?_self commits
            cases hd : d.directive s with
            | noop => exact absurd hd decided
            | run =>
              rw [hd] at verdict
              rw [o.active_of_verdict? con c verdict] at waits
              cases waits
            | skip =>
              rw [hd] at verdict
              rw [o.active_of_verdict? con c verdict] at waits
              cases waits
          · exact .inl (List.mem_append_right _ later)
        · exact .inr ⟨isRoot, .inl (by rw [askedAfter, unasked]; rfl)⟩
        · by_cases first : call = .stop
          · -- the stop evaluates the roots
            subst first
            refine .inl (List.mem_append_left _ ?_)
            have result : d.perform .stop =
                (d.startCalls, { d with stopped := true, ready := d.ready ++ d.sleepers }) := by
              simp only [Coordinator.perform, Coordinator.stop]
              rw [if_neg (by rw [show d.stopped = false from running]; decide)]
            rw [result]
            exact root isRoot
          · refine .inr ⟨isRoot, .inr ⟨List.mem_append_right _ ?_, ?_⟩⟩
            · exact (List.mem_cons.1 stop).resolve_left (Ne.symm first)
            · have only := (o.shift_next x).stopped.resolve_right fun h => by
                obtain ⟨-, rest', agenda⟩ := h
                exact first (List.cons.inj agenda).1
              exact only.trans running
      | nil =>
        rcases w.due s found before with evaluated | ⟨isRoot, unasked | ⟨stop, -⟩⟩
        · cases evaluated
        · cases asks : x.asks with
          | false => exact .inr ⟨isRoot, .inl (by rw [askedAfter, unasked, asks]; rfl)⟩
          | true =>
            -- a start evaluates the roots at once, and a stop does when it is carried out
            cases x with
            | request r =>
              cases r with
              | start => exact .inl (root isRoot)
              | stop =>
                exact .inr ⟨isRoot, .inr ⟨List.mem_cons_self, (w.unasked unasked).1⟩⟩
              | release n => cases asks
            | subscribe l => cases asks
            | unsubscribe number => cases asks
            | turn t burst => cases asks
        · cases stop

omit con o w in
theorem initial (f : Flow) (workers : Nat) (registry : Registry) :
    Watched f false (Moment.initial f workers registry) where
  unasked _ := ⟨rfl, rfl, fun _ => rfl, fun call h => by cases h⟩
  due s found h := by
    obtain ⟨-, released, settled⟩ := Flow.directive_ne_noop_iff.1 h
    refine .inr ⟨?_, .inl rfl⟩
    have waits : ∀ n, (Moment.initial f workers registry).run.statuses.status n = .waiting :=
      Moment.status_initial f workers registry
    -- while all steps wait, only a step without a group and dependencies could be decided
    rw [Flow.roots, List.mem_filter, Bool.and_eq_true]
    refine ⟨Flow.mem_of_step? found, ?_, ?_⟩
    · cases hg : s.group with
      | none => rfl
      | some g =>
        have := released g hg
        rw [waits] at this
        cases this
    · rw [List.isEmpty_iff, List.eq_nil_iff_forall_not_mem]
      intro d hd
      have := settled d hd
      rw [waits] at this
      cases this

end Watched

end StepFlow
