import StepFlow.Proofs.Course.Aftermath
import Mathlib

/-! # Listeners are observers

Two runs that differ only in their listeners take the same course, whatever listeners they are given
before and between the effects, as long as none of them starts or stops the run. After every effect
they agree on the statuses, on what was invoked, on what is running, on whether they are stopped and
on the answer to waiting, and everybody who is there from before an effect until after it hears the
same in it. Only in the effect in which they are stopped may they differ in what belongs to
different steps coming first, since nothing says in which order a stop wakes the workers that wait.

Main statements: `Rehearsal.scenes_eq`, that rehearsals are made of such effects, and
`Setup.listeners_unnoticed`. -/

namespace StepFlow

open Coordinator

/-! ## Occasions and scenes -/

/-- An **occasion**: what happens to a run between two looks at it. -/
inductive Occasion where
  /-- Some requests are carried out, and the run goes on until it is idle. -/
  | effect (requests : List Request)
  /-- A listener is added. -/
  | subscribe (listener : Listener)
  /-- The listener with a number is removed. -/
  | unsubscribe (number : Nat)

namespace Occasion

/-- The requests of an effect. -/
def requests? : Occasion → Option (List Request)
  | .effect requests => some requests
  | .subscribe _ | .unsubscribe _ => none

/-- Whether nobody but bystanders is added. -/
def Harmless : Occasion → Prop
  | .subscribe l => l.Bystander
  | .effect _ | .unsubscribe _ => True

end Occasion

/-- A **scene** of a run: the states before and after an effect. -/
structure Scene where
  /-- The state before the effect. -/
  before : Coordinator
  /-- The state after the effect. -/
  after : Coordinator

namespace Scene

/-- Whether the run becomes stopped. -/
def stops (p : Scene) : Bool := !p.before.stopped && p.after.stopped

/-- Whether the listener with a number is registered from before the effect until after it. -/
def Attended (p : Scene) (k : Nat) : Prop :=
  p.before.registry.isRegistered k = true ∧ p.after.registry.isRegistered k = true

/-- What the listener with a number receives in the effect, in order. -/
def news (p : Scene) (k : Nat) : List Event :=
  (p.after.registry.eventsOf k).drop (p.before.registry.eventsOf k).length

end Scene

/-- The scenes of a run that some occasions make. -/
def scenes {ω : Type} (wake : Waking) (x : Executor ω) :
    List Occasion → Coordinator → ω → List Scene
  | [], _, _ => []
  | .effect requests :: rest, c, w =>
    let next := c.carryOut wake x requests w
    ⟨c, next.1⟩ :: scenes wake x rest next.1 next.2
  | .subscribe l :: rest, c, w => scenes wake x rest { c with registry := c.registry.add l } w
  | .unsubscribe number :: rest, c, w =>
    scenes wake x rest { c with registry := c.registry.remove number } w

/-- The scenes of a rehearsal that some occasions make: what is played is an effect. -/
def Rehearsal.scenes (r : Rehearsal) : List Occasion → List Scene
  | [] => []
  | .effect requests :: rest =>
    let next := (r.play requests).2
    ⟨r.run, next.run⟩ :: next.scenes rest
  | .subscribe l :: rest =>
    Rehearsal.scenes { r with run.registry := r.run.registry.add l } rest
  | .unsubscribe number :: rest =>
    Rehearsal.scenes { r with run.registry := r.run.registry.remove number } rest

/-- What there is to an occasion in a rehearsal: requests that are of no use are left out. -/
def Rehearsal.accepted (r : Rehearsal) : Occasion → Occasion
  | .effect requests => .effect (requests.filter r.accepts)
  | .subscribe l => .subscribe l
  | .unsubscribe number => .unsubscribe number

/-- **The scenes of a rehearsal are those of its run**, with an executor that follows the scripts
and workers that are woken by name. -/
theorem Rehearsal.scenes_eq (r : Rehearsal) (os : List Occasion) :
    r.scenes os = StepFlow.scenes .byName r.executor (os.map r.accepted) r.run () := by
  induction os generalizing r with
  | nil => rfl
  | cons o rest ih =>
    cases o with
    | effect requests =>
      rw [Rehearsal.scenes, List.map_cons, accepted, StepFlow.scenes, ← play_eq_carryOut]
      -- playing leaves the scripts as they are
      exact congrArg _ (ih (r.play requests).2)
    | subscribe l => exact ih { r with run.registry := r.run.registry.add l }
    | unsubscribe number => exact ih { r with run.registry := r.run.registry.remove number }

/-- The leaves whose executors are running: they have begun and are not over. -/
def Coordinator.running (c : Coordinator) : List Name :=
  (c.executions.entries.filter (·.2.isActive)).map (·.1)

/-- Two states of runs **look alike** if nobody can tell them apart who looks at the statuses, at
what was invoked, at what is running, at whether the run is stopped and at the answer to waiting. -/
structure Coordinator.LooksLike (c d : Coordinator) : Prop where
  statuses : c.statuses = d.statuses
  invoked : c.invoked = d.invoked
  running : c.running = d.running
  stopped : c.stopped = d.stopped
  answer : c.answer? = d.answer?

theorem Coordinator.LooksLike.refl (c : Coordinator) : c.LooksLike c := ⟨rfl, rfl, rfl, rfl, rfl⟩

/-- Two scenes are **indistinct** if they look alike after the effect, and if everybody who attends
it hears the same of each step. They hear all of it in the same order, too, unless the run is
stopped in the effect; then they do so at least if the workers are woken in one order. -/
structure Indistinct (ordered : Prop) (p q : Scene) : Prop where
  looks : p.after.LooksLike q.after
  stops : p.stops = q.stops
  news : ∀ k l, p.Attended k → q.Attended l → (p.stops = true → ordered) → p.news k = q.news l
  byStep : ∀ k l, p.Attended k → q.Attended l →
    Report.byStep (p.news k) = Report.byStep (q.news l)

theorem Indistinct.refl_of_news {ordered : Prop} {p : Scene}
    (same : ∀ k l, p.Attended k → p.Attended l → p.news k = p.news l) :
    Indistinct ordered p p where
  looks := .refl p.after
  stops := rfl
  news k l hk hl _ := same k l hk hl
  byStep k l hk hl := by rw [same k l hk hl]

/-! ## One run and the eavesdropper -/

/-- A scene is **shadowed** by the one with an eavesdropper in place of the listeners. -/
structure Shadowed (p q : Scene) : Prop where
  intro ::
  relayed : ∃ log es, q.before = p.before.overheard log ∧ q.after = p.after.overheard (es ++ log) ∧
    Relayed p.before p.after es

namespace Shadowed

variable {p q p' q' : Scene}

/-- Who attends a scene hears what the eavesdropper hears. -/
private theorem news_eq (s : Shadowed p q) {k : Nat} (attended : p.Attended k) :
    p.news k = q.news 0 := by
  obtain ⟨log, es, before, after, relayed⟩ := s.relayed
  have known := Registry.lt_of_isRegistered attended.1
  have received := relayed.received k known attended.2
  have own : ∀ old : List Event, ((es ++ old).reverse).drop old.reverse.length = es.reverse := by
    intro old
    rw [List.reverse_append, List.drop_left]
  have here : p.news k = es.reverse := by
    rw [Scene.news, Registry.eventsOf_eq, Registry.eventsOf_eq, received, own]
  have there : q.news 0 = es.reverse := by
    rw [Scene.news, before, after]
    exact own log
  rw [here, there]

private theorem attended (s : Shadowed p q) : q.Attended 0 := by
  obtain ⟨log, es, before, after, -⟩ := s.relayed
  rw [Scene.Attended, before, after]
  exact ⟨rfl, rfl⟩

/-- Scenes are indistinct if their shadows are. -/
theorem indistinct {ordered : Prop} (s : Shadowed p q) (s' : Shadowed p' q')
    (i : Indistinct ordered q q') : Indistinct ordered p p' := by
  have hears := i.news 0 0 s.attended s'.attended
  have each := i.byStep 0 0 s.attended s'.attended
  have news : ∀ k, p.Attended k → p.news k = q.news 0 := fun k => s.news_eq
  have news' : ∀ k, p'.Attended k → p'.news k = q'.news 0 := fun k => s'.news_eq
  obtain ⟨log, es, before, after, -⟩ := s.relayed
  obtain ⟨log', es', before', after', -⟩ := s'.relayed
  have stops : p.stops = q.stops := by rw [Scene.stops, Scene.stops, before, after]; rfl
  have stops' : p'.stops = q'.stops := by rw [Scene.stops, Scene.stops, before', after']; rfl
  obtain ⟨statuses, invoked, running, stopped, answer⟩ := i.looks
  rw [after, after'] at statuses invoked running stopped answer
  exact
    { looks := ⟨statuses, invoked, running, stopped, answer⟩
      stops := by rw [stops, stops', i.stops]
      news := fun k l hk hl ordered => by
        rw [stops] at ordered
        rw [news k hk, news' l hl, hears ordered]
      byStep := fun k l hk hl => by rw [news k hk, news' l hl, each] }

end Shadowed

/-- **Every run is shadowed by the one with an eavesdropper**, in which the effects are the same. -/
theorem shadowed_scenes {ω : Type} (wake : Waking) (x : Executor ω) (os : List Occasion)
    (c : Coordinator) (w : ω) (log : List Event) (b : c.registry.Bystanders)
    (harmless : ∀ o ∈ os, o.Harmless) :
    List.Forall₂ Shadowed (scenes wake x os c w)
      (scenes wake x ((os.filterMap Occasion.requests?).map .effect) (c.overheard log) w) := by
  induction os generalizing c w log with
  | nil => exact .nil
  | cons o rest ih =>
    have others : ∀ o ∈ rest, o.Harmless := fun o mem => harmless o (List.mem_cons_of_mem _ mem)
    have here := harmless o List.mem_cons_self
    cases o with
    | effect requests =>
      obtain ⟨es, relayed, agrees⟩ := exists_relayed_carryOut wake x requests w b
      have tail := ih (c.carryOut wake x requests w).1 (c.carryOut wake x requests w).2 (es ++ log)
        relayed.bystanders others
      simp only [List.filterMap_cons, Occasion.requests?, List.map_cons, scenes, agrees]
      exact .cons ⟨⟨log, es, rfl, rfl, relayed⟩⟩ tail
    | subscribe l => exact ih { c with registry := c.registry.add l } w log (b.add here) others
    | unsubscribe number =>
      exact ih { c with registry := c.registry.remove number } w log (b.remove number) others

/-- Runs are indistinct if their shadows are. -/
private theorem forall₂_indistinct {ordered : Prop} {ps qs ps' qs' : List Scene}
    (s : List.Forall₂ Shadowed ps qs) (s' : List.Forall₂ Shadowed ps' qs')
    (i : List.Forall₂ (Indistinct ordered) qs qs') :
    List.Forall₂ (Indistinct ordered) ps ps' := by
  induction i generalizing ps ps' with
  | nil =>
    cases s
    cases s'
    exact .nil
  | cons here _ ih =>
    cases s with
    | cons first others =>
      cases s' with
      | cons first' others' => exact .cons (first.indistinct first' here) (ih others others')

/-! ## Two runs with the eavesdropper -/

namespace Setup

variable {s : Setup} {xs ys : List Choice} {c d : Coordinator}

/-- The setup with nobody but an eavesdropper who listens. -/
def tapped (s : Setup) : Setup :=
  { s with
    registry := ⟨[{ listener := .channel }]⟩
    coordinator := .initial s.flow s.workers ⟨[{ listener := .channel }]⟩
    created := create_of_create s.created }

/-- Setups that differ only in their listeners are the same with the eavesdropper. -/
theorem coordinator_tapped {s s' : Setup} (flow : s'.flow = s.flow)
    (workers : s'.workers = s.workers) : s'.coordinator.overheard [] = s.tapped.coordinator := by
  rw [s'.coordinator_eq.2, flow, workers]
  rfl

/-- A state is **tapped** after some choices if a run with the eavesdropper is in it, who has
received all that was told. -/
structure Tapped (s : Setup) (xs : List Choice) (c : Coordinator) : Prop where
  here : s.tapped.after xs = ⟨[], c⟩
  log : c.overheard (History.told (s.tapped.past xs)) = c

namespace Tapped

theorem initial (s : Setup) : s.Tapped [] s.tapped.coordinator := ⟨rfl, rfl⟩

/-- The eavesdropper has received all that was told. -/
theorem of_overheard {log : List Event} (here : s.tapped.after xs = ⟨[], c.overheard log⟩) :
    s.Tapped xs (c.overheard log) := by
  have attends : s.tapped.Attends 0 xs :=
    { joined := ⟨xs, [], (List.append_nil xs).symm, rfl, rfl⟩
      stays := by rw [here]; rfl
      first := fun _ _ j before => absurd before (Nat.not_lt_zero j) }
  obtain ⟨due, told, nothing⟩ := told_eq_heard_append attends
  have heard : s.tapped.heard 0 xs = log.reverse := by
    rw [Setup.heard, here]
    rfl
  rw [nothing (by rw [here]), heard, List.reverse_reverse, List.nil_append] at told
  exact ⟨here, by rw [told]; rfl⟩

/-- Where an effect leads to the eavesdropper has received all that was told. -/
theorem carryOut {ω : Type} {wake : Waking} {x : Executor ω} {requests : List Request} {w : ω}
    (t : s.Tapped xs c)
    (there : s.tapped.after ys = ⟨[], (c.carryOut wake x requests w).1⟩) :
    s.Tapped ys (c.carryOut wake x requests w).1 := by
  have bystanders : c.registry.Bystanders := by
    rw [← t.log]
    intro m mem
    rw [List.mem_singleton.1 mem]
    exact .channel
  obtain ⟨es, -, agrees⟩ := exists_relayed_carryOut wake x requests w bystanders
  have goes := congrArg (·.1) (agrees (History.told (s.tapped.past xs)))
  rw [t.log] at goes
  simp only at goes
  rw [goes] at there ⊢
  exact .of_overheard there

/-- Requests lead to a moment of a run with the eavesdropper, but for the order of the queue. -/
theorem exists_asks (t : s.Tapped xs c) (wake : Waking) (requests : List Request) :
    ∃ ys, (s.tapped.after (ys ++ xs)).Alike ⟨[], requests.foldl (ask wake) c⟩ := by
  obtain ⟨ys, asked⟩ := (Moment.Alike.refl ⟨[], c⟩).exists_asks wake requests
  rw [← t.here, Setup.after, ← Moment.after_append] at asked
  exact ⟨ys, asked⟩

/-- A run that is not stopped after some requests was not so before. -/
theorem running_of_asks (t : s.Tapped xs c) {wake : Waking} {requests : List Request}
    (running : (requests.foldl (ask wake) c).stopped = false) : c.stopped = false := by
  by_contra stopped
  obtain ⟨ys, asked⟩ := t.exists_asks wake requests
  have here : (s.tapped.after xs).run.stopped = true := by
    rw [t.here]
    exact Bool.of_not_eq_false stopped
  have stays : (requests.foldl (ask wake) c).stopped = true :=
    asked.stopped.trans (stopped_append here ys)
  rw [running] at stays
  cases stays

/-- An effect leads to a state that is tapped. -/
theorem exists_carryOut {ω : Type} (t : s.Tapped xs c) (wake : Waking) (x : Executor ω)
    (requests : List Request) (w : ω) :
    ∃ ys, s.Tapped (ys ++ xs) (c.carryOut wake x requests w).1 := by
  obtain ⟨ys, there⟩ := (Moment.Alike.refl ⟨[], c⟩).exists_carryOut wake x requests w
  rw [← t.here, Setup.after, ← Moment.after_append] at there
  exact ⟨ys, t.carryOut there⟩

/-- Nobody but the eavesdropper attends a scene, and they hear what is told in it. -/
theorem exists_news (t : s.Tapped xs c) (t' : s.Tapped ys d) (later : xs <:+ ys) : ∃ es,
    History.told (s.tapped.past ys) = es ++ History.told (s.tapped.past xs) ∧
      ∀ k, (Scene.mk c d).Attended k → (Scene.mk c d).news k = es.reverse := by
  obtain ⟨new, rfl⟩ := later
  obtain ⟨es, told⟩ := (s.tapped.past_isSuffix xs new).filterMap Moment.told?
  refine ⟨es, told.symm, fun k attended => ?_⟩
  have zero : k = 0 := by
    have known := Registry.lt_of_isRegistered attended.1
    rw [← t.log] at known
    exact Nat.lt_one_iff.1 known
  have before : c.registry.eventsOf 0 = (History.told (s.tapped.past xs)).reverse :=
    (congrArg (·.registry.eventsOf 0) t.log).symm
  have after : d.registry.eventsOf 0 = (History.told (s.tapped.past (new ++ xs))).reverse :=
    (congrArg (·.registry.eventsOf 0) t'.log).symm
  have told : History.told (s.tapped.past (new ++ xs)) =
    es ++ History.told (s.tapped.past xs) := told.symm
  rw [zero, Scene.news, before, after, told, List.reverse_append, List.drop_left]

end Tapped

/-- Whichever way a run winds down it comes to look alike. -/
theorem WindsDown.looksLike {zs ys ys' : List Choice} (a : s.WindsDown zs ys)
    (b : s.WindsDown zs ys') (here : s.after (ys ++ zs) = ⟨[], c⟩)
    (there : s.after (ys' ++ zs) = ⟨[], d⟩) : c.LooksLike d := by
  have nothing : ∀ {us}, s.WindsDown zs us → (s.after (us ++ zs)).run.running = [] := by
    intro us a
    rw [running, List.filter_eq_nil_iff.2 fun e mem => by rw [a.not_isActive e mem]; decide]
    rfl
  have looks : (s.after (ys ++ zs)).run.LooksLike (s.after (ys' ++ zs)).run :=
    { statuses := a.statuses_eq b
      invoked := by rw [a.still.invoked, b.still.invoked]
      running := by rw [nothing a, nothing b]
      stopped := by rw [a.stopped_after, b.stopped_after]
      answer := a.answer?_eq b }
  rwa [here, there] at looks

/-- Two runs with the eavesdropper are **twins** if they have come to the same, or if both have
wound down from where they parted. -/
inductive Twins (s : Setup) {ω : Type} : Coordinator × ω → Coordinator × ω → Prop where
  | same {xs : List Choice} {c : Coordinator} (t : s.Tapped xs c) (w : ω) : Twins s (c, w) (c, w)
  | parted {zs ys ys' : List Choice} {c c' : Coordinator} (a : s.tapped.WindsDown zs ys)
      (b : s.tapped.WindsDown zs ys') (t : s.Tapped (ys ++ zs) c) (t' : s.Tapped (ys' ++ zs) c')
      (w w' : ω) : Twins s (c, w) (c', w')

section Effects

variable {ω : Type} {wake wake' : Waking} {x : Executor ω} {requests : List Request}
  {ordered : Prop}

/-- An effect in which the order of waking makes no difference keeps twins the same. -/
private theorem twins_same (t : s.Tapped xs c) (w : ω)
    (same : c.carryOut wake x requests w = c.carryOut wake' x requests w) :
    s.Twins (c.carryOut wake x requests w) (c.carryOut wake' x requests w) ∧
      Indistinct ordered ⟨c, (c.carryOut wake x requests w).1⟩
        ⟨c, (c.carryOut wake' x requests w).1⟩ := by
  rw [← same]
  obtain ⟨ys, t'⟩ := t.exists_carryOut wake x requests w
  obtain ⟨es, -, hears⟩ := t.exists_news t' (List.suffix_append ys xs)
  exact ⟨.same t' _, .refl_of_news fun k l hk hl => by rw [hears k hk, hears l hl]⟩

/-- An effect in which the run is stopped leads, whatever the order of waking, to a moment from
which the run winds down. -/
private theorem exists_parting (t : s.Tapped xs c) (w : ω) {before : List Request}
    (same : before.foldl (ask wake) c = before.foldl (ask wake') c)
    (running : (before.foldl (ask wake) c).stopped = false) (later : List Request) :
    ∃ zs ys ys', xs <:+ zs ∧
      s.tapped.WindsDown zs ys ∧ s.tapped.WindsDown zs ys' ∧
      s.Tapped (ys ++ zs) (c.carryOut wake x (before ++ .stop :: later) w).1 ∧
      s.Tapped (ys' ++ zs) (c.carryOut wake' x (before ++ .stop :: later) w).1 := by
  obtain ⟨us, asked⟩ := t.exists_asks wake before
  obtain ⟨zs, ys, ys', clear, stopped, ⟨still, last⟩, still', last'⟩ :=
    exists_winding_down x asked running wake wake' later w
  have goes : c.carryOut wake x (before ++ .stop :: later) w =
      (before.foldl (ask wake) c).carryOut wake x (.stop :: later) w := by
    rw [Coordinator.carryOut, List.foldl_append]
    rfl
  have goes' : c.carryOut wake' x (before ++ .stop :: later) w =
      (before.foldl (ask wake) c).carryOut wake' x (.stop :: later) w := by
    rw [Coordinator.carryOut, List.foldl_append, ← same]
    rfl
  rw [← goes] at last
  rw [← goes'] at last'
  have idle : ∀ {k : Waking} {us : List Choice}, s.tapped.after us =
      ⟨[], (c.carryOut k x (before ++ .stop :: later) w).1⟩ →
        (s.tapped.after us).isIdle = true := fun here => by
    rw [here]
    exact isIdle_runUntilIdle x _ w
  exact ⟨zs ++ (us ++ xs), ys, ys', ⟨zs ++ us, List.append_assoc ..⟩,
    ⟨stopped, clear, still, idle last⟩, ⟨stopped, clear, still', idle last'⟩,
    t.carryOut last, t.carryOut last'⟩

/-- **An effect in which the run is stopped** parts twins that are the same, and each step tells the
same in both. -/
private theorem twins_stop (t : s.Tapped xs c) (w : ω) {before later : List Request}
    (same : before.foldl (ask wake) c = before.foldl (ask wake') c)
    (running : (before.foldl (ask wake) c).stopped = false) (different : ¬ ordered) :
    s.Twins (c.carryOut wake x (before ++ .stop :: later) w)
        (c.carryOut wake' x (before ++ .stop :: later) w) ∧
      Indistinct ordered ⟨c, (c.carryOut wake x (before ++ .stop :: later) w).1⟩
        ⟨c, (c.carryOut wake' x (before ++ .stop :: later) w).1⟩ := by
  obtain ⟨zs, ys, ys', after, a, b, t', t''⟩ := exists_parting (x := x) t w same running later
  have looks := a.looksLike b t'.here t''.here
  have stops : (Scene.mk c (c.carryOut wake x (before ++ .stop :: later) w).1).stops = true := by
    have ran := t.running_of_asks running
    have ends : (c.carryOut wake x (before ++ .stop :: later) w).1.stopped = true := by
      have stopped := a.stopped_after
      rwa [t'.here] at stopped
    simp [Scene.stops, ran, ends]
  refine ⟨.parted a b t' t'' _ _, looks, by simp only [Scene.stops, looks.stopped],
    fun k l _ _ orders => absurd (orders stops) different, fun k l hk hl => ?_⟩
  obtain ⟨es, told, hears⟩ := t.exists_news t' (after.trans (List.suffix_append ys zs))
  obtain ⟨es', told', hears'⟩ := t.exists_news t'' (after.trans (List.suffix_append ys' zs))
  rw [hears k hk, hears' l hl]
  refine Report.byStep_eq_of_filter_eq fun n => ?_
  have each := a.told_eq b n
  rw [told, told', List.filter_append, List.filter_append] at each
  rw [List.filter_reverse, List.filter_reverse, List.append_cancel_right each]

/-- In an effect on a run that has wound down nothing happens any more. -/
private theorem exists_silent {zs : List Choice} (a : s.tapped.WindsDown zs ys)
    (t : s.Tapped (ys ++ zs) c) (wake : Waking) (x : Executor ω) (requests : List Request) (w : ω) :
    ∃ us, s.tapped.WindsDown zs (us ++ ys) ∧
      s.Tapped (us ++ ys ++ zs) (c.carryOut wake x requests w).1 ∧
      (Scene.mk c (c.carryOut wake x requests w).1).stops = false ∧
      ∀ k, (Scene.mk c (c.carryOut wake x requests w).1).Attended k →
        (Scene.mk c (c.carryOut wake x requests w).1).news k = [] := by
  obtain ⟨us, next⟩ := t.exists_carryOut wake x requests w
  have idle : (s.tapped.after (us ++ (ys ++ zs))).isIdle = true := by
    rw [next.here]
    exact isIdle_runUntilIdle x _ w
  obtain ⟨es, told, hears⟩ := t.exists_news next (List.suffix_append us _)
  rw [a.told_append idle, List.self_eq_append_left] at told
  have stopped : c.stopped = true := by
    have := a.stopped_after
    rwa [t.here] at this
  refine ⟨us, a.append idle, ?_, by simp [Scene.stops, stopped], fun k hk => ?_⟩
  · rw [List.append_assoc]
    exact next
  · rw [hears k hk, told, List.reverse_nil]

/-- In an effect on twins that have parted nothing happens any more in either of them. -/
private theorem twins_parted {zs ys ys' : List Choice} {c' : Coordinator}
    (a : s.tapped.WindsDown zs ys) (b : s.tapped.WindsDown zs ys') (t : s.Tapped (ys ++ zs) c)
    (t' : s.Tapped (ys' ++ zs) c') (w w' : ω) :
    s.Twins (c.carryOut wake x requests w) (c'.carryOut wake' x requests w') ∧
      Indistinct ordered ⟨c, (c.carryOut wake x requests w).1⟩
        ⟨c', (c'.carryOut wake' x requests w').1⟩ := by
  obtain ⟨us, goes, next, stays, silent⟩ := exists_silent a t wake x requests w
  obtain ⟨us', goes', next', stays', silent'⟩ := exists_silent b t' wake' x requests w'
  exact ⟨.parted goes goes' next next' _ _,
    { looks := goes.looksLike goes' next.here next'.here
      stops := by rw [stays, stays']
      news := fun k l hk hl _ => by rw [silent k hk, silent' l hl]
      byStep := fun k l hk hl => by rw [silent k hk, silent' l hl] }⟩

/-- **An effect leaves twins twins, and nobody can tell them apart in it.** -/
theorem Twins.carryOut {p q : Coordinator × ω} (twins : s.Twins p q) (wake wake' : Waking)
    (x : Executor ω) (requests : List Request) :
    s.Twins (p.1.carryOut wake x requests p.2) (q.1.carryOut wake' x requests q.2) ∧
      Indistinct (wake' = wake) ⟨p.1, (p.1.carryOut wake x requests p.2).1⟩
        ⟨q.1, (q.1.carryOut wake' x requests q.2).1⟩ := by
  cases twins with
  | @same xs c t w =>
    by_cases ordered : wake' = wake
    · exact twins_same t w (by rw [ordered])
    rcases asks_eq_or_exists_stop wake wake' requests c with
      all | ⟨before, later, rfl, same, running⟩
    · exact twins_same t w (by rw [Coordinator.carryOut, Coordinator.carryOut, all])
    · exact twins_stop t w same running ordered
  | parted a b t t' w w' => exact twins_parted a b t t' w w'

/-- **Twins are indistinct in all their scenes.** -/
theorem Twins.scenes {p q : Coordinator × ω} (twins : s.Twins p q) (wake wake' : Waking)
    (x : Executor ω) (effects : List (List Request)) :
    List.Forall₂ (Indistinct (wake' = wake)) (StepFlow.scenes wake x (effects.map .effect) p.1 p.2)
      (StepFlow.scenes wake' x (effects.map .effect) q.1 q.2) := by
  induction effects generalizing p q with
  | nil => exact .nil
  | cons requests rest ih =>
    obtain ⟨later, here⟩ := twins.carryOut wake wake' x requests
    exact .cons here (ih later)

end Effects

end Setup

/-- **Listeners are observers.** Take two runs of one flow with as many workers, whose executors do
the same and whose listeners do not start or stop the run: whichever listeners there are at first,
and whichever are added and removed between the effects, the runs look alike after each effect, and
who attends an effect in one of them hears in it what those who attend it hear in the other. Only in
the effect in which the runs are stopped what is heard of different steps may come in another order,
and only if the workers are woken in another order. -/
theorem Setup.listeners_unnoticed {ω : Type} (s s' : Setup) (flow : s'.flow = s.flow)
    (workers : s'.workers = s.workers) (b : s.registry.Bystanders) (b' : s'.registry.Bystanders)
    (x : Executor ω) (w : ω) (wake wake' : Waking) {os os' : List Occasion}
    (harmless : ∀ o ∈ os, o.Harmless) (harmless' : ∀ o ∈ os', o.Harmless)
    (same : os'.filterMap Occasion.requests? = os.filterMap Occasion.requests?) :
    List.Forall₂ (Indistinct (wake' = wake)) (scenes wake x os s.coordinator w)
      (scenes wake' x os' s'.coordinator w) := by
  have registry : s.coordinator.registry = s.registry := by rw [s.coordinator_eq.2]; rfl
  have registry' : s'.coordinator.registry = s'.registry := by rw [s'.coordinator_eq.2]; rfl
  have shadow := shadowed_scenes wake x os s.coordinator w [] (by rw [registry]; exact b) harmless
  have shadow' :=
    shadowed_scenes wake' x os' s'.coordinator w [] (by rw [registry']; exact b') harmless'
  rw [coordinator_tapped rfl rfl] at shadow
  rw [same, coordinator_tapped flow workers] at shadow'
  have twins : s.Twins (s.tapped.coordinator, w) (s.tapped.coordinator, w) :=
    .same (.initial s) w
  exact forall₂_indistinct shadow shadow' (twins.scenes wake wake' x _)

/-- A setup whose listeners add a channel whenever a step starts, fail whenever one ends, and remove
each other. -/
def Setup.observedSample : Setup :=
  { Setup.sample with
    registry := ⟨[{ listener := .reacting (· matches .started _) (.add .channel) },
      { listener := .reacting (· matches .completed _ _) .panic },
      { listener := .reacting (· matches .started _) (.remove 1) }, { listener := .channel }]⟩
    coordinator := _
    created := rfl }

/-- A rehearsal of the small setup with no listeners, in which the leaf `a` waits to be released. -/
def Rehearsal.unobservedSample : Rehearsal where
  run := Setup.sample.coordinator
  scripts := ⟨[("a", { lines := ["one"], waits := true })]⟩

/-- The rehearsal goes as the run of the same setup with these listeners does, though a silent
listener is added to that in between and removed again. The leaf `a` is invoked and then cancelled,
and the channel hears of it. -/
theorem Setup.listeners_unnoticed_sample :
    List.Forall₂ (Indistinct ((⟨List.reverse, List.reverse_perm⟩ : Waking) = .byName))
      (Rehearsal.unobservedSample.scenes [.effect [.start], .effect [.stop]])
      (scenes ⟨List.reverse, List.reverse_perm⟩ Rehearsal.unobservedSample.executor
        [.subscribe .silent, .effect [.start], .unsubscribe 4, .effect [.stop]]
        Setup.observedSample.coordinator ()) ∧
    (scenes ⟨List.reverse, List.reverse_perm⟩ Rehearsal.unobservedSample.executor
        [.subscribe .silent, .effect [.start], .unsubscribe 4, .effect [.stop]]
        Setup.observedSample.coordinator ()).map (fun p => (p.after.invoked, p.news 3)) =
      [(["a"], [.started "a", .output "a" "one"]),
        (["a"], [.completed "a" 1, .started "g", .completed "b" 1, .completed "g" 1])] := by
  refine ⟨?_, by cbv⟩
  rw [Rehearsal.scenes_eq]
  refine Setup.listeners_unnoticed Setup.sample Setup.observedSample rfl rfl ?_ ?_ _ _ _ _ ?_ ?_ rfl
  · intro m mem
    cases mem
  · intro m mem
    simp only [Setup.observedSample, List.mem_cons, List.not_mem_nil, or_false] at mem
    rcases mem with rfl | rfl | rfl | rfl
    · exact .reacting _ (by simp) (by simp) fun l h => by cases h; exact .channel
    · exact .reacting _ (by simp) (by simp) fun l h => by cases h
    · exact .reacting _ (by simp) (by simp) fun l h => by cases h
    · exact .channel
  · simp [Rehearsal.accepted, Occasion.Harmless]
  · simp [Occasion.Harmless, Listener.Bystander.silent]

end StepFlow
