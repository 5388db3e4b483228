import StepFlow.Proofs.Course.Calls
import StepFlow.Proofs.Course.HandOver

/-! # Which events a move makes

Events are put on the agenda by the move that makes them, and they are told one by one later on. A
start is announced in four places: a group that is committed announces itself, a skip announces the
groups that were claimed for it, and a worker announces its leaf when it takes up a permit or when
the leaf is to be skipped. A line is told when an executor puts it out, and an end when it is
propagated. Nothing else makes an event.

Whatever makes events puts them first, before all other calls that it makes: it **tells** them.

Main statement: `Orderly.tells_fresh`, which events about a step a move makes. -/

namespace StepFlow

/-- Where an element stands in two lists one after the other. -/
theorem append_eq_split {α : Type} {l k pre post : List α} {a : α}
    (h : l ++ k = pre ++ a :: post) :
    (∃ mid, pre = l ++ mid ∧ k = mid ++ a :: post) ∨ ∃ mid, l = pre ++ a :: mid := by
  rcases List.append_eq_append_iff.1 h with ⟨mid, first, last⟩ | ⟨mid, first, last⟩
  · exact .inl ⟨mid, first, last⟩
  · cases mid with
    | nil => exact .inl ⟨[], by simpa using first.symm, by simpa using last.symm⟩
    | cons b mid =>
      rw [List.cons_append, List.cons.injEq] at last
      exact .inr ⟨mid, by rw [first, last.1]⟩

/-! ## Events on an agenda -/

/-- The event that a call is to tell. -/
def Call.event? : Call → Option Event
  | .notify e => some e
  | _ => none

/-- The events that some calls are to tell, in order. -/
def toTell (calls : List Call) : List Event := calls.filterMap Call.event?

@[simp] theorem toTell_nil : toTell [] = [] := rfl

@[simp] theorem toTell_append (l k : List Call) : toTell (l ++ k) = toTell l ++ toTell k :=
  List.filterMap_append

theorem toTell_cons (call : Call) (l : List Call) :
    toTell (call :: l) = call.event?.toList ++ toTell l := by
  unfold toTell
  cases h : call.event? <;> simp [h]

@[simp] theorem toTell_notify (events : List Event) : toTell (events.map .notify) = events := by
  induction events with
  | nil => rfl
  | cons e events ih => rw [List.map_cons, toTell_cons, ih]; rfl

theorem mem_toTell {e : Event} {calls : List Call} :
    e ∈ toTell calls ↔ .notify e ∈ calls := by
  rw [toTell, List.mem_filterMap]
  constructor
  · rintro ⟨call, mem, h⟩
    cases call <;> cases h
    exact mem
  · exact fun mem => ⟨_, mem, rfl⟩

theorem toTell_eq_nil {calls : List Call} (h : ∀ e, .notify e ∉ calls) : toTell calls = [] := by
  rw [List.eq_nil_iff_forall_not_mem]
  exact fun e mem => h e (mem_toTell.1 mem)

/-- Calls **tell** some events if they begin by that and tell no more. -/
def Tells (calls : List Call) (events : List Event) : Prop :=
  ∃ quiet, calls = events.map .notify ++ quiet ∧ toTell quiet = []

namespace Tells

variable {calls : List Call} {events : List Event}

theorem toTell_eq (h : Tells calls events) : toTell calls = events := by
  obtain ⟨quiet, rfl, none⟩ := h
  rw [toTell_append, toTell_notify, none, List.append_nil]

theorem nothing (h : ∀ e, .notify e ∉ calls) : Tells calls [] := ⟨calls, rfl, toTell_eq_nil h⟩

theorem one {e : Event} (h : ∀ e, .notify e ∉ calls) : Tells (.notify e :: calls) [e] :=
  ⟨calls, rfl, toTell_eq_nil h⟩

/-- What stands before an event among calls that tell is told as well. -/
theorem before (h : Tells calls events) {pre post : List Call} {e : Event}
    (split : calls = pre ++ .notify e :: post) :
    ∃ earlier later, events = earlier ++ e :: later ∧ pre = earlier.map .notify := by
  obtain ⟨quiet, rfl, none⟩ := h
  have silent : ∀ k, Call.notify k ∉ quiet := fun k mem => by
    have := mem_toTell.2 mem
    rw [none] at this
    cases this
  rcases append_eq_split split with ⟨mid, -, tail⟩ | ⟨mid, told⟩
  · -- the event would stand among the quiet calls
    exact absurd (by rw [tail]; simp) (silent e)
  · obtain ⟨earlier, rest, rfl, rfl, same⟩ := List.map_eq_append_iff.1 told
    obtain ⟨e', later, rfl, same, -⟩ := List.map_eq_cons_iff.1 same
    rw [Call.notify.injEq] at same
    exact ⟨earlier, later, by rw [same], rfl⟩

end Tells

/-! ## What a call tells -/

namespace Coordinator

/-- The events that a call makes when it is carried out. -/
def tells (c : Coordinator) : Call → List Event
  | .evaluate n =>
    match c.flow.step? n with
    | some s => if s.isGroup ∧ c.directive s ≠ .noop then [.started n] else []
    | none => []
  | .skip _ claimed => (claimed.filter (·.isGroup)).reverse.map fun s => .started s.name
  | .close g => (c.closing? g).toList.map (.completed g)
  | .complete n code => [.completed n code]
  | _ => []

theorem notify_notMem_startCalls (c : Coordinator) (e : Event) : .notify e ∉ c.startCalls := by
  simp [startCalls]

/-- The end of a step is told before anything else follows from it. -/
theorem tells_propagation (c : Coordinator) (n : Name) (code : Int) :
    Tells (c.propagation n code) [.completed n code] := by
  unfold propagation
  simp only [List.cons_append]
  refine .one fun e => ?_
  split <;> simp

theorem tells_skip (c : Coordinator) (g : Name) (claimed : List Step) :
    Tells (c.skip g claimed).1
      ((claimed.filter (·.isGroup)).reverse.map fun s => .started s.name) := by
  refine ⟨(claimed.filter (!·.isGroup)).map (fun s => Call.complete s.name skippedCode) ++
    (claimed.filter (·.isGroup)).map (fun s => Call.close s.name) ++ [.close g], ?_,
    toTell_eq_nil (by simp)⟩
  simp only [skip, List.append_assoc, List.map_map]
  rfl

theorem tells_close (c : Coordinator) (g : Name) :
    Tells (c.close g).1 ((c.closing? g).toList.map (.completed g)) := by
  unfold close closing?
  cases c.progress.get? g with
  | none => exact .nothing fun e => List.not_mem_nil
  | some p =>
    simp only [Option.bind_some]
    split
    · exact c.tells_propagation g _
    · exact .nothing fun e => List.not_mem_nil

/-- A group that is committed announces itself, and a leaf does not. -/
theorem tells_evaluate {c : Coordinator}
    (known : ∀ n s, c.flow.step? n = some s → c.statuses.knows n = true) (n : Name) :
    Tells (c.evaluate n).1 (c.tells (.evaluate n)) := by
  cases hs : c.flow.step? n with
  | none =>
    simp only [tells, evaluate, hs]
    exact .nothing fun e => List.not_mem_nil
  | some s =>
    by_cases decided : c.directive s = .noop
    · rw [evaluate_of_noop hs decided]
      simp only [tells, hs, decided, ne_eq, not_true_eq_false, and_false, if_false]
      exact .nothing fun e => List.not_mem_nil
    · have name := Flow.step?_name hs
      subst name
      have commits := @commit?_of_directive c [] s hs decided
      have change := @change_perform c [] (.evaluate s.name) known
      have same : ∀ {s' : Step} {rest : List Call}, c.flow.step? s'.name = some s' →
          [Call.evaluate s.name] = .evaluate s'.name :: rest → s' = s ∧ rest = [] := by
        intro s' rest found agenda
        obtain ⟨here, rfl⟩ := List.cons.inj agenda
        rw [← Call.evaluate.inj here, hs] at found
        exact ⟨(Option.some.inj found).symm, rfl⟩
      rw [List.append_nil] at change
      -- what is committed is a leaf, a group that runs or a group that is skipped
      cases change with
      | leaf agenda agenda' found isLeaf =>
        obtain ⟨rfl, rfl⟩ := same found agenda
        simp only [perform] at agenda'
        rw [agenda']
        simp only [tells, hs, isLeaf, Bool.false_eq_true, false_and, if_false]
        exact .nothing fun e => List.not_mem_nil
      | group agenda agenda' found isGroup =>
        obtain ⟨rfl, rfl⟩ := same found agenda
        simp only [perform, List.cons_append] at agenda'
        rw [agenda']
        simp only [tells, hs, isGroup, decided, ne_eq, not_false_eq_true, and_self, if_true]
        exact .one (by simp)
      | skip agenda agenda' found isGroup =>
        obtain ⟨rfl, rfl⟩ := same found agenda
        simp only [perform] at agenda'
        rw [agenda']
        simp only [tells, hs, isGroup, decided, ne_eq, not_false_eq_true, and_self, if_true]
        exact .one (by simp)
      | idle _ _ _ _ _ _ commit? => rw [commits] at commit?; cases commit?
      | handOver _ _ _ _ _ _ _ commit? => rw [commits] at commit?; cases commit?
      | mark agenda => cases agenda
      | finish agenda cause => cases agenda; rcases cause with h | ⟨h, -⟩ <;> cases h
      | count agenda => cases agenda
      | down agenda => cases agenda

/-- **What a call tells.** -/
theorem tells_perform {c : Coordinator}
    (known : ∀ n s, c.flow.step? n = some s → c.statuses.knows n = true) (call : Call) :
    Tells (c.perform call).1 (c.tells call) := by
  cases call with
  | evaluate n => exact tells_evaluate known n
  | skip g claimed => exact c.tells_skip g claimed
  | close g => exact c.tells_close g
  | complete n code => exact c.tells_propagation n code
  | stop | notify | deliver | childFinished | launch =>
    refine .nothing fun e mem => ?_
    rcases (makes_of_mem_perform mem).of_notify with ⟨_, h⟩ | ⟨_, _, h⟩ | ⟨_, _, h | h⟩ <;> cases h
  | subscribe | unsubscribe | countDown | pause => exact .nothing fun e => List.not_mem_nil

end Coordinator

/-- The lines that the executor of a step puts out in a move. -/
def Moment.emits (m : Moment) (x : Choice) (n : Name) : List String :=
  match m.agenda, x with
  | [], .turn (.executor k) burst =>
    if k = n ∧ .executor k ∈ m.run.ready ∧ (m.run.part? k).isSome then burst.lines else []
  | _, _ => []

namespace Coordinator

/-! ## What a turn tells -/

/-- A worker **rests** between two states if it keeps its stage, or queues and is handed a
permit. -/
def Rests (c d : Coordinator) (n : Name) : Prop :=
  d.stages.get? n = c.stages.get? n ∨
    (c.stages.get? n = some .queued ∧ d.stages.get? n = some .granted)

/-- A worker **announces** the start of its leaf when it takes up a permit, and also when the leaf
is to be skipped. -/
def Announces (c d : Coordinator) (n : Name) : Prop :=
  (c.stages.get? n ≠ some .starting ∧ d.stages.get? n = some .starting) ∨
    (c.stages.get? n = some (.dispatched true) ∧ d.stages.get? n = some .done)

instance (c d : Coordinator) (n : Name) : Decidable (c.Announces d n) :=
  inferInstanceAs (Decidable (_ ∨ _))

section Turns

variable {c d : Coordinator} {n k : Name}

theorem Rests.of_eq (h : d.stages = c.stages) : c.Rests d k := .inl (by rw [h])

theorem not_announces_of_rests (h : c.Rests d n) : ¬ c.Announces d n := by
  rcases h with same | ⟨queued, granted⟩
  · rintro (⟨before, now⟩ | ⟨before, now⟩)
    · exact before (same ▸ now)
    · rw [same, before] at now
      cases now
  · rintro (⟨-, now⟩ | ⟨-, now⟩) <;> rw [granted] at now <;> cases now

/-- A worker between two stages that are not announced announces nothing. -/
theorem not_announces_of_stages {s s' : Stage} (before : c.stages.get? n = some s)
    (now : d.stages.get? n = some s') (start : s' ≠ .starting)
    (skip : s ≠ .dispatched true) : ¬ c.Announces d n := by
  rintro (⟨-, h⟩ | ⟨h, -⟩)
  · rw [now] at h
    exact start (Option.some.inj h)
  · rw [before] at h
    exact skip (Option.some.inj h)

theorem stages_setStage (s : Stage) : (c.setStage n s).stages.get? n = some s := by
  rw [setStage, Table.get?_set, if_pos rfl]

theorem stages_setStage_of_ne (s : Stage) (h : n ≠ k) :
    (c.setStage n s).stages.get? k = c.stages.get? k := by
  rw [setStage, Table.get?_set, if_neg h]

/-- A permit that is given back is handed to a worker that queues, or to none. -/
theorem rests_giveBack (c : Coordinator) (k : Name) : c.Rests c.giveBack k := by
  by_cases queued : c.stages.get? k = some .queued
  · unfold giveBack
    split
    · exact .inl rfl
    · rename_i n rest _
      unfold grant
      split
      · -- the permit is handed to the worker that has queued longest
        rw [Rests, stages_wake, Table.get?_set]
        by_cases same : n = k
        · rw [if_pos same]
          exact .inr ⟨queued, rfl⟩
        · rw [if_neg same]
          exact .inl rfl
      · exact .inl rfl
  · exact .inl (congrArg Prod.fst (post_giveBack_of_ne c k queued))

/-- What a worker does in its turn leaves all other workers at rest. -/
theorem WorkerTurn.rests {calls : List Call} (turn : WorkerTurn c n calls d) (h : n ≠ k) :
    c.Rests d k := by
  have gives : ∀ {b : Coordinator}, b.stages.get? k = c.stages.get? k → c.Rests b.giveBack k := by
    intro b same
    have rests := rests_giveBack b k
    rw [Rests, same] at rests
    exact rests
  have others := fun s => @stages_setStage_of_ne c n k s h
  -- a turn touches another worker only by giving the permit back
  cases turn with
  | rest => exact .inl rfl
  | skip | leave | take | queue | unqueue | start => exact .inl (others _)
  | decline | finish => exact gives (others _)
  | cut => exact gives (by rw [stages_cancel, others])

/-- A worker that gives its permit back when it is done is done. -/
theorem stages_done_giveBack {b : Coordinator} (h : b.stages.get? n = some .done) :
    b.giveBack.stages.get? n = some .done := by
  rcases rests_giveBack b n with same | ⟨queued, -⟩
  · rw [same, h]
  · rw [h] at queued
    cases queued

/-- What calls tell **voices** a turn if it is the starts that are announced in it, one at most. -/
def Voices (c d : Coordinator) (calls : List Call) : Prop :=
  ∃ events, Tells calls events ∧ events.length ≤ 1 ∧
    ∀ k, events.filter (·.step = k) = if c.Announces d k then [.started k] else []

namespace WorkerTurn

variable {calls : List Call} (turn : WorkerTurn c n calls d)

include turn

private theorem voices_of_silent (quiet : ∀ e, .notify e ∉ calls) (idle : ¬ c.Announces d n) :
    c.Voices d calls := by
  refine ⟨[], .nothing quiet, Nat.zero_le _, fun k => ?_⟩
  rw [if_neg]
  · rfl
  · by_cases same : n = k
    · exact same ▸ idle
    · exact not_announces_of_rests (turn.rests same)

private theorem voices_of_start {last : Call} (same : calls = [.notify (.started n), last])
    (quiet : last.event? = none) (now : c.Announces d n) : c.Voices d calls := by
  refine ⟨[.started n], ⟨[last], same, by rw [toTell_cons, quiet]; rfl⟩, Nat.le_refl _,
    fun k => ?_⟩
  by_cases here : n = k
  · rw [if_pos (here ▸ now)]
    simp [Event.step, here]
  · rw [if_neg (not_announces_of_rests (turn.rests here))]
    simp [Event.step, here]

/-- **A worker tells of the start of its leaf when it announces it**, and of nothing else. -/
theorem voices : c.Voices d calls := by
  have spec := turn
  cases turn with
  | rest => exact spec.voices_of_silent (by simp) (not_announces_of_rests (.inl rfl))
  | skip here => exact spec.voices_of_start rfl rfl (.inr ⟨here, stages_setStage _⟩)
  | take here | start here =>
    exact spec.voices_of_start rfl rfl (.inl ⟨by rw [here]; decide, stages_setStage _⟩)
  | leave here | queue here | unqueue here =>
    exact spec.voices_of_silent (by simp)
      (not_announces_of_stages here (stages_setStage _) (by decide) (by decide))
  | decline here | finish here =>
    exact spec.voices_of_silent (by simp) (not_announces_of_stages here
      (stages_done_giveBack (stages_setStage _)) (by decide) (by decide))
  | cut here =>
    exact spec.voices_of_silent (by simp) (not_announces_of_stages here
      (stages_done_giveBack (by rw [stages_cancel]; exact stages_setStage _)) (by decide)
      (by decide))

end WorkerTurn

end Turns

theorem ExecutorTurn.stages {c d : Coordinator} {n : Name} {part : Option Part}
    (turn : ExecutorTurn c n part d) : d.stages = c.stages := by
  cases turn <;> rfl

/-- The turn of an executor leaves the stages of all workers as they are. -/
theorem stages_choose_executor (c : Coordinator) (k : Name) (burst : Burst) :
    (c.choose (.turn (.executor k) burst)).run.stages = c.stages := by
  rw [choose]
  split
  · have spec := executorTurn_spec { c with ready := c.ready.erase (.executor k) } k
    simp only [Coordinator.turn]
    cases hp : ({ c with ready := c.ready.erase (.executor k) } : Coordinator).part? k with
    | none => rw [hp] at spec; exact spec.stages
    | some p => rw [hp] at spec; exact spec.stages
  · rfl

/-- What is **told after a choice**, if these calls are on the agenda then and the coordinator is
left like this: of each step, its start if its worker announces it, and the lines that its executor
puts out. A start is told alone. -/
def Relays (c : Coordinator) (x : Choice) (calls : List Call) (d : Coordinator) : Prop :=
  ∃ events, Tells calls events ∧ (∀ n, .started n ∈ events → events.length ≤ 1) ∧
    ∀ n, events.filter (·.step = n) =
      (if c.Announces d n then [.started n] else []) ++
        ((Moment.mk [] c).emits x n).map (.output n)

/-- A choice that tells nothing is one after which no worker has moved and no executor is asked. -/
theorem Relays.of_silent {c d : Coordinator} {x : Choice} {calls : List Call}
    (quiet : ∀ e, .notify e ∉ calls) (same : d.stages = c.stages)
    (mute : ∀ n, (Moment.mk [] c).emits x n = []) : c.Relays x calls d := by
  refine ⟨[], .nothing quiet, fun _ _ => Nat.zero_le _, fun n => ?_⟩
  rw [if_neg (not_announces_of_rests (.of_eq same)), mute]
  rfl

/-- The turn of a worker tells what the worker has to tell. -/
theorem relays_worker (c : Coordinator) {k : Name} {burst : Burst} (isReady : .worker k ∈ c.ready) :
    c.Relays (.turn (.worker k) burst) (c.choose (.turn (.worker k) burst)).agenda
      (c.choose (.turn (.worker k) burst)).run := by
  simp only [choose, if_pos isReady]
  obtain ⟨events, told, one, ofStep⟩ :=
    (workerTurn_spec { c with ready := c.ready.erase (.worker k) } k).voices
  refine ⟨events, told, fun _ _ => one, fun n => ?_⟩
  rw [ofStep n]
  exact (List.append_nil _).symm

/-- The turn of an executor tells the lines of its burst, if it was asked for one. -/
theorem relays_executor (c : Coordinator) {k : Name} {burst : Burst}
    (isReady : .executor k ∈ c.ready) :
    c.Relays (.turn (.executor k) burst) (c.choose (.turn (.executor k) burst)).agenda
      (c.choose (.turn (.executor k) burst)).run := by
  have stages := c.stages_choose_executor k burst
  have part : ({ c with ready := c.ready.erase (.executor k) } : Coordinator).part? k =
      c.part? k := rfl
  simp only [choose, if_pos isReady, Coordinator.turn, part] at stages ⊢
  cases hp : c.part? k with
  | none =>
    rw [hp] at stages
    refine .of_silent (by simp) stages fun n => ?_
    simp [Moment.emits, hp]
  | some p =>
    rw [hp] at stages
    refine ⟨burst.lines.map (.output k), ⟨[.pause k burst.outcome], ?_, rfl⟩,
      fun n h => by simp at h, fun n => ?_⟩
    · rw [List.map_map]
      rfl
    · rw [if_neg (not_announces_of_rests (.of_eq stages)), List.nil_append]
      by_cases same : k = n
      · subst same
        rw [List.filter_eq_self.2 (by simp [Event.step])]
        simp [Moment.emits, hp, isReady]
      · simp [Moment.emits, same, Event.step]

/-- **What a choice tells** of a step: its start if its worker announces it, and the lines that its
executor puts out. -/
theorem relays_choose (c : Coordinator) (x : Choice) :
    c.Relays x (c.choose x).agenda (c.choose x).run := by
  cases x with
  | request r =>
    cases r with
    | start => exact .of_silent c.notify_notMem_startCalls rfl fun _ => rfl
    | stop => exact .of_silent (by simp [choose]) rfl fun _ => rfl
    | release n =>
      refine .of_silent (by simp [choose]) ?_ fun _ => rfl
      simp only [choose, release]
      split
      · exact stages_wake ..
      · split <;> rfl
  | subscribe | unsubscribe => exact .of_silent (by simp [choose]) rfl fun _ => rfl
  | turn t burst =>
    by_cases isReady : t ∈ c.ready
    · cases t with
      | worker k => exact c.relays_worker isReady
      | executor k => exact c.relays_executor isReady
    · -- a task that is not ready gets no turn
      simp only [choose, if_neg isReady]
      refine .of_silent (by simp) rfl fun n => ?_
      cases t <;> simp [Moment.emits, isReady]

end Coordinator

/-- An executor puts out lines when it is asked to begin or to go on. -/
theorem Moment.of_emits {m : Moment} {x : Choice} {n : Name} (h : m.emits x n ≠ []) :
    m.agenda = [] ∧ (m.next x).run.stages = m.run.stages ∧
      ∃ e, m.run.executions.get? n = some e ∧ e.isLive = true := by
  unfold Moment.emits at h
  split at h
  · rename_i k burst agenda
    split at h
    · rename_i asked
      obtain ⟨rfl, -, asked⟩ := asked
      refine ⟨agenda, ?_, ?_⟩
      · rw [Moment.next, agenda]
        exact m.run.stages_choose_executor k burst
      · unfold Coordinator.part? at asked
        split at asked
        · rename_i spawned
          exact ⟨_, spawned, rfl⟩
        · rename_i resumed
          exact ⟨_, resumed, rfl⟩
        · cases asked
    · exact absurd rfl h
  · exact absurd rfl h

/-! ## What calls do to workers -/

open Coordinator

/-- While something is left to do on the spot workers have no turn: a leaf that is committed gets a
worker, and a worker whose start was announced goes on. -/
theorem Shift.stage_of_busy {m m' : Moment} (s : Shift m m') (busy : m.agenda ≠ []) (n : Name) :
    m.run.Rests m'.run n ∨
      (m.status n = .waiting ∧ ∃ skip, m'.run.stages.get? n = some (.dispatched skip)) ∨
      (m.run.stages.get? n = some .starting ∧
        (m'.run.stages.get? n = some .running ∨ m'.run.stages.get? n = some .done)) := by
  cases s with
  | keep _ _ _ _ _ same => exact .inl (.of_eq same.stages)
  | @dispatch k t skip _ _ _ waits _ run' =>
    rw [run']
    -- the leaf that is committed has waited, and all other workers stay where they are
    by_cases same : k = n
    · subst same
      refine .inr (.inl ⟨waits, skip, ?_⟩)
      rw [Coordinator.dispatch, stages_wake, Table.get?_set, if_pos rfl]
    · refine .inl (.inl ?_)
      rw [Coordinator.dispatch, stages_wake, Table.get?_set, if_neg same]
  | worker agenda => exact absurd agenda busy
  | executor agenda => exact absurd agenda busy
  | @launch k _ _ _ here _ _ run' =>
    rw [run']
    by_cases same : k = n
    · subst same
      exact .inr (.inr ⟨here, .inl (by rw [stages_wake]; exact stages_setStage _)⟩)
    · refine .inl (.inl ?_)
      rw [stages_wake]
      exact stages_setStage_of_ne _ same
  | @abandon k _ _ _ here _ _ run' =>
    rw [run']
    by_cases same : k = n
    · subst same
      exact .inr (.inr ⟨here, .inr (stages_done_giveBack (stages_setStage _))⟩)
    · -- another worker may be handed the permit
      have rests := rests_giveBack (m.run.setStage k .done) n
      rw [Rests, stages_setStage_of_ne _ same] at rests
      exact .inl rests
  | ended _ _ _ _ run' => exact .inl (.of_eq (by rw [run', stages_wake]; rfl))
  | resume _ _ _ _ _ same => exact .inl (.of_eq same.stages)
  | stop _ _ _ _ run' => exact .inl (.of_eq (by rw [run']))

/-- Workers announce starts in their turns only. -/
theorem Shift.not_announces {m m' : Moment} (s : Shift m m') (busy : m.agenda ≠ []) (n : Name) :
    ¬ m.run.Announces m'.run n := by
  rcases s.stage_of_busy busy n with rests | ⟨-, skip, now⟩ | ⟨before, now⟩
  · exact not_announces_of_rests rests
  · rintro (⟨-, h⟩ | ⟨-, h⟩) <;> rw [now] at h <;> cases h
  · rintro (⟨h, -⟩ | ⟨h, -⟩)
    · exact h before
    · rw [before] at h
      cases h

/-! ## What a move tells -/

namespace Moment

/-- The calls that a move puts on the agenda. -/
def fresh (m : Moment) (x : Choice) : List Call :=
  match m.agenda with
  | [] => (m.run.choose x).agenda
  | call :: _ => (m.run.perform call).1

theorem agenda_next (m : Moment) (x : Choice) :
    (m.next x).agenda = m.fresh x ++ m.agenda.tail := by
  obtain ⟨agenda, c⟩ := m
  cases agenda with
  | nil => exact (List.append_nil _).symm
  | cons call rest => rfl

/-- The steps that were claimed for a group whose end begins in the next move. -/
def marked (m : Moment) : List Name :=
  match m.agenda with
  | .skip _ claimed :: _ => claimed.map (·.name)
  | _ => []

/-- Whether a move announces the **start** of a step: the step is a group that is committed, or that
was claimed for a skip which is carried out, or a leaf whose worker announces it. -/
def Starts (m : Moment) (x : Choice) (n : Name) : Prop :=
  (m.run.flow.isGroup n = true ∧ (m.commit?.map (·.1) = some n ∨ n ∈ m.marked)) ∨
    m.run.Announces (m.next x).run n

instance (m : Moment) (x : Choice) (n : Name) : Decidable (m.Starts x n) :=
  inferInstanceAs (Decidable (_ ∨ _))

end Moment

/-- The events of some ends of a step. -/
def endsOf (n : Name) (ends : List (Name × Int)) : List Event :=
  (ends.filter (·.1 = n)).map fun e => .completed n e.2

/-- The end that an event is about. -/
def Event.end? : Event → Option (Name × Int)
  | .completed n code => some (n, code)
  | .started _ | .output _ _ => none

/-- An end is propagated by a move that tells of it. -/
theorem Moment.ended?_of_tells {call : Call} {rest : List Call} {c : Coordinator}
    {events : List Event} (told : Tells (c.perform call).1 events) :
    (Moment.mk (call :: rest) c).ended? = events.head?.bind Event.end? := by
  obtain ⟨quiet, calls, none⟩ := told
  simp only [Moment.ended?, calls]
  -- if no event is told, what comes first is not told either
  cases events with
  | nil =>
    cases quiet with
    | nil => rfl
    | cons call quiet => cases call <;> first | rfl | cases none
  | cons e events => cases e <;> rfl

/-- Starts of a step among the starts of some steps. -/
theorem filter_started (n : Name) (l : List Name) :
    (l.map Event.started).filter (·.step = n) = List.replicate (l.count n) (.started n) := by
  induction l with
  | nil => rfl
  | cons k l ih =>
    rw [List.map_cons, List.filter_cons, ih, List.count_cons]
    by_cases same : k = n <;> simp [Event.step, same, List.replicate_succ]

/-- A step that is started by what a call tells is the only thing it tells of, or was claimed for a
skip that is carried out. -/
theorem Moment.started_of_tells {m : Moment} {call : Call} {rest : List Call}
    (agenda : m.agenda = call :: rest) {n : Name} (h : .started n ∈ m.run.tells call) :
    (m.run.tells call).length ≤ 1 ∨ n ∈ m.marked := by
  cases call with
  | evaluate k =>
    refine .inl ?_
    simp only [Coordinator.tells]
    split
    · split <;> simp
    · simp
  | skip g claimed =>
    obtain ⟨t, ht, same⟩ := List.mem_map.1 h
    cases same
    refine .inr ?_
    rw [Moment.marked, agenda]
    exact List.mem_map_of_mem (List.mem_filter.1 (List.mem_reverse.1 ht)).1
  | close g => simp [Coordinator.tells] at h
  | complete k code => simp [Coordinator.tells] at h
  | _ => cases h

namespace Orderly

variable {f : Flow} {m : Moment} (o : Orderly f m)

include o

theorem knows_of_step? {n : Name} {s : Step} (h : m.run.flow.step? n = some s) :
    m.run.statuses.knows n = true := by
  rw [o.flow] at h
  rw [o.knows, Flow.contains_of_step? h]

/-- A claimed group announces itself when its skip is carried out. -/
private theorem filter_skip {g : Name} {claimed : List Step} {rest : List Call}
    (agenda : m.agenda = .skip g claimed :: rest) (n : Name) :
    ((claimed.filter (·.isGroup)).reverse.map fun s => Event.started s.name).filter
        (·.step = n) =
      if m.run.flow.isGroup n = true ∧ n ∈ claimed.map (·.name) then [.started n] else [] := by
  obtain ⟨-, steps, -⟩ := o.skips g claimed (by rw [agenda]; exact List.mem_cons_self)
  have once := o.covers_le n
  rw [Moment.weight, agenda, total_cons, Call.covers] at once
  have names : (claimed.filter (·.isGroup)).reverse.map (fun s => Event.started s.name) =
      ((claimed.filter (·.isGroup)).reverse.map (·.name)).map .started := by
    rw [List.map_map]
    rfl
  rw [names, filter_started, List.map_reverse, List.count_reverse, count_groups steps, ← o.flow]
  -- no step is claimed twice
  by_cases isGroup : m.run.flow.isGroup n = true
  · by_cases mem : n ∈ claimed.map (·.name)
    · have pos := List.count_pos_iff.2 mem
      rw [if_pos isGroup, if_pos ⟨isGroup, mem⟩,
        show (claimed.map (·.name)).count n = 1 by omega]
      rfl
    · rw [if_pos isGroup, if_neg fun h => mem h.2, List.count_eq_zero.2 mem]
      rfl
  · rw [if_neg isGroup, if_neg fun h => isGroup h.1]
    rfl

/-- **What a call tells of a step**: its start, if it is a group that is committed or marked by the
call, and its end, if the call propagates it. -/
private theorem filter_tells {call : Call} {rest : List Call} (agenda : m.agenda = call :: rest)
    (n : Name) :
    (m.run.tells call).filter (·.step = n) =
      (if m.run.flow.isGroup n = true ∧ (m.commit?.map (·.1) = some n ∨ n ∈ m.marked) then
          [.started n]
        else []) ++
        endsOf n ((m.run.tells call).head?.bind Event.end?).toList := by
  simp only [Moment.commit?, Moment.marked, agenda]
  cases call with
  | evaluate k =>
    simp only [Coordinator.tells, List.not_mem_nil, or_false]
    cases hs : m.run.flow.step? k with
    | none => simp [endsOf]
    | some s =>
      by_cases decided : m.run.directive s = .noop
      · simp [decided, endsOf]
      · by_cases same : k = n
        · subst same
          cases group : s.isGroup <;>
            simp [decided, endsOf, Flow.isGroup_of_step? hs, group, Event.step, Event.end?]
        · cases group : s.isGroup <;>
            simp [decided, endsOf, same, group, Event.step, Event.end?]
  | skip g claimed =>
    have mine := o.filter_skip agenda n
    simp only [Coordinator.tells, Option.map_none, reduceCtorEq, false_or]
    rw [mine]
    -- a skip tells of starts only
    cases (claimed.filter (·.isGroup)).reverse <;> simp [endsOf, Event.end?]
  | close g =>
    simp only [Coordinator.tells, Option.map_none, reduceCtorEq, List.not_mem_nil, or_false,
      and_false, if_false, List.nil_append]
    cases m.run.closing? g with
    | none => rfl
    | some code => by_cases same : g = n <;> simp [endsOf, Event.step, Event.end?, same]
  | complete k code =>
    by_cases same : k = n <;> simp [Coordinator.tells, endsOf, Event.step, Event.end?, same]
  | _ => simp [Coordinator.tells, endsOf]

/-- **What a move tells of a step**: its start if the move announces it, the lines that its executor
puts out, and its end if that is propagated. A start is told with other events only when a skip
begins. -/
theorem tells_fresh (x : Choice) : ∃ events, Tells (m.fresh x) events ∧
    (∀ n, .started n ∈ events → events.length ≤ 1 ∨ n ∈ m.marked) ∧
    ∀ n, events.filter (·.step = n) =
      (if m.Starts x n then [.started n] else []) ++ (m.emits x n).map (.output n) ++
        endsOf n m.ended?.toList := by
  have shift := o.shift_next x
  have known : ∀ n s, m.run.flow.step? n = some s → m.run.statuses.knows n = true :=
    fun _ _ => o.knows_of_step?
  obtain ⟨agenda, c⟩ := m
  cases agenda with
  | nil =>
    -- with nothing left to do no group is committed or marked, and no end is propagated
    obtain ⟨events, told, one, ofStep⟩ := c.relays_choose x
    refine ⟨events, told, fun n h => .inl (one n h), fun n => ?_⟩
    rw [ofStep n]
    have starts : (Moment.mk [] c).Starts x n ↔ c.Announces (c.choose x).run n := by
      simp [Moment.Starts, Moment.commit?, Moment.marked, Moment.next]
    simp only [starts, endsOf, Moment.ended?, Option.toList_none, List.filter_nil, List.map_nil,
      List.append_nil]
  | cons call rest =>
    have told := tells_perform known call
    refine ⟨_, told, fun n h => Moment.started_of_tells rfl h, fun n => ?_⟩
    -- otherwise no worker has its turn and no executor is asked
    have quiet : ¬ Announces c ((Moment.mk (call :: rest) c).next x).run n :=
      shift.not_announces (List.cons_ne_nil _ _) n
    have mute : (Moment.mk (call :: rest) c).emits x n = [] := rfl
    rw [Moment.ended?_of_tells told, mute, o.filter_tells rfl n]
    simp only [Moment.Starts, quiet, or_false, List.map_nil, List.append_nil]

end Orderly

end StepFlow
