import StepFlow.Proofs.Course.EventsInOrder

/-! # Who hears what is told

An event is delivered to the listeners that are registered when it is told, one after the other in
the order in which they were added, and each of them may react before the next one hears of it. A
listener that starts or stops the run makes the events that follow from that at once, and those who
come after it hear of them first. So a listener hears everything in the order in which it is told if
no listener before it does so: then it is never more than the event that is being told behind.

Main statement: `Setup.follows`, that such a listener is up to date or is about to be. -/

namespace StepFlow

/-! ## Moves and the registry -/

namespace Registry

/-- What the listener with a number has received, the latest first. -/
def received (r : Registry) (k : Nat) : List Event := ((r.members[k]?).map (·.received)).getD []

theorem eventsOf_eq (r : Registry) (k : Nat) : r.eventsOf k = (r.received k).reverse := by
  unfold eventsOf received
  cases r.members[k]? <;> rfl

@[simp] theorem received_add (r : Registry) (l : Listener) (k : Nat) :
    (r.add l).received k = r.received k := by
  unfold received add
  rw [List.getElem?_append]
  split
  · rfl
  · -- who comes last has received nothing
    rename_i late
    rw [List.getElem?_eq_none (Nat.le_of_not_lt late)]
    cases k - r.members.length <;> rfl

@[simp] theorem received_remove (r : Registry) (number k : Nat) :
    (r.remove number).received k = r.received k := by
  unfold received remove
  rw [List.getElem?_modify]
  by_cases same : number = k <;> cases r.members[k]? <;> simp [same]

theorem received_receive (r : Registry) (number k : Nat) (e : Event) :
    (r.receive number e).2.received k =
      if number = k ∧ k < r.members.length then e :: r.received k else r.received k := by
  unfold receive
  cases hm : r.members[number]? with
  | none =>
    rw [if_neg]
    rintro ⟨rfl, known⟩
    rw [List.getElem?_eq_getElem known] at hm
    cases hm
  | some m =>
    simp only [received, List.getElem?_modify]
    by_cases same : number = k
    · subst same
      have known : number < r.members.length := (List.getElem?_eq_some_iff.1 hm).1
      simp [known]
    · simp [same]

@[simp] theorem length_receive (r : Registry) (number : Nat) (e : Event) :
    (r.receive number e).2.members.length = r.members.length := by
  unfold receive
  split <;> simp

theorem lt_of_isRegistered {r : Registry} {k : Nat} (h : r.isRegistered k = true) :
    k < r.members.length := by
  by_contra late
  rw [isRegistered, List.getElem?_eq_none (Nat.le_of_not_lt late)] at h
  cases h

/-- An addition registers the number that it returns. -/
theorem isRegistered_add (r : Registry) (l : Listener) (k : Nat) :
    (r.add l).isRegistered k = (k = r.nextNumber || r.isRegistered k) := by
  unfold isRegistered add nextNumber
  rw [List.getElem?_append]
  split
  · rename_i known
    simp [Nat.ne_of_lt known]
  · rename_i late
    rw [List.getElem?_eq_none (Nat.le_of_not_lt late)]
    by_cases last : k = r.members.length
    · simp [last]
    · have beyond : k - r.members.length ≠ 0 := by omega
      simp [last, beyond]

/-- A removal takes its number off. -/
theorem isRegistered_remove (r : Registry) (j k : Nat) :
    (r.remove j).isRegistered k = (k ≠ j && r.isRegistered k) := by
  unfold isRegistered remove
  rw [List.getElem?_modify]
  by_cases same : j = k
  · cases r.members[k]? <;> simp [same]
  · cases r.members[k]? <;> simp [same, Ne.symm same]

/-- Nobody is registered again who was added before. -/
theorem isRegistered_of_add {r : Registry} {l : Listener} {k : Nat}
    (h : (r.add l).isRegistered k = true) (known : k < r.members.length) :
    r.isRegistered k = true := by
  rw [isRegistered_add, Bool.or_eq_true, decide_eq_true_eq] at h
  exact h.resolve_left (Nat.ne_of_lt known)

theorem isRegistered_of_remove {r : Registry} {number k : Nat}
    (h : (r.remove number).isRegistered k = true) : r.isRegistered k = true := by
  rw [isRegistered_remove, Bool.and_eq_true] at h
  exact h.2

theorem isRegistered_receive (r : Registry) (number k : Nat) (e : Event) :
    (r.receive number e).2.isRegistered k = r.isRegistered k := by
  unfold receive
  split
  · rfl
  · rw [isRegistered, List.getElem?_modify, isRegistered]
    by_cases same : number = k <;> cases r.members[k]? <;> simp [same]

/-- An event is told to a registered listener after those that were added before it. -/
theorem registered_split {r : Registry} {k : Nat} (h : r.isRegistered k = true) :
    ∃ pre post, r.registered = pre ++ k :: post ∧ (∀ j ∈ pre, j < k) ∧ k ∉ post := by
  obtain ⟨pre, post, split⟩ := List.append_of_mem (mem_registered.2 h)
  have sorted : r.registered.Pairwise (· < ·) := List.pairwise_lt_range.filter _
  rw [split, List.pairwise_append, List.pairwise_cons] at sorted
  refine ⟨pre, post, split, fun j hj => sorted.2.2 j hj k List.mem_cons_self, fun again => ?_⟩
  exact Nat.lt_irrefl k (sorted.2.1.1 k again)

end Registry

namespace Coordinator

@[simp] theorem registry_wake (c : Coordinator) (t : Task) : (c.wake t).registry = c.registry := by
  unfold wake
  split <;> rfl

@[simp] theorem registry_giveBack (c : Coordinator) : c.giveBack.registry = c.registry := by
  unfold giveBack
  split
  · rfl
  · unfold grant
    split
    · simp
    · rfl

@[simp] theorem registry_cancel (c : Coordinator) (n : Name) :
    (c.cancel n).registry = c.registry := by
  unfold cancel
  split <;> simp [setExecution]

/-- The registry after a call. -/
def registryAfter (c : Coordinator) : Call → Registry
  | .subscribe l => c.registry.add l
  | .unsubscribe number => c.registry.remove number
  | .deliver number e => (c.registry.receive number e).2
  | _ => c.registry

/-- Listeners come, go and receive by calls of their own only. -/
theorem registry_perform (c : Coordinator) (call : Call) :
    (c.perform call).2.registry = c.registryAfter call := by
  cases call with
  | evaluate n =>
    simp only [perform, registryAfter]
    rcases c.evaluate_cases n with idle | ⟨s, -, -, -, ⟨-, run⟩ | ⟨-, skip⟩⟩
    · rw [idle]
    · rw [run, commitRun]
      split
      · rfl
      · exact registry_wake _ _
    · rw [skip, commitSkip]
      split
      · rfl
      · exact registry_wake _ _
  | close g =>
    simp only [perform, close, registryAfter]
    split
    · rfl
    · split <;> rfl
  | childFinished g code =>
    simp only [perform, childFinished, registryAfter]
    split <;> rfl
  | launch n =>
    simp only [perform, launch, registryAfter]
    split
    · split
      · rw [registry_giveBack]; rfl
      · rw [registry_wake]; rfl
    · rfl
  | pause n outcome =>
    simp only [perform, pause, registryAfter]
    split
    · split
      · rw [registry_wake]; rfl
      · split <;> rfl
    · rfl
  | stop =>
    simp only [perform, stop, registryAfter]
    split <;> rfl
  | subscribe | unsubscribe | notify | deliver | skip | complete | countDown => rfl

/-- A turn has no effect on the registry by itself. -/
theorem registry_turn {ω : Type} (x : Executor ω) (c : Coordinator) (w : ω) (t : Task) :
    (c.turn x w t).2.1.registry = c.registry := by
  cases t with
  | worker n =>
    have turn := workerTurn_spec c n
    simp only [Coordinator.turn]
    generalize (c.workerTurn n).1 = calls at turn
    generalize (c.workerTurn n).2 = d at turn
    cases turn with
    | rest | skip | leave | take | queue | unqueue | start => rfl
    | decline | finish => exact registry_giveBack _
    | cut => exact (registry_giveBack _).trans (registry_cancel _ _)
  | executor n =>
    have turn := executorTurn_spec c n
    simp only [Coordinator.turn]
    cases hp : c.part? n with
    | none =>
      simp only [hp] at turn
      generalize c.executorTurn n = d at turn ⊢
      cases turn <;> rfl
    | some part => cases part <;> rfl

/-- A choice has no effect on the registry by itself. -/
theorem registry_choose (c : Coordinator) (x : Choice) :
    (c.choose x).run.registry = c.registry := by
  cases x with
  | request r =>
    cases r with
    | start | stop => rfl
    | release n =>
      simp only [choose, release]
      split
      · rw [registry_wake]; rfl
      · split <;> rfl
  | subscribe | unsubscribe => rfl
  | turn t burst =>
    rw [choose]
    split
    · exact registry_turn _ _ _ _
    · rfl

/-- No choice delivers anything by itself. -/
theorem deliver_notMem_choose (c : Coordinator) (x : Choice) (k : Nat) (e : Event) :
    .deliver k e ∉ (c.choose x).agenda := by
  intro mem
  rcases of_mem_choose mem with requested | ⟨n, turn⟩ | ⟨n, burst, agenda⟩
  · cases requested
  · generalize (c.choose x).agenda = calls at turn mem
    generalize (c.choose x).run = d at turn
    cases turn <;> simp at mem
  · rw [agenda] at mem
    simp [burstCalls] at mem

end Coordinator

/-- The registry after a move. -/
theorem Moment.registry_next (m : Moment) (x : Choice) : (m.next x).run.registry =
    match m.agenda with
    | [] => m.run.registry
    | call :: _ => m.run.registryAfter call := by
  obtain ⟨agenda, c⟩ := m
  cases agenda with
  | nil => exact c.registry_choose x
  | cons call rest => exact c.registry_perform call

/-- Nobody who was added is forgotten. -/
theorem Moment.length_members_le (m : Moment) (xs : List Choice) :
    m.run.registry.members.length ≤ (m.after xs).run.registry.members.length := by
  induction xs with
  | nil => exact Nat.le_refl _
  | cons x earlier ih =>
    refine ih.trans ?_
    rw [after_cons, registry_next]
    cases (m.after earlier).agenda with
    | nil => exact Nat.le_refl _
    | cons call rest =>
      cases call with
      | subscribe l => simp [Coordinator.registryAfter]
      | unsubscribe number => simp [Coordinator.registryAfter]
      | deliver number e => simp [Coordinator.registryAfter]
      | _ => exact Nat.le_refl _

/-- Who is registered after a move and was added before it was registered before it. -/
theorem Moment.isRegistered_of_next {m : Moment} {x : Choice} {k : Nat}
    (h : (m.next x).run.registry.isRegistered k = true)
    (known : k < m.run.registry.members.length) : m.run.registry.isRegistered k = true := by
  rw [registry_next] at h
  cases agenda : m.agenda with
  | nil => rwa [agenda] at h
  | cons call rest =>
    rw [agenda] at h
    cases call with
    | subscribe l => exact Registry.isRegistered_of_add h known
    | unsubscribe number => exact Registry.isRegistered_of_remove h
    | deliver number e => exact (Registry.isRegistered_receive ..).symm.trans h
    | _ => exact h

/-! ## Listeners that keep up -/

/-- Whether the listener with a number starts or stops the run in the next move. -/
def Moment.Asks (m : Moment) (k : Nat) : Prop :=
  ∃ e rest, m.agenda = .deliver k e :: rest ∧
    ∃ r ∈ (m.run.registry.receive k e).1, r = .start ∨ r = .stop

/-- A call that comes before the turn of a listener: listeners before it hear of the event, and they
add or remove listeners. -/
def Call.Aside (k : Nat) : Call → Prop
  | .deliver j _ => j < k
  | .subscribe _ | .unsubscribe _ => True
  | _ => False

/-- A listener that had received some events before the run **keeps up** with what is told in it. -/
inductive KeepsUp (k : Nat) (base : List Event) (m : Moment) (h : History) : Prop where
  /-- It has received all that was told. -/
  | upToDate (none : ∀ e, .deliver k e ∉ m.agenda)
      (received : m.run.registry.received k = h.told ++ base)
  /-- It is about to receive what is being told, and has received all before that. -/
  | due {e : Event} {pre post : List Call} {earlier : List Event}
      (known : k < m.run.registry.members.length)
      (agenda : m.agenda = pre ++ .deliver k e :: post) (aside : ∀ call ∈ pre, call.Aside k)
      (none : ∀ e', .deliver k e' ∉ post) (told : h.told = e :: earlier)
      (received : m.run.registry.received k = earlier ++ base)

namespace KeepsUp

variable {k : Nat} {base : List Event} {m : Moment} {h : History}

/-- What a listener hears of makes calls aside, unless it starts or stops the run. -/
private theorem aside_of_reaction {j : Nat} {e : Event} {rest : List Call} (known : j < k)
    (agenda : m.agenda = .deliver j e :: rest) (first : ∀ j < k, ¬ m.Asks j) {call : Call}
    (mem : call ∈ (m.run.perform (.deliver j e)).1) : call.Aside k := by
  obtain ⟨r, hr, mem⟩ := List.mem_flatMap.1 mem
  have quiet : ¬ (r = .start ∨ r = .stop) := fun asks =>
    first j known ⟨e, rest, agenda, r, hr, asks⟩
  cases r with
  | start => exact absurd (.inl rfl) quiet
  | stop => exact absurd (.inr rfl) quiet
  | add l => rw [List.mem_singleton.1 mem]; trivial
  | remove number => rw [List.mem_singleton.1 mem]; trivial
  | panic => cases mem

section Moves

variable {call : Call} {rest : List Call} (agenda : m.agenda = call :: rest) (x : Choice)

include agenda

/-- What carrying out a call does to the agenda, to the registry and to what was told. -/
private theorem of_next : (m.next x).agenda = (m.run.perform call).1 ++ rest ∧
    (m.next x).run.registry = m.run.registryAfter call ∧
    History.told (m :: h) = call.event?.toList ++ h.told := by
  refine ⟨?_, ?_, ?_⟩
  · rw [m.agenda_next, Moment.fresh, agenda, List.tail_cons]
  · rw [m.registry_next, agenda]
  · rw [History.told_cons, Moment.told?, agenda]
    rfl

/-- When an event is told, a registered listener is about to receive it. -/
private theorem next_of_told {e : Event} (tells : call = .notify e)
    (none : ∀ e, .deliver k e ∉ m.agenda) (received : m.run.registry.received k = h.told ++ base)
    (registered : m.run.registry.isRegistered k = true) : KeepsUp k base (m.next x) (m :: h) := by
  subst tells
  obtain ⟨agenda', registry, told⟩ := of_next (h := h) agenda x
  obtain ⟨pre, post, split, before, after⟩ := Registry.registered_split registered
  refine @KeepsUp.due _ _ _ _ e (pre.map (.deliver · e)) (post.map (.deliver · e) ++ rest)
    h.told ?_ ?_ ?_ ?_ told ?_
  · rw [registry]
    exact Registry.lt_of_isRegistered registered
  · have delivers : (m.run.perform (.notify e)).1 =
        m.run.registry.registered.map (.deliver · e) := rfl
    rw [agenda', delivers, split]
    simp only [List.map_append, List.map_cons, List.append_assoc, List.cons_append]
  · intro call mem
    obtain ⟨j, hj, rfl⟩ := List.mem_map.1 mem
    exact before j hj
  · intro e' mem
    rcases List.mem_append.1 mem with new | old
    · obtain ⟨j, hj, same⟩ := List.mem_map.1 new
      cases same
      exact after hj
    · exact none e' (by rw [agenda]; exact List.mem_cons_of_mem _ old)
  · rw [registry]
    exact received

/-- A listener that is up to date stays so while nothing is told. -/
private theorem next_of_quiet (quiet : call.event? = none)
    (none : ∀ e, .deliver k e ∉ m.agenda) (received : m.run.registry.received k = h.told ++ base) :
    KeepsUp k base (m.next x) (m :: h) := by
  obtain ⟨agenda', registry, told⟩ := of_next (h := h) agenda x
  rw [quiet, Option.toList_none, List.nil_append] at told
  refine .upToDate (fun e mem => ?_) ?_
  · rw [agenda'] at mem
    rcases List.mem_append.1 mem with new | old
    · rw [(Coordinator.makes_of_mem_perform new).of_deliver] at quiet
      cases quiet
    · exact none e (by rw [agenda]; exact List.mem_cons_of_mem _ old)
  · rw [registry, told, ← received]
    cases call with
    | subscribe l => exact Registry.received_add ..
    | unsubscribe number => exact Registry.received_remove ..
    | deliver number e =>
      refine (Registry.received_receive ..).trans (if_neg fun same => ?_)
      exact none e (by rw [agenda, same.1]; exact List.mem_cons_self)
    | _ => rfl

/-- A listener that receives what it was about to receive is up to date. -/
private theorem next_of_turn {e : Event} {earlier : List Event} (turn : call = .deliver k e)
    (known : k < m.run.registry.members.length) (none : ∀ e', .deliver k e' ∉ rest)
    (told : h.told = e :: earlier) (received : m.run.registry.received k = earlier ++ base) :
    KeepsUp k base (m.next x) (m :: h) := by
  subst turn
  obtain ⟨agenda', registry, told'⟩ := of_next (h := h) agenda x
  refine .upToDate (fun e' mem => ?_) ?_
  · rw [agenda'] at mem
    rcases List.mem_append.1 mem with new | old
    · cases (Coordinator.makes_of_mem_perform new).of_deliver
    · exact none e' old
  · rw [registry, told', told]
    refine (Registry.received_receive ..).trans ?_
    rw [if_pos ⟨rfl, known⟩, received]
    rfl

/-- A listener is still about to receive what it was about to receive after a call aside. -/
private theorem next_of_aside {e : Event} {pre post : List Call} {earlier : List Event}
    (here : call.Aside k) (known : k < m.run.registry.members.length)
    (split : rest = pre ++ .deliver k e :: post) (aside : ∀ call ∈ pre, call.Aside k)
    (none : ∀ e', .deliver k e' ∉ post) (told : h.told = e :: earlier)
    (received : m.run.registry.received k = earlier ++ base) (first : ∀ j < k, ¬ m.Asks j) :
    KeepsUp k base (m.next x) (m :: h) := by
  obtain ⟨agenda', registry, told'⟩ := of_next (h := h) agenda x
  have quiet : call.event? = Option.none := by cases call <;> first | rfl | cases here
  rw [quiet, Option.toList_none, List.nil_append, told] at told'
  refine @KeepsUp.due _ _ _ _ e ((m.run.perform call).1 ++ pre) post earlier ?_ ?_ ?_ none told' ?_
  · rw [registry]
    cases call with
    | subscribe l => exact (Registry.length_add ..).symm ▸ Nat.lt_succ_of_lt known
    | unsubscribe number => simpa [Coordinator.registryAfter] using known
    | deliver number e' => simpa [Coordinator.registryAfter] using known
    | _ => exact known
  · rw [agenda', split]
    exact (List.append_assoc ..).symm
  · intro c mem
    rcases List.mem_append.1 mem with new | old
    · -- only what another listener asks for is new, and none before this one asks for a start or stop
      cases call with
      | deliver j e' => exact aside_of_reaction here agenda first new
      | subscribe l => cases new
      | unsubscribe number => cases new
      | _ => cases here
    · exact aside c old
  · rw [registry, ← received]
    cases call with
    | subscribe l => exact Registry.received_add ..
    | unsubscribe number => exact Registry.received_remove ..
    | deliver j e' =>
      refine (Registry.received_receive ..).trans (if_neg fun same => ?_)
      exact Nat.lt_irrefl k (same.1 ▸ here)
    | _ => cases here

end Moves

/-- **A listener keeps up** while it is registered and none before it starts or stops the run. -/
theorem next (f : KeepsUp k base m h) (x : Choice)
    (registered : ∀ e rest, m.agenda = .notify e :: rest → m.run.registry.isRegistered k = true)
    (first : ∀ j < k, ¬ m.Asks j) : KeepsUp k base (m.next x) (m :: h) := by
  cases f with
  | upToDate none received =>
    cases agenda : m.agenda with
    | nil =>
      -- a choice tells and delivers nothing
      have told : History.told (m :: h) = h.told := by
        rw [History.told_cons, Moment.told?, agenda]
        rfl
      refine .upToDate (fun e mem => ?_) ?_
      · rw [m.agenda_next, Moment.fresh, agenda, List.tail_nil, List.append_nil] at mem
        exact m.run.deliver_notMem_choose x k e mem
      · rw [m.registry_next, agenda, told]
        exact received
    | cons call rest =>
      cases event : call.event? with
      | some e =>
        have tells : call = .notify e := by cases call <;> cases event; rfl
        exact next_of_told agenda x tells none received (registered e rest (tells ▸ agenda))
      | none => exact next_of_quiet agenda x event none received
  | @due e pre post earlier known split aside none told received =>
    -- it is its turn when no call aside is left
    cases pre with
    | nil => exact next_of_turn split x rfl known none told received
    | cons head pre =>
      exact next_of_aside split x (aside head List.mem_cons_self) known rfl
        (fun c hc => aside c (List.mem_cons_of_mem _ hc)) none told received first

end KeepsUp

/-! ## Listeners that attend a run -/

namespace Setup

/-- A listener **attends** a run if it was registered before anybody asked for it, is registered
still, and no listener before it has started or stopped the run. -/
structure Attends (s : Setup) (k : Nat) (xs : List Choice) : Prop where
  /-- It was registered before a start or a stop was requested. -/
  joined : ∃ later earlier, xs = later ++ earlier ∧ s.asked earlier = false ∧
    (s.after earlier).run.registry.isRegistered k = true
  /-- It is registered. -/
  stays : (s.after xs).run.registry.isRegistered k = true
  /-- No listener before it has started or stopped the run. -/
  first : ∀ m ∈ s.past xs, ∀ j < k, ¬ m.Asks j

variable {s : Setup} {k : Nat} {x : Choice} {earlier : List Choice}

/-- Who attends a run attended it before, once it was asked for. -/
theorem Attends.before (a : s.Attends k (x :: earlier)) (asked : s.asked earlier = true) :
    s.Attends k earlier := by
  obtain ⟨later, first, split, unasked, registered⟩ := a.joined
  cases later with
  | nil =>
    -- the run was asked for later than that
    have split : x :: earlier = first := split
    rw [← split, Setup.asked, Moment.asked, Bool.or_eq_false_iff] at unasked
    rw [Setup.asked, unasked.1] at asked
    cases asked
  | cons y later =>
    obtain ⟨rfl, rfl⟩ := List.cons.inj split
    have known := Registry.lt_of_isRegistered registered
    have lasts := (s.after first).length_members_le later
    rw [Setup.after, ← Moment.after_append] at lasts
    exact
      { joined := ⟨later, first, rfl, unasked, registered⟩
        stays := Moment.isRegistered_of_next a.stays (Nat.lt_of_lt_of_le known lasts)
        first := fun m hm => a.first m (List.mem_cons_of_mem _ hm) }

/-- **Who attends a run keeps up with what is told in it**, and before the run is asked for there is
nothing to keep up with. -/
theorem follows (s : Setup) (k : Nat) (xs : List Choice)
    (a : s.asked xs = false ∨ s.Attends k xs) :
    KeepsUp k (s.start.run.registry.received k) (s.after xs) (s.past xs) := by
  induction xs with
  | nil => exact .upToDate (fun e h => by cases h) rfl
  | cons x earlier ih =>
    cases asked : s.asked earlier with
    | false =>
      -- before the run is asked for nothing is told to anybody
      have quiet := ((s.sound earlier).watched.unasked asked).2.2.2
      refine (ih (.inl asked)).next x (fun e rest agenda => ?_) fun j _ asks => ?_
      · have := quiet (.notify e) (by rw [agenda]; exact List.mem_cons_self)
        cases this
      · obtain ⟨e, rest, agenda, -⟩ := asks
        have := quiet (.deliver j e) (by rw [agenda]; exact List.mem_cons_self)
        cases this
    | true =>
      rcases a with unasked | a
      · rw [Setup.asked, Moment.asked, Bool.or_eq_false_iff] at unasked
        rw [Setup.asked, unasked.1] at asked
        cases asked
      · have before := a.before asked
        exact (ih (.inr before)).next x (fun _ _ _ => before.stays)
          (a.first _ List.mem_cons_self)

/-- What a listener has **heard** in a run. -/
def heard (s : Setup) (k : Nat) (xs : List Choice) : List Event :=
  ((s.after xs).run.registry.eventsOf k).drop (s.start.run.registry.eventsOf k).length

/-- Who attends a run has heard all that was told, but for an event that is being told. -/
theorem told_eq_heard_append {xs : List Choice} (a : s.Attends k xs) :
    ∃ due, History.told (s.past xs) = due ++ (s.heard k xs).reverse ∧
      ((s.after xs).agenda = [] → due = []) := by
  have heard : ∀ {new : List Event}, (s.after xs).run.registry.received k =
      new ++ s.start.run.registry.received k → (s.heard k xs).reverse = new := by
    intro new received
    rw [Setup.heard, Registry.eventsOf_eq, Registry.eventsOf_eq, received, List.reverse_append,
      List.drop_left, List.reverse_reverse]
  cases s.follows k xs (.inr a) with
  | upToDate none received => exact ⟨[], by rw [heard received]; rfl, fun _ => rfl⟩
  | @due e pre post earlier known agenda aside none told received =>
    refine ⟨[e], by rw [heard received, told]; rfl, fun empty => ?_⟩
    rw [agenda] at empty
    simp at empty

/-- What a listener that attends a run has heard is the beginning of all that is told. -/
theorem heard_isPrefix {xs : List Choice} (a : s.Attends k xs) :
    s.heard k xs <+: tidings (s.after xs) (s.past xs) := by
  obtain ⟨due, told, -⟩ := told_eq_heard_append a
  rw [tidings, told, List.reverse_append, List.reverse_reverse, List.append_assoc]
  exact List.prefix_append ..

/-- What a listener that attends a run is about to receive was told. -/
theorem told_of_deliver {xs : List Choice} (a : s.Attends k xs) {e : Event} {rest : List Call}
    (agenda : (s.after xs).agenda = .deliver k e :: rest) : e ∈ History.told (s.past xs) := by
  cases s.follows k xs (.inr a) with
  | upToDate none received => exact absurd (by rw [agenda]; exact List.mem_cons_self) (none e)
  | @due e' pre post earlier known split aside none told received =>
    rw [agenda] at split
    cases pre with
    | nil =>
      cases split
      rw [told]
      exact List.mem_cons_self
    | cons head pre =>
      -- it is not aside of itself
      obtain ⟨rfl, -⟩ := List.cons.inj split
      exact absurd (aside _ List.mem_cons_self) (Nat.lt_irrefl k)

end Setup

end StepFlow
