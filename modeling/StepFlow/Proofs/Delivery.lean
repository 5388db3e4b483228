import StepFlow.Proofs.Course.Service

/-! # Deliveries

A registry is used by adding and removing listeners and by notifying it of events, in any order.
Whoever hears of an event may add and remove listeners as well, themselves included, and may fail
halfway through that. None of it changes who hears of the event: those do who are registered when
the registry is notified. So each listener receives the events of which the registry was notified
after the listener was added and before it was removed, each once and in order.

The **journal** of operations lists what took place, one act after the other. It is read off the
listeners and says when each of them came and went, which the operations alone do not.

In a run, what a listener does may lead to further events while others are still to hear of the one
that it reacts to. They may hear of them in another order, but they still hear of each once.

Main statements: `Registry.hearing_cons` and `Registry.delivers_exactly_once`. -/

namespace StepFlow

/-- The act that a reaction amounts to for a registry. -/
def Reaction.act? : Reaction → Option Registry.Act
  | .add l => some (.add l)
  | .remove number => some (.remove number)
  | .start | .stop | .panic => none

namespace Registry

/-! ## Operations -/

/-- One **operation** on a registry. -/
inductive Operation where
  /-- A listener is added. -/
  | add (listener : Listener)
  /-- The listener with a number is removed. -/
  | remove (number : Nat)
  /-- Those who are registered are notified of an event. -/
  | notify (event : Event)

/-- The registry after one operation. -/
def operate (r : Registry) : Operation → Registry
  | .add l => r.add l
  | .remove number => r.remove number
  | .notify e => r.notify e

/-- The registry after operations, the latest first. -/
def operated (r : Registry) : List Operation → Registry
  | [] => r
  | op :: earlier => (r.operated earlier).operate op

/-! ## The journal -/

/-- The acts that take place while some listeners hear of an event in turn, the latest first: each
of them hears of it and then does what it does in reaction to it. -/
def hearing (r : Registry) (e : Event) : List Nat → List Act
  | [] => []
  | k :: rest =>
    let (reactions, told) := r.receive k e
    hearing (reactions.foldl react told) e rest ++
      ((reactions.filterMap Reaction.act?).reverse ++ [.hear])

/-- **What takes place in a callback is what the listener asks for before it first fails.** It has
heard of the event by then, and the others hear of it afterwards. -/
theorem hearing_cons {r : Registry} {k : Nat} {m : Member} (here : r.members[k]? = some m)
    (e : Event) (rest : List Nat) : ∃ done, .panic ∉ done ∧
      (m.listener.respond m.received e = done ∨
        ∃ lost, m.listener.respond m.received e = done ++ .panic :: lost) ∧
      r.hearing e (k :: rest) =
        hearing (done.foldl react ⟨r.members.set k { m with received := e :: m.received }⟩) e
            rest ++
          ((done.filterMap Reaction.act?).reverse ++ [.hear]) := by
  refine ⟨_, Reaction.panic_notMem_untilPanic _, Reaction.eq_untilPanic _, ?_⟩
  have told : r.receive k e = (Reaction.untilPanic (m.listener.respond m.received e),
      ⟨r.members.set k { m with received := e :: m.received }⟩) := by
    simp [receive, here, List.modify_eq_set_getElem?]
  rw [hearing, told]

/-- The acts that take place in one operation, the latest first. -/
def acts (r : Registry) : Operation → List Act
  | .add l => [.add l]
  | .remove number => [.remove number]
  | .notify e => r.hearing e r.registered ++ [.tell e]

/-- The **journal** of operations: the acts that take place in them, the latest first. -/
def journal (r : Registry) : List Operation → List Act
  | [] => []
  | op :: earlier => (r.operated earlier).acts op ++ r.journal earlier

/-! ## What is in the journal takes place -/

namespace Service

/-- Reactions concern the registry only, each in turn. -/
theorem after_reactions (s : Service) (reactions : List Reaction) :
    s.after (reactions.filterMap Reaction.act?).reverse =
      ⟨reactions.foldl react s.registry, s.due⟩ := by
  induction reactions generalizing s with
  | nil => rfl
  | cons reaction rest ih =>
    rw [List.filterMap_cons, List.foldl_cons]
    cases reaction with
    | add l =>
      rw [Reaction.act?, List.reverse_cons, after_append, ih]
      rfl
    | remove j =>
      rw [Reaction.act?, List.reverse_cons, after_append, ih]
      rfl
    | start | stop | panic =>
      -- these concern nobody here
      exact ih s

/-- The listeners that are due an event hear of it one after the other. -/
theorem after_hearing (r : Registry) (e : Event) (ks : List Nat) (due : List (Nat × Event)) :
    after ⟨r, ks.map (·, e) ++ due⟩ (r.hearing e ks) = ⟨r.deliver e ks, due⟩ := by
  induction ks generalizing r with
  | nil => rfl
  | cons k rest ih =>
    -- the first of them hears of the event and reacts to it before the others hear of it
    rw [hearing, after_append, after_append, deliver]
    have heard : after ⟨r, (k :: rest).map (·, e) ++ due⟩ [.hear] =
        ⟨(r.receive k e).2, rest.map (·, e) ++ due⟩ := rfl
    rw [heard, after_reactions]
    exact ih _

/-- An operation leaves nothing due. -/
theorem after_acts (r : Registry) (op : Operation) :
    after ⟨r, []⟩ (r.acts op) = ⟨r.operate op, []⟩ := by
  cases op with
  | add l => rfl
  | remove j => rfl
  | notify e =>
    rw [acts, after_append]
    exact after_hearing r e r.registered []

end Service

/-- **The acts in the journal lead to the registry after the operations**, with nothing due. -/
theorem serve_journal (r : Registry) (ops : List Operation) :
    r.serve (r.journal ops) = ⟨r.operated ops, []⟩ := by
  induction ops with
  | nil => rfl
  | cons op earlier ih =>
    have here : Service.after ⟨r, []⟩ (r.journal earlier) = ⟨r.operated earlier, []⟩ := ih
    rw [serve, journal, Service.after_append, here, Service.after_acts]
    rfl

/-! ## Operations are not nested -/

/-- Acts that tell nothing keep events unnested. -/
theorem Unnested.append {r : Registry} {h later : List Act} (unnested : r.Unnested h)
    (quiet : ∀ e, .tell e ∉ later) : r.Unnested (later ++ h) := by
  induction later with
  | nil => exact unnested
  | cons a later ih =>
    have rest := ih fun e mem => quiet e (List.mem_cons_of_mem _ mem)
    cases a with
    | tell e => exact absurd List.mem_cons_self (quiet e)
    | add l => exact rest
    | remove j => exact rest
    | hear => exact rest

/-- While an event is heard of, no other one is told. -/
theorem tell_notMem_hearing (r : Registry) (e e' : Event) (ks : List Nat) :
    .tell e' ∉ r.hearing e ks := by
  induction ks generalizing r with
  | nil => exact List.not_mem_nil
  | cons k rest ih =>
    intro mem
    rw [hearing, List.mem_append, List.mem_append, List.mem_reverse, List.mem_filterMap] at mem
    rcases mem with later | ⟨reaction, -, tells⟩ | here
    · exact ih _ later
    · cases reaction <;> cases tells
    · cases List.mem_singleton.1 here

/-- **Operations are not nested.** -/
theorem unnested_journal (r : Registry) (ops : List Operation) : r.Unnested (r.journal ops) := by
  induction ops with
  | nil => trivial
  | cons op earlier ih =>
    cases op with
    | add l => exact ih
    | remove j => exact ih
    | notify e =>
      have idle : (r.serve (r.journal earlier)).due = [] := by rw [serve_journal]
      have told : r.Unnested (.tell e :: r.journal earlier) := ⟨idle, ih⟩
      rw [journal, acts, List.append_assoc]
      exact told.append fun e' => tell_notMem_hearing _ e e' _

/-! ## Who receives what -/

/-- After operations each listener has received what was told while it was present, in order. -/
theorem eventsOf_operated (r : Registry) (ops : List Operation) (k : Nat) :
    (r.operated ops).eventsOf k = r.eventsOf k ++ (r.toldTo k (r.journal ops)).reverse := by
  have received := (r.delivers (r.journal ops)).inOrder (r.unnested_journal ops) k
  rw [serve_journal] at received
  rw [eventsOf_eq, eventsOf_eq, ← List.reverse_append, ← received]
  rfl

/-- When a run has nothing to carry out, everybody has received what was told while they were
present. -/
theorem received_of_agenda (s : Setup) {xs : List Choice} (idle : (s.after xs).agenda = [])
    (k : Nat) : ((s.after xs).run.registry.received k).Perm
      (s.registry.toldTo k (s.acts xs) ++ s.registry.received k) := by
  have received := (s.registry.delivers (s.acts xs)).received k
  have none : (s.after xs).service.dueTo k = [] := by
    rw [Service.dueTo, Moment.service, idle]
    rfl
  rw [← s.service_after, none] at received
  exact received

/-- **Every event is delivered exactly once** to those who are registered when it is told, whatever
acts a registry carries out and however they are nested. For operations the acts are those of the
journal: they leave nothing due, so each listener has received what was told while it was present,
in order. For a run they are those of the calls: what is due is what the agenda is to deliver, and
when there is nothing on the agenda everybody has received each event once. -/
theorem delivers_exactly_once :
    (∀ (r : Registry) (h : List Act), Delivers r h (r.serve h)) ∧
      (∀ (r : Registry) (ops : List Operation), r.serve (r.journal ops) = ⟨r.operated ops, []⟩ ∧
        ∀ k, (r.operated ops).eventsOf k = r.eventsOf k ++ (r.toldTo k (r.journal ops)).reverse) ∧
      ∀ (s : Setup) (xs : List Choice), s.registry.serve (s.acts xs) = (s.after xs).service ∧
        ((s.after xs).agenda = [] → ∀ k, ((s.after xs).run.registry.received k).Perm
          (s.registry.toldTo k (s.acts xs) ++ s.registry.received k)) := by
  refine ⟨delivers, fun r ops => ⟨?_, ?_⟩, fun s xs => ⟨?_, ?_⟩⟩
  · exact r.serve_journal ops
  · exact r.eventsOf_operated ops
  · exact (s.service_after xs).symm
  · exact received_of_agenda s

/-- A listener that removes the next one, adds another one and fails. The next one still hears of
the event that is being told, and who was added hears of the one after it. -/
example :
    ((operated {} [.notify (.started "b"), .notify (.started "a"), .add .channel, .add (.of
        { respond := fun _ _ => [.remove 1, .add .channel, .panic, .remove 0] })]).members.map
      (·.received)) = [[.started "b", .started "a"], [.started "a"], [.started "b"], []] := by
  decide

end Registry

end StepFlow
