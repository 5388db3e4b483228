import StepFlow.Table

/-! # Events and listeners

What happens to a step is told as **events**: it started, it put out a line, it completed with an
exit code. A **listener** is told the events and may react to each of them: it may ask for a start
or a stop, add another listener, remove one, or fail.

A listener is given by its answer to an event after the events it has received before, so it may
keep any state that it can compute from them. Since it may add itself or a copy, the listeners that
come from one need not come to an end, and a listener is a tree without an end rather than a term: a
behaviour for every chain of additions. A failing listener loses the rest of its reactions to that
event and nothing else.

The **registry** numbers listeners in the order in which they were added and never forgets one: a
listener that was removed is kept with what it had received, but gets nothing that begins later.

Main statements: `Listener.behaviour_of` and `Listener.behaviour_ofState`, that a listener may have
any behaviour and that states which add each other make listeners; `Reaction.eq_untilPanic`, which
reactions take place; `Registry.mem_registered`, who is told an event that begins now. -/

namespace StepFlow

/-- An **event** in the life of a step. -/
inductive Event where
  /-- A step was committed and starts. -/
  | started (step : Name)
  /-- A leaf put out a line. -/
  | output (step : Name) (line : String)
  /-- A step ended with an exit code. -/
  | completed (step : Name) (code : Int)
deriving Repr, DecidableEq

/-- The step that an event is about. -/
def Event.step : Event → Name
  | .started s => s
  | .output s _ => s
  | .completed s _ => s

/-! ## Behaviours -/

/-- One **reaction** to an event, with whatever stands for a listener that it adds. -/
inductive ReactionOf (α : Type) where
  /-- Start the run. -/
  | start
  /-- Stop the run. -/
  | stop
  /-- Add a listener. -/
  | add (listener : α)
  /-- Remove the listener with a number. -/
  | remove (number : Nat)
  /-- Fail. -/
  | panic

/-- The reaction with something else for the listener that it adds. -/
def ReactionOf.map {α β : Type} (f : α → β) : ReactionOf α → ReactionOf β
  | .start => .start
  | .stop => .stop
  | .add a => .add (f a)
  | .remove number => .remove number
  | .panic => .panic

@[simp] theorem ReactionOf.map_id {α : Type} (r : ReactionOf α) : r.map id = r := by
  cases r <;> rfl

/-- The **behaviour** of a listener, with whatever stands for the listeners that it adds. -/
structure Behaviour (α : Type) where
  /-- Whether what the listener receives can be read later. -/
  isChannel : Bool := false
  /-- How it reacts to an event after the events it received before, the latest first. -/
  respond : List Event → Event → List (ReactionOf α) := fun _ _ => []

/-- The behaviour with something else for the listeners that it adds. -/
def Behaviour.map {α β : Type} (f : α → β) (b : Behaviour α) : Behaviour β where
  isChannel := b.isChannel
  respond past e := (b.respond past e).map (·.map f)

@[simp] theorem Behaviour.map_id {α : Type} (b : Behaviour α) : b.map id = b := by
  simp [map]

/-! ## Listeners -/

/-- An **addition** of one listener by another: what the other had received before, the latest
first, the event that it reacted to, and the place among its reactions. -/
structure Addition where
  /-- What was received before. -/
  past : List Event
  /-- The event that was reacted to. -/
  event : Event
  /-- The place among the reactions. -/
  place : Nat

/-- A **listener**. It may add others at every event, and these again others, itself or a copy among
them, so there need be no end to the listeners that come from it. Each of them comes by finitely
many additions, though, and a listener is given by what comes by which additions. -/
structure Listener where ofNodes ::
  /-- The behaviour of the listener that comes by some additions, the first one first. -/
  node : List Addition → Behaviour Unit

/-- A reaction of a listener. -/
abbrev Reaction : Type := ReactionOf Listener

namespace Listener

/-- The listener that comes from another by an addition. -/
def child (l : Listener) (a : Addition) : Listener := ⟨fun later => l.node (a :: later)⟩

/-- The behaviour of a listener. -/
def behaviour (l : Listener) : Behaviour Listener where
  isChannel := (l.node []).isChannel
  respond past e :=
    ((l.node []).respond past e).mapIdx fun place r => r.map fun _ => l.child ⟨past, e, place⟩

/-- Whether what the listener receives can be read later. -/
def isChannel (l : Listener) : Bool := l.behaviour.isChannel

/-- How the listener reacts to an event after those received before, the latest first. -/
def respond (l : Listener) : List Event → Event → List Reaction := l.behaviour.respond

/-- The listener with a behaviour. -/
def of (b : Behaviour Listener) : Listener where
  node
    | [] => b.map fun _ => ()
    | a :: later =>
      match (b.respond a.past a.event)[a.place]? with
      | some (.add l) => l.node later
      | _ => {}

/-- The behaviour that comes from a state by some additions, when states behave in some way and add
states. -/
def nodeOfState {σ : Type} (behave : σ → Behaviour σ) : σ → List Addition → Behaviour Unit
  | s, [] => (behave s).map fun _ => ()
  | s, a :: later =>
    match ((behave s).respond a.past a.event)[a.place]? with
    | some (.add t) => nodeOfState behave t later
    | _ => {}

/-- The listener that a state stands for, when states behave in some way and add states. -/
def ofState {σ : Type} (behave : σ → Behaviour σ) (s : σ) : Listener := ⟨nodeOfState behave s⟩

/-- A listener that keeps what it receives and does not react. -/
def channel : Listener := .of { isChannel := true }

/-- A listener that neither keeps nor does anything. -/
def silent : Listener := .of {}

/-- A listener that reacts in one way to the events of one kind, and to no other. -/
def reacting (applies : Event → Bool) (reaction : Reaction) : Listener :=
  .of { respond := fun _ e => if applies e then [reaction] else [] }

instance : Inhabited Listener := ⟨silent⟩

/-- A listener behaves in a way if its node does and the right ones come from it. -/
private theorem behaviour_eq {α : Type} {l : Listener} {b : Behaviour α} {f : α → Listener}
    (here : l.node [] = b.map fun _ => ())
    (added : ∀ past e place a, (b.respond past e)[place]? = some (.add a) →
      l.child ⟨past, e, place⟩ = f a) : l.behaviour = b.map f := by
  rw [behaviour, here, Behaviour.map, Behaviour.map]
  congr 1
  funext past e
  refine List.ext_getElem? fun place => ?_
  rw [List.getElem?_mapIdx, List.getElem?_map, List.getElem?_map]
  cases found : (b.respond past e)[place]? with
  | none => rfl
  | some r =>
    cases r with
    | add a => simp [ReactionOf.map, added past e place a found]
    | start | stop | remove | panic => rfl

/-- **Every behaviour is that of a listener.** -/
@[simp] theorem behaviour_of (b : Behaviour Listener) : (of b).behaviour = b := by
  rw [behaviour_eq (b := b) (f := id) rfl, Behaviour.map_id]
  intro past e place l found
  simp only [child, of, found, id_eq]

/-- **States that add states make listeners.** The listener that a state stands for behaves as the
state does, and adds the listeners that the added states stand for; a state may add itself. -/
@[simp] theorem behaviour_ofState {σ : Type} (behave : σ → Behaviour σ) (s : σ) :
    (ofState behave s).behaviour = (behave s).map (ofState behave) := by
  refine behaviour_eq rfl fun past e place t found => ?_
  simp only [child, ofState, nodeOfState, found]

@[simp] theorem respond_of (b : Behaviour Listener) : (of b).respond = b.respond := by
  rw [respond, behaviour_of]

end Listener

/-- The reactions that take place: those before the first failure. -/
def Reaction.untilPanic : List Reaction → List Reaction
  | [] => []
  | .panic :: _ => []
  | r :: rest => r :: untilPanic rest

/-- No failure takes place. -/
theorem Reaction.panic_notMem_untilPanic (reactions : List Reaction) :
    .panic ∉ untilPanic reactions := by
  induction reactions with
  | nil => exact List.not_mem_nil
  | cons r rest ih => cases r <;> simp [untilPanic, ih]

/-- Either all reactions take place, or they break off at a failure. -/
theorem Reaction.eq_untilPanic (reactions : List Reaction) :
    reactions = untilPanic reactions ∨
      ∃ lost, reactions = untilPanic reactions ++ .panic :: lost := by
  induction reactions with
  | nil => exact .inl rfl
  | cons r rest ih =>
    cases r with
    | panic => exact .inr ⟨rest, rfl⟩
    | start | stop | add | remove => simpa [untilPanic] using ih

/-! ## The registry -/

/-- A listener that was added at some time. -/
structure Member where
  /-- The listener. -/
  listener : Listener
  /-- Whether it has not been removed. -/
  registered : Bool := true
  /-- What it has received, the latest first. -/
  received : List Event := []

/-- The **registry**: all listeners ever added; the number of one is its position. -/
structure Registry where
  /-- The members in the order in which they were added. -/
  members : List Member := []
deriving Inhabited

namespace Registry

/-- The registry with one more listener; its number is the count of those added before. -/
def add (r : Registry) (l : Listener) : Registry := ⟨r.members ++ [{ listener := l }]⟩

/-- The number that the next listener gets. -/
def nextNumber (r : Registry) : Nat := r.members.length

/-- Whether the listener with a number is registered. -/
def isRegistered (r : Registry) (number : Nat) : Bool :=
  ((r.members[number]?).map (·.registered)).getD false

/-- The registry without the listener with a number. -/
def remove (r : Registry) (number : Nat) : Registry :=
  ⟨r.members.modify number fun m => { m with registered := false }⟩

/-- The numbers of the registered listeners, in order: those who are told an event that begins
now. -/
def registered (r : Registry) : List Nat :=
  (List.range r.members.length).filter r.isRegistered

/-- How many listeners are registered. -/
def size (r : Registry) : Nat := r.registered.length

/-- Tells one listener an event: it is recorded, and the reactions to it are given. -/
def receive (r : Registry) (number : Nat) (e : Event) : List Reaction × Registry :=
  match r.members[number]? with
  | none => ([], r)
  | some m =>
    (Reaction.untilPanic (m.listener.respond m.received e),
      ⟨r.members.modify number fun m => { m with received := e :: m.received }⟩)

/-- The registry after a reaction; a start or a stop concerns nobody here. -/
def react (r : Registry) : Reaction → Registry
  | .add l => r.add l
  | .remove number => r.remove number
  | .start | .stop | .panic => r

/-- Tells an event to some listeners, each of which reacts before the next one is told. -/
def deliver (e : Event) (r : Registry) : List Nat → Registry
  | [] => r
  | number :: rest =>
    let (reactions, told) := r.receive number e
    deliver e (reactions.foldl react told) rest

/-- **Notifies** those who are registered now of an event. -/
def notify (r : Registry) (e : Event) : Registry := r.deliver e r.registered

/-- What the listener with a number has received, in order. -/
def eventsOf (r : Registry) (number : Nat) : List Event :=
  ((r.members[number]?).map (·.received.reverse)).getD []

/-- What every readable listener has received since an earlier registry, in order and by number;
those who received nothing are left out. -/
def newsSince (old new : Registry) : List (Nat × List Event) :=
  (List.range new.members.length).filterMap fun number =>
    match new.members[number]? with
    | none => none
    | some m =>
      let before := ((old.members[number]?).map (·.received.length)).getD 0
      let news := (m.received.take (m.received.length - before)).reverse
      if m.listener.isChannel && !news.isEmpty then some (number, news) else none

/-! ## Reading lemmas -/

@[simp] theorem length_add (r : Registry) (l : Listener) :
    (r.add l).members.length = r.members.length + 1 := by
  simp [add]

@[simp] theorem length_remove (r : Registry) (number : Nat) :
    (r.remove number).members.length = r.members.length := by
  simp [remove]

theorem mem_registered {r : Registry} {number : Nat} :
    number ∈ r.registered ↔ r.isRegistered number = true := by
  simp only [registered, List.mem_filter, List.mem_range, and_iff_right_iff_imp]
  intro h
  by_cases hlt : number < r.members.length
  · exact hlt
  · simp [isRegistered, List.getElem?_eq_none (Nat.le_of_not_lt hlt)] at h

end Registry

end StepFlow
