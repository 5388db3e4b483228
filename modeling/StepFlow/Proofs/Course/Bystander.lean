import StepFlow.Proofs.Course.MoveIndependence
import StepFlow.Proofs.Course.Audience

/-! # Listeners that only look on

A listener runs in the middle of what the run does: between the start of a group and the evaluation
of its roots, between the end of a step and the evaluation of those who wait for it. What it hears
of there, and the listeners that it adds and removes there, are calls of their own on the agenda. If
it never starts or stops the run, then these calls leave nothing behind but the registry, and all
the other calls follow from each other as if it were not there.

So a run whose listeners only look on goes as it goes with one **eavesdropper** in place of all of
them, and the eavesdropper has heard what each listener that stays has heard.

Main statements: `Overheard.settle` for an agenda, and `Relayed` for what the listeners that stay
have heard from one state to another. -/

namespace StepFlow

/-! ## Bystanders -/

/-- Listeners **look on** together if none of them ever starts or stops the run and what they add
are listeners of the same kind. They may add and remove listeners, and they may fail. -/
structure Listener.LookOn (S : Listener → Prop) : Prop where
  start : ∀ {l}, S l → ∀ past e, .start ∉ Reaction.untilPanic (l.respond past e)
  stop : ∀ {l}, S l → ∀ past e, .stop ∉ Reaction.untilPanic (l.respond past e)
  add : ∀ {l}, S l → ∀ past e l', .add l' ∈ Reaction.untilPanic (l.respond past e) → S l'

/-- A **bystander** is a listener that looks on, together with all that ever come from it. -/
def Listener.Bystander (l : Listener) : Prop := ∃ S, LookOn S ∧ S l

namespace Listener.Bystander

variable {l : Listener}

theorem start_notMem (b : l.Bystander) (past : List Event) (e : Event) :
    .start ∉ Reaction.untilPanic (l.respond past e) := by
  obtain ⟨S, lookOn, mem⟩ := b
  exact lookOn.start mem past e

theorem stop_notMem (b : l.Bystander) (past : List Event) (e : Event) :
    .stop ∉ Reaction.untilPanic (l.respond past e) := by
  obtain ⟨S, lookOn, mem⟩ := b
  exact lookOn.stop mem past e

theorem of_add (b : l.Bystander) {past : List Event} {e : Event} {l' : Listener}
    (mem : .add l' ∈ Reaction.untilPanic (l.respond past e)) : l'.Bystander := by
  obtain ⟨S, lookOn, of⟩ := b
  exact ⟨S, lookOn, lookOn.add of past e l' mem⟩

/-- Who never starts or stops the run and adds only bystanders is a bystander. -/
theorem intro (start : ∀ past e, .start ∉ Reaction.untilPanic (l.respond past e))
    (stop : ∀ past e, .stop ∉ Reaction.untilPanic (l.respond past e))
    (add : ∀ past e l', .add l' ∈ Reaction.untilPanic (l.respond past e) → l'.Bystander) :
    l.Bystander := by
  refine ⟨fun k => k = l ∨ k.Bystander, ⟨?_, ?_, ?_⟩, .inl rfl⟩
  · rintro k (rfl | b)
    · exact start
    · exact b.start_notMem
  · rintro k (rfl | b)
    · exact stop
    · exact b.stop_notMem
  · rintro k (rfl | b) past e l' mem
    · exact .inr (add past e l' mem)
    · exact .inr (b.of_add mem)

/-- Who does not react is a bystander. -/
theorem of_quiet {isChannel : Bool} :
    (Listener.of { isChannel, respond := fun _ _ => [] }).Bystander := by
  refine .intro ?_ ?_ ?_ <;> intro past e <;> simp [Reaction.untilPanic]

theorem channel : Listener.channel.Bystander := of_quiet

theorem silent : Listener.silent.Bystander := of_quiet

/-- Who reacts in one way is a bystander if it reacts by a failure, by removing listeners or by
adding a bystander. -/
theorem reacting (applies : Event → Bool) {r : Reaction} (start : r ≠ .start) (stop : r ≠ .stop)
    (add : ∀ l', r = .add l' → l'.Bystander) : (Listener.reacting applies r).Bystander := by
  have only : ∀ past e r', r' ∈ Reaction.untilPanic ((Listener.reacting applies r).respond past e) →
      r' = r := by
    intro past e r' mem
    rw [Listener.reacting, respond_of] at mem
    cases happens : applies e with
    | false => simp [happens, Reaction.untilPanic] at mem
    | true =>
      simp only [happens, if_true] at mem
      cases r <;> simp_all [Reaction.untilPanic]
  exact .intro (fun past e mem => start (only past e _ mem).symm)
    (fun past e mem => stop (only past e _ mem).symm)
    fun past e l' mem => add l' (only past e _ mem).symm

end Listener.Bystander

namespace Registry

/-- Whether all who were ever added are bystanders. -/
def Bystanders (r : Registry) : Prop := ∀ m ∈ r.members, m.listener.Bystander

namespace Bystanders

variable {r : Registry}

theorem add (b : r.Bystanders) {l : Listener} (hl : l.Bystander) : (r.add l).Bystanders := by
  intro m mem
  rcases List.mem_append.1 mem with old | new
  · exact b m old
  · rw [List.mem_singleton.1 new]
    exact hl

/-- What becomes of a member does not make it another listener. -/
private theorem modify (b : r.Bystanders) (number : Nat) {change : Member → Member}
    (same : ∀ m, (change m).listener = m.listener) :
    (Registry.mk (r.members.modify number change)).Bystanders := by
  intro m mem
  obtain ⟨k, found⟩ := List.mem_iff_getElem?.1 mem
  rw [List.getElem?_modify] at found
  obtain ⟨old, known, rfl⟩ := Option.map_eq_some_iff.1 found
  have bystander := b old (List.mem_of_getElem? known)
  split
  · rw [same]
    exact bystander
  · exact bystander

theorem remove (b : r.Bystanders) (number : Nat) : (r.remove number).Bystanders :=
  b.modify number fun _ => rfl

theorem receive (b : r.Bystanders) (number : Nat) (e : Event) :
    (r.receive number e).2.Bystanders := by
  unfold Registry.receive
  cases r.members[number]? with
  | none => exact b
  | some m => exact b.modify number fun _ => rfl

/-- A bystander that is told an event reacts as one. -/
theorem of_reaction (b : r.Bystanders) {number : Nat} {e : Event} {reaction : Reaction}
    (mem : reaction ∈ (r.receive number e).1) :
    reaction ≠ .start ∧ reaction ≠ .stop ∧ ∀ l, reaction = .add l → l.Bystander := by
  unfold Registry.receive at mem
  cases known : r.members[number]? with
  | none =>
    rw [known] at mem
    cases mem
  | some m =>
    rw [known] at mem
    have bystander := b m (List.mem_of_getElem? known)
    refine ⟨?_, ?_, ?_⟩
    · rintro rfl
      exact bystander.start_notMem _ _ mem
    · rintro rfl
      exact bystander.stop_notMem _ _ mem
    · rintro l rfl
      exact bystander.of_add mem

end Bystanders

end Registry

/-! ## Calls among listeners -/

namespace Call

/-- Whether a call adds nobody but bystanders. -/
def Harmless : Call → Prop
  | .subscribe l => l.Bystander
  | _ => True

theorem harmless_of_not_isSocial {call : Call} (h : call.isSocial = false) : call.Harmless := by
  cases call with
  | subscribe l => cases h
  | _ => trivial

end Call

namespace Coordinator

/-- The run with one **eavesdropper** in place of its listeners, who has received some events, the
latest first. -/
def overheard (c : Coordinator) (log : List Event) : Coordinator :=
  { c with registry := ⟨[{ listener := .channel, received := log }]⟩ }

section Moves

variable {c : Coordinator}

/-- Putting the eavesdropper in place of the listeners leaves the queue as it is. -/
theorem overheard_eq_amid (c : Coordinator) (log : List Event) :
    c.overheard log = c.amid ⟨[{ listener := .channel, received := log }]⟩ c.ready := rfl

theorem Appends.overheard {f : Coordinator → Coordinator} (h : c.Appends f) (log : List Event) :
    f (c.overheard log) = (f c).overheard log := by
  obtain ⟨post, goes⟩ := h
  have ready : (f c).ready = c.ready ++ post :=
    congrArg Coordinator.ready (goes c.registry c.ready c.holds_ready)
  rw [overheard_eq_amid, goes _ _ c.holds_ready, overheard_eq_amid, ready]

theorem Yields.overheard {move : Coordinator → List Call × Coordinator} (h : c.Yields move)
    (log : List Event) : move (c.overheard log) = ((move c).1, (move c).2.overheard log) := by
  obtain ⟨post, goes⟩ := h
  have ready : (move c).2.ready = c.ready ++ post :=
    congrArg (fun result => result.2.ready) (goes c.registry c.ready c.holds_ready)
  rw [overheard_eq_amid, goes _ _ c.holds_ready, overheard_eq_amid, ready]

theorem pause_overheard (log : List Event) (n : Name) (outcome : Option Outcome) :
    (c.overheard log).pause n outcome = (c.pause n outcome).overheard log := by
  obtain ⟨pre, post, goes⟩ := c.pause_amid n outcome
  have ready : (c.pause n outcome).ready = pre ++ c.ready ++ post :=
    congrArg Coordinator.ready (goes c.registry c.ready c.holds_ready)
  rw [overheard_eq_amid, goes _ _ c.holds_ready, overheard_eq_amid, ready]

end Moves

section Calls

variable {c : Coordinator} {call : Call}

/-- **A call that does not concern listeners takes place as if there were none.** -/
theorem perform_overheard (log : List Event) (social : call.isSocial = false)
    (silent : call.event? = none) : (c.overheard log).perform call =
      ((c.perform call).1, (c.perform call).2.overheard log) := by
  by_cases pauses : ∃ n o, call = .pause n o
  · obtain ⟨n, o, rfl⟩ := pauses
    exact congrArg (Prod.mk []) (pause_overheard log n o)
  · exact (yields_perform social silent fun n o same => pauses ⟨n, o, same⟩).overheard log

/-- A call that concerns listeners is nothing to the eavesdropper. -/
theorem perform_social (social : call.isSocial = true) (log : List Event) :
    (c.perform call).2.overheard log = c.overheard log := by
  cases call with
  | subscribe | unsubscribe | deliver => rfl
  | _ => cases social

/-- What follows from a call that concerns no listeners concerns none, unless it tells them of an
event. -/
theorem isSocial_of_mem_perform {next : Call} (social : call.isSocial = false)
    (silent : call.event? = none) (mem : next ∈ (c.perform call).1) : next.isSocial = false := by
  cases makes_of_mem_perform mem with
  | delivery => cases silent
  | reaction => cases social
  | _ => rfl

/-- Among bystanders, what follows from a call that concerns listeners concerns only them. -/
theorem social_of_mem_perform (b : c.registry.Bystanders) (social : call.isSocial = true)
    {next : Call} (mem : next ∈ (c.perform call).1) : next.isSocial = true ∧ next.Harmless := by
  cases call with
  | deliver number e =>
    obtain ⟨reaction, reacts, mem⟩ := List.mem_flatMap.1 mem
    obtain ⟨start, stop, add⟩ := b.of_reaction reacts
    cases reaction with
    | start => exact absurd rfl start
    | stop => exact absurd rfl stop
    | add l =>
      rw [List.mem_singleton.1 mem]
      exact ⟨rfl, add l rfl⟩
    | remove number =>
      rw [List.mem_singleton.1 mem]
      exact ⟨rfl, trivial⟩
    | panic => cases mem
  | subscribe | unsubscribe => cases mem
  | _ => cases social

/-- Bystanders stay among themselves. -/
theorem bystanders_perform (b : c.registry.Bystanders) (harmless : call.Harmless) :
    (c.perform call).2.registry.Bystanders := by
  rw [registry_perform]
  cases call with
  | subscribe l => exact b.add harmless
  | unsubscribe number => exact b.remove number
  | deliver number e => exact b.receive number e
  | _ => exact b

/-- Bystanders request nothing harmful. -/
theorem harmless_of_mem_perform (b : c.registry.Bystanders) {next : Call}
    (mem : next ∈ (c.perform call).1) : next.Harmless := by
  cases social : call.isSocial with
  | true => exact (social_of_mem_perform b social mem).2
  | false =>
    cases event : call.event? with
    | none => exact Call.harmless_of_not_isSocial (isSocial_of_mem_perform social event mem)
    | some e =>
      cases call with
      | notify e =>
        obtain ⟨number, -, rfl⟩ := List.mem_map.1 mem
        trivial
      | _ => cases event

end Calls

end Coordinator

/-- Among bystanders nobody asks for a start or a stop. -/
theorem Moment.not_asks {m : Moment} (b : m.run.registry.Bystanders) (k : Nat) : ¬ m.Asks k := by
  rintro ⟨e, rest, -, reaction, reacts, asks⟩
  obtain ⟨start, stop, -⟩ := b.of_reaction reacts
  rcases asks with rfl | rfl
  · exact start rfl
  · exact stop rfl

/-! ## Agendas among bystanders -/

open Coordinator

/-- An agenda that is settled **is overheard**: the run gets from one state to another and tells
some events, the latest first, and it gets there in the same way with an eavesdropper instead. -/
structure Overheard (calls : List Call) (c d : Coordinator) (es : List Event) : Prop where
  /-- The calls that do not concern listeners are settled with the eavesdropper alike. -/
  agrees : ∀ log,
    settle (calls.filter (!·.isSocial)) (c.overheard log) = d.overheard (es ++ log)
  /-- The listeners are bystanders. -/
  bystanders : d.registry.Bystanders
  /-- Nobody is forgotten. -/
  known : c.registry.members.length ≤ d.registry.members.length
  /-- Who is registered was registered, unless added meanwhile. -/
  stays : ∀ k < c.registry.members.length, d.registry.isRegistered k = true →
    c.registry.isRegistered k = true
  /-- Who stays keeps up. -/
  hears : ∀ k < c.registry.members.length, d.registry.isRegistered k = true →
    ∀ {base : List Event} {h : History}, KeepsUp k base ⟨calls, c⟩ h →
      ∃ h' : History, KeepsUp k base ⟨[], d⟩ h' ∧ h'.told = es ++ h.told

namespace Overheard

variable {c d : Coordinator} {call : Call} {rest : List Call} {es : List Event}

theorem nil (b : c.registry.Bystanders) : Overheard [] c c [] where
  agrees _ := settle_nil _
  bystanders := b
  known := Nat.le_refl _
  stays _ _ registered := registered
  hears _ _ _ _ h f := ⟨h, f, rfl⟩

/-- The eavesdropper hears of the event that a call tells, and of no other. -/
private theorem agrees_cons (b : c.registry.Bystanders)
    (later : ∀ log, settle (((c.perform call).1 ++ rest).filter (!·.isSocial))
      ((c.perform call).2.overheard log) = d.overheard (es ++ log)) (log : List Event) :
    settle ((call :: rest).filter (!·.isSocial)) (c.overheard log) =
      d.overheard ((es ++ call.event?.toList) ++ log) := by
  cases social : call.isSocial with
  | true =>
    -- the call and what follows from it are left out
    have follow : (c.perform call).1.filter (!·.isSocial) = [] := by
      rw [List.filter_eq_nil_iff]
      intro next mem
      simp [(social_of_mem_perform b social mem).1]
    have silent : call.event? = none := by cases call <;> first | rfl | cases social
    have := later log
    rw [List.filter_append, follow, List.nil_append, perform_social social] at this
    rw [List.filter_cons_of_neg (by simp [social]), this, silent]
    simp
  | false =>
    rw [List.filter_cons_of_pos (by simp [social]), settle_cons]
    cases event : call.event? with
    | none =>
      have follow : (c.perform call).1.filter (!·.isSocial) = (c.perform call).1 := by
        rw [List.filter_eq_self]
        intro next mem
        simp [isSocial_of_mem_perform social event mem]
      rw [perform_overheard log social event]
      have := later log
      rw [List.filter_append, follow] at this
      rw [this]
      simp
    | some e =>
      cases call with
      | notify e' =>
        cases event
        -- the event is delivered to the listeners here, and to the eavesdropper there
        have follow : (c.perform (.notify e)).1.filter (!·.isSocial) = [] := by
          rw [List.filter_eq_nil_iff]
          intro next mem
          obtain ⟨number, -, rfl⟩ := List.mem_map.1 mem
          simp [Call.isSocial]
        have := later (e :: log)
        rw [List.filter_append, follow, List.nil_append] at this
        have delivered : ((c.overheard log).perform (.notify e)).1 = [.deliver 0 e] := rfl
        have unchanged : ((c.overheard log).perform (.notify e)).2 = c.overheard log := rfl
        have received : (c.overheard log).perform (.deliver 0 e) =
          ([], c.overheard (e :: log)) := rfl
        rw [delivered, unchanged, List.singleton_append, settle_cons, received, List.nil_append]
        have same : (c.perform (.notify e)).2 = c := rfl
        rw [same] at this
        rw [this]
        simp
      | _ => cases event

/-- **Carrying out a call first.** -/
theorem cons (b : c.registry.Bystanders)
    (later : Overheard ((c.perform call).1 ++ rest) (c.perform call).2 d es) :
    Overheard (call :: rest) c d (es ++ call.event?.toList) := by
  -- while a call is left the choice does not matter
  let m : Moment := ⟨call :: rest, c⟩
  have next : m.next (.request .start) = ⟨(c.perform call).1 ++ rest, (c.perform call).2⟩ := rfl
  have known : c.registry.members.length ≤ (c.perform call).2.registry.members.length :=
    m.length_members_le [.request .start]
  have stays : ∀ k < c.registry.members.length, d.registry.isRegistered k = true →
      c.registry.isRegistered k = true := by
    intro k before registered
    have here := later.stays k (Nat.lt_of_lt_of_le before known) registered
    exact Moment.isRegistered_of_next (m := m) (x := .request .start) here before
  refine
    { agrees := agrees_cons b later.agrees
      bystanders := later.bystanders
      known := known.trans later.known
      stays := stays
      hears := ?_ }
  intro k before registered base h f
  have moved : KeepsUp k base (m.next (.request .start)) (m :: h) :=
    f.next _ (fun _ _ _ => stays k before registered) fun j _ => Moment.not_asks b j
  obtain ⟨h', keeps, told⟩ :=
    later.hears k (Nat.lt_of_lt_of_le before known) registered moved
  refine ⟨h', keeps, ?_⟩
  rw [told, History.told_cons, List.append_assoc]
  rfl

/-- **An agenda that is settled among bystanders is overheard.** -/
theorem settle (calls : List Call) (c : Coordinator) (b : c.registry.Bystanders)
    (harmless : ∀ call ∈ calls, call.Harmless) :
    ∃ es, Overheard calls c (settle calls c) es := by
  fun_induction Coordinator.settle calls c with
  | case1 c => exact ⟨[], .nil b⟩
  | case2 call rest c result ih =>
    have here := harmless call List.mem_cons_self
    obtain ⟨es, later⟩ := ih (bystanders_perform b here) fun next mem => by
      rcases List.mem_append.1 mem with new | old
      · exact harmless_of_mem_perform b new
      · exact harmless next (List.mem_cons_of_mem _ old)
    exact ⟨_, later.cons b⟩

end Overheard

/-! ## What is relayed to those who stay -/

/-- From one state to another some events, the latest first, are **relayed**: all listeners are
bystanders, and those who were there and are still registered have received these events. -/
structure Relayed (c d : Coordinator) (es : List Event) : Prop where
  /-- The listeners are bystanders. -/
  bystanders : d.registry.Bystanders
  /-- Nobody is forgotten. -/
  known : c.registry.members.length ≤ d.registry.members.length
  /-- Who is registered was registered, unless added meanwhile. -/
  stays : ∀ k < c.registry.members.length, d.registry.isRegistered k = true →
    c.registry.isRegistered k = true
  /-- Who stays has received the events. -/
  received : ∀ k < c.registry.members.length, d.registry.isRegistered k = true →
    d.registry.received k = es ++ c.registry.received k

namespace Relayed

variable {c d e : Coordinator} {es es' : List Event}

/-- What does not touch the registry relays nothing. -/
theorem of_registry (b : c.registry.Bystanders) (same : d.registry = c.registry) :
    Relayed c d [] where
  bystanders := same ▸ b
  known := by rw [same]
  stays k _ registered := same ▸ registered
  received k _ _ := by rw [same]; rfl

theorem trans (first : Relayed c d es) (second : Relayed d e es') : Relayed c e (es' ++ es) where
  bystanders := second.bystanders
  known := first.known.trans second.known
  stays k before registered :=
    first.stays k before (second.stays k (Nat.lt_of_lt_of_le before first.known) registered)
  received k before registered := by
    have between := Nat.lt_of_lt_of_le before first.known
    rw [second.received k between registered,
      first.received k before (second.stays k between registered), List.append_assoc]

end Relayed

/-- What is overheard while an agenda without deliveries is settled is relayed. -/
theorem Overheard.relayed {calls : List Call} {c d : Coordinator} {es : List Event}
    (o : Overheard calls c d es) (quiet : ∀ k e, .deliver k e ∉ calls) : Relayed c d es where
  bystanders := o.bystanders
  known := o.known
  stays := o.stays
  received k before registered := by
    have start : KeepsUp k (c.registry.received k) ⟨calls, c⟩ [] := .upToDate (quiet k) rfl
    obtain ⟨h, keeps, told⟩ := o.hears k before registered start
    have told : h.told = es := told.trans (List.append_nil es)
    cases keeps with
    | upToDate none received => rw [received, told]
    | due known agenda => simp at agenda

/-! ## Turns and runs among bystanders -/

namespace Coordinator

variable {c : Coordinator}

/-- An agenda that does not concern listeners is settled with the eavesdropper alike, and what the
eavesdropper hears is relayed. -/
theorem exists_relayed_settle (calls : List Call) (b : c.registry.Bystanders)
    (social : ∀ call ∈ calls, call.isSocial = false) :
    ∃ es, Relayed c (settle calls c) es ∧
      ∀ log, settle calls (c.overheard log) = (settle calls c).overheard (es ++ log) := by
  obtain ⟨es, overheard⟩ := Overheard.settle calls c b fun call mem =>
    Call.harmless_of_not_isSocial (social call mem)
  have all : calls.filter (!·.isSocial) = calls := by
    rw [List.filter_eq_self]
    intro call mem
    simp [social call mem]
  refine ⟨es, overheard.relayed fun k e mem => ?_, fun log => ?_⟩
  · cases social _ mem
  · have := overheard.agrees log
    rwa [all] at this

theorem turn_overheard {ω : Type} (x : Executor ω) (log : List Event) (w : ω) (t : Task) :
    (c.overheard log).turn x w t =
      ((c.turn x w t).1, (c.turn x w t).2.1.overheard log, (c.turn x w t).2.2) := by
  cases t with
  | worker n => simp only [turn, (c.yields_workerTurn n).overheard log]
  | executor n =>
    have part : (c.overheard log).part? n = c.part? n := rfl
    simp only [turn, part]
    cases c.part? n with
    | none => simp only [(c.appends_executorTurn n).overheard log]
    | some part => cases part <;> rfl

/-- What a task does in its turn is told to the listeners by calls that follow. -/
theorem isSocial_of_mem_turn {ω : Type} {x : Executor ω} {w : ω} {t : Task} {call : Call}
    (mem : call ∈ (c.turn x w t).1) : call.isSocial = false := by
  cases t with
  | worker n =>
    have does := workerTurn_spec c n
    simp only [turn] at mem
    generalize (c.workerTurn n).1 = calls at does mem
    generalize (c.workerTurn n).2 = d at does
    cases does with
    | rest | queue => cases mem
    | skip | take | start =>
      rcases List.mem_cons.1 mem with rfl | last
      · rfl
      · rw [List.mem_singleton.1 last]
        rfl
    | leave | unqueue | decline | cut | finish =>
      rw [List.mem_singleton.1 mem]
      rfl
  | executor n =>
    simp only [turn] at mem
    split at mem
    · rcases List.mem_append.1 mem with line | last
      · obtain ⟨line, -, rfl⟩ := List.mem_map.1 line
        rfl
      · rw [List.mem_singleton.1 last]
        rfl
    · cases mem

variable {ω : Type} (x : Executor ω)

/-- Among bystanders a turn and all that follows from it take place as with the eavesdropper. -/
theorem exists_relayed_advance (t : Task) (rest : List Task) (w : ω) (b : c.registry.Bystanders) :
    ∃ es, Relayed c (c.advance x t rest w).1 es ∧
      ∀ log, (c.overheard log).advance x t rest w =
        ((c.advance x t rest w).1.overheard (es ++ log), (c.advance x t rest w).2) := by
  have registry := registry_turn x { c with ready := rest } w t
  obtain ⟨es, relayed, agrees⟩ :=
    exists_relayed_settle ({ c with ready := rest }.turn x w t).1
      (c := ({ c with ready := rest }.turn x w t).2.1) (by rw [registry]; exact b)
      fun _ mem => isSocial_of_mem_turn mem
  refine ⟨es, ?_, fun log => ?_⟩
  · have quiet := (Relayed.of_registry b registry).trans relayed
    rwa [List.append_nil] at quiet
  · have turn := turn_overheard (c := { c with ready := rest }) x log w t
    have same : { c.overheard log with ready := rest } =
      ({ c with ready := rest } : Coordinator).overheard log := rfl
    simp only [advance, same, turn, agrees]

/-- **Among bystanders a run goes on as with the eavesdropper until it is idle.** -/
theorem exists_relayed_runUntilIdle (c : Coordinator) (w : ω) (b : c.registry.Bystanders) :
    ∃ es, Relayed c (c.runUntilIdle x w).1 es ∧
      ∀ log, (c.overheard log).runUntilIdle x w =
        ((c.runUntilIdle x w).1.overheard (es ++ log), (c.runUntilIdle x w).2) := by
  fun_induction runUntilIdle x c w with
  | case1 c w idle =>
    exact ⟨[], .of_registry b rfl, fun log => runUntilIdle_of_nil x w idle⟩
  | case2 c w t rest ready next ih =>
    obtain ⟨es, here, agrees⟩ := exists_relayed_advance x t rest w b
    obtain ⟨es', later, agrees'⟩ := ih here.bystanders
    refine ⟨es' ++ es, here.trans later, fun log => ?_⟩
    rw [runUntilIdle_of_cons x w (show (c.overheard log).ready = t :: rest from ready), agrees,
      agrees', List.append_assoc]

end Coordinator

end StepFlow
