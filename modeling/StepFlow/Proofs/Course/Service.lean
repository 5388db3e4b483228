import StepFlow.Proofs.Course.Audience
import StepFlow.Proofs.Course.Setup
import Mathlib.Data.List.Perm.Basic

/-! # The service of a registry

What a registry does for its listeners comes down to four acts: a listener is added, one is removed,
an event is told, and a listener hears an event that it is due. Telling an event settles at once who
is to hear it, and puts them before those who are still to hear events that were told before. In
between anything may happen: listeners come and go and further events are told, whoever causes that.

So an event reaches those who are registered when it is told and nobody else, and it reaches each of
them once, wherever further events are told. Unless one is told while another one is still to be
heard, each of them hears the events in order.

Main statements: `Registry.delivers` for acts in any order, and `Setup.service_after`, that a run
carries out such acts. -/

namespace StepFlow

/-! ## Who is registered after a change -/

namespace Registry

/-- A removal takes one number from those that are registered. -/
theorem registered_remove (r : Registry) (j : Nat) :
    (r.remove j).registered = r.registered.filter (· ≠ j) := by
  unfold registered
  rw [length_remove, List.filter_filter]
  refine List.filter_congr fun k _ => ?_
  rw [isRegistered_remove]

/-- **A removal has an effect** on how many listeners there are exactly if there is one with the
number. -/
theorem size_remove_ne_iff {r : Registry} {j : Nat} :
    (r.remove j).size ≠ r.size ↔ r.isRegistered j = true := by
  unfold size
  rw [registered_remove, ne_eq, List.length_filter_eq_length_iff, ← mem_registered]
  simp only [decide_eq_true_eq]
  refine ⟨fun some => ?_, fun mem all => all j mem rfl⟩
  by_contra absent
  exact some fun k hk same => absent (same ▸ hk)

@[simp] theorem nextNumber_receive (r : Registry) (j : Nat) (e : Event) :
    (r.receive j e).2.nextNumber = r.nextNumber := length_receive r j e

/-! ## Acts -/

/-- One **act** of a registry. -/
inductive Act where
  /-- A listener is added. -/
  | add (listener : Listener)
  /-- The listener with a number is removed, if there is one. -/
  | remove (number : Nat)
  /-- An event is told to all who are registered. -/
  | tell (event : Event)
  /-- Who is the next to hear an event hears it. -/
  | hear

/-- A registry together with what is **due**: the events that were told and who is still to hear
them, in turn. -/
structure Service where
  /-- The registry. -/
  registry : Registry
  /-- What is due, the next one first. -/
  due : List (Nat × Event)

namespace Service

/-- What one act does. -/
def next (s : Service) : Act → Service
  | .add l => { s with registry := s.registry.add l }
  | .remove k => { s with registry := s.registry.remove k }
  | .tell e => { s with due := s.registry.registered.map (·, e) ++ s.due }
  | .hear =>
    match s.due with
    | [] => s
    | (k, e) :: rest => ⟨(s.registry.receive k e).2, rest⟩

/-- What acts do, the latest first. -/
def after (s : Service) : List Act → Service
  | [] => s
  | a :: earlier => (s.after earlier).next a

theorem after_append (s : Service) (later earlier : List Act) :
    s.after (later ++ earlier) = (s.after earlier).after later := by
  induction later with
  | nil => rfl
  | cons a later ih => rw [List.cons_append, after, after, ih]

/-- The events that a listener is due, the next one first. -/
def dueTo (s : Service) (k : Nat) : List Event := (s.due.filter (·.1 = k)).map (·.2)

end Service

/-- The service of a registry after acts, the latest first. -/
def serve (r : Registry) (h : List Act) : Service := Service.after ⟨r, []⟩ h

/-! ## What acts amount to

All of this is read off the acts and the numbers that additions return. -/

/-- The numbers that additions **have returned**, the latest first. -/
def given (r : Registry) : List Act → List Nat
  | [] => []
  | .add _ :: h => (r.serve h).registry.nextNumber :: r.given h
  | _ :: h => r.given h

/-- Whether a number is **present**: it was registered from the start or an addition has returned
it, and no removal of it has followed. -/
def present (r : Registry) : List Act → Nat → Bool
  | [], k => r.isRegistered k
  | .add _ :: h, k => k = (r.serve h).registry.nextNumber || r.present h k
  | .remove j :: h, k => k ≠ j && r.present h k
  | _ :: h, k => r.present h k

/-- The events that were told while a number was present, the latest first. What comes and goes
after an event was told makes no difference to who is told of it. -/
def toldTo (r : Registry) (k : Nat) : List Act → List Event
  | [] => []
  | .tell e :: h => if r.present h k then e :: r.toldTo k h else r.toldTo k h
  | _ :: h => r.toldTo k h

/-- Events are **unnested** when none is told while another one is still to be heard. -/
def Unnested (r : Registry) : List Act → Prop
  | [] => True
  | .tell _ :: h => (r.serve h).due = [] ∧ r.Unnested h
  | _ :: h => r.Unnested h

/-- The **service is right** after acts: additions have returned new numbers, who is present is
registered, and everybody has received what was told while they were present. -/
structure Delivers (r : Registry) (h : List Act) (s : Service) : Prop where
  /-- Additions return one number after the other, beginning with the first one that is free. -/
  numbers : (r.given h).reverse = List.range' r.nextNumber (r.given h).length
  /-- Who is present is registered, and nobody else. -/
  registered : ∀ k, s.registry.isRegistered k = r.present h k
  /-- A removal is answered with whether the listener is present. -/
  removal : ∀ k, (s.registry.remove k).size ≠ s.registry.size ↔ r.present h k = true
  /-- What a listener has received or is due is what it had received before and what was told while
  it was present, each event as often as it was told. -/
  received : ∀ k, (s.dueTo k ++ s.registry.received k).Perm (r.toldTo k h ++ r.received k)
  /-- Unless events are nested, it has received them in order. -/
  inOrder : r.Unnested h → ∀ k,
    s.dueTo k ++ s.registry.received k = r.toldTo k h ++ r.received k

/-! ## Every act is carried out right -/

section Acts

variable (r : Registry) (h : List Act)

theorem serve_cons (a : Act) : r.serve (a :: h) = (r.serve h).next a := rfl

/-- Who is present is registered. -/
theorem isRegistered_serve (k : Nat) :
    (r.serve h).registry.isRegistered k = r.present h k := by
  induction h with
  | nil => rfl
  | cons a h ih =>
    rw [serve_cons]
    cases a with
    | add l => rw [Service.next, present, isRegistered_add, ih]
    | remove j => rw [Service.next, present, isRegistered_remove, ih]
    | tell e => exact ih
    | hear =>
      rw [Service.next]
      split
      · exact ih
      · exact (isRegistered_receive ..).trans ih

/-- The next number counts the additions. -/
theorem nextNumber_serve :
    (r.serve h).registry.nextNumber = r.nextNumber + (r.given h).length := by
  induction h with
  | nil => rfl
  | cons a h ih =>
    rw [serve_cons]
    cases a with
    | add l =>
      rw [Service.next, given, List.length_cons, ← Nat.add_assoc, ← ih]
      exact length_add _ l
    | remove j => exact (length_remove _ j).trans ih
    | tell e => exact ih
    | hear =>
      rw [Service.next]
      split
      · exact ih
      · exact (nextNumber_receive ..).trans ih

theorem numbers_serve : (r.given h).reverse = List.range' r.nextNumber (r.given h).length := by
  induction h with
  | nil => rfl
  | cons a h ih =>
    cases a with
    | add l =>
      rw [given, List.reverse_cons, List.length_cons, List.range'_concat, ih, nextNumber_serve,
        Nat.one_mul]
    | remove j => exact ih
    | tell e => exact ih
    | hear => exact ih

/-- Everybody who is due an event was added. -/
theorem lt_of_due {p : Nat × Event} (mem : p ∈ (r.serve h).due) :
    p.1 < (r.serve h).registry.members.length := by
  induction h with
  | nil => cases mem
  | cons a h ih =>
    rw [serve_cons] at mem ⊢
    cases a with
    | add l =>
      rw [Service.next, length_add]
      exact Nat.lt_succ_of_lt (ih mem)
    | remove j =>
      rw [Service.next, length_remove]
      exact ih mem
    | tell e =>
      rcases List.mem_append.1 mem with now | before
      · obtain ⟨k, hk, rfl⟩ := List.mem_map.1 now
        exact lt_of_isRegistered (mem_registered.1 hk)
      · exact ih before
    | hear =>
      rw [Service.next] at mem ⊢
      split at mem
      · exact ih mem
      · rename_i due
        rw [length_receive]
        exact ih (by rw [due]; exact List.mem_cons_of_mem _ mem)

end Acts

/-- Everybody who is registered is told once. -/
theorem filter_registered (r : Registry) (k : Nat) :
    r.registered.filter (· = k) = if r.isRegistered k then [k] else [] := by
  have nodup : r.registered.Nodup := List.nodup_range.filter _
  rw [List.filter_eq]
  split
  · rename_i here
    rw [List.count_eq_one_of_mem nodup (mem_registered.2 here), List.replicate_one]
  · rename_i absent
    rw [List.count_eq_zero_of_not_mem fun mem => absent (mem_registered.1 mem), List.replicate_zero]

/-- An event that is told is due to everybody who is registered before anything else is. -/
theorem dueTo_tell (s : Service) (e : Event) (k : Nat) : (s.next (.tell e)).dueTo k =
    if s.registry.isRegistered k then e :: s.dueTo k else s.dueTo k := by
  have now : ((s.registry.registered.map (·, e)).filter (·.1 = k)).map (·.2) =
      (s.registry.registered.filter (· = k)).map fun _ => e := by
    rw [List.filter_map, List.map_map]
    rfl
  rw [Service.next, Service.dueTo, List.filter_append, List.map_append, now, filter_registered]
  split <;> rfl

/-- A listener that hears an event has received it and is no longer due it; all others stay as they
were. -/
theorem next_hear {s : Service} (known : ∀ p ∈ s.due, p.1 < s.registry.members.length) (k : Nat) :
    (∃ e, s.dueTo k = e :: (s.next .hear).dueTo k ∧
      (s.next .hear).registry.received k = e :: s.registry.received k) ∨
    (s.next .hear).dueTo k = s.dueTo k ∧
      (s.next .hear).registry.received k = s.registry.received k := by
  rw [Service.next]
  split
  · exact .inr ⟨rfl, rfl⟩
  · rename_i j e rest due
    have late := known (j, e) (by rw [due]; exact List.mem_cons_self)
    rw [Service.dueTo, due]
    by_cases turn : j = k
    · subst turn
      refine .inl ⟨e, ?_, ?_⟩
      · rw [List.filter_cons_of_pos (by simp), List.map_cons, Service.dueTo]
      · rw [received_receive, if_pos ⟨rfl, late⟩]
    · refine .inr ⟨?_, ?_⟩
      · rw [List.filter_cons_of_neg (by simpa using turn), Service.dueTo]
      · rw [received_receive, if_neg fun same => turn same.1]

section Receipts

variable (r : Registry) (h : List Act) (k : Nat)

/-- **Everything that was told is received or due once.** -/
theorem received_serve : ((r.serve h).dueTo k ++ (r.serve h).registry.received k).Perm
    (r.toldTo k h ++ r.received k) := by
  induction h with
  | nil => exact .refl _
  | cons a h ih =>
    rw [serve_cons]
    cases a with
    | add l => exact (received_add ..).symm ▸ ih
    | remove j => exact (received_remove ..).symm ▸ ih
    | tell e =>
      -- who is registered now and who is present now are the same
      rw [dueTo_tell, toldTo, isRegistered_serve]
      split
      · exact ih.cons e
      · exact ih
    | hear =>
      -- an event that is heard was due and has been received instead
      refine .trans ?_ ih
      rcases next_hear (fun p => lt_of_due r h) k with ⟨e, due, received⟩ | ⟨due, received⟩
      · rw [due, received]
        exact List.perm_middle
      · rw [due, received]

/-- Unless events are nested, nobody is due two of them. -/
theorem length_dueTo_le (unnested : r.Unnested h) : ((r.serve h).dueTo k).length ≤ 1 := by
  induction h with
  | nil => exact Nat.zero_le _
  | cons a h ih =>
    rw [serve_cons]
    cases a with
    | add l => exact ih unnested
    | remove j => exact ih unnested
    | tell e =>
      -- nothing was due to anybody, so what is told now is all
      have none : (r.serve h).dueTo k = [] := by rw [Service.dueTo, unnested.1]; rfl
      rw [dueTo_tell, none]
      split <;> simp
    | hear =>
      have before := ih unnested
      rcases next_hear (fun p => lt_of_due r h) k with ⟨e, due, -⟩ | ⟨due, -⟩
      · rw [due, List.length_cons] at before
        omega
      · rw [due]
        exact before

/-- **Unless events are nested, they are received in order.** -/
theorem inOrder_serve (unnested : r.Unnested h) :
    (r.serve h).dueTo k ++ (r.serve h).registry.received k = r.toldTo k h ++ r.received k := by
  induction h with
  | nil => rfl
  | cons a h ih =>
    rw [serve_cons]
    cases a with
    | add l => exact (received_add ..).symm ▸ ih unnested
    | remove j => exact (received_remove ..).symm ▸ ih unnested
    | tell e =>
      rw [dueTo_tell, toldTo, isRegistered_serve]
      split
      · exact congrArg (e :: ·) (ih unnested.2)
      · exact ih unnested.2
    | hear =>
      refine .trans ?_ (ih unnested)
      have few := length_dueTo_le r h k unnested
      rcases next_hear (fun p => lt_of_due r h) k with ⟨e, due, received⟩ | ⟨due, received⟩
      · -- the event that is heard was the only one that was due
        rw [due, List.length_cons] at few
        have last := List.eq_nil_of_length_eq_zero (Nat.le_zero.1 (Nat.le_of_succ_le_succ few))
        rw [due, received, last]
        rfl
      · rw [due, received]

end Receipts

/-- **A registry serves its listeners right**, whatever acts it carries out. -/
theorem delivers (r : Registry) (h : List Act) : r.Delivers h (r.serve h) where
  numbers := r.numbers_serve h
  registered := r.isRegistered_serve h
  removal k := by rw [size_remove_ne_iff, isRegistered_serve]
  received := r.received_serve h
  inOrder unnested k := r.inOrder_serve h k unnested

end Registry

/-! ## The service of a run -/

open Registry in
/-- The act that a call amounts to. -/
def Call.act? : Call → Option Act
  | .subscribe l => some (.add l)
  | .unsubscribe number => some (.remove number)
  | .notify e => some (.tell e)
  | .deliver _ _ => some .hear
  | _ => none

/-- Who is to hear which event by a call. -/
def Call.due? : Call → Option (Nat × Event)
  | .deliver number e => some (number, e)
  | _ => none

namespace Moment

/-- The act that the next move carries out. -/
def act? (m : Moment) : Option Registry.Act := m.agenda.head?.bind Call.act?

/-- The registry at a moment, with what is due by the calls on the agenda. -/
def service (m : Moment) : Registry.Service := ⟨m.run.registry, m.agenda.filterMap Call.due?⟩

/-- A move that tells nothing makes nothing due. -/
theorem due_fresh {m : Moment} (quiet : m.told? = none) (x : Choice) :
    (m.fresh x).filterMap Call.due? = [] := by
  rw [List.filterMap_eq_nil_iff]
  intro call mem
  cases call with
  | deliver k e =>
    unfold fresh at mem
    cases agenda : m.agenda with
    | nil =>
      rw [agenda] at mem
      exact absurd mem (m.run.deliver_notMem_choose x k e)
    | cons head rest =>
      rw [agenda] at mem
      rw [told?, agenda, (Coordinator.makes_of_mem_perform mem).of_deliver] at quiet
      cases quiet
  | _ => rfl

/-- **Every move carries out at most one act**, and this is all that happens to the service. -/
theorem service_next (m : Moment) (x : Choice) : (m.next x).service =
    match m.act? with
    | none => m.service
    | some a => m.service.next a := by
  have due : (m.next x).agenda.filterMap Call.due? =
      (m.fresh x).filterMap Call.due? ++ m.agenda.tail.filterMap Call.due? := by
    rw [m.agenda_next, List.filterMap_append]
  rw [service, due, m.registry_next]
  obtain ⟨agenda, c⟩ := m
  cases agenda with
  | nil => rw [due_fresh rfl]; rfl
  | cons call rest =>
    cases call with
    | notify e =>
      have told : (c.registry.registered.map fun k => Call.deliver k e).filterMap Call.due? =
          c.registry.registered.map (·, e) := by
        rw [List.filterMap_map, ← List.filterMap_eq_map]
        rfl
      exact congrArg (fun now => Registry.Service.mk _ (now ++ _)) told
    | _ => rw [due_fresh rfl]; rfl

end Moment

namespace Setup

variable (s : Setup)

/-- The acts that were carried out before a moment of a run, the latest first. -/
def acts (xs : List Choice) : List Registry.Act := (s.past xs).filterMap Moment.act?

/-- **What a run does for its listeners are the acts of its registry.** -/
theorem service_after (xs : List Choice) :
    (s.after xs).service = s.registry.serve (s.acts xs) := by
  induction xs with
  | nil =>
    rw [after, Moment.after_nil, s.start_eq]
    rfl
  | cons x earlier ih =>
    rw [after_cons, Moment.service_next, acts, past_cons, List.filterMap_cons]
    cases act : (s.after earlier).act? with
    | none => exact ih
    | some a => rw [ih]; rfl

end Setup

end StepFlow
