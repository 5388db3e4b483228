import StepFlow.Proofs.Course.Schedule

/-! # What follows from a call

Carrying out a call makes other calls, and there are not many kinds of them: an evaluation announces
a group and opens it or skips it, a skip ends what was claimed for it, the end of a step is told and
counted and has its dependents evaluated, and a listener requests what it likes. `Makes` lists them
with the reason for each, so that what no call makes, or makes only for a reason, is read off that
list.

Main statements: `Coordinator.makes_of_mem_perform`, and `Coordinator.of_mem_choose` for the calls
that a choice begins with. -/

namespace StepFlow

/-- Whether a call is one that listeners can request. -/
def Call.isRequested : Call → Bool
  | .evaluate _ | .stop | .subscribe _ | .unsubscribe _ => true
  | _ => false

/-- Whether a call ends a step with an exit code, or closes it and so may end it with that. -/
def Call.MayEnd (call : Call) (n : Name) (code : Int) : Prop :=
  call = .complete n code ∨ call = .close n

namespace Coordinator

theorem isLight_of_isRequested {call : Call} (requested : call.isRequested = true) :
    call.isLight = true := by
  cases call <;> first | rfl | cases requested

theorem isRequested_reactionCalls {c : Coordinator} {r : Reaction} {call : Call}
    (mem : call ∈ c.reactionCalls r) : call.isRequested = true := by
  cases r with
  | start =>
    obtain ⟨s, -, rfl⟩ := List.mem_map.1 mem
    rfl
  | stop | add | remove =>
    rw [List.mem_singleton.1 mem]
    rfl
  | panic => cases mem

/-- A call **makes** another one when it is carried out. -/
inductive Makes (c : Coordinator) : Call → Call → Prop where
  /-- A group that is committed announces itself. -/
  | started (n : Name) : Makes c (.evaluate n) (.notify (.started n))
  /-- A group that runs evaluates its roots. -/
  | root (g n : Name) : Makes c (.evaluate g) (.evaluate n)
  /-- A group that runs closes if it has no children. -/
  | opened {g : Name} (waits : c.status g = .waiting) : Makes c (.evaluate g) (.close g)
  /-- A group that does not run is skipped with steps that wait. -/
  | skipped {g : Name} {claimed : List Step} (waits : c.status g = .waiting)
      (all : ∀ n ∈ claimed.map (·.name), c.status n = .waiting) :
      Makes c (.evaluate g) (.skip g claimed)
  /-- The groups that were claimed announce themselves. -/
  | inside {g : Name} {claimed : List Step} {t : Step} (mem : t ∈ claimed)
      (isGroup : t.isGroup = true) : Makes c (.skip g claimed) (.notify (.started t.name))
  /-- The leaves that were claimed end. -/
  | spared {g : Name} {claimed : List Step} {t : Step} (mem : t ∈ claimed)
      (isLeaf : t.isGroup = false) : Makes c (.skip g claimed) (.complete t.name skippedCode)
  /-- The groups that were claimed close. -/
  | inner {g : Name} {claimed : List Step} {t : Step} (mem : t ∈ claimed)
      (isGroup : t.isGroup = true) : Makes c (.skip g claimed) (.close t.name)
  /-- The group that is skipped closes. -/
  | outer (g : Name) (claimed : List Step) : Makes c (.skip g claimed) (.close g)
  /-- The end of a step is told. -/
  | told {head : Call} {n : Name} {code : Int} (ends : head.MayEnd n code) :
      Makes c head (.notify (.completed n code))
  /-- When a step ends, those that wait for it are evaluated. -/
  | dependent {head : Call} {n : Name} {code : Int} {d : Dependency}
      (ends : head.MayEnd n code) (edge : d ∈ c.flow.edgesTo n) :
      Makes c head (.evaluate d.src)
  /-- The end of a step is counted by its group. -/
  | parent {head : Call} {n g : Name} {code : Int} (ends : head.MayEnd n code)
      (group : c.flow.groupOf? n = some g) : Makes c head (.childFinished g code)
  /-- The end of a step is counted. -/
  | counted {head : Call} {n : Name} {code : Int} (ends : head.MayEnd n code) :
      Makes c head .countDown
  /-- A group closes when it has counted its last child. -/
  | child (g : Name) (code : Int) : Makes c (.childFinished g code) (.close g)
  /-- A leaf whose start was announced ends if the run was stopped meanwhile. -/
  | abandoned {n : Name} (here : c.stages.get? n = some .starting) (stopped : c.stopped = true) :
      Makes c (.launch n) (.complete n skippedCode)
  /-- A stop evaluates the roots. -/
  | again (n : Name) : Makes c .stop (.evaluate n)
  /-- An event is delivered to listeners. -/
  | delivery (e : Event) (number : Nat) : Makes c (.notify e) (.deliver number e)
  /-- A listener requests something. -/
  | reaction {number : Nat} {e : Event} {r : Reaction} {call : Call}
      (reacts : r ∈ (c.registry.receive number e).1) (mem : call ∈ c.reactionCalls r)
      (requested : call.isRequested = true) : Makes c (.deliver number e) call

section Kinds

variable {c : Coordinator} {call : Call}

private theorem makes_of_mem_evaluate {n : Name} (mem : call ∈ (c.evaluate n).1) :
    Makes c (.evaluate n) call := by
  rcases c.evaluate_cases n with idle | ⟨s, found, -, waits, ⟨-, run⟩ | ⟨-, skip⟩⟩
  · rw [idle] at mem
    cases mem
  · have name := Flow.step?_name found
    subst name
    rw [run, commitRun] at mem
    split at mem
    · simp only [List.cons_append, List.mem_cons, List.mem_append, List.mem_map,
        List.not_mem_nil, or_false] at mem
      rcases mem with rfl | ⟨r, -, rfl⟩ | rfl
      · exact .started _
      · exact .root _ _
      · exact .opened waits
    · cases mem
  · have name := Flow.step?_name found
    subst name
    obtain ⟨-, -, claims, -⟩ := claimAll_spec (c.flow.below s.name) c.statuses
    rw [skip, commitSkip] at mem
    split at mem
    · simp only [List.mem_cons, List.not_mem_nil, or_false] at mem
      rcases mem with rfl | rfl
      · exact .started _
      · exact .skipped waits fun k hk => ((claims k).1 hk).2.2
    · cases mem

private theorem makes_of_mem_skip {g : Name} {claimed : List Step}
    (mem : call ∈ (c.skip g claimed).1) : Makes c (.skip g claimed) call := by
  simp only [skip, List.mem_append, List.mem_map, List.mem_reverse, List.mem_filter,
    List.mem_singleton, Bool.not_eq_true'] at mem
  rcases mem with ((⟨t, ht, rfl⟩ | ⟨t, ht, rfl⟩) | ⟨t, ht, rfl⟩) | rfl
  · exact .inside ht.1 ht.2
  · exact .spared ht.1 ht.2
  · exact .inner ht.1 ht.2
  · exact .outer g claimed

private theorem makes_of_mem_propagation {head : Call} {n : Name} {code : Int}
    (ends : head.MayEnd n code) (mem : call ∈ c.propagation n code) :
    Makes c head call := by
  rcases Orderly.mem_propagation mem with rfl | ⟨d, hd, rfl⟩ | ⟨g, hg, rfl⟩ | rfl
  · exact .told ends
  · exact .dependent ends hd
  · exact .parent ends hg
  · exact .counted ends

/-- **What follows from a call.** -/
theorem makes_of_mem_perform {head : Call} (mem : call ∈ (c.perform head).1) :
    Makes c head call := by
  cases head with
  | evaluate n => exact makes_of_mem_evaluate mem
  | skip g claimed => exact makes_of_mem_skip mem
  | complete n code => exact makes_of_mem_propagation (.inl rfl) mem
  | close g =>
    simp only [perform, close] at mem
    split at mem
    · cases mem
    · split at mem
      · exact makes_of_mem_propagation (.inr rfl) mem
      · cases mem
  | childFinished g code =>
    simp only [perform, childFinished] at mem
    split at mem <;> cases List.mem_singleton.1 mem <;> exact .child g code
  | launch n =>
    simp only [perform, launch] at mem
    split at mem
    · rename_i here
      split at mem
      · rename_i stopped
        cases List.mem_singleton.1 mem
        exact .abandoned here stopped
      · cases mem
    · cases mem
  | stop =>
    simp only [perform, stop] at mem
    split at mem
    · cases mem
    · obtain ⟨s, -, rfl⟩ := List.mem_map.1 mem
      exact .again _
  | notify e =>
    obtain ⟨number, -, rfl⟩ := List.mem_map.1 mem
    exact .delivery e number
  | deliver number e =>
    obtain ⟨r, reacts, mem⟩ := List.mem_flatMap.1 mem
    exact .reaction reacts mem (isRequested_reactionCalls mem)
  | subscribe | unsubscribe | countDown | pause => cases mem

namespace Makes

variable {head : Call}

/-- Events come from evaluations, from skips and from ends. -/
theorem of_notify {e : Event} (h : Makes c head (.notify e)) :
    (∃ n, head = .evaluate n) ∨ (∃ g claimed, head = .skip g claimed) ∨
      ∃ n code, head = .complete n code ∨ head = .close n := by
  cases h with
  | started n => exact .inl ⟨n, rfl⟩
  | inside => exact .inr (.inl ⟨_, _, rfl⟩)
  | told ends => exact .inr (.inr ⟨_, _, ends⟩)
  | reaction _ _ requested => cases requested

/-- Only an event that is told is delivered. -/
theorem of_deliver {e : Event} {k : Nat} (h : Makes c head (.deliver k e)) : head = .notify e := by
  cases h with
  | delivery => rfl
  | reaction _ _ requested => cases requested

/-- A leaf that a call ends was claimed or is abandoned. -/
theorem of_complete {n : Name} {code : Int} (h : Makes c head (.complete n code)) :
    code = skippedCode := by
  cases h with
  | spared => rfl
  | abandoned => rfl
  | reaction _ _ requested => cases requested

end Makes

/-- **What a choice puts on the agenda**: requests, what a worker calls in its turn, or what follows
from a burst. -/
theorem of_mem_choose {x : Choice} (mem : call ∈ (c.choose x).agenda) :
    call.isRequested = true ∨
      (∃ n, WorkerTurn { c with ready := c.ready.erase (.worker n) } n (c.choose x).agenda
        (c.choose x).run) ∨
      ∃ n burst, (c.choose x).agenda = burstCalls n burst := by
  cases x with
  | request r =>
    cases r with
    | start =>
      obtain ⟨s, -, rfl⟩ := List.mem_map.1 mem
      exact .inl rfl
    | stop =>
      rw [List.mem_singleton.1 mem]
      exact .inl rfl
    | release n => cases mem
  | subscribe | unsubscribe =>
    rw [List.mem_singleton.1 mem]
    exact .inl rfl
  | turn t burst =>
    rw [choose] at mem ⊢
    split at mem
    · rename_i isReady
      rw [if_pos isReady]
      cases t with
      | worker n => exact .inr (.inl ⟨n, workerTurn_spec _ n⟩)
      | executor n =>
        simp only [turn] at mem ⊢
        split at mem
        · exact .inr (.inr ⟨n, burst, rfl⟩)
        · cases mem
    · cases mem

end Kinds

end Coordinator

end StepFlow
