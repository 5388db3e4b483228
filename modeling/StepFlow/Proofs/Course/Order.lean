import StepFlow.Proofs.Course.Audience

/-! # The order of the tidings

What is told of one step in a run and what is told of another: the start of a group comes before
all that is told of the steps under it, the end of a group after their ends, and what waits for a
step is silent until that has ended, unless it was claimed with a group.

New tidings stand before those that were made earlier and are still to be told, so it has to be
excluded that these are the ones that should come first. Ends are told at once, and so are starts
but for those of groups that were claimed: they are told from the outside in before anything else
happens to the claimed steps.

Main statements: `Ordered` is the invariant, and `Setup.ordered` that it holds in every run. -/

namespace StepFlow

open Call Coordinator

/-! ## Events that trail others -/

/-- In a list of events those of one kind **trail** those of another if each of them comes after one
of the other kind. -/
def Trails (p q : Event → Prop) (l : List Event) : Prop :=
  ∀ pre e post, l = pre ++ e :: post → p e → ∃ e' ∈ pre, q e'

namespace Trails

variable {p q : Event → Prop} {l : List Event}

theorem nil : Trails p q [] := by
  intro pre e post split
  cases pre <;> cases split

/-- What trails in a list trails in the beginning of it. -/
theorem of_isPrefix {k : List Event} (t : Trails p q l) (h : k <+: l) : Trails p q k := by
  obtain ⟨rest, rfl⟩ := h
  intro pre e post split here
  exact t pre e (post ++ rest) (by rw [split, List.append_assoc]; rfl) here

/-- Events may be put in where they trail what stands before them. -/
theorem insert {told fresh later : List Event} (t : Trails p q (told ++ later))
    (new : ∀ pre e post, fresh = pre ++ e :: post → p e → ∃ e' ∈ told ++ pre, q e') :
    Trails p q (told ++ fresh ++ later) := by
  intro pre e post split here
  rcases append_eq_split split with ⟨mid, rfl, last⟩ | ⟨mid, first⟩
  · obtain ⟨e', mem, cause⟩ :=
      t (told ++ mid) e post (by rw [last, List.append_assoc]) here
    refine ⟨e', ?_, cause⟩
    rcases List.mem_append.1 mem with old | mem
    · exact List.mem_append_left _ (List.mem_append_left _ old)
    · exact List.mem_append_right _ mem
  · rcases append_eq_split first with ⟨mid', rfl, last⟩ | ⟨mid', first⟩
    · exact new mid' e mid last here
    · exact t pre e (mid' ++ later) (by rw [first, List.append_assoc]; rfl) here

/-- An event that trails others stands behind one of them. -/
theorem exists_sublist (t : Trails p q l) {e : Event} (mem : e ∈ l) (here : p e) :
    ∃ e', q e' ∧ [e', e].Sublist l := by
  obtain ⟨pre, post, rfl⟩ := List.append_of_mem mem
  obtain ⟨e', before, cause⟩ := t pre e post rfl here
  have last : [e].Sublist (e :: post) := List.cons_sublist_cons.2 (List.nil_sublist _)
  exact ⟨e', cause, (List.singleton_sublist.2 before).append last⟩

end Trails

/-- Whether an event is the end of a step. -/
def Event.IsEnd (n : Name) : Event → Prop
  | .completed k _ => k = n
  | .started _ | .output _ _ => False

/-! ## Ends are told alone -/

/-- The end of a step is all that is told by the move that makes it. -/
theorem Moment.tells_of_completed {m : Moment} {x : Choice} {n : Name} {code : Int}
    (h : .completed n code ∈ toTell (m.fresh x)) : Tells (m.fresh x) [.completed n code] := by
  have alone : ∀ {calls k last}, Tells calls [.completed k last] →
      .completed n code ∈ toTell calls → Tells calls [.completed n code] := by
    intro calls k last told mem
    rw [told.toTell_eq, List.mem_singleton] at mem
    rw [mem]
    exact told
  unfold Moment.fresh at h ⊢
  cases agenda : m.agenda with
  | nil =>
    -- a choice tells of starts and lines only
    rw [agenda] at h
    obtain ⟨events, told, -, ofStep⟩ := m.run.relays_choose x
    rw [told.toTell_eq] at h
    have mine : Event.completed n code ∈ events.filter (·.step = n) :=
      List.mem_filter.2 ⟨h, by simp [Event.step]⟩
    rw [ofStep n, List.mem_append] at mine
    rcases mine with start | line
    · split at start <;> simp at start
    · simp at line
  | cons head rest =>
    rw [agenda] at h
    cases makes_of_mem_perform (mem_toTell.1 h) with
    | reaction _ _ requested => cases requested
    | told ends =>
      rcases ends with rfl | rfl
      · exact alone (tells_propagation ..) h
      · have told := m.run.tells_close n
        cases closing : m.run.closing? n with
        | none =>
          have h : Event.completed n code ∈ toTell (m.run.close n).1 := h
          rw [told.toTell_eq, closing] at h
          cases h
        | some last =>
          rw [closing] at told
          exact alone told h

/-! ## What was claimed goes from the inside out -/

/-- A skip that is on the agenda was there before, or it was put there with what lies below its
group, listed in that order. -/
theorem Change.skip_before {m m' : Moment} (c : Change m m') {g : Name} {claimed : List Step}
    (h : .skip g claimed ∈ m'.agenda) :
    .skip g claimed ∈ m.agenda ∨ claimed.Sublist (m.run.flow.below g) := by
  -- a skip that is not among the new calls is one of those that stay
  have tail : ∀ (gone extra : List Call) {rest : List Call}, m.agenda = gone ++ rest →
      m'.agenda = extra ++ rest → .skip g claimed ∉ extra → .skip g claimed ∈ m.agenda := by
    intro gone extra rest agenda agenda' absent
    rw [agenda', List.mem_append] at h
    rw [agenda]
    exact List.mem_append_right _ (h.resolve_left absent)
  have heavy : ∀ {extra : List Call}, (∀ call ∈ extra, call.isLight = true) →
      .skip g claimed ∉ extra := fun light mem => by cases light _ mem
  cases c with
  | idle agenda agenda' _ light => exact .inl (tail _ _ agenda agenda' (heavy light))
  | @handOver gone extra rest n code agenda agenda' _ light =>
    refine .inl (tail gone (extra ++ [.complete n code]) agenda (by rw [agenda']; simp) ?_)
    rw [List.mem_append, List.mem_singleton]
    rintro (mem | same)
    · exact heavy light mem
    · cases same
  | @leaf s rest agenda agenda' =>
    exact .inl (tail [.evaluate s.name] [] agenda agenda' (by simp))
  | @group s rest agenda agenda' =>
    exact .inl (tail [.evaluate s.name] (.notify (.started s.name) ::
        (m.run.flow.rootsIn s.name).map (fun r => Call.evaluate r.name) ++ [.close s.name])
      agenda (by rw [agenda']; simp) (by simp))
  | skip agenda agenda' _ _ _ _ sublist =>
    rw [agenda', List.mem_cons, List.mem_cons] at h
    rcases h with h | h | old
    · cases h
    · cases h
      exact .inr sublist
    · exact .inl (by rw [agenda]; exact List.mem_cons_of_mem _ old)
  | @mark k others rest agenda agenda' =>
    refine .inl (tail [.skip k others] _ agenda agenda' fun mem => ?_)
    rcases Orderly.mem_skip mem with ⟨n, h⟩ | ⟨n, h⟩ | ⟨n, h, -⟩ <;> cases h
  | @finish n code call rest agenda _ agenda' =>
    refine .inl (tail [call] _ agenda agenda' fun mem => ?_)
    rcases Orderly.mem_propagation mem with h | ⟨d, -, h⟩ | ⟨k, -, h⟩ | h <;> cases h
  | @count k code rest agenda agenda' =>
    exact .inl (tail [.childFinished k code] [.close k] agenda agenda' (by simp))
  | down agenda agenda' =>
    exact .inl (tail [.countDown] [] agenda agenda' (by simp))

/-! ## Steps that something is told of -/

section Tidings

variable {f : Flow} {m : Moment} {h : History} {n g : Name} (con : f.Consistent)
  (o : Orderly f m) (r : Recorded f m h)

/-- What a call claims, a skip on the agenda claims. -/
theorem Moment.exists_skip_of_claims (pos : 0 < m.weight (claims n)) :
    ∃ g claimed, .skip g claimed ∈ m.agenda ∧ n ∈ claimed.map (·.name) := by
  obtain ⟨call, mem, pos⟩ := exists_of_total_pos pos
  cases call with
  | skip g claimed => exact ⟨g, claimed, mem, List.count_pos_iff.1 pos⟩
  | _ => cases pos

include o in
/-- What lies under a group that is claimed is claimed with it. -/
theorem Orderly.claims_under (under : f.Under n g) (pos : 0 < m.weight (claims g)) :
    0 < m.weight (claims n) := by
  obtain ⟨k, claimed, mem, inside⟩ := Moment.exists_skip_of_claims pos
  obtain ⟨-, -, claims_⟩ := o.skips k claimed mem
  refine total_pos_of_mem mem (List.count_pos_iff.2 ?_)
  exact (claims_ n).2 (under.trans ((claims_ g).1 inside))

include o in
/-- The groups that a step lies under are out when the step is. -/
theorem Orderly.out_of_under (under : f.Under n g) (out : m.Out n) : m.Out g := by
  refine ⟨fun waits => out.1 (o.waiting_under under waits), ?_⟩
  by_contra claimed
  have := o.claims_under under (Nat.pos_of_ne_zero claimed)
  have := out.2
  omega

include o r in
/-- A step that is claimed for a skip that has not begun was claimed. -/
theorem Judged.verdict_of_claims (j : Judged f m h) (pos : 0 < m.weight (claims n)) :
    h.verdict n = some .claim := by
  obtain ⟨g, claimed, mem, inside⟩ := Moment.exists_skip_of_claims pos
  have covered : 0 < m.weight (covers g) :=
    total_pos_of_mem mem (by rw [covers, if_pos rfl]; omega)
  exact r.claim_of_under (((o.skips g claimed mem).2.2 n).1 inside) (j.covered g covered)

namespace Tale

variable {lines : List String} (tale : Tale f m h n lines)

include tale

/-- The start of a step that was announced is told. -/
theorem started_mem (announced : Announced f m h n) : .started n ∈ tidings m h := by
  refine (List.mem_filter (p := fun e => decide (e.step = n)).1 ?_).1
  rw [tale.told, if_pos announced]
  simp

include r in
/-- The end of a step that has ended is told. -/
theorem exists_completed (ended : (m.status n).isTerminal = true) :
    ∃ code, .completed n code ∈ tidings m h := by
  obtain ⟨code, mem, -⟩ := r.exists_end ended
  refine ⟨code, (List.mem_filter (p := fun e => decide (e.step = n)).1 ?_).1⟩
  rw [tale.told]
  exact List.mem_append_right _ (mem_endsOf.2 ⟨code, List.mem_reverse.2 mem, rfl⟩)

include o r in
/-- A step that something is told of is out. -/
theorem out_of_mem (j : Judged f m h) (p : Posted f m h) (t : Traced m h) {e : Event}
    (mem : e ∈ tidings m h) (about : e.step = n) : m.Out n := by
  -- it is enough that the step has a verdict of its own, or that it has ended
  have own : h.verdict n = some .run ∨ h.verdict n = some .skip → m.Out n := by
    intro given
    refine ⟨given.elim r.status_ne_waiting r.status_ne_waiting, ?_⟩
    by_contra claimed
    have claim := j.verdict_of_claims o r (Nat.pos_of_ne_zero claimed)
    rcases given with hv | hv <;> rw [claim] at hv <;> cases hv
  have mine : e ∈ (tidings m h).filter (·.step = n) :=
    List.mem_filter.2 ⟨mem, decide_eq_true about⟩
  rw [tale.told, List.mem_append, List.mem_append] at mine
  rcases mine with (start | line) | ends
  · split at start
    · rename_i announced
      by_cases isGroup : f.isGroup n = true
      · exact (announced_of_group isGroup).1 announced
      · rcases (announced_of_other isGroup).1 announced with admitted | ⟨skip, -⟩
        · exact own (.inl (t.run n (.inl admitted)))
        · exact own (.inr skip)
    · cases start
  · have some_ : lines ≠ [] := by
      rintro rfl
      cases line
    exact own (.inl (p.executed n (tale.executed some_)))
  · obtain ⟨code, ended, -⟩ := mem_endsOf.1 ends
    have status := r.status_of_end n code (List.mem_reverse.1 ended)
    refine ⟨by rw [status]; exact Status.ofExitCode_ne_waiting code, ?_⟩
    -- what is claimed is in progress
    by_contra claimed
    have le := m.claims_le_covers n
    rw [o.covered n (by omega)] at status
    exact Status.ofExitCode_ne_inProgress code status.symm

end Tale

end Tidings

/-- A moment is **narrated** when it is sound and its history agrees with all that is told. -/
structure Narrated (f : Flow) (workers : Nat) (asked : Bool) (m : Moment) (h : History) : Prop
    extends Sound f workers asked m h where
  traced : Traced m h
  tale : ∀ n, ∃ lines, Tale f m h n lines

namespace Narrated

variable {f : Flow} {workers : Nat} {asked : Bool} {m : Moment} {h : History} {n g : Name}
  (s : Narrated f workers asked m h)

include s

/-- A step that something is told of is out. -/
theorem out_of_mem {e : Event} (mem : e ∈ tidings m h) : m.Out e.step := by
  obtain ⟨lines, tale⟩ := s.tale e.step
  exact tale.out_of_mem s.orderly s.recorded s.judged s.posted s.traced mem rfl

/-- The start of every group around a step that something is told of is told. -/
theorem started_mem (isGroup : f.isGroup g = true) {e : Event} (mem : e ∈ tidings m h)
    (under : f.Under e.step g) : .started g ∈ tidings m h := by
  obtain ⟨lines, tale⟩ := s.tale g
  refine tale.started_mem ((announced_of_group isGroup).2 ?_)
  exact s.orderly.out_of_under under (s.out_of_mem mem)

/-- The end of a step that has ended is told. -/
theorem exists_completed (ended : (m.status n).isTerminal = true) :
    ∃ code, .completed n code ∈ tidings m h := by
  obtain ⟨lines, tale⟩ := s.tale n
  exact tale.exists_completed s.recorded ended

/-- A step whose end is told has ended, and so have all steps under it. -/
theorem terminal_of_completed {code : Int} (mem : .completed n code ∈ tidings m h) :
    (m.status n).isTerminal = true := by
  obtain ⟨lines, tale⟩ := s.tale n
  rw [tale.ended_of_mem s.recorded mem]
  exact Status.isTerminal_ofExitCode code

/-- What a step waits for has ended when something is told of it or of what lies under it, unless
it was claimed. -/
theorem terminal_of_mem {d : Dependency} (hd : d ∈ f.dependencies)
    (unclaimed : h.verdict d.src ≠ some .claim) {e : Event} (mem : e ∈ tidings m h)
    (about : e.step = d.src ∨ f.Under e.step d.src) : (m.status d.dst).isTerminal = true := by
  have left : m.status d.src ≠ .waiting := by
    have out := (s.out_of_mem mem).1
    rcases about with same | under
    · exact same ▸ out
    · exact fun waits => out (s.orderly.waiting_under under waits)
  have edge : d ∈ f.edgesFrom d.src := Flow.mem_edgesFrom.2 ⟨hd, rfl⟩
  cases hv : h.verdict d.src with
  | none => exact absurd ((s.recorded.verdict_eq_none d.src).1 hv) left
  | some v =>
    cases v with
    | run => exact (s.judged.run d.src hv d edge).1
    | skip => exact (s.judged.skip d.src hv).1 d edge
    | claim => exact absurd hv unclaimed

end Narrated

/-! ## The invariant -/

/-- A moment is **ordered** when all that is told up to it, and all that is still to be told, comes
in the order that groups and dependencies ask for. -/
structure Ordered (f : Flow) (m : Moment) (h : History) : Prop where
  /-- The end of a step is told before anything else happens. -/
  prompt : ∀ n code, .completed n code ∉ toTell m.agenda.tail
  /-- What was claimed for a skip is listed from the inside out. -/
  nested : ∀ g claimed, .skip g claimed ∈ m.agenda → claimed.Sublist (f.below g)
  /-- The start of a group comes before all that is told of the steps under it. -/
  starts : ∀ n g, f.Under n g → Trails (·.step = n) (· = .started g) (tidings m h)
  /-- The end of a group comes after the ends of the steps under it. -/
  ends : ∀ n g, f.Under n g → Trails (Event.IsEnd g) (Event.IsEnd n) (tidings m h)
  /-- All that is told of a step, and of the steps under it, comes after the end of what it waits
  for, unless it was claimed. -/
  waits : ∀ d ∈ f.dependencies, h.verdict d.src ≠ some .claim →
    Trails (fun e => e.step = d.src ∨ f.Under e.step d.src) (Event.IsEnd d.dst) (tidings m h)

namespace Ordered

variable {f : Flow} {workers : Nat} {asked asked' : Bool} {m : Moment} {h : History} {x : Choice}
  (wf : f.WellFormed) (d : Ordered f m h)

include d in
/-- After a move the end of a step is still told before anything else. -/
private theorem prompt_next (n : Name) (code : Int) :
    .completed n code ∉ toTell (m.next x).agenda.tail := by
  intro mem
  rw [m.agenda_next] at mem
  cases fresh : m.fresh x with
  | nil =>
    rw [fresh, List.nil_append] at mem
    exact d.prompt n code (mem_toTell.2 (List.mem_of_mem_tail (mem_toTell.1 mem)))
  | cons call calls =>
    rw [fresh, List.cons_append, List.tail_cons, toTell_append, List.mem_append] at mem
    rcases mem with new | old
    · -- the end is made once, and it comes first of what the move makes
      have here : Event.completed n code ∈ toTell (m.fresh x) := by
        rw [fresh, toTell_cons]
        exact List.mem_append_right _ new
      obtain ⟨quiet, split, none⟩ := Moment.tells_of_completed here
      rw [fresh] at split
      obtain ⟨-, rfl⟩ := List.cons.inj split
      have told : Event.completed n code ∈ toTell calls := new
      rw [none] at told
      cases told
    · exact d.prompt n code old

include d in
/-- What ended before a move makes an event was told to have ended before it, unless it is the step
whose end the event is. -/
private theorem completed_before (next : Narrated f workers asked' (m.next x) (m :: h))
    {told : List Event}
    (now : tidings (m.next x) (m :: h) = told ++ toTell (m.fresh x) ++ toTell m.agenda.tail)
    {e : Event} (mem : e ∈ toTell (m.fresh x)) {n : Name}
    (ended : ((m.next x).status n).isTerminal = true) (other : e.step ≠ n) :
    ∃ e' ∈ told, Event.IsEnd n e' := by
  obtain ⟨code, here⟩ := next.exists_completed ended
  rw [now, List.mem_append, List.mem_append] at here
  rcases here with (before | made) | later
  · exact ⟨_, before, rfl⟩
  · -- the end of a step is made alone
    rw [(Moment.tells_of_completed made).toTell_eq, List.mem_singleton] at mem
    rw [mem] at other
    exact absurd rfl other
  · exact absurd later (d.prompt n code)

include wf d in
/-- The groups that a skip announces are announced from the outside in. -/
private theorem pairwise_of_mark {g : Name} (marked : g ∈ m.marked) :
    (toTell (m.fresh x)).Pairwise fun a b => ¬ f.Under a.step b.step := by
  unfold Moment.marked at marked
  split at marked
  · rename_i k claimed rest agenda
    have here : Call.skip k claimed ∈ m.agenda := by rw [agenda]; exact List.mem_cons_self
    have told := m.run.tells_skip k claimed
    have fresh : m.fresh x = (m.run.skip k claimed).1 := by rw [Moment.fresh, agenda]; rfl
    rw [fresh, told.toTell_eq, List.pairwise_map, List.pairwise_reverse]
    exact ((wf.pairwise_below _).sublist (d.nested k claimed here)).filter _
  · cases marked

section Starts

variable (s : Narrated f workers asked m h)

include s

/-- While the start of a claimed group is still to be told, nothing is made about the steps under
it. -/
private theorem started_notMem_later {e : Event} (mem : e ∈ toTell (m.fresh x)) {g : Name}
    (under : f.Under e.step g) : .started g ∉ toTell m.agenda.tail := by
  intro later
  cases agenda : m.agenda with
  | nil => rw [agenda] at later; cases later
  | cons head rest =>
    rw [agenda, List.tail_cons] at later
    obtain ⟨pre, post, split⟩ := List.append_of_mem (mem_toTell.1 later)
    obtain ⟨lines, tale⟩ := s.tale g
    rcases tale.heralded (head :: pre) post (by rw [agenda, split]; rfl) with first | ⟨claim, quiet⟩
    · cases first
    have claimed := s.recorded.claim_of_under under (.inr claim)
    have untouched := quiet head List.mem_cons_self e.step (.inr under)
    have busy : m.agenda ≠ [] := by rw [agenda]; exact List.cons_ne_nil _ _
    -- an event about a claimed step comes from a call that touches the step
    obtain ⟨events, told, -, ofStep⟩ := s.orderly.tells_fresh x
    rw [told.toTell_eq] at mem
    have mine : e ∈ events.filter (·.step = e.step) := List.mem_filter.2 ⟨mem, by simp⟩
    rw [ofStep, List.mem_append, List.mem_append] at mine
    rcases mine with (start | line) | ends
    · split at start
      · rename_i starts
        rcases starts with ⟨-, commit | marked⟩ | announces
        · obtain ⟨⟨k, d⟩, commit, same⟩ := Option.map_eq_some_iff.1 commit
          exact s.recorded.status_ne_waiting claimed (same ▸ (s.orderly.of_commit? commit).1)
        · unfold Moment.marked at marked
          split at marked
          · rename_i k claims_ others split
            rw [agenda] at split
            obtain ⟨rfl, -⟩ := List.cons.inj split
            exact untouched (.inr marked)
          · cases marked
        · exact (s.orderly.shift_next x).not_announces busy _ announces
      · cases start
    · have emits : m.emits x e.step ≠ [] := fun none => by rw [none] at line; cases line
      exact busy (Moment.of_emits emits).1
    · obtain ⟨code, ended, -⟩ := mem_endsOf.1 ends
      obtain ⟨call, others, split, cause, -⟩ := (s.orderly.change_next x).finish_of_ended?
        (show m.ended? = some (e.step, code) by simpa using ended)
      rw [agenda] at split
      obtain ⟨rfl, -⟩ := List.cons.inj split
      rcases cause with rfl | ⟨rfl, -⟩ <;> exact untouched rfl

include wf d

/-- Among the events that a move makes the start of a group comes before all that is about the steps
under it. -/
private theorem started_before {pre post : List Event} {e : Event}
    (split : toTell (m.fresh x) = pre ++ e :: post) {g : Name} (under : f.Under e.step g)
    (mem : .started g ∈ toTell (m.fresh x)) : .started g ∈ pre := by
  have different : e ≠ .started g := by
    rintro rfl
    exact wf.not_under_self g under
  obtain ⟨events, told, one, -⟩ := s.orderly.tells_fresh x
  have whole := told.toTell_eq
  rw [split, List.mem_append, List.mem_cons] at mem
  rcases one g (by rw [← whole, split]; simpa using mem) with short | marked
  · -- there is no other event than the one
    rw [← whole, split, List.length_append, List.length_cons] at short
    have first : pre = [] := List.length_eq_zero_iff.1 (by omega)
    have last : post = [] := List.length_eq_zero_iff.1 (by omega)
    rw [first, last] at mem
    rcases mem with h | h | h
    · cases h
    · exact absurd h.symm different
    · cases h
  · have sorted := d.pairwise_of_mark (x := x) wf marked
    rw [split, List.pairwise_append, List.pairwise_cons] at sorted
    rcases mem with first | same | last
    · exact first
    · exact absurd same.symm different
    · exact absurd under (sorted.2.1.1 _ last)

end Starts

include wf d

/-- **Every move keeps what is told in order.** -/
theorem next (s : Narrated f workers asked m h)
    (after : Narrated f workers asked' (m.next x) (m :: h)) : Ordered f (m.next x) (m :: h) := by
  obtain ⟨told, before, now⟩ := tidings_next m h x
  obtain ⟨rank, ranking⟩ := wf.ranked
  have made : ∀ {e}, e ∈ toTell (m.fresh x) → e ∈ tidings (m.next x) (m :: h) := fun mem => by
    rw [now]
    exact List.mem_append_left _ (List.mem_append_right _ mem)
  have old : ∀ {pre : List Event} {q : Event → Prop}, (∃ e' ∈ told, q e') →
      ∃ e' ∈ told ++ pre, q e' :=
    fun ⟨e', mem, cause⟩ => ⟨e', List.mem_append_left _ mem, cause⟩
  exact
    { prompt := d.prompt_next
      nested := fun g claimed mem => by
        rcases (s.orderly.change_next x).skip_before mem with before | sublist
        · exact d.nested g claimed before
        · rwa [s.orderly.flow] at sublist
      starts := fun n g under => by
        rw [now]
        refine (before ▸ d.starts n g under).insert fun pre e post split about => ?_
        have mem : e ∈ toTell (m.fresh x) := by rw [split]; simp
        have under : f.Under e.step g := about ▸ under
        have started := after.started_mem (wf.isGroup_of_under under) (made mem) under
        rw [now, List.mem_append, List.mem_append] at started
        refine ⟨_, List.mem_append.2 ?_, rfl⟩
        rcases started with (before | here) | later
        · exact .inl before
        · exact .inr (d.started_before wf s split under here)
        · exact absurd later (started_notMem_later s mem under)
      ends := fun n g under => by
        rw [now]
        refine (before ▸ d.ends n g under).insert fun pre e post split isEnd => ?_
        have mem : e ∈ toTell (m.fresh x) := by rw [split]; simp
        cases e with
        | started | output => cases isEnd
        | completed k code =>
          have same : k = g := isEnd
          subst same
          -- a group ends after everything under it
          have ended := after.counted.terminal_under under (after.terminal_of_completed (made mem))
          refine old (d.completed_before after now mem ended ?_)
          rintro rfl
          exact wf.not_under_self _ under
      waits := fun e he unclaimed => by
        have before_ : h.verdict e.src ≠ some .claim := fun claim =>
          unclaimed (s.recorded.verdict_stays s.orderly wf claim)
        rw [now]
        refine (before ▸ d.waits e he before_).insert fun pre e' post split about => ?_
        have mem : e' ∈ toTell (m.fresh x) := by rw [split]; simp
        have ended := after.terminal_of_mem he unclaimed (made mem) about
        refine old (d.completed_before after now mem ended fun same => ?_)
        -- what a step waits for is neither the step nor under it
        have wait := wf.rank_finish_dst_lt ranking he
        have runs := wf.rank_start_lt_finish ranking (wf.contains_dst he)
        rw [same] at about
        rcases about with about | about
        · rw [about] at runs wait
          omega
        · have inner := wf.rank_start_under_lt ranking about
          omega }

omit wf d in
theorem initial (f : Flow) (workers : Nat) (registry : Registry) :
    Ordered f (Moment.initial f workers registry) [] where
  prompt _ _ h := by cases h
  nested _ _ h := by cases h
  starts _ _ _ := .nil
  ends _ _ _ := .nil
  waits _ _ _ := .nil

end Ordered

namespace Setup

variable (s : Setup)

/-- Every moment of every run is narrated. -/
theorem narrated (xs : List Choice) :
    Narrated s.flow s.workers (s.asked xs) (s.after xs) (s.past xs) where
  toSound := s.sound xs
  traced := s.traced xs
  tale n := ⟨_, s.tale n xs⟩

/-- **Every moment of every run is ordered.** -/
theorem ordered (xs : List Choice) : Ordered s.flow (s.after xs) (s.past xs) := by
  induction xs with
  | nil =>
    rw [after, Moment.after_nil, s.start_eq]
    exact .initial s.flow s.workers s.registry
  | cons x earlier ih => exact ih.next s.wellFormed (s.narrated earlier) (s.narrated (x :: earlier))

end Setup

end StepFlow
