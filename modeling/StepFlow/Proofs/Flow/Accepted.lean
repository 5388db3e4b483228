import StepFlow.Proofs.Flow.Checks
import StepFlow.Proofs.Flow.Schedulable
import StepFlow.Proofs.Flow.WellFormed

/-! # Accepted declarations

Declarations are assembled by loops: each dependency is entered among those before it, and each
group takes its children out of a table. Here it is said what the loops come to. The flow that they
make is consistent as soon as names, memberships and dependencies fit, and well-formed if its phases
can be ranked as well.

Main statements: `Declaration.mem_mergeWaits` and `Flow.makeSteps_eq_map` for the loops,
`Flow.consistent_assemble`, `Flow.declare_eq_ok_iff` and `Flow.wellFormed_of_declare`. -/

namespace StepFlow

/-! ## Merged dependencies -/

private theorem lt_of_le_of_ne {a b : String} (le : a ≤ b) (ne : a ≠ b) : a < b := by
  by_contra not
  exact ne (String.le_antisymm le (String.not_lt.1 not))

namespace Declaration

variable {d e x : Dependency} {merged ws : List Dependency}

theorem ends_eq_iff : d.ends = e.ends ↔ d.src = e.src ∧ d.dst = e.dst := by
  rw [Dependency.ends, Dependency.ends, Prod.mk.injEq]

/-- A dependency is its ends and whether it is soft. -/
theorem eq_iff_ends : d = e ↔ d.ends = e.ends ∧ (d.soft = true ↔ e.soft = true) := by
  obtain ⟨src, dst, soft⟩ := d
  obtain ⟨src', dst', soft'⟩ := e
  rw [ends_eq_iff, Dependency.mk.injEq, Bool.eq_iff_iff, and_assoc]

namespace Before

theorem trans (de : Before d e) (ex : Before e x) : Before d x := by
  rcases de with lt | ⟨same, lt⟩ <;> rcases ex with lt' | ⟨same', lt'⟩
  · exact .inl (String.lt_trans lt lt')
  · exact .inl (same' ▸ lt)
  · exact .inl (same ▸ lt')
  · exact .inr ⟨same.trans same', String.lt_trans lt lt'⟩

theorem ends_ne (before : Before d e) : d.ends ≠ e.ends := by
  intro same
  obtain ⟨src, dst⟩ := ends_eq_iff.1 same
  rcases before with lt | ⟨-, lt⟩
  · exact String.lt_irrefl _ (src ▸ lt)
  · exact String.lt_irrefl _ (dst ▸ lt)

/-- Of two dependencies with other ends one comes before the other. -/
theorem of_not (apart : e.ends ≠ d.ends) (not : ¬ Before d e) : Before e d := by
  rw [Before, not_or, String.not_lt] at not
  by_cases src : e.src = d.src
  · have dst : e.dst ≠ d.dst := fun dst => apart (ends_eq_iff.2 ⟨src, dst⟩)
    have le : e.dst ≤ d.dst := String.not_lt.1 fun lt => not.2 ⟨src.symm, lt⟩
    exact .inr ⟨src, lt_of_le_of_ne le dst⟩
  · exact .inl (lt_of_le_of_ne not.1 src)

/-- The order is one of the ends. -/
theorem of_ends (before : Before e x) (same : d.ends = x.ends) : Before e d := by
  obtain ⟨src, dst⟩ := ends_eq_iff.1 same
  rwa [Before, src, dst]

end Before

/-- **What entering a dependency makes of others**: those with other ends stay, and there is one
with its ends, which is soft if it is and those that were there are. -/
theorem mem_enter (ascends : merged.Pairwise Before) : x ∈ enter d merged ↔
    x ∈ merged ∧ x.ends ≠ d.ends ∨ x.ends = d.ends ∧
      (x.soft = true ↔ d.soft = true ∧ ∀ e ∈ merged, e.ends = d.ends → e.soft = true) := by
  induction merged with
  | nil => simp [enter, eq_iff_ends]
  | cons e rest ih =>
    obtain ⟨first, ascends⟩ := List.pairwise_cons.1 ascends
    rw [enter, List.forall_mem_cons, List.mem_cons]
    split
    · -- the one with the same ends takes it in, and no other one has these ends
      rename_i same
      have others : ∀ y ∈ rest, y.ends ≠ d.ends := fun y mem eq =>
        (first y mem).ends_ne (same.trans eq.symm)
      have taken : ({ e with soft := e.soft && d.soft } : Dependency).ends = d.ends := same
      rw [List.mem_cons, eq_iff_ends, taken]
      by_cases here : x.ends = d.ends
      · have new : x ∉ rest := fun mem => others x mem here
        have alone : (∀ y ∈ rest, y.ends = d.ends → y.soft = true) ↔ True :=
          iff_true_intro fun y mem eq => absurd eq (others y mem)
        simp [here, new, alone, same, and_comm]
      · have other : x ≠ e := fun eq => here (eq ▸ same)
        simp [here, other]
    · rename_i apart
      split
      · -- it comes before all others, so none of them has its ends
        rename_i before
        have others : ∀ y ∈ rest, y.ends ≠ d.ends := fun y mem =>
          (before.trans (first y mem)).ends_ne.symm
        rw [List.mem_cons, List.mem_cons, eq_iff_ends]
        by_cases here : x.ends = d.ends
        · have new : x ∉ rest := fun mem => others x mem here
          have other : x ≠ e := fun eq => apart (eq ▸ here)
          have alone : (∀ y ∈ rest, y.ends = d.ends → y.soft = true) ↔ True :=
            iff_true_intro fun y mem eq => absurd eq (others y mem)
          simp [here, new, other, alone, apart]
        · simp [here]
      · rw [List.mem_cons, ih ascends]
        by_cases here : x.ends = d.ends
        · have other : x ≠ e := fun eq => apart (eq ▸ here)
          simp [here, other, apart]
        · simp [here]

/-- Entering a dependency keeps others in order. -/
theorem pairwise_enter (ascends : merged.Pairwise Before) : (enter d merged).Pairwise Before := by
  induction merged with
  | nil => exact List.pairwise_singleton _ _
  | cons e rest ih =>
    obtain ⟨first, ascends⟩ := List.pairwise_cons.1 ascends
    rw [enter]
    split
    · exact List.pairwise_cons.2 ⟨first, ascends⟩
    · rename_i apart
      split
      · rename_i before
        refine List.pairwise_cons.2 ⟨fun x mem => ?_, List.pairwise_cons.2 ⟨first, ascends⟩⟩
        rcases List.mem_cons.1 mem with rfl | mem
        · exact before
        · exact before.trans (first x mem)
      · rename_i late
        refine List.pairwise_cons.2 ⟨fun x mem => ?_, ih ascends⟩
        rcases (mem_enter ascends).1 mem with ⟨old, -⟩ | ⟨same, -⟩
        · exact first x old
        · exact (Before.of_not apart late).of_ends same

theorem mergeWaits_concat (ws : List Dependency) (d : Dependency) :
    mergeWaits (ws ++ [d]) = enter d (mergeWaits ws) := by
  rw [mergeWaits, List.foldl_append]
  rfl

/-- Merged dependencies ascend, so there is one for each pair of ends. -/
theorem pairwise_mergeWaits (ws : List Dependency) : (mergeWaits ws).Pairwise Before := by
  induction ws using List.reverseRecOn with
  | nil => exact List.Pairwise.nil
  | append_singleton ws d ih =>
    rw [mergeWaits_concat]
    exact pairwise_enter ih

/-- **What dependencies are merged to**: one for each pair of ends that is among them, which is soft
if all with these ends are. -/
theorem mem_mergeWaits_iff_ends : x ∈ mergeWaits ws ↔ (∃ w ∈ ws, w.ends = x.ends) ∧
    (x.soft = true ↔ ∀ w ∈ ws, w.ends = x.ends → w.soft = true) := by
  induction ws using List.reverseRecOn generalizing x with
  | nil => simp [mergeWaits]
  | append_singleton ws d ih =>
    -- those merged before with the ends of the last one are soft if all with these ends were
    have before : (∀ e ∈ mergeWaits ws, e.ends = d.ends → e.soft = true) ↔
        ∀ w ∈ ws, w.ends = d.ends → w.soft = true := by
      constructor
      · intro soft w mem eq
        let e : Dependency := { d with soft := ∀ w ∈ ws, w.ends = d.ends → w.soft = true }
        have merged : e ∈ mergeWaits ws := ih.2 ⟨⟨w, mem, eq⟩, decide_eq_true_iff⟩
        exact of_decide_eq_true (soft e merged rfl) w mem eq
      · intro soft e mem eq
        exact (ih.1 mem).2.2 fun w mem' eq' => soft w mem' (eq'.trans eq)
    rw [mergeWaits_concat, mem_enter (pairwise_mergeWaits ws), ih, before]
    by_cases here : x.ends = d.ends
    · simp [here, or_imp, forall_and, and_comm]
    · simp [here, Ne.symm here, or_imp, forall_and]

/-- The same with the ends apart. -/
theorem mem_mergeWaits : x ∈ mergeWaits ws ↔ (∃ w ∈ ws, w.src = x.src ∧ w.dst = x.dst) ∧
    (x.soft = true ↔ ∀ w ∈ ws, w.src = x.src → w.dst = x.dst → w.soft = true) := by
  simp only [mem_mergeWaits_iff_ends, ends_eq_iff, and_imp]

/-- The ends of the merged dependencies are those of the declared ones. -/
theorem exists_mem_mergeWaits {src dst : Name} :
    (∃ d ∈ mergeWaits ws, d.src = src ∧ d.dst = dst) ↔ ∃ d ∈ ws, d.src = src ∧ d.dst = dst := by
  constructor
  · rintro ⟨d, merged, rfl, rfl⟩
    exact (mem_mergeWaits.1 merged).1
  · rintro ⟨d, mem, rfl, rfl⟩
    let e : Dependency :=
      { d with soft := ∀ w ∈ ws, w.src = d.src → w.dst = d.dst → w.soft = true }
    exact ⟨e, mem_mergeWaits.2 ⟨⟨d, mem, rfl, rfl⟩, decide_eq_true_iff⟩, rfl, rfl⟩

/-- **Declarations fit** when their names, their memberships and their dependencies do. -/
structure Fit (ds : List Declaration) : Prop where
  names : NamesFit (introduced ds)
  members : MembersFit (introduced ds) (members ds)
  waits : WaitsFit (introduced ds) (waits ds)

end Declaration

/-! ## The steps that are made -/

open Declaration in
/-- The step that an introduced name becomes: its group is the one it was put in, and the children
of a group are the introduced names that were put in it, in the order of their introduction. -/
def Step.ofIntroduced (kinds : List (Name × Kind)) (members : List (Name × Name))
    (e : Name × Kind) : Step where
  name := e.1
  group := groupIn members e.1
  kind :=
    match e.2 with
    | .leaf action => .leaf action
    | .group _ => .group ((kinds.map (·.1)).filter fun n => groupIn members n = some e.1)

namespace Flow

open Declaration

section Made

variable {kinds rest : List (Name × Kind)} {members : List (Name × Name)}

/-- What the table lists under a group are the names that were put in it. -/
theorem listed_childrenByGroup (g : Name) : (childrenByGroup kinds members).listed g =
    (kinds.map (·.1)).filter fun n => groupIn members n = some g := by
  rw [childrenByGroup, Table.listed_collect]
  induction kinds with
  | nil => rfl
  | cons e rest ih =>
    rw [List.filterMap_cons, List.map_cons, List.filter_cons]
    cases put : groupIn members e.1 with
    | none => simpa using ih
    | some g' => by_cases same : g' = g <;> simpa [same] using ih

theorem names_makeSteps (children : Table (List Name)) :
    (makeSteps members children rest).map (·.name) = rest.map (·.1) := by
  induction rest generalizing children with
  | nil => rfl
  | cons e rest ih =>
    obtain ⟨n, kind⟩ := e
    cases kind with
    | leaf action => exact congrArg (n :: ·) (ih children)
    | group _ => exact congrArg (n :: ·) (ih (children.erase n))

/-- **What each introduced name becomes.** No name is introduced twice, so no group finds its
children taken out. -/
theorem makeSteps_eq_map {children : Table (List Name)} (nodup : (rest.map (·.1)).Nodup)
    (listed : ∀ n ∈ rest.map (·.1), children.listed n =
      (kinds.map (·.1)).filter fun m => groupIn members m = some n) :
    makeSteps members children rest = rest.map (Step.ofIntroduced kinds members) := by
  induction rest generalizing children with
  | nil => rfl
  | cons e rest ih =>
    obtain ⟨n, kind⟩ := e
    rw [List.map_cons, List.nodup_cons] at nodup
    have here := listed n List.mem_cons_self
    have others : ∀ m ∈ rest.map (·.1), children.listed m =
        (kinds.map (·.1)).filter fun k => groupIn members k = some m :=
      fun m mem => listed m (List.mem_cons_of_mem _ mem)
    cases kind with
    | leaf action => exact congrArg (_ :: ·) (ih nodup.2 others)
    | group _ =>
      rw [makeSteps, here, ih nodup.2 fun m mem => ?_, List.map_cons]
      · rfl
      · have apart : n ≠ m := fun eq => nodup.1 (eq ▸ mem)
        rw [← others m mem, Table.listed, Table.get?_erase_of_ne _ apart]
        rfl

end Made

/-! ## The assembled flow -/

section Assembled

variable {ds : List Declaration} {n g : Name}

theorem names_assemble_perm : (assemble ds).names.Perm ((introduced ds).map (·.1)) := by
  have sorted := (List.mergeSort_perm (makeSteps (members ds)
    (childrenByGroup (introduced ds) (members ds)) (introduced ds))
    fun a b => a.name ≤ b.name).map Step.name
  rw [names_makeSteps] at sorted
  exact sorted

/-- The steps are made of the introduced names and then put in order. -/
theorem steps_assemble (nodup : ((introduced ds).map (·.1)).Nodup) : (assemble ds).steps =
    ((introduced ds).map (Step.ofIntroduced (introduced ds) (members ds))).mergeSort
      fun a b => a.name ≤ b.name := by
  rw [assemble, makeSteps_eq_map nodup fun n _ => listed_childrenByGroup n]

theorem mem_steps_assemble (nodup : ((introduced ds).map (·.1)).Nodup) {s : Step} :
    s ∈ (assemble ds).steps ↔
      ∃ e ∈ introduced ds, Step.ofIntroduced (introduced ds) (members ds) e = s := by
  rw [steps_assemble nodup, List.mem_mergeSort, List.mem_map]

theorem contains_assemble_iff :
    (assemble ds).contains n = true ↔ n ∈ (introduced ds).map (·.1) := by
  rw [contains_iff_mem_names, names_assemble_perm.mem_iff]

variable (nodup : ((introduced ds).map (·.1)).Nodup)

include nodup

theorem step?_assemble {e : Name × Kind} (h : e ∈ introduced ds) :
    (assemble ds).step? e.1 = some (Step.ofIntroduced (introduced ds) (members ds) e) :=
  step?_of_nodup (names_assemble_perm.nodup_iff.2 nodup) ((mem_steps_assemble nodup).2 ⟨e, h, rfl⟩)

theorem groupOf?_assemble : (assemble ds).groupOf? n = some g ↔
    n ∈ (introduced ds).map (·.1) ∧ groupIn (members ds) n = some g := by
  constructor
  · intro h
    have known := contains_assemble_iff.1 (contains_of_groupOf? h)
    obtain ⟨e, he, rfl⟩ := List.mem_map.1 known
    rw [groupOf?_of_step? (step?_assemble nodup he)] at h
    exact ⟨known, h⟩
  · rintro ⟨known, group⟩
    obtain ⟨e, he, rfl⟩ := List.mem_map.1 known
    rw [groupOf?_of_step? (step?_assemble nodup he)]
    exact group

theorem childrenOf_assemble {children : List Name} (h : (g, Kind.group children) ∈ introduced ds) :
    (assemble ds).childrenOf g =
      ((introduced ds).map (·.1)).filter fun n => groupIn (members ds) n = some g := by
  have found := step?_assemble nodup h
  exact childrenOf_of_step? found

theorem childrenOf_assemble_of_not_group
    (h : ∀ children, (g, Kind.group children) ∉ introduced ds) :
    (assemble ds).childrenOf g = [] := by
  unfold childrenOf
  cases hs : (assemble ds).step? g with
  | none => rfl
  | some s =>
    have known := contains_assemble_iff.1 (contains_of_step? hs)
    obtain ⟨⟨m, k⟩, he, rfl⟩ := List.mem_map.1 known
    rw [step?_assemble nodup he] at hs
    cases k with
    | group children => exact absurd he (h children)
    | leaf action =>
      rw [← Option.some.inj hs]
      rfl

end Assembled

/-- The steps of an assembled flow ascend by name, if no name is introduced twice. -/
theorem ascending_assemble {ds : List Declaration}
    (nodup : ((introduced ds).map (·.1)).Nodup) :
    (assemble ds).names.Pairwise (· < ·) := by
  have sorted := @List.pairwise_mergeSort _ (fun a b : Step => decide (a.name ≤ b.name))
    (fun a b c ab bc => by
      rw [decide_eq_true_iff] at ab bc ⊢
      exact String.le_trans ab bc)
    (fun a b => by
      rw [Bool.or_eq_true, decide_eq_true_iff, decide_eq_true_iff]
      exact String.le_total a.name b.name)
    ((introduced ds).map (Step.ofIntroduced (introduced ds) (members ds)))
  rw [← steps_assemble nodup] at sorted
  have names : (assemble ds).names.Pairwise (· ≤ ·) :=
    List.pairwise_map.2 (sorted.imp fun le => of_decide_eq_true le)
  have distinct : (assemble ds).names.Nodup := names_assemble_perm.nodup_iff.2 nodup
  exact (names.and distinct).imp fun h => lt_of_le_of_ne h.1 h.2

/-- **What fits is assembled to a consistent flow.** -/
theorem consistent_assemble {ds : List Declaration} (fit : Fit ds) : (assemble ds).Consistent := by
  have nodup := fit.names.nodup
  refine
    { nodup_names := names_assemble_perm.nodup_iff.2 nodup
      mem_childrenOf := ?_
      nodup_childrenOf := ?_
      contains_src := ?_
      contains_dst := ?_ }
  · intro n g
    rw [groupOf?_assemble nodup]
    by_cases group : ∃ children, (g, Kind.group children) ∈ introduced ds
    · obtain ⟨children, hg⟩ := group
      rw [childrenOf_assemble nodup hg, List.mem_filter, decide_eq_true_iff]
    · -- a membership names a declared group, so what is no group has no members
      rw [childrenOf_assemble_of_not_group nodup (fun c hc => group ⟨c, hc⟩)]
      refine ⟨fun hn => (List.not_mem_nil hn).elim, ?_⟩
      rintro ⟨-, inGroup⟩
      exact absurd (fit.members.group _ (mem_of_groupIn inGroup)) group
  · intro g
    by_cases group : ∃ children, (g, Kind.group children) ∈ introduced ds
    · obtain ⟨children, hg⟩ := group
      rw [childrenOf_assemble nodup hg]
      exact nodup.filter _
    · rw [childrenOf_assemble_of_not_group nodup (fun c hc => group ⟨c, hc⟩)]
      exact List.nodup_nil
  · intro d hd
    -- merged dependencies keep the ends of declared ones
    obtain ⟨d', hd', src, -⟩ := exists_mem_mergeWaits.1 ⟨d, hd, rfl, rfl⟩
    rw [contains_assemble_iff, ← src]
    exact fit.waits.src d' hd'
  · intro d hd
    obtain ⟨d', hd', -, dst⟩ := exists_mem_mergeWaits.1 ⟨d, hd, rfl, rfl⟩
    rw [contains_assemble_iff, ← dst]
    exact fit.waits.dst d' hd'

/-! ## The checks one after the other -/

section Checks

variable {ds : List Declaration} {e : FlowError}

/-- **What fits passes the checks of names, memberships and dependencies**, and nothing else. -/
theorem checkParts_eq_ok_iff : checkParts ds = .ok () ↔ Fit ds := by
  rw [checkParts, bind_eq_ok_iff, bind_eq_ok_iff, (checkNames_spec _).1, (checkWaits_spec _ _).1]
  constructor
  · rintro ⟨names, members, waits⟩
    exact ⟨names, (checkMembers_spec names.nodup _).1.1 members, waits⟩
  · rintro ⟨names, members, waits⟩
    exact ⟨names, (checkMembers_spec names.nodup _).1.2 members, waits⟩

/-- A check of the parts fails when names do, memberships after names that fit, or dependencies
after both. -/
theorem checkParts_eq_error_iff : checkParts ds = .error e ↔
    checkNames [] (introduced ds) = .error e ∨
      NamesFit (introduced ds) ∧ (checkMembers (introduced ds) [] (members ds) = .error e ∨
        MembersFit (introduced ds) (members ds) ∧
          checkWaits (introduced ds) (waits ds) = .error e) := by
  rw [checkParts, bind_eq_error_iff, bind_eq_error_iff, (checkNames_spec _).1]
  refine or_congr_right (and_congr_right fun names => ?_)
  rw [(checkMembers_spec names.nodup _).1]

/-- The checks of the parts do not speak of cycles. -/
theorem checkParts_ne_cycle : checkParts ds ≠ .error .cycle := by
  intro h
  obtain names | ⟨names, members | ⟨-, waits⟩⟩ := checkParts_eq_error_iff.1 h
  · obtain ⟨_, _, _, -, -, fault⟩ := ((checkNames_spec _).2 _).1 names
    cases fault
  · obtain ⟨_, _, _, -, -, fault⟩ := ((checkMembers_spec names.nodup _).2 _).1 members
    cases fault
  · obtain ⟨_, _, _, -, -, fault⟩ := ((checkWaits_spec _ _).2 _).1 waits
    cases fault

theorem declare_eq_ok_iff {f : Flow} : declare ds = .ok f ↔
    Fit ds ∧ (assemble ds).precedence.schedulable = true ∧ f = assemble ds := by
  rw [declare, bind_eq_ok_iff, checkParts_eq_ok_iff]
  refine and_congr_right fun _ => ?_
  cases h : (assemble ds).precedence.schedulable with
  | true => simp [h, eq_comm]
  | false => simp [h]

theorem declare_eq_error_iff : declare ds = .error e ↔ checkParts ds = .error e ∨
    Fit ds ∧ (assemble ds).precedence.schedulable = false ∧ e = .cycle := by
  rw [declare, bind_eq_error_iff, checkParts_eq_ok_iff]
  refine or_congr_right (and_congr_right fun _ => ?_)
  cases h : (assemble ds).precedence.schedulable with
  | true => simp [h]
  | false => simp [h, eq_comm]

/-- Declarations are refused because of a cycle when they fit and their phases cannot be taken away
in rounds. -/
theorem declare_eq_cycle_iff : declare ds = .error .cycle ↔
    Fit ds ∧ (assemble ds).precedence.schedulable = false := by
  rw [declare_eq_error_iff, or_iff_right checkParts_ne_cycle]
  simp

end Checks

/-- **A declared flow is well-formed.** -/
theorem wellFormed_of_declare {ds : List Declaration} {f : Flow} (h : declare ds = .ok f) :
    f.WellFormed := by
  obtain ⟨fit, ranked, rfl⟩ := declare_eq_ok_iff.1 h
  have con := consistent_assemble fit
  exact ⟨con, Precedence.exists_ranking_of_schedulable con.nodup_names ranked⟩

end Flow

end StepFlow
