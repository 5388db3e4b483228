import StepFlow.Proofs.Representation
import Mathlib.Data.List.Forall2
import Mathlib.Data.List.Sort

/-! # The order of declarations

Memberships and dependencies may be declared in any order, as often as one likes and anywhere among
the introductions: the same ones make the same flow, or none. The checks stop at the first thing
that is wrong and a conflict of two memberships is noticed at the later one, but whether something
is wrong does not depend on the order, and neither does what the dependencies are merged to.

The introductions have an order that matters a little. A group lists its children in it, and nothing
else is different in the flows of two lists that introduce the same in different orders.

Main statement: `Flow.declare_reordered`. -/

namespace StepFlow

open Declaration

/-! ## Flows that differ in the order of children -/

/-- Two kinds are **alike** when they are those of the same leaf or of groups with the same children
in some order. -/
inductive Kind.Alike : Kind → Kind → Prop
  | leaf (action : Action) : Kind.Alike (.leaf action) (.leaf action)
  | group {children children' : List Name} (perm : children.Perm children') :
      Kind.Alike (.group children) (.group children')

/-- Two steps are **alike** when at most the orders of their children differ. -/
structure Step.Alike (s s' : Step) : Prop where
  name : s.name = s'.name
  group : s.group = s'.group
  kind : s.kind.Alike s'.kind

/-- Two flows are **alike** when at most the orders of children differ. -/
structure Flow.Alike (f f' : Flow) : Prop where
  steps : List.Forall₂ Step.Alike f.steps f'.steps
  dependencies : f.dependencies = f'.dependencies

namespace Declaration

/-! ## The same memberships and dependencies -/

/-- Two lists of declarations have the **same relations** when they state the same memberships and
the same dependencies, in any order and with any repetitions. -/
structure SameRelations (ds ds' : List Declaration) : Prop where
  member : ∀ e, e ∈ members ds ↔ e ∈ members ds'
  wait : ∀ d, d ∈ waits ds ↔ d ∈ waits ds'

instance : Std.Irrefl Before where
  irrefl d before := by
    rcases before with lt | ⟨-, lt⟩ <;> exact String.lt_irrefl _ lt

instance : Std.Antisymm Before where
  antisymm a b ab ba := by
    rcases ab with ab | ⟨same, ab⟩ <;> rcases ba with ba | ⟨same', ba⟩
    · exact absurd (String.lt_trans ab ba) (String.lt_irrefl _)
    · exact absurd (same' ▸ ab) (String.lt_irrefl _)
    · exact absurd (same ▸ ba) (String.lt_irrefl _)
    · exact absurd (String.lt_trans ab ba) (String.lt_irrefl _)

/-- What dependencies are merged to depends on which ones they are only. -/
theorem mergeWaits_congr {ws ws' : List Dependency} (same : ∀ d, d ∈ ws ↔ d ∈ ws') :
    mergeWaits ws = mergeWaits ws' := by
  -- both lists ascend, so it is enough that they have the same members
  refine (pairwise_mergeWaits ws).eq_of_mem_iff (pairwise_mergeWaits ws') fun d => ?_
  rw [mem_mergeWaits, mem_mergeWaits]
  simp only [same]

variable {ds ds' : List Declaration} (same : SameRelations ds ds')
  (perm : (introduced ds).Perm (introduced ds'))

namespace SameRelations

theorem symm (same : SameRelations ds ds') : SameRelations ds' ds :=
  ⟨fun e => (same.member e).symm, fun d => (same.wait d).symm⟩

include same perm

/-- Whether declarations fit depends on which ones they are only. -/
theorem fit (fit : Fit ds) : Fit ds' := by
  have names : ∀ n, n ∈ (introduced ds).map (·.1) → n ∈ (introduced ds').map (·.1) :=
    fun n => (perm.map _).mem_iff.1
  refine ⟨⟨?_, ?_⟩, ⟨?_, ?_, ?_, ?_⟩, ⟨?_, ?_, ?_⟩⟩
  · exact fun e he => fit.names.spelled e (perm.mem_iff.2 he)
  · exact (perm.map _).nodup_iff.1 fit.names.nodup
  · exact fun e he => names _ (fit.members.child e ((same.member e).2 he))
  · intro e he
    obtain ⟨children, mem⟩ := fit.members.group e ((same.member e).2 he)
    exact ⟨children, perm.mem_iff.1 mem⟩
  · exact fun e he => fit.members.apart e ((same.member e).2 he)
  · intro e he e' he'
    exact fit.members.once e ((same.member e).2 he) e' ((same.member e').2 he')
  · exact fun d hd => names _ (fit.waits.src d ((same.wait d).2 hd))
  · exact fun d hd => names _ (fit.waits.dst d ((same.wait d).2 hd))
  · exact fun d hd => fit.waits.apart d ((same.wait d).2 hd)

/-- And so does whether phases can be ranked. -/
theorem respects {rank : Phase → Nat} (respects : Respects ds rank) : Respects ds' rank where
  step e he := respects.step e (perm.mem_iff.2 he)
  wait d hd := respects.wait d ((same.wait d).2 hd)
  enter e he := respects.enter e ((same.member e).2 he)
  leave e he := respects.leave e ((same.member e).2 he)

/-- And so whether they are accepted. -/
theorem accepted {f : Flow} (accepted : Flow.declare ds = .ok f) :
    Flow.declare ds' = .ok (Flow.assemble ds') := by
  obtain ⟨fit, ranked, -⟩ := Flow.declare_eq_ok_iff.1 accepted
  obtain ⟨rank, respects⟩ := (Flow.schedulable_assemble_iff fit).1 ranked
  have fit' := same.fit perm fit
  refine Flow.declare_eq_ok_iff.2 ⟨fit', ?_, rfl⟩
  exact (Flow.schedulable_assemble_iff fit').2 ⟨rank, same.respects perm respects⟩

variable (fit : Fit ds)

include fit

/-- A name is put in the same group. -/
theorem groupIn_eq (n : Name) : groupIn (members ds) n = groupIn (members ds') n := by
  refine Option.ext fun g => ?_
  rw [groupIn_eq_some fit.members, groupIn_eq_some (same.fit perm fit).members, same.member]

/-- A name becomes alike steps. -/
theorem alike_ofIntroduced (e : Name × Kind) :
    (Step.ofIntroduced (introduced ds) (members ds) e).Alike
      (Step.ofIntroduced (introduced ds') (members ds') e) where
  name := rfl
  group := same.groupIn_eq perm fit e.1
  kind := by
    obtain ⟨n, kind⟩ := e
    cases kind with
    | leaf action => exact .leaf action
    | group children =>
      refine .group ?_
      simp only [same.groupIn_eq perm fit]
      exact (perm.map _).filter _

omit perm fit in
/-- If the introductions are in the same order, both lists make the same flow. -/
theorem declare_eq (introduces : introduced ds = introduced ds') {f : Flow}
    (accepted : Flow.declare ds = .ok f) : Flow.declare ds' = .ok f := by
  have perm : (introduced ds).Perm (introduced ds') := .of_eq introduces
  obtain ⟨fit, -, rfl⟩ := Flow.declare_eq_ok_iff.1 accepted
  have nodup := fit.names.nodup
  have nodup' := (same.fit perm fit).names.nodup
  -- of the memberships only which ones they are is read
  have made : Step.ofIntroduced (introduced ds) (members ds) =
      Step.ofIntroduced (introduced ds') (members ds') := by
    funext e
    unfold Step.ofIntroduced
    simp only [same.groupIn_eq perm fit, introduces]
  have steps : (Flow.assemble ds').steps = (Flow.assemble ds).steps := by
    rw [Flow.steps_assemble nodup, Flow.steps_assemble nodup', made, introduces]
  have dependencies : (Flow.assemble ds').dependencies = (Flow.assemble ds).dependencies :=
    (mergeWaits_congr same.wait).symm
  rw [same.accepted perm accepted]
  exact congrArg Except.ok (congrArg₂ Flow.mk steps dependencies)

/-- Otherwise the flows are alike. -/
theorem alike_assemble : (Flow.assemble ds).Alike (Flow.assemble ds') where
  steps := by
    have nodup := fit.names.nodup
    have nodup' := (same.fit perm fit).names.nodup
    -- the names are the same and stand in the same order
    have names : (Flow.assemble ds).names = (Flow.assemble ds').names := by
      have perm' : (Flow.assemble ds).names.Perm (Flow.assemble ds').names :=
        Flow.names_assemble_perm.trans ((perm.map _).trans Flow.names_assemble_perm.symm)
      exact perm'.eq_of_pairwise
        (fun a b _ _ ab ba => absurd (String.lt_trans ab ba) (String.lt_irrefl a))
        (Flow.ascending_assemble nodup) (Flow.ascending_assemble nodup')
    have pairs : List.Forall₂ (· = ·) (Flow.assemble ds).names (Flow.assemble ds').names := by
      rw [List.forall₂_eq_eq_eq]
      exact names
    rw [Flow.names, Flow.names, List.forall₂_map_left_iff, List.forall₂_map_right_iff] at pairs
    -- and each of them is introduced once
    obtain ⟨lengths, pairs⟩ := List.forall₂_iff_zip.1 pairs
    refine List.forall₂_iff_zip.2 ⟨lengths, fun {s s'} pair => ?_⟩
    obtain ⟨mem, mem'⟩ := List.of_mem_zip pair
    obtain ⟨e, he, rfl⟩ := (Flow.mem_steps_assemble nodup).1 mem
    obtain ⟨e', he', rfl⟩ := (Flow.mem_steps_assemble nodup').1 mem'
    have key : e.1 = e'.1 := pairs pair
    obtain rfl := List.inj_on_of_nodup_map nodup he (perm.mem_iff.2 he') key
    exact same.alike_ofIntroduced perm fit e
  dependencies := mergeWaits_congr same.wait

end SameRelations

end Declaration

namespace Flow

/-- **The order of declarations makes no difference.** Of two lists of declarations with the same
memberships and the same dependencies, in any order, with any repetitions and anywhere among the
introductions, both make the same flow or none if they introduce the same in the same order. If they
introduce the same in different orders, both make a flow or none, and the flows differ at most in
the order of children. -/
theorem declare_reordered {ds ds' : List Declaration} (same : SameRelations ds ds') :
    (introduced ds = introduced ds' → ∀ f, declare ds = .ok f ↔ declare ds' = .ok f) ∧
      ((introduced ds).Perm (introduced ds') →
        ((∃ f, declare ds = .ok f) ↔ ∃ f, declare ds' = .ok f) ∧
          ∀ f f', declare ds = .ok f → declare ds' = .ok f' → f.Alike f') := by
  refine ⟨fun introduces => ?_, fun perm => ⟨⟨?_, ?_⟩, ?_⟩⟩
  · exact fun f => ⟨same.declare_eq introduces, same.symm.declare_eq introduces.symm⟩
  · rintro ⟨f, accepted⟩
    exact ⟨_, same.accepted perm accepted⟩
  · rintro ⟨f, accepted⟩
    exact ⟨_, same.symm.accepted perm.symm accepted⟩
  · intro f f' accepted accepted'
    obtain ⟨fit, -, rfl⟩ := declare_eq_ok_iff.1 accepted
    obtain ⟨-, -, rfl⟩ := declare_eq_ok_iff.1 accepted'
    exact same.alike_assemble perm fit

end Flow

/-- The shuffled declarations in a better order, with all relations after the introductions and some
of them stated more or less often. -/
def Declaration.tidied : List Declaration :=
  [.leaf "test" { command := some "make test" }, .group "ci", .leaf "build" {}, .group "all",
    .leaf "ship" {}, .member "build" "ci", .member "test" "ci", .member "ci" "all",
    .wait ⟨"test", "build", true⟩, .wait ⟨"ship", "test", false⟩, .wait ⟨"ship", "test", true⟩,
    .wait ⟨"test", "build", true⟩]

/-- The tidied declarations make the flow of the shuffled ones. -/
theorem Flow.declare_tidied :
    SameRelations shuffled tidied ∧ declare tidied = .ok (assemble shuffled) := by
  have same : SameRelations shuffled tidied := by
    have kept : members shuffled ⊆ members tidied ∧ waits shuffled ⊆ waits tidied := by decide
    have nothing_new : members tidied ⊆ members shuffled ∧ waits tidied ⊆ waits shuffled := by
      decide
    exact ⟨fun _ => ⟨@kept.1 _, @nothing_new.1 _⟩, fun _ => ⟨@kept.2 _, @nothing_new.2 _⟩⟩
  have reordered := (declare_reordered same).1 (by decide) (assemble shuffled)
  exact ⟨same, reordered.1 declare_shuffled⟩

end StepFlow
