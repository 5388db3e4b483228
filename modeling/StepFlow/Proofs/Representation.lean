import StepFlow.Proofs.Acceptance

/-! # What a flow makes of its declarations

An accepted list of declarations says what its flow is, and the parts of the flow agree with it and
with each other: the steps are the names that were introduced, a step names the group that it was
put in and is listed by that group, groups do not lie in each other, and what was declared to wait
for what is merged to one dependency for each pair of ends, which both of its ends list.

Nothing but the introductions has an order that matters. The steps go by name, the children of a
group by their introduction, and the dependencies of a step by the name at the other end.

Main statement: `Flow.represents_of_declare`. -/

namespace StepFlow

open Declaration

/-- A flow **represents** a list of declarations when its parts are those that were declared. -/
structure Flow.Represents (f : Flow) (ds : List Declaration) : Prop where
  /-- The names of the steps ascend by code point. -/
  ascending : f.names.Pairwise (· < ·)
  /-- The names are those that were introduced. -/
  names : ∀ n, n ∈ f.names ↔ n ∈ (introduced ds).map (·.1)
  /-- A leaf does what it was introduced with. -/
  leaf : ∀ n action, (n, Kind.leaf action) ∈ introduced ds ↔
    (f.step? n).bind Step.action? = some action
  /-- The groups are those that were introduced. -/
  group : ∀ n, (∃ children, (n, Kind.group children) ∈ introduced ds) ↔ f.isGroup n = true
  /-- A step names the group that it was put in. -/
  parent : ∀ n g, f.groupOf? n = some g ↔ (n, g) ∈ members ds
  /-- A group lists the steps that were put in it. -/
  child : ∀ n g, n ∈ f.childrenOf g ↔ (n, g) ∈ members ds
  /-- No group lists a child twice. -/
  children_nodup : ∀ g, (f.childrenOf g).Nodup
  /-- The children of a group are listed in the order of their introduction. -/
  children_sublist : ∀ g, (f.childrenOf g).Sublist ((introduced ds).map (·.1))
  /-- No step lies under itself. -/
  forest : ∀ n, ¬ f.Under n n
  /-- Between two ends there is a dependency if one was declared. -/
  dependency : ∀ src dst, (∃ d ∈ f.dependencies, d.src = src ∧ d.dst = dst) ↔
    ∃ w ∈ waits ds, w.src = src ∧ w.dst = dst
  /-- Between two ends there is no more than one dependency. -/
  once : (f.dependencies.map fun d => (d.src, d.dst)).Nodup
  /-- A dependency is soft if all its declarations are. -/
  soft : ∀ d ∈ f.dependencies, (d.soft = true ↔
    ∀ w ∈ waits ds, w.src = d.src → w.dst = d.dst → w.soft = true)
  /-- What a step waits for is listed by target, each target once. -/
  edgesFrom_ascending : ∀ n, (f.edgesFrom n).Pairwise (·.dst < ·.dst)
  /-- Who waits for a step is listed by source, each source once. -/
  edgesTo_ascending : ∀ n, (f.edgesTo n).Pairwise (·.src < ·.src)
  /-- A dependency is listed with its source exactly when it is listed with its target. -/
  edges_agree : ∀ d, d ∈ f.edgesFrom d.src ↔ d ∈ f.edgesTo d.dst
  /-- What the steps list as sources are the dependencies, each once. -/
  edgesFrom_cover : (f.names.flatMap f.edgesFrom).Perm f.dependencies
  /-- What the steps list as targets are the dependencies, each once. -/
  edgesTo_cover : (f.names.flatMap f.edgesTo).Perm f.dependencies

/-! ## Lists that are split by a key -/

/-- A list that is split by a key, in any order of the keys, has the same members. -/
private theorem flatMap_filter_perm {α : Type} {key : α → Name} {keys : List Name} {l : List α}
    (distinct : keys.Nodup) (nodup : l.Nodup) (keyed : ∀ a ∈ l, key a ∈ keys) :
    (keys.flatMap fun n => l.filter (key · = n)).Perm l := by
  have apart : (keys.flatMap fun n => l.filter (key · = n)).Nodup := by
    refine List.nodup_flatMap.2 ⟨fun n _ => nodup.filter _, distinct.imp fun {n k} ne => ?_⟩
    intro a hn hk
    rw [List.mem_filter, decide_eq_true_iff] at hn hk
    exact ne (hn.2.symm.trans hk.2)
  refine (List.perm_ext_iff_of_nodup apart nodup).2 fun a => ?_
  simp only [List.mem_flatMap, List.mem_filter, decide_eq_true_iff]
  constructor
  · rintro ⟨_, -, mem, -⟩
    exact mem
  · intro mem
    exact ⟨key a, keyed a mem, mem, rfl⟩

namespace Declaration

/-! ## Dependencies of one source or one target -/

section Ascending

variable {l : List Dependency} (ascends : l.Pairwise Before)

include ascends

theorem nodup_ends : (l.map fun d => (d.src, d.dst)).Nodup :=
  List.pairwise_map.2 (ascends.imp Before.ends_ne)

theorem pairwise_dst (n : Name) : (l.filter (·.src = n)).Pairwise (·.dst < ·.dst) := by
  refine (ascends.filter _).imp_of_mem fun {a b} ha hb before => ?_
  rw [List.mem_filter, decide_eq_true_iff] at ha hb
  rcases before with lt | ⟨-, lt⟩
  · rw [ha.2, hb.2] at lt
    exact absurd lt (String.lt_irrefl n)
  · exact lt

theorem pairwise_src (n : Name) : (l.filter (·.dst = n)).Pairwise (·.src < ·.src) := by
  refine (ascends.filter _).imp_of_mem fun {a b} ha hb before => ?_
  rw [List.mem_filter, decide_eq_true_iff] at ha hb
  rcases before with lt | ⟨-, lt⟩
  · exact lt
  · rw [ha.2, hb.2] at lt
    exact absurd lt (String.lt_irrefl n)

end Ascending

end Declaration

namespace Flow

variable {ds : List Declaration} (fit : Fit ds)

include fit

/-! ## The steps of an assembled flow -/

/-- A step of the assembled flow is what one introduction becomes. -/
theorem step?_assemble_eq_some {n : Name} {s : Step} : (assemble ds).step? n = some s ↔
    ∃ k, (n, k) ∈ introduced ds ∧ s = Step.ofIntroduced (introduced ds) (members ds) (n, k) := by
  have nodup := fit.names.nodup
  constructor
  · intro found
    obtain ⟨⟨m, k⟩, he, rfl⟩ := (mem_steps_assemble nodup).1 (mem_of_step? found)
    obtain rfl : m = n := step?_name found
    exact ⟨k, he, rfl⟩
  · rintro ⟨k, he, rfl⟩
    exact step?_assemble nodup he

theorem action?_assemble {n : Name} {action : Action} :
    (n, Kind.leaf action) ∈ introduced ds ↔
      ((assemble ds).step? n).bind Step.action? = some action := by
  rw [Option.bind_eq_some_iff]
  constructor
  · intro leaf
    exact ⟨_, (step?_assemble_eq_some fit).2 ⟨_, leaf, rfl⟩, rfl⟩
  · rintro ⟨s, found, acts⟩
    obtain ⟨k, mem, rfl⟩ := (step?_assemble_eq_some fit).1 found
    cases k with
    | leaf a =>
      cases acts
      exact mem
    | group children => cases acts

theorem isGroup_assemble {n : Name} :
    (∃ children, (n, Kind.group children) ∈ introduced ds) ↔ (assemble ds).isGroup n = true := by
  constructor
  · rintro ⟨children, mem⟩
    exact isGroup_of_step? ((step?_assemble_eq_some fit).2 ⟨_, mem, rfl⟩)
  · intro h
    unfold isGroup at h
    cases found : (assemble ds).step? n with
    | none => rw [found] at h; cases h
    | some s =>
      obtain ⟨k, mem, rfl⟩ := (step?_assemble_eq_some fit).1 found
      cases k with
      | leaf a => rw [found] at h; cases h
      | group children => exact ⟨children, mem⟩

/-- The children of a group are introduced names, in the order of their introduction. -/
theorem childrenOf_assemble_sublist (g : Name) :
    ((assemble ds).childrenOf g).Sublist ((introduced ds).map (·.1)) := by
  have nodup := fit.names.nodup
  by_cases group : ∃ children, (g, Kind.group children) ∈ introduced ds
  · obtain ⟨children, mem⟩ := group
    rw [childrenOf_assemble nodup mem]
    exact List.filter_sublist
  · rw [childrenOf_assemble_of_not_group nodup fun children mem => group ⟨children, mem⟩]
    exact List.nil_sublist _

/-! ## All parts together -/

/-- What fits is assembled to a flow that represents it, if no step lies under itself. -/
theorem represents_assemble (forest : ∀ n, ¬ (assemble ds).Under n n) :
    (assemble ds).Represents ds := by
  have con := consistent_assemble fit
  have ascends : (assemble ds).dependencies.Pairwise Before := pairwise_mergeWaits (waits ds)
  have nodup : (assemble ds).dependencies.Nodup := (nodup_ends ascends).of_map _
  refine
    { ascending := ascending_assemble fit.names.nodup
      names := fun n => names_assemble_perm.mem_iff
      leaf := fun _ _ => action?_assemble fit
      group := fun _ => isGroup_assemble fit
      parent := fun _ _ => groupOf?_assemble_iff_mem fit
      child := fun n g => con.mem_childrenOf.trans (groupOf?_assemble_iff_mem fit)
      children_nodup := con.nodup_childrenOf
      children_sublist := childrenOf_assemble_sublist fit
      forest := forest
      dependency := fun _ _ => exists_mem_mergeWaits
      once := nodup_ends ascends
      soft := fun d hd => (mem_mergeWaits.1 hd).2
      edgesFrom_ascending := fun n => edgesFrom_eq _ n ▸ pairwise_dst ascends n
      edgesTo_ascending := fun n => edgesTo_eq _ n ▸ pairwise_src ascends n
      edges_agree := fun _ => mem_edgesFrom_iff_mem_edgesTo
      edgesFrom_cover := ?_
      edgesTo_cover := ?_ }
  · rw [funext (assemble ds).edgesFrom_eq]
    exact flatMap_filter_perm con.nodup_names nodup fun d hd =>
      contains_iff_mem_names.1 (con.contains_src hd)
  · rw [funext (assemble ds).edgesTo_eq]
    exact flatMap_filter_perm con.nodup_names nodup fun d hd =>
      contains_iff_mem_names.1 (con.contains_dst hd)

omit fit in
/-- **An accepted flow represents its declarations.** Its steps are the introduced names in the
order of their code points; a step names a group exactly if it was put in it, and exactly then the
group lists it, in the order of introduction and once; no step lies under itself; there is one
dependency between two ends exactly if at least one was declared, soft if all of them were; and what
is listed with the sources and with the targets, in order and without duplicates, are in both cases
the dependencies. -/
theorem represents_of_declare {f : Flow} (accepted : declare ds = .ok f) : f.Represents ds := by
  obtain ⟨fit, -, rfl⟩ := declare_eq_ok_iff.1 accepted
  exact represents_assemble fit (wellFormed_of_declare accepted).not_under_self

end Flow

/-! ## Declarations out of order -/

/-- Declarations in no good order, with a membership and a dependency that are declared twice. -/
def Declaration.shuffled : List Declaration :=
  [.wait ⟨"ship", "test", true⟩, .member "test" "ci", .leaf "test" { command := some "make test" },
    .group "ci", .member "build" "ci", .wait ⟨"test", "build", true⟩, .leaf "build" {},
    .member "test" "ci", .group "all", .wait ⟨"ship", "test", false⟩, .leaf "ship" {},
    .member "ci" "all"]

/-- When the phases of the shuffled declarations come. -/
def Phase.shuffledRank : Phase → Nat
  | .start n => if n = "all" then 0 else if n = "ci" then 1 else if n = "build" then 2 else
      if n = "test" then 4 else 6
  | .finish n => if n = "all" then 10 else if n = "ci" then 9 else if n = "build" then 3 else
      if n = "test" then 5 else 7

/-- The shuffled declarations are accepted. -/
theorem Flow.declare_shuffled :
    Flow.declare Declaration.shuffled = .ok (Flow.assemble Declaration.shuffled) := by
  have fit : Fit Declaration.shuffled := checkParts_eq_ok_iff.1 (by decide +kernel)
  have respects : Respects Declaration.shuffled Phase.shuffledRank :=
    ⟨by decide, by decide, by decide, by decide⟩
  exact declare_eq_ok_iff.2 ⟨fit, (schedulable_assemble_iff fit).2 ⟨_, respects⟩, rfl⟩

/-- The flow of the shuffled declarations represents them. -/
theorem Flow.represents_shuffled :
    Flow.declare Declaration.shuffled = .ok (Flow.assemble Declaration.shuffled) ∧
      (Flow.assemble Declaration.shuffled).Represents Declaration.shuffled :=
  ⟨declare_shuffled, represents_of_declare declare_shuffled⟩

end StepFlow
