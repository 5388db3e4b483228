import StepFlow.Flow.Phase
import Mathlib.Logic.Relation
import Mathlib.Data.Finset.Card

/-! # Well-formed flows

What every flow that was declared without an error satisfies, and all that the theory of runs needs
to know of a flow: it is **consistent**, that is, names are unique, a step is listed by the group it
names and by no other, and dependencies join steps of the flow; and its phases can be ranked.

A step lies **under** a group when it is a direct member of it or of a group that lies under it. The
list `Flow.below` of a group, cut off at a nesting depth, misses none of the steps under it
(`Consistent.mem_below`), and in a well-formed flow it goes from the inside out
(`WellFormed.pairwise_below`). -/

namespace StepFlow

namespace Flow

/-! ## Groups and leaves by name -/

/-- The group that a step is a direct member of. -/
def groupOf? (f : Flow) (n : Name) : Option Name := (f.step? n).bind (·.group)

/-- Whether a name belongs to a group. -/
def isGroup (f : Flow) (n : Name) : Bool := ((f.step? n).map Step.isGroup).getD false

/-- Whether a name belongs to a leaf. -/
def isLeaf (f : Flow) (n : Name) : Bool := ((f.step? n).map fun s => !s.isGroup).getD false

/-- A step lies **under** a group, at any depth of nesting. -/
def Under (f : Flow) : Name → Name → Prop := Relation.TransGen fun n g => f.groupOf? n = some g

variable {f : Flow} {n g : Name} {s : Step}

theorem groupOf?_of_step? (h : f.step? n = some s) : f.groupOf? n = s.group := by
  rw [groupOf?, h, Option.bind_some]

theorem isGroup_of_step? (h : f.step? n = some s) : f.isGroup n = s.isGroup := by
  rw [isGroup, h]; rfl

theorem isLeaf_of_step? (h : f.step? n = some s) : f.isLeaf n = !s.isGroup := by
  rw [isLeaf, h]; rfl

theorem contains_of_step? (h : f.step? n = some s) : f.contains n = true := by
  rw [contains, h]; rfl

theorem contains_iff_exists : f.contains n = true ↔ ∃ s, f.step? n = some s :=
  Option.isSome_iff_exists

theorem contains_iff_mem_names : f.contains n = true ↔ n ∈ f.names := by
  simp [contains, step?, names]

theorem childrenOf_of_step? (h : f.step? n = some s) : f.childrenOf n = s.children := by
  rw [childrenOf, h]; rfl

theorem contains_of_groupOf? (h : f.groupOf? n = some g) : f.contains n = true := by
  unfold groupOf? at h
  obtain ⟨s, hs, -⟩ := Option.bind_eq_some_iff.1 h
  exact contains_of_step? hs

theorem contains_of_isLeaf (h : f.isLeaf n = true) : f.contains n = true := by
  unfold isLeaf at h
  unfold contains
  cases hs : f.step? n with
  | none => rw [hs] at h; cases h
  | some s => rfl

/-- Every step is a leaf or a group. -/
theorem isLeaf_eq_not_isGroup (known : f.contains n = true) : f.isLeaf n = !f.isGroup n := by
  obtain ⟨s, hs⟩ := contains_iff_exists.1 known
  rw [isLeaf_of_step? hs, isGroup_of_step? hs]

theorem isLeaf_of_not_isGroup (known : f.contains n = true) (h : f.isGroup n = false) :
    f.isLeaf n = true := by
  rw [isLeaf_eq_not_isGroup known, h]
  rfl

theorem not_isLeaf_of_isGroup (h : f.isGroup n = true) : ¬ f.isLeaf n = true := by
  intro isLeaf
  rw [isLeaf_eq_not_isGroup (contains_of_isLeaf isLeaf), h] at isLeaf
  cases isLeaf

/-- Where names are unique, every step is found under its name. -/
theorem step?_of_nodup (nodup : f.names.Nodup) (h : s ∈ f.steps) : f.step? s.name = some s := by
  have found : (f.step? s.name).isSome = true := by
    rw [step?, List.find?_isSome]
    exact ⟨s, h, by simp⟩
  obtain ⟨t, ht⟩ := Option.isSome_iff_exists.1 found
  have same := step?_name ht
  rw [ht, List.inj_on_of_nodup_map nodup (mem_of_step? ht) h same]

theorem Under.contains (h : f.Under n g) : f.contains n = true := by
  obtain ⟨k, hk, -⟩ := Relation.TransGen.head'_iff.1 h
  exact contains_of_groupOf? hk

/-- A step under a group lies under every group that the group lies under. -/
theorem Under.trans {k : Name} (h : f.Under n g) (h' : f.Under g k) : f.Under n k :=
  Relation.TransGen.trans h h'

theorem Under.of_groupOf? (h : f.groupOf? n = some g) : f.Under n g := Relation.TransGen.single h

/-- A step under a group is a direct member of it or of a group under it. -/
theorem under_iff : f.Under n g ↔
    ∃ k, f.groupOf? n = some k ∧ (k = g ∨ f.Under k g) := by
  constructor
  · intro h
    obtain ⟨k, hk, rest⟩ := Relation.TransGen.head'_iff.1 h
    refine ⟨k, hk, ?_⟩
    rcases Relation.reflTransGen_iff_eq_or_transGen.1 rest with rfl | under
    · exact .inl rfl
    · exact .inr under
  · rintro ⟨k, hk, rfl | under⟩
    · exact .of_groupOf? hk
    · exact Relation.TransGen.head hk under

/-- What a step that lies under itself lies under, lies under itself as well. -/
theorem Under.nested (h : f.Under n g) (nested : f.Under n n) : f.Under g g := by
  -- the ways up from a step are all the same way, so the one back to it passes every group above
  induction h with
  | single direct =>
    obtain ⟨k, hk, back⟩ := under_iff.1 nested
    rw [direct, Option.some.injEq] at hk
    subst hk
    rcases back with rfl | back
    · exact nested
    · exact back.trans (.of_groupOf? direct)
  | tail _ direct ih =>
    obtain ⟨k, hk, back⟩ := under_iff.1 ih
    rw [direct, Option.some.injEq] at hk
    subst hk
    rcases back with rfl | back
    · exact ih
    · exact back.trans (.of_groupOf? direct)

/-- The groups that a step lies under lie under each other. -/
theorem Under.total {k : Name} (h : f.Under n g) (h' : f.Under n k) :
    g = k ∨ f.Under g k ∨ f.Under k g := by
  have unique : Relator.RightUnique fun n g => f.groupOf? n = some g := by
    intro a b c hb hc
    rw [hb, Option.some.injEq] at hc
    exact hc
  rcases Relation.ReflTransGen.total_of_right_unique unique h.to_reflTransGen
    h'.to_reflTransGen with up | up
  · rcases Relation.reflTransGen_iff_eq_or_transGen.1 up with same | under
    · exact .inl same.symm
    · exact .inr (.inl under)
  · rcases Relation.reflTransGen_iff_eq_or_transGen.1 up with same | under
    · exact .inl same
    · exact .inr (.inr under)

/-! ## Well-formedness -/

/-- A flow is **consistent** when its parts agree with each other. -/
structure Consistent (f : Flow) : Prop where
  /-- No two steps have the same name. -/
  nodup_names : f.names.Nodup
  /-- A step is among the children of exactly the group that it names. -/
  mem_childrenOf : ∀ {n g}, n ∈ f.childrenOf g ↔ f.groupOf? n = some g
  /-- No group lists a child twice. -/
  nodup_childrenOf : ∀ g, (f.childrenOf g).Nodup
  /-- The source of a dependency is a step. -/
  contains_src : ∀ {d}, d ∈ f.dependencies → f.contains d.src = true
  /-- The target of a dependency is a step. -/
  contains_dst : ∀ {d}, d ∈ f.dependencies → f.contains d.dst = true

/-- A flow is **well-formed** when it is consistent and its phases can be ranked. -/
structure WellFormed (f : Flow) : Prop extends Consistent f where
  /-- The phases can be ranked. -/
  ranked : ∃ rank, f.precedence.Ranking rank

/-- What holds of consistent flows holds of well-formed ones. -/
instance : Coe (WellFormed f) (Consistent f) := ⟨WellFormed.toConsistent⟩

namespace Consistent

variable (con : f.Consistent)

include con

theorem step?_of_mem (h : s ∈ f.steps) : f.step? s.name = some s :=
  step?_of_nodup con.nodup_names h

/-- A step with members is a group. -/
theorem exists_group_of_groupOf? (h : f.groupOf? n = some g) :
    ∃ t, f.step? g = some t ∧ t.isGroup = true := by
  have member := con.mem_childrenOf.2 h
  unfold childrenOf at member
  cases ht : f.step? g with
  | none => simp [ht] at member
  | some t =>
    refine ⟨t, rfl, ?_⟩
    cases hk : t.kind with
    | leaf action => simp [ht, Step.children, hk] at member
    | group children => simp [Step.isGroup, hk]

theorem isGroup_of_groupOf? (h : f.groupOf? n = some g) : f.isGroup g = true := by
  obtain ⟨t, ht, group⟩ := con.exists_group_of_groupOf? h
  rw [isGroup_of_step? ht, group]

theorem isGroup_of_under (h : f.Under n g) : f.isGroup g = true := by
  obtain ⟨k, -, hk⟩ := Relation.TransGen.tail'_iff.1 h
  exact con.isGroup_of_groupOf? hk

end Consistent

/-! ## What comes before a phase -/

/-- The phases of a flow are those of its steps. -/
theorem mem_phases {v : Phase} : v ∈ f.precedence.phases ↔
    ∃ n, f.contains n = true ∧ (v = .start n ∨ v = .finish n) := by
  simp only [Precedence.phases, precedence, List.mem_flatMap, contains_iff_mem_names, List.mem_cons,
    List.not_mem_nil, or_false]

namespace Consistent

variable (con : f.Consistent) {u v : Phase}

include con

/-- The memberships that constrain phases are those of the steps in their groups. -/
theorem mem_members : (n, g) ∈ f.precedence.members ↔ f.groupOf? n = some g := by
  simp only [precedence, List.mem_filterMap, Option.map_eq_some_iff, Prod.mk.injEq]
  constructor
  · rintro ⟨s, hs, k, hk, rfl, rfl⟩
    rw [groupOf?_of_step? (con.step?_of_mem hs), hk]
  · intro h
    obtain ⟨s, hs, hg⟩ := Option.bind_eq_some_iff.1 h
    exact ⟨s, mem_of_step? hs, g, hg, step?_name hs, rfl⟩

/-- A step starts after the ends of what it waits for and after the start of its group. -/
theorem mem_before_start : u ∈ f.precedence.before (.start n) ↔
    (∃ d ∈ f.dependencies, d.src = n ∧ u = .finish d.dst) ∨
      ∃ g, f.groupOf? n = some g ∧ u = .start g := by
  simp only [Precedence.before, List.mem_append, List.mem_map, List.mem_filter, decide_eq_true_eq]
  refine or_congr ?_ ?_
  · simp only [precedence, List.mem_map]
    constructor
    · rintro ⟨_, ⟨⟨d, hd, rfl⟩, src⟩, rfl⟩
      exact ⟨d, hd, src, rfl⟩
    · rintro ⟨d, hd, src, rfl⟩
      exact ⟨_, ⟨⟨d, hd, rfl⟩, src⟩, rfl⟩
  · constructor
    · rintro ⟨⟨c, g⟩, ⟨hm, rfl⟩, rfl⟩
      exact ⟨g, con.mem_members.1 hm, rfl⟩
    · rintro ⟨g, hg, rfl⟩
      exact ⟨(n, g), ⟨con.mem_members.2 hg, rfl⟩, rfl⟩

/-- A step finishes after its own start and after the ends of its members. -/
theorem mem_before_finish : u ∈ f.precedence.before (.finish n) ↔
    u = .start n ∨ ∃ c, f.groupOf? c = some n ∧ u = .finish c := by
  simp only [Precedence.before, List.mem_cons, List.mem_map, List.mem_filter, decide_eq_true_eq]
  refine or_congr_right ?_
  constructor
  · rintro ⟨⟨c, g⟩, ⟨hm, rfl⟩, rfl⟩
    exact ⟨c, con.mem_members.1 hm, rfl⟩
  · rintro ⟨c, hc, rfl⟩
    exact ⟨(c, n), ⟨con.mem_members.2 hc, rfl⟩, rfl⟩

theorem contains_of_mem_members (h : f.groupOf? n = some g) : f.contains g = true := by
  obtain ⟨t, ht, -⟩ := con.exists_group_of_groupOf? h
  exact contains_of_step? ht

/-- What must come before a phase is a phase of the flow. -/
theorem mem_phases_of_before (hv : v ∈ f.precedence.phases) (hu : u ∈ f.precedence.before v) :
    u ∈ f.precedence.phases := by
  obtain ⟨n, known, rfl | rfl⟩ := mem_phases.1 hv
  · obtain ⟨d, hd, -, rfl⟩ | ⟨g, hg, rfl⟩ := con.mem_before_start.1 hu
    · exact mem_phases.2 ⟨d.dst, con.contains_dst hd, .inr rfl⟩
    · exact mem_phases.2 ⟨g, con.contains_of_mem_members hg, .inl rfl⟩
  · obtain rfl | ⟨c, hc, rfl⟩ := con.mem_before_finish.1 hu
    · exact mem_phases.2 ⟨n, known, .inl rfl⟩
    · exact mem_phases.2 ⟨c, contains_of_groupOf? hc, .inr rfl⟩

/-- **What a ranking of the flow has to do**: put the end of a step after its start, a step after
what it waits for, and a member between the start and the end of its group. -/
theorem ranking_iff {rank : Phase → Nat} : f.precedence.Ranking rank ↔
    (∀ n, f.contains n = true → rank (.start n) < rank (.finish n)) ∧
      (∀ d ∈ f.dependencies, rank (.finish d.dst) < rank (.start d.src)) ∧
      ∀ n g, f.groupOf? n = some g →
        rank (.start g) < rank (.start n) ∧ rank (.finish n) < rank (.finish g) := by
  constructor
  · intro ranking
    refine ⟨fun n known => ?_, fun d hd => ?_, fun n g hg => ⟨?_, ?_⟩⟩
    · exact ranking _ (mem_phases.2 ⟨n, known, .inr rfl⟩) _ (con.mem_before_finish.2 (.inl rfl))
    · exact ranking _ (mem_phases.2 ⟨d.src, con.contains_src hd, .inl rfl⟩) _
        (con.mem_before_start.2 (.inl ⟨d, hd, rfl, rfl⟩))
    · exact ranking _ (mem_phases.2 ⟨n, contains_of_groupOf? hg, .inl rfl⟩) _
        (con.mem_before_start.2 (.inr ⟨g, hg, rfl⟩))
    · exact ranking _ (mem_phases.2 ⟨g, con.contains_of_mem_members hg, .inr rfl⟩) _
        (con.mem_before_finish.2 (.inr ⟨n, hg, rfl⟩))
  · rintro ⟨ends, waits, members⟩ v hv u hu
    obtain ⟨n, known, rfl | rfl⟩ := mem_phases.1 hv
    · obtain ⟨d, hd, rfl, rfl⟩ | ⟨g, hg, rfl⟩ := con.mem_before_start.1 hu
      · exact waits d hd
      · exact (members n g hg).1
    · obtain rfl | ⟨c, hc, rfl⟩ := con.mem_before_finish.1 hu
      · exact ends n known
      · exact (members c n hc).2

/-! ## Ranks of phases -/

section Ranks

variable {rank : Phase → Nat} (ranking : f.precedence.Ranking rank)

include ranking

theorem rank_start_lt_finish (h : f.contains n = true) : rank (.start n) < rank (.finish n) :=
  (con.ranking_iff.1 ranking).1 n h

theorem rank_finish_dst_lt {d : Dependency} (h : d ∈ f.dependencies) :
    rank (.finish d.dst) < rank (.start d.src) :=
  (con.ranking_iff.1 ranking).2.1 d h

theorem rank_start_group_lt (h : f.groupOf? n = some g) : rank (.start g) < rank (.start n) :=
  ((con.ranking_iff.1 ranking).2.2 n g h).1

theorem rank_finish_lt_group (h : f.groupOf? n = some g) : rank (.finish n) < rank (.finish g) :=
  ((con.ranking_iff.1 ranking).2.2 n g h).2

/-- Groups start before what lies under them. -/
theorem rank_start_under_lt (h : f.Under n g) : rank (.start g) < rank (.start n) := by
  induction h with
  | single h => exact con.rank_start_group_lt ranking h
  | tail _ h ih => exact (con.rank_start_group_lt ranking h).trans ih

end Ranks

/-! ## The steps below a group -/

theorem mem_children_steps :
    s ∈ (f.childrenOf g).filterMap f.step? ↔ f.step? s.name = some s ∧ s.group = some g := by
  rw [List.mem_filterMap]
  constructor
  · rintro ⟨c, hc, hs⟩
    have name := step?_name hs
    rw [con.mem_childrenOf, groupOf?_of_step? hs] at hc
    exact ⟨by rw [name, hs], hc⟩
  · rintro ⟨hs, hg⟩
    refine ⟨s.name, ?_, hs⟩
    rw [con.mem_childrenOf, groupOf?_of_step? hs, hg]

theorem under_of_mem_belowTo {depth : Nat} (h : s ∈ f.belowTo depth g) :
    f.step? s.name = some s ∧ f.Under s.name g := by
  -- the induction is on the depth of nesting, for all groups at once
  induction depth generalizing g with
  | zero => simp [belowTo] at h
  | succ depth ih =>
    rw [belowTo, List.mem_flatMap] at h
    obtain ⟨c, hc, hs⟩ := h
    obtain ⟨found, group⟩ := con.mem_children_steps.1 hc
    have direct : f.groupOf? c.name = some g := by rw [groupOf?_of_step? found, group]
    rcases List.mem_append.1 hs with deeper | here
    · split at deeper
      · obtain ⟨hs, under⟩ := ih deeper
        exact ⟨hs, under.trans (.of_groupOf? direct)⟩
      · simp at deeper
    · rw [List.mem_singleton.1 here]
      exact ⟨found, .of_groupOf? direct⟩

/-- The steps under a group. -/
private noncomputable def inside (f : Flow) (g : Name) : Finset Name := by
  classical exact f.names.toFinset.filter fun n => f.Under n g

omit con in
private theorem card_inside_le (g : Name) : (inside f g).card ≤ f.steps.length := by
  classical
  calc (inside f g).card
      ≤ f.names.toFinset.card := Finset.card_filter_le _ _
    _ ≤ f.names.length := f.names.toFinset_card_le
    _ = f.steps.length := List.length_map _

omit con in
private theorem card_inside_lt (free : ¬ f.Under n n) (h : f.groupOf? n = some g) :
    (inside f n).card < (inside f g).card := by
  classical
  have direct := Under.of_groupOf? h
  apply Finset.card_lt_card
  rw [Finset.ssubset_iff_of_subset]
  · refine ⟨n, ?_, by simp [inside, free]⟩
    simp only [inside, Finset.mem_filter, List.mem_toFinset]
    exact ⟨contains_iff_mem_names.1 direct.contains, direct⟩
  · intro k hk
    simp only [inside, Finset.mem_filter] at hk ⊢
    exact ⟨hk.1, hk.2.trans direct⟩

theorem mem_belowTo_of_under (free : ¬ f.Under g g) {depth : Nat} (hs : f.step? s.name = some s)
    (under : f.Under s.name g) (deep : (inside f g).card ≤ depth) : s ∈ f.belowTo depth g := by
  induction depth generalizing g with
  | zero =>
    -- the step itself lies under the group
    have here : s.name ∈ inside f g := by
      classical
      simp only [inside, Finset.mem_filter, List.mem_toFinset]
      exact ⟨contains_iff_mem_names.1 under.contains, under⟩
    have := Finset.card_pos.2 ⟨s.name, here⟩
    omega
  | succ depth ih =>
    -- the last group on the way up is a child of this one, and fewer steps lie under it
    obtain ⟨k, path, hk⟩ := Relation.TransGen.tail'_iff.1 under
    have free' : ¬ f.Under k k := fun nested => free ((Under.of_groupOf? hk).nested nested)
    have fewer := card_inside_lt free' hk
    obtain ⟨c, hc⟩ := contains_iff_exists.1 (contains_of_groupOf? hk)
    have name := step?_name hc
    rw [belowTo, List.mem_flatMap]
    refine ⟨c, con.mem_children_steps.2 ⟨by rw [name, hc], ?_⟩, ?_⟩
    · rw [← groupOf?_of_step? hc, hk]
    · rcases Relation.reflTransGen_iff_eq_or_transGen.1 path with same | deeper
      · rw [same, hs] at hc
        rw [Option.some.inj hc]
        exact List.mem_append_right _ (by simp)
      · have group := con.isGroup_of_under deeper
        rw [isGroup_of_step? hc] at group
        rw [name, group, if_pos rfl]
        exact List.mem_append_left _ (ih free' deeper (by omega))

/-- **The list below a group holds exactly the steps under it**, unless the group lies under itself:
its nesting has no depth then. -/
theorem mem_below (free : ¬ f.Under g g) :
    s ∈ f.below g ↔ f.step? s.name = some s ∧ f.Under s.name g := by
  rw [below, List.mem_filter]
  constructor
  · rintro ⟨h, -⟩
    exact con.under_of_mem_belowTo h
  · rintro ⟨hs, under⟩
    refine ⟨con.mem_belowTo_of_under free hs under (card_inside_le g), ?_⟩
    · simp only [ne_eq, decide_not, Bool.not_eq_eq_eq_not, Bool.not_true, decide_eq_false_iff_not]
      rintro rfl
      exact free under

/-- A depth that reaches the number of steps under a group misses none of them, so one more finds
nothing new. -/
private theorem belowTo_succ (free : ¬ f.Under g g) {depth : Nat}
    (deep : (inside f g).card ≤ depth) : f.belowTo (depth + 1) g = f.belowTo depth g := by
  induction depth generalizing g with
  | zero =>
    -- a child would lie under the group
    have none : f.childrenOf g = [] := by
      rw [List.eq_nil_iff_forall_not_mem]
      intro n hn
      have fewer := card_inside_lt (fun nested => free ((Under.of_groupOf?
        (con.mem_childrenOf.1 hn)).nested nested)) (con.mem_childrenOf.1 hn)
      omega
    rw [belowTo, belowTo, none]
    rfl
  | succ depth ih =>
    rw [belowTo, belowTo]
    refine List.flatMap_congr fun c hc => ?_
    obtain ⟨found, group⟩ := con.mem_children_steps.1 hc
    have direct : f.groupOf? c.name = some g := by rw [groupOf?_of_step? found, group]
    have free' : ¬ f.Under c.name c.name := fun nested =>
      free ((Under.of_groupOf? direct).nested nested)
    have fewer := card_inside_lt free' direct
    rw [ih free' (by omega)]

/-- The group itself is not among the steps below it. -/
private theorem below_eq_belowTo (free : ¬ f.Under g g) :
    f.below g = f.belowTo f.steps.length g := by
  rw [below, List.filter_eq_self]
  intro s hs
  rw [decide_eq_true_iff]
  rintro rfl
  exact free (con.under_of_mem_belowTo hs).2

/-- **The list below a group by recursion on the nesting**, without a bound on its depth: for every
child in order, what lies below it and then the child itself. -/
theorem below_eq (free : ¬ f.Under g g) : f.below g =
    ((f.childrenOf g).filterMap f.step?).flatMap fun s =>
      (if s.isGroup then f.below s.name else []) ++ [s] := by
  rw [con.below_eq_belowTo free, ← con.belowTo_succ free (card_inside_le g), belowTo]
  refine List.flatMap_congr fun c hc => ?_
  obtain ⟨found, group⟩ := con.mem_children_steps.1 hc
  have direct : f.groupOf? c.name = some g := by rw [groupOf?_of_step? found, group]
  rw [con.below_eq_belowTo fun nested => free ((Under.of_groupOf? direct).nested nested)]

end Consistent

/-- No step of a well-formed flow lies under itself. -/
theorem WellFormed.not_under_self (wf : f.WellFormed) (n : Name) : ¬ f.Under n n := by
  intro h
  obtain ⟨rank, ranking⟩ := wf.ranked
  exact Nat.lt_irrefl _ (wf.rank_start_under_lt ranking h)

/-! ## The order of the steps below a group -/

namespace WellFormed

variable (wf : f.WellFormed)

include wf

/-- What lies in one member of a group lies in no other one. -/
private theorem apart_of_members {c d x : Name} (hc : f.groupOf? c = some g)
    (hd : f.groupOf? d = some g) (different : c ≠ d) (inside : x = d ∨ f.Under x d) :
    ¬ f.Under x c := by
  intro under
  have within : ∀ {a b}, f.groupOf? a = some g → f.groupOf? b = some g → ¬ f.Under a b := by
    intro a b ha hb nested
    -- the group lies under its own member then
    obtain ⟨k, hk, same | above⟩ := under_iff.1 nested
    · rw [ha, Option.some.injEq] at hk
      subst hk same
      exact wf.not_under_self _ (.of_groupOf? hb)
    · rw [ha, Option.some.injEq] at hk
      subst hk
      exact wf.not_under_self _ (above.trans (.of_groupOf? hb))
  rcases inside with rfl | inside
  · exact within hd hc under
  · rcases under.total inside with same | nested | nested
    · exact different same
    · exact within hc hd nested
    · exact within hd hc nested

/-- **The list below a group goes from the inside out**: no step lies under one that comes before
it. -/
theorem pairwise_belowTo (depth : Nat) (g : Name) :
    (f.belowTo depth g).Pairwise fun a b => ¬ f.Under b.name a.name := by
  induction depth generalizing g with
  | zero => exact .nil
  | succ depth ih =>
    rw [belowTo, List.pairwise_flatMap]
    constructor
    · intro c hc
      rw [List.pairwise_append]
      refine ⟨?_, List.pairwise_singleton _ _, fun a ha b hb => ?_⟩
      · split
        · exact ih c.name
        · exact .nil
      · -- a member comes after all that lies under it
        rw [List.mem_singleton.1 hb]
        split at ha
        · intro under
          exact wf.not_under_self _ (under.trans (wf.under_of_mem_belowTo ha).2)
        · cases ha
    · have members : ((f.childrenOf g).filterMap f.step?).Pairwise fun a b => a.name ≠ b.name := by
        refine List.Pairwise.filterMap _ (fun c d different a ha b hb => ?_) (wf.nodup_childrenOf g)
        rw [step?_name ha, step?_name hb]
        exact different
      refine members.imp_of_mem fun {c d} hc hd different x hx y hy under => ?_
      obtain ⟨foundC, groupC⟩ := wf.mem_children_steps.1 hc
      obtain ⟨foundD, groupD⟩ := wf.mem_children_steps.1 hd
      have inside : ∀ {t s : Step}, s ∈ (if t.isGroup then f.belowTo depth t.name else []) ++ [t] →
          s.name = t.name ∨ f.Under s.name t.name := by
        intro t s hs
        rcases List.mem_append.1 hs with deeper | here
        · split at deeper
          · exact .inr (wf.under_of_mem_belowTo deeper).2
          · cases deeper
        · exact .inl (by rw [List.mem_singleton.1 here])
      refine apart_of_members wf (by rw [groupOf?_of_step? foundC, groupC])
        (by rw [groupOf?_of_step? foundD, groupD]) different (inside hy) ?_
      rcases inside hx with same | above
      · exact same ▸ under
      · exact under.trans above

/-- Steps are listed before the groups that they lie under. -/
theorem pairwise_below (g : Name) : (f.below g).Pairwise fun a b => ¬ f.Under b.name a.name :=
  (wf.pairwise_belowTo _ g).filter _

/-- What is listed below a group is what lies under it, by name. -/
theorem mem_names_below : n ∈ (f.below g).map (·.name) ↔ f.Under n g := by
  have inside := fun t => wf.mem_below (s := t) (wf.not_under_self g)
  rw [List.mem_map]
  constructor
  · rintro ⟨t, mem, rfl⟩
    exact ((inside t).1 mem).2
  · intro under
    obtain ⟨t, found⟩ := contains_iff_exists.1 under.contains
    have name := step?_name found
    subst name
    exact ⟨t, (inside t).2 ⟨found, under⟩, rfl⟩

end WellFormed

end Flow

end StepFlow
