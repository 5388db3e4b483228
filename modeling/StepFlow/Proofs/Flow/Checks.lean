import StepFlow.Flow.Declaration
import Mathlib.Data.List.Nodup

/-! # What the checks of declarations look for

Names, memberships and dependencies are checked in one way: the items are looked at in order, each
with those before it, and the first one at fault is reported. What it takes for items to be without
fault is said here apart from the order, by `NamesFit`, `MembersFit` and `WaitsFit`, and what may be
wrong with one item after items without fault by `NameFault`, `MemberFault` and `WaitFault`.

Main statements: `checkNames_spec`, `checkMembers_spec` and `checkWaits_spec`. -/

namespace StepFlow

/-! ## Checks one after the other -/

section Bind

variable {ε α : Type} {x : Except ε Unit} {y : Unit → Except ε α}

theorem bind_eq_ok_iff {a : α} : (x >>= y) = .ok a ↔ x = .ok () ∧ y () = .ok a := by
  cases x with
  | error e' => exact ⟨nofun, nofun⟩
  | ok u => exact ⟨fun h => ⟨rfl, h⟩, And.right⟩

/-- Of two checks, the second one counts if the first one is passed. -/
theorem bind_eq_error_iff {e : ε} :
    (x >>= y) = .error e ↔ x = .error e ∨ x = .ok () ∧ y () = .error e := by
  cases x with
  | error e' =>
    refine ⟨fun h => .inl (Except.error.inj h ▸ rfl), ?_⟩
    rintro (h | ⟨h, -⟩)
    · rw [Except.error.inj h]
      rfl
    · cases h
  | ok u =>
    refine ⟨fun h => .inr ⟨rfl, h⟩, ?_⟩
    rintro (h | ⟨-, h⟩)
    · cases h
    · exact h

end Bind

namespace Declaration

/-! ## Checks that look at items in order -/

section Scan

variable {α : Type}

/-- Looks at items in order, each with those before it, up to the first one that is at fault. -/
def scan (fault? : List α → α → Option FlowError) (before : List α) :
    List α → Except FlowError Unit
  | [] => .ok ()
  | x :: rest =>
    match fault? before x with
    | some e => .error e
    | none => scan fault? (before ++ [x]) rest

/-- A test of items one by one is **exact** for what it takes for a list to fit: an item is without
fault after items that fit if they fit together with it. -/
structure Exact (fit : List α → Prop) (fault? : List α → α → Option FlowError) : Prop where
  nil : fit []
  initial : ∀ {before rest}, fit (before ++ rest) → fit before
  step : ∀ {before x}, fit before → (fault? before x = none ↔ fit (before ++ [x]))

variable {fit : List α → Prop} {fault? : List α → α → Option FlowError} {before : List α}

/-- **An exact test accepts what fits and reports the first fault otherwise.** -/
theorem Exact.scan_spec (exact_ : Exact fit fault?) (fits : fit before) (items : List α) :
    (scan fault? before items = .ok () ↔ fit (before ++ items)) ∧
      ∀ e, scan fault? before items = .error e ↔ ∃ good x rest, items = good ++ x :: rest ∧
        fit (before ++ good) ∧ fault? (before ++ good) x = some e := by
  induction items generalizing before with
  | nil => simp [scan, fits]
  | cons x rest ih =>
    have assoc : ∀ l : List α, before ++ x :: l = before ++ [x] ++ l := fun l => by
      rw [List.append_assoc, List.singleton_append]
    cases fault : fault? before x with
    | some e =>
      -- the item is at fault, so no list that goes on with it fits
      have unfit : ∀ l, ¬ fit (before ++ x :: l) := by
        intro l h
        rw [assoc] at h
        rw [(exact_.step fits).2 (exact_.initial h)] at fault
        cases fault
      have scanned : scan fault? before (x :: rest) = .error e := by simp only [scan, fault]
      rw [scanned]
      refine ⟨⟨nofun, fun h => (unfit rest h).elim⟩, fun e' => ⟨?_, ?_⟩⟩
      · rintro ⟨⟩
        exact ⟨[], x, rest, rfl, by simpa using fits, by simpa using fault⟩
      · rintro ⟨good, y, rest', split, fit, isFault⟩
        cases good with
        | nil =>
          cases split
          rw [List.append_nil, fault] at isFault
          rw [Option.some.inj isFault]
        | cons z good =>
          cases split
          exact (unfit good fit).elim
    | none =>
      have fits' := (exact_.step fits).1 fault
      obtain ⟨accepted, reported⟩ := ih fits'
      have scanned : scan fault? before (x :: rest) = scan fault? (before ++ [x]) rest := by
        simp only [scan, fault]
      rw [scanned]
      refine ⟨by rw [accepted, assoc rest], fun e => ?_⟩
      rw [reported]
      constructor
      · rintro ⟨good, y, rest', rfl, fit, isFault⟩
        exact ⟨x :: good, y, rest', rfl, by rwa [assoc], by rwa [assoc]⟩
      · rintro ⟨good, y, rest', split, fit, isFault⟩
        cases good with
        | nil =>
          cases split
          rw [List.append_nil, fault] at isFault
          cases isFault
        | cons z good =>
          cases split
          exact ⟨good, y, rest', rfl, by rwa [← assoc], by rwa [← assoc]⟩

end Scan

/-! ## Names -/

/-- Introduced names **fit** when none is blank and all are different. -/
structure NamesFit (kinds : List (Name × Kind)) : Prop where
  spelled : ∀ e ∈ kinds, Text.isAllBlank e.1 = false
  nodup : (kinds.map (·.1)).Nodup

/-- What is wrong with a name after others that fit. -/
inductive NameFault (before : List (Name × Kind)) (n : Name) : FlowError → Prop where
  | blank (h : Text.isAllBlank n = true) : NameFault before n .blankName
  | again (spelled : Text.isAllBlank n = false) (h : n ∈ before.map (·.1)) :
      NameFault before n (.duplicateName n)

/-- What is wrong with one name, given those before it. -/
def nameError? (before : List (Name × Kind)) (e : Name × Kind) : Option FlowError :=
  if Text.isAllBlank e.1 then some .blankName
  else if e.1 ∈ before.map (·.1) then some (.duplicateName e.1)
  else none

theorem nameError?_eq_some {before : List (Name × Kind)} {x : Name × Kind} {e : FlowError} :
    nameError? before x = some e ↔ NameFault before x.1 e := by
  unfold nameError?
  constructor
  · intro h
    split at h
    · rename_i blank
      cases h
      exact .blank blank
    · rename_i spelled
      split at h
      · rename_i old
        cases h
        exact .again (by simpa using spelled) old
      · cases h
  · intro h
    cases h with
    | blank h => rw [if_pos h]
    | again spelled h => rw [spelled, if_neg Bool.false_ne_true, if_pos h]

theorem exact_names : Exact NamesFit nameError? where
  nil := ⟨by simp, by simp⟩
  initial := by
    intro before rest h
    refine ⟨fun e he => h.spelled e (List.mem_append_left _ he), ?_⟩
    exact h.nodup.sublist ((List.sublist_append_left before rest).map _)
  step := by
    intro before x fits
    have spelled : (∀ e ∈ before ++ [x], Text.isAllBlank e.1 = false) ↔
        Text.isAllBlank x.1 = false := by
      simp only [List.mem_append, List.mem_singleton]
      exact ⟨fun h => h x (.inr rfl), fun h e he => he.elim (fits.spelled e) fun he => he ▸ h⟩
    have nodup : ((before ++ [x]).map (·.1)).Nodup ↔ x.1 ∉ before.map (·.1) := by
      rw [List.map_append, List.map_singleton, List.nodup_append_comm, List.singleton_append,
        List.nodup_cons]
      exact and_iff_left fits.nodup
    have fit : NamesFit (before ++ [x]) ↔ _ ∧ _ := ⟨fun h => ⟨h.1, h.2⟩, fun h => ⟨h.1, h.2⟩⟩
    rw [fit, spelled, nodup, nameError?]
    cases blank : Text.isAllBlank x.1 <;> simp

/-- The check of names remembers which names there were. -/
theorem checkNames_eq_scan {seen : List Name} (before : List (Name × Kind))
    {kinds : List (Name × Kind)} (same : ∀ n, n ∈ seen ↔ n ∈ before.map (·.1)) :
    checkNames seen kinds = scan nameError? before kinds := by
  induction kinds generalizing seen before with
  | nil => rfl
  | cons x rest ih =>
    obtain ⟨n, k⟩ := x
    rw [checkNames, scan, nameError?]
    split
    · rfl
    · by_cases old : n ∈ seen
      · rw [if_pos old, if_pos ((same n).1 old)]
      · rw [if_neg old, if_neg fun h => old ((same n).2 h)]
        refine ih _ fun m => ?_
        rw [List.mem_cons, same m]
        simp [or_comm]

/-- **Names are accepted when they fit, and the first one at fault is reported otherwise.** -/
theorem checkNames_spec (kinds : List (Name × Kind)) :
    (checkNames [] kinds = .ok () ↔ NamesFit kinds) ∧
      ∀ e, checkNames [] kinds = .error e ↔ ∃ good x rest, kinds = good ++ x :: rest ∧
        NamesFit good ∧ NameFault good x.1 e := by
  rw [checkNames_eq_scan [] (by simp)]
  simpa only [List.nil_append, nameError?_eq_some] using
    exact_names.scan_spec exact_names.nil kinds

/-! ## Memberships -/

section Kinds

variable {kinds : List (Name × Kind)} {n c g : Name}

private theorem isNone_find?_iff : (Table.find? n kinds).isNone = true ↔ n ∉ kinds.map (·.1) := by
  rw [Option.isNone_iff_eq_none, Table.find?_eq_none]

/-- Where names are unique, what a name stands for is found under it. -/
theorem find?_eq_some (nodup : (kinds.map (·.1)).Nodup) {k : Kind} :
    Table.find? n kinds = some k ↔ (n, k) ∈ kinds := by
  refine ⟨Table.mem_of_find?, fun h => ?_⟩
  cases hk : Table.find? n kinds with
  | none => exact absurd (List.mem_map_of_mem (f := (·.1)) h) (Table.find?_eq_none.1 hk)
  | some k' =>
    have same := List.inj_on_of_nodup_map nodup (Table.mem_of_find? hk) h rfl
    rw [(Prod.mk.inj same).2]

/-- Memberships **fit** when each puts a declared step into a declared group other than itself, and
no step is put into two groups. -/
structure MembersFit (kinds : List (Name × Kind)) (members : List (Name × Name)) : Prop where
  child : ∀ e ∈ members, e.1 ∈ kinds.map (·.1)
  group : ∀ e ∈ members, ∃ children, (e.2, Kind.group children) ∈ kinds
  apart : ∀ e ∈ members, e.1 ≠ e.2
  once : ∀ e ∈ members, ∀ e' ∈ members, e.1 = e'.1 → e.2 = e'.2

/-- What is wrong with a membership after others that fit. Of several things that are wrong the
first one here counts. -/
inductive MemberFault (kinds : List (Name × Kind)) (before : List (Name × Name)) (c g : Name) :
    FlowError → Prop where
  | child (h : c ∉ kinds.map (·.1)) : MemberFault kinds before c g (.unknownMember c g)
  | unknown (child : c ∈ kinds.map (·.1)) (h : g ∉ kinds.map (·.1)) :
      MemberFault kinds before c g (.unknownGroup c g)
  | leaf (child : c ∈ kinds.map (·.1)) (action : Action) (h : (g, Kind.leaf action) ∈ kinds) :
      MemberFault kinds before c g (.notAGroup c g)
  | self (children : List Name) (group : (g, Kind.group children) ∈ kinds) (h : c = g) :
      MemberFault kinds before c g (.selfMember g)
  | twice (child : c ∈ kinds.map (·.1)) (children : List Name)
      (group : (g, Kind.group children) ∈ kinds) (apart : c ≠ g) (other : Name)
      (old : (c, other) ∈ before) (h : other ≠ g) :
      MemberFault kinds before c g (.twoGroups c other g)

section Members

variable {before members : List (Name × Name)}

theorem mem_of_groupIn (h : groupIn members n = some g) : (n, g) ∈ members := by
  rw [groupIn, Option.map_eq_some_iff] at h
  obtain ⟨e, he, rfl⟩ := h
  have name : e.1 = n := by simpa using List.find?_some he
  rw [← name]
  exact List.mem_of_find?_eq_some he

/-- Where memberships fit, a step is in the group that some membership puts it in. -/
theorem groupIn_eq_some (fits : MembersFit kinds members) :
    groupIn members n = some g ↔ (n, g) ∈ members := by
  refine ⟨mem_of_groupIn, fun h => ?_⟩
  cases hg : groupIn members n with
  | none =>
    rw [groupIn, Option.map_eq_none_iff, List.find?_eq_none] at hg
    exact absurd (decide_eq_true rfl) (hg (n, g) h)
  | some g' =>
    have same : g' = g := fits.once _ (mem_of_groupIn hg) _ h rfl
    rw [same]

variable (nodup : (kinds.map (·.1)).Nodup) (fits : MembersFit kinds before)

include nodup fits

/-- The test of a membership reports what is wrong with it. -/
theorem memberError?_eq_some {e : FlowError} :
    memberError? kinds before c g = some e ↔ MemberFault kinds before c g e := by
  unfold memberError?
  simp only [isNone_find?_iff]
  constructor
  · -- the cases of the fault are the branches of the test, each with what the ones before it found
    intro h
    split at h
    · rename_i child
      cases h
      exact .child child
    · rename_i child
      rw [not_not] at child
      split at h
      · rename_i unknown
        cases h
        exact .unknown child (Table.find?_eq_none.1 unknown)
      · rename_i action found
        cases h
        exact .leaf child action (Table.mem_of_find? found)
      · rename_i children found
        split at h
        · rename_i same
          cases h
          exact .self children (Table.mem_of_find? found) same
        · rename_i apart
          split at h
          · rename_i other inGroup
            split at h
            · cases h
            · rename_i different
              cases h
              exact .twice child children (Table.mem_of_find? found) apart other
                (mem_of_groupIn inGroup) different
          · cases h
  · intro h
    cases h with
    | child h => rw [if_pos h]
    | unknown child h => rw [if_neg (not_not.2 child), Table.find?_eq_none.2 h]
    | leaf child action h => rw [if_neg (not_not.2 child), (find?_eq_some nodup).2 h]
    | self children group h =>
      have child : c ∈ kinds.map (·.1) := h ▸ List.mem_map_of_mem (f := (·.1)) group
      rw [if_neg (not_not.2 child), (find?_eq_some nodup).2 group]
      simp only [if_pos h]
    | twice child children group apart other old h =>
      rw [if_neg (not_not.2 child), (find?_eq_some nodup).2 group]
      simp only [if_neg apart, (groupIn_eq_some fits).2 old, if_neg h]

/-- The test of a membership finds nothing wrong if it names a step and another one that is a group,
and the step is in no other group. -/
theorem memberError?_eq_none : memberError? kinds before c g = none ↔
    c ∈ kinds.map (·.1) ∧ (∃ children, (g, Kind.group children) ∈ kinds) ∧ c ≠ g ∧
      ∀ other, (c, other) ∈ before → other = g := by
  constructor
  · intro h
    -- each part holds because its opposite would be a fault
    have faultless : ∀ e, ¬ MemberFault kinds before c g e := by
      intro e fault
      rw [(memberError?_eq_some nodup fits).2 fault] at h
      cases h
    have child : c ∈ kinds.map (·.1) := by
      by_contra absent
      exact faultless _ (.child absent)
    have declared : g ∈ kinds.map (·.1) := by
      by_contra absent
      exact faultless _ (.unknown child absent)
    obtain ⟨⟨_, kind⟩, found, rfl⟩ := List.mem_map.1 declared
    cases kind with
    | leaf action => exact (faultless _ (.leaf child action found)).elim
    | group children =>
      have apart : c ≠ _ := fun same => faultless _ (.self children found same)
      refine ⟨child, ⟨children, found⟩, apart, fun other old => ?_⟩
      by_contra different
      exact faultless _ (.twice child children found apart other old different)
  · rintro ⟨child, ⟨children, group⟩, apart, same⟩
    cases h : memberError? kinds before c g with
    | none => rfl
    | some e =>
      cases (memberError?_eq_some nodup fits).1 h with
      | child absent => exact (absent child).elim
      | unknown _ absent => exact (absent (List.mem_map_of_mem (f := (·.1)) group)).elim
      | leaf _ action leaf =>
        have kinds := List.inj_on_of_nodup_map nodup leaf group rfl
        cases kinds
      | self _ _ same => exact (apart same).elim
      | twice _ _ _ _ other old different => exact (different (same other old)).elim

end Members

/-- A list of memberships with one more fits if that one does. -/
theorem membersFit_snoc {before : List (Name × Name)} (fits : MembersFit kinds before) :
    MembersFit kinds (before ++ [(c, g)]) ↔
      c ∈ kinds.map (·.1) ∧ (∃ children, (g, Kind.group children) ∈ kinds) ∧ c ≠ g ∧
        ∀ other, (c, other) ∈ before → other = g := by
  have last : (c, g) ∈ before ++ [(c, g)] := List.mem_append_right _ List.mem_cons_self
  constructor
  · intro h
    exact ⟨h.child _ last, h.group _ last, h.apart _ last,
      fun other old => h.once _ (List.mem_append_left _ old) _ last rfl⟩
  · rintro ⟨child, group, apart, once⟩
    have cases_ : ∀ e ∈ before ++ [(c, g)], e ∈ before ∨ e = (c, g) := by simp
    refine ⟨fun e he => ?_, fun e he => ?_, fun e he => ?_, fun e he e' he' same => ?_⟩
    · rcases cases_ e he with old | rfl
      · exact fits.child e old
      · exact child
    · rcases cases_ e he with old | rfl
      · exact fits.group e old
      · exact group
    · rcases cases_ e he with old | rfl
      · exact fits.apart e old
      · exact apart
    · rcases cases_ e he with old | rfl <;> rcases cases_ e' he' with old' | rfl
      · exact fits.once e old e' old' same
      · have name : e.1 = c := same
        exact once e.2 (by rw [← name]; exact old)
      · have name : c = e'.1 := same
        exact (once e'.2 (by rw [name]; exact old')).symm
      · rfl

theorem exact_members (nodup : (kinds.map (·.1)).Nodup) :
    Exact (MembersFit kinds) fun before e => memberError? kinds before e.1 e.2 where
  nil := ⟨by simp, by simp, by simp, by simp⟩
  initial := by
    intro before rest h
    have left : ∀ {e}, e ∈ before → e ∈ before ++ rest := fun he => List.mem_append_left _ he
    exact ⟨fun e he => h.child e (left he), fun e he => h.group e (left he),
      fun e he => h.apart e (left he), fun e he e' he' => h.once e (left he) e' (left he')⟩
  step := by
    intro before x fits
    rw [memberError?_eq_none nodup fits]
    exact (membersFit_snoc fits).symm

theorem checkMembers_eq_scan (before members : List (Name × Name)) :
    checkMembers kinds before members =
      scan (fun before e => memberError? kinds before e.1 e.2) before members := by
  induction members generalizing before with
  | nil => rfl
  | cons e rest ih =>
    obtain ⟨c, g⟩ := e
    rw [checkMembers, scan]
    split
    · rename_i fault
      simp only [fault]
    · rename_i fault
      simp only [fault]
      exact ih _

/-- **Memberships are accepted when they fit, and the first one at fault is reported otherwise.** -/
theorem checkMembers_spec (nodup : (kinds.map (·.1)).Nodup) (members : List (Name × Name)) :
    (checkMembers kinds [] members = .ok () ↔ MembersFit kinds members) ∧
      ∀ e, checkMembers kinds [] members = .error e ↔ ∃ good x rest, members = good ++ x :: rest ∧
        MembersFit kinds good ∧ MemberFault kinds good x.1 x.2 e := by
  rw [checkMembers_eq_scan]
  obtain ⟨accepted, reported⟩ :=
    (exact_members nodup).scan_spec (exact_members nodup).nil members
  refine ⟨accepted, fun e => (reported e).trans ?_⟩
  simp only [List.nil_append]
  refine exists_congr fun good => exists_congr fun x => exists_congr fun rest => ?_
  exact and_congr_right fun _ => and_congr_right fun fits => memberError?_eq_some nodup fits

/-! ## Dependencies -/

/-- Dependencies **fit** when each joins two different declared steps. -/
structure WaitsFit (kinds : List (Name × Kind)) (waits : List Dependency) : Prop where
  src : ∀ d ∈ waits, d.src ∈ kinds.map (·.1)
  dst : ∀ d ∈ waits, d.dst ∈ kinds.map (·.1)
  apart : ∀ d ∈ waits, d.src ≠ d.dst

/-- What is wrong with a dependency. Of several things that are wrong the first one here counts. -/
inductive WaitFault (kinds : List (Name × Kind)) (d : Dependency) : FlowError → Prop where
  | src (h : d.src ∉ kinds.map (·.1)) : WaitFault kinds d (.unknownEnd d d.src)
  | dst (src : d.src ∈ kinds.map (·.1)) (h : d.dst ∉ kinds.map (·.1)) :
      WaitFault kinds d (.unknownEnd d d.dst)
  | self (src : d.src ∈ kinds.map (·.1)) (h : d.src = d.dst) : WaitFault kinds d (.selfWait d.src)

theorem waitError?_eq_some {d : Dependency} {e : FlowError} :
    waitError? kinds d = some e ↔ WaitFault kinds d e := by
  unfold waitError?
  simp only [isNone_find?_iff]
  constructor
  · intro h
    split at h
    · rename_i src
      cases h
      exact .src src
    · rename_i src
      rw [not_not] at src
      split at h
      · rename_i dst
        cases h
        exact .dst src dst
      · split at h
        · rename_i same
          cases h
          exact .self src same
        · cases h
  · intro h
    cases h with
    | src h => rw [if_pos h]
    | dst src h => rw [if_neg (not_not.2 src), if_pos h]
    | self src h => rw [if_neg (not_not.2 src), ← h, if_neg (not_not.2 src), if_pos rfl]

theorem waitError?_eq_none {d : Dependency} : waitError? kinds d = none ↔
    d.src ∈ kinds.map (·.1) ∧ d.dst ∈ kinds.map (·.1) ∧ d.src ≠ d.dst := by
  unfold waitError?
  simp only [isNone_find?_iff]
  by_cases src : d.src ∈ kinds.map (·.1)
  · by_cases dst : d.dst ∈ kinds.map (·.1)
    · rw [if_neg (not_not.2 src), if_neg (not_not.2 dst)]
      by_cases same : d.src = d.dst <;> simp [src, dst, same]
    · rw [if_neg (not_not.2 src), if_pos dst]
      simp [dst]
  · rw [if_pos src]
    simp [src]

theorem exact_waits : Exact (WaitsFit kinds) fun _ d => waitError? kinds d where
  nil := ⟨by simp, by simp, by simp⟩
  initial := by
    intro before rest h
    have left : ∀ {d}, d ∈ before → d ∈ before ++ rest := fun hd => List.mem_append_left _ hd
    exact ⟨fun d hd => h.src d (left hd), fun d hd => h.dst d (left hd),
      fun d hd => h.apart d (left hd)⟩
  step := by
    intro before x fits
    rw [waitError?_eq_none]
    have last : x ∈ before ++ [x] := List.mem_append_right _ List.mem_cons_self
    constructor
    · rintro ⟨src, dst, apart⟩
      have cases_ : ∀ d ∈ before ++ [x], d ∈ before ∨ d = x := by simp
      refine ⟨fun d hd => ?_, fun d hd => ?_, fun d hd => ?_⟩
      · exact (cases_ d hd).elim (fits.src d) fun same => same ▸ src
      · exact (cases_ d hd).elim (fits.dst d) fun same => same ▸ dst
      · exact (cases_ d hd).elim (fits.apart d) fun same => same ▸ apart
    · exact fun h => ⟨h.src x last, h.dst x last, h.apart x last⟩

theorem checkWaits_eq_scan (before waits : List Dependency) :
    checkWaits kinds waits = scan (fun _ d => waitError? kinds d) before waits := by
  induction waits generalizing before with
  | nil => rfl
  | cons d rest ih =>
    rw [checkWaits, scan]
    cases waitError? kinds d with
    | some e => rfl
    | none => exact ih _

/-- **Dependencies are accepted when they fit**, and the first one at fault is reported else. -/
theorem checkWaits_spec (kinds : List (Name × Kind)) (waits : List Dependency) :
    (checkWaits kinds waits = .ok () ↔ WaitsFit kinds waits) ∧
      ∀ e, checkWaits kinds waits = .error e ↔ ∃ good d rest, waits = good ++ d :: rest ∧
        WaitsFit kinds good ∧ WaitFault kinds d e := by
  rw [checkWaits_eq_scan []]
  simpa only [List.nil_append, waitError?_eq_some] using
    exact_waits.scan_spec exact_waits.nil waits

end Kinds

end Declaration

end StepFlow
