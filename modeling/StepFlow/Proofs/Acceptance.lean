import StepFlow.Proofs.Flow.Accepted

/-! # Which declarations are accepted

Declarations are accepted when their names, memberships and dependencies fit and the starts and the
finishes of their steps can be ranked; what they are refused for otherwise is the first thing that
is wrong, in the order of the checks and, within a check, in the order of the declarations.

The ranking speaks of the declarations themselves, repeated ones and all, and not of the flow that
they are assembled to; `Flow.ranking_assemble_iff` is the bridge between the two.

Main statement: `Flow.declare_spec`. -/

namespace StepFlow

namespace Declaration

/-- A rank function **respects** declarations when it puts the start of a step before its finish,
the finish of what a step waits for before its start, and a member between the start and the finish
of its group. -/
structure Respects (ds : List Declaration) (rank : Phase → Nat) : Prop where
  step : ∀ e ∈ introduced ds, rank (.start e.1) < rank (.finish e.1)
  wait : ∀ d ∈ waits ds, rank (.finish d.dst) < rank (.start d.src)
  enter : ∀ e ∈ members ds, rank (.start e.2) < rank (.start e.1)
  leave : ∀ e ∈ members ds, rank (.finish e.1) < rank (.finish e.2)

/-- What declarations are **refused** for: the first name that is at fault, or if there is none the
first membership, or if there is none the first dependency, or if there is none the cycle that keeps
the phases from being ranked. -/
inductive Refused (ds : List Declaration) : FlowError → Prop where
  | name {good rest : List (Name × Kind)} {x : Name × Kind} {e : FlowError}
      (split : introduced ds = good ++ x :: rest) (fit : NamesFit good)
      (fault : NameFault good x.1 e) : Refused ds e
  | member {good rest : List (Name × Name)} {x : Name × Name} {e : FlowError}
      (names : NamesFit (introduced ds)) (split : members ds = good ++ x :: rest)
      (fit : MembersFit (introduced ds) good)
      (fault : MemberFault (introduced ds) good x.1 x.2 e) : Refused ds e
  | wait {good rest : List Dependency} {d : Dependency} {e : FlowError}
      (names : NamesFit (introduced ds)) (members : MembersFit (introduced ds) (members ds))
      (split : waits ds = good ++ d :: rest) (fit : WaitsFit (introduced ds) good)
      (fault : WaitFault (introduced ds) d e) : Refused ds e
  | cycle (fit : Fit ds) (unranked : ¬ ∃ rank, Respects ds rank) : Refused ds .cycle

end Declaration

namespace Flow

open Declaration

variable {ds : List Declaration}

/-- A step of the assembled flow is in the group that a membership puts it in. -/
theorem groupOf?_assemble_iff_mem (fit : Fit ds) {n g : Name} :
    (assemble ds).groupOf? n = some g ↔ (n, g) ∈ members ds := by
  rw [groupOf?_assemble fit.names.nodup, groupIn_eq_some fit.members]
  exact and_iff_right_of_imp (fit.members.child _)

/-- **The phases of the assembled flow are ranked when the declarations are respected.** -/
theorem ranking_assemble_iff (fit : Fit ds) {rank : Phase → Nat} :
    (assemble ds).precedence.Ranking rank ↔ Respects ds rank := by
  rw [(consistent_assemble fit).ranking_iff]
  simp only [contains_assemble_iff, groupOf?_assemble_iff_mem fit]
  constructor
  · rintro ⟨steps, waits, members⟩
    refine ⟨fun e he => steps e.1 (List.mem_map_of_mem (f := (·.1)) he), fun d hd => ?_,
      fun e he => (members e.1 e.2 he).1, fun e he => (members e.1 e.2 he).2⟩
    -- a declared dependency is there in the flow, merged with others between the same ends
    obtain ⟨d', hd', src, dst⟩ := exists_mem_mergeWaits.2 ⟨d, hd, rfl, rfl⟩
    rw [← src, ← dst]
    exact waits d' hd'
  · intro respects
    refine ⟨fun n hn => ?_, fun d hd => ?_, fun n g hm =>
      ⟨respects.enter (n, g) hm, respects.leave (n, g) hm⟩⟩
    · obtain ⟨e, he, rfl⟩ := List.mem_map.1 hn
      exact respects.step e he
    · obtain ⟨d', hd', src, dst⟩ := exists_mem_mergeWaits.1 ⟨d, hd, rfl, rfl⟩
      rw [← src, ← dst]
      exact respects.wait d' hd'

/-- The last check is passed exactly when the declarations can be respected. -/
theorem schedulable_assemble_iff (fit : Fit ds) :
    (assemble ds).precedence.schedulable = true ↔ ∃ rank, Respects ds rank := by
  have con := consistent_assemble fit
  rw [Precedence.schedulable_iff con.nodup_names fun v hv u hu => con.mem_phases_of_before hv hu]
  exact exists_congr fun rank => ranking_assemble_iff fit

/-- What the checks of the parts report is the first fault. -/
private theorem refused_of_checkParts {e : FlowError} (h : checkParts ds = .error e) :
    Refused ds e := by
  obtain names | ⟨names, members | ⟨members, waits⟩⟩ := checkParts_eq_error_iff.1 h
  · obtain ⟨good, x, rest, split, fit, fault⟩ := ((checkNames_spec _).2 e).1 names
    exact .name split fit fault
  · obtain ⟨good, x, rest, split, fit, fault⟩ := ((checkMembers_spec names.nodup _).2 e).1 members
    exact .member names split fit fault
  · obtain ⟨good, d, rest, split, fit, fault⟩ := ((checkWaits_spec _ _).2 e).1 waits
    exact .wait names members split fit fault

/-- **Which declarations are accepted, and what the others are refused for.** A flow is returned
exactly when names, memberships and dependencies fit and the declarations can be respected by a rank
function; it is then the assembled one. An error is returned exactly when the declarations are
refused for it. -/
theorem declare_spec (ds : List Declaration) :
    (∀ f, declare ds = .ok f ↔
      (NamesFit (introduced ds) ∧ MembersFit (introduced ds) (members ds) ∧
        WaitsFit (introduced ds) (waits ds) ∧ ∃ rank, Respects ds rank) ∧ f = assemble ds) ∧
    ∀ e, declare ds = .error e ↔ Refused ds e := by
  refine ⟨fun f => ?_, fun e => ?_⟩
  · rw [declare_eq_ok_iff, ← and_assoc]
    refine and_congr_left fun _ => ?_
    constructor
    · rintro ⟨fit, ranked⟩
      exact ⟨fit.names, fit.members, fit.waits, (schedulable_assemble_iff fit).1 ranked⟩
    · rintro ⟨names, members, waits, respected⟩
      have fit : Fit ds := ⟨names, members, waits⟩
      exact ⟨fit, (schedulable_assemble_iff fit).2 respected⟩
  · rw [declare_eq_error_iff]
    constructor
    · rintro (parts | ⟨fit, failed, rfl⟩)
      · exact refused_of_checkParts parts
      · refine .cycle fit fun respected => ?_
        rw [(schedulable_assemble_iff fit).2 respected] at failed
        cases failed
    · -- what was checked before the fault fits, so the check goes as far as that
      intro refused
      cases refused with
      | name split fit fault =>
        exact .inl (checkParts_eq_error_iff.2 (.inl
          (((checkNames_spec _).2 e).2 ⟨_, _, _, split, fit, fault⟩)))
      | member names split fit fault =>
        exact .inl (checkParts_eq_error_iff.2 (.inr ⟨names, .inl
          (((checkMembers_spec names.nodup _).2 e).2 ⟨_, _, _, split, fit, fault⟩)⟩))
      | wait names members split fit fault =>
        exact .inl (checkParts_eq_error_iff.2 (.inr ⟨names, .inr ⟨members,
          ((checkWaits_spec _ _).2 e).2 ⟨_, _, _, split, fit, fault⟩⟩⟩))
      | cycle fit unranked =>
        refine .inr ⟨fit, ?_, rfl⟩
        cases h : (assemble ds).precedence.schedulable with
        | true => exact (unranked ((schedulable_assemble_iff fit).1 h)).elim
        | false => rfl

end Flow

end StepFlow
