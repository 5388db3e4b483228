import StepFlow.Proofs.Translation
import Mathlib.Data.List.DropRight

/-! # How requirements are spelled

A requirement is spelled as blanks, a tilde and more blanks if it is soft, a name, and blanks again.
The name is trimmed, and that of a hard requirement does not begin with a tilde, so what a text
spells is determined by it. Of several tildes the first one is the mark and the others belong to the
name.

A name can be required by its own text unless there are blanks at its ends or a tilde at its front,
which the notation takes for something else. No dependency of a plan leads to a name that cannot be
spelled.

Main statements: `parse_eq_iff`, and `Requirement.parse_spells_trimmed`. -/

namespace StepFlow

/-! ## Trimmed texts -/

namespace Text

/-- A text of **blanks** holds nothing else. -/
def Blanks (s : String) : Prop := ∀ c ∈ s.toList, isBlank c = true

/-- A text is **trimmed** when it neither begins nor ends with a blank. -/
def Trimmed (s : String) : Prop :=
  (∀ c ∈ s.toList.head?, isBlank c = false) ∧ ∀ c ∈ s.toList.getLast?, isBlank c = false

variable {s t a b : String}

theorem trimChars_eq (cs : List Char) :
    trimChars cs = (cs.dropWhile isBlank).rdropWhile isBlank := rfl

/-- Trimming leaves no blank at either end. -/
theorem trimmed_trim (s : String) : Trimmed (trim s) := by
  simp only [Trimmed, trim, String.toList_ofList, trimChars_eq]
  constructor
  · intro c first
    -- the rest is a front part of what dropping left, and so begins like it
    obtain ⟨back, split⟩ := List.rdropWhile_prefix isBlank (s.toList.dropWhile isBlank)
    cases kept : (s.toList.dropWhile isBlank).rdropWhile isBlank with
    | nil => simp [kept] at first
    | cons d ds =>
      simp only [kept, List.head?_cons, Option.mem_def, Option.some.injEq] at first
      rw [kept, List.cons_append] at split
      exact first ▸ dropBlanks_head split.symm
  · intro c last
    have some_ : (s.toList.dropWhile isBlank).rdropWhile isBlank ≠ [] := by
      intro none
      simp [none] at last
    have ends := List.rdropWhile_last_not isBlank _ some_
    rw [List.getLast?_eq_some_getLast some_, Option.mem_def, Option.some.injEq] at last
    rwa [last, Bool.not_eq_true] at ends

/-- A trimmed text loses nothing. -/
theorem trim_of_trimmed (trimmed : Trimmed s) : trim s = s := by
  have front : s.toList.dropWhile isBlank = s.toList :=
    dropBlanks_of_head fun c rest split => trimmed.1 c (by rw [split]; rfl)
  have back : s.toList.rdropWhile isBlank = s.toList := by
    rw [List.rdropWhile_eq_self_iff]
    intro some_
    rw [Bool.not_eq_true]
    exact trimmed.2 _ (List.getLast?_eq_some_getLast some_)
  rw [trim, trimChars_eq, front, back, String.ofList_toList]

theorem rdropWhile_append_blanks (cs : List Char) (back : Blanks b) :
    (cs ++ b.toList).rdropWhile isBlank = cs.rdropWhile isBlank := by
  rw [List.rdropWhile, List.rdropWhile, List.reverse_append, List.dropWhile_append_of_pos]
  exact fun c mem => back c (List.mem_reverse.1 mem)

/-- Blanks around a text do not count. -/
theorem trim_append (s : String) (front : Blanks a) (back : Blanks b) :
    trim (a ++ s ++ b) = trim s := by
  have none : b.toList.dropWhile isBlank = [] := List.dropWhile_eq_nil_iff.2 back
  rw [trim, trim, trimChars_eq, trimChars_eq, String.toList_append, String.toList_append,
    List.append_assoc, List.dropWhile_append_of_pos front, List.dropWhile_append]
  split
  · rename_i empty
    rw [none, List.isEmpty_iff.1 empty]
  · rw [rdropWhile_append_blanks _ back]

/-- What is trimmed off are blanks. -/
theorem exists_eq_trim (s : String) : ∃ a b, Blanks a ∧ Blanks b ∧ s = a ++ trim s ++ b := by
  refine ⟨.ofList (s.toList.takeWhile isBlank),
    .ofList ((s.toList.dropWhile isBlank).rtakeWhile isBlank), ?_, ?_, ?_⟩
  · intro c mem
    rw [String.toList_ofList] at mem
    exact List.mem_takeWhile_imp mem
  · intro c mem
    rw [String.toList_ofList] at mem
    exact List.mem_rtakeWhile_imp mem
  · rw [trim, trimChars_eq, ← String.ofList_append, ← String.ofList_append, List.append_assoc,
      List.rdropWhile_append_rtakeWhile, List.takeWhile_append_dropWhile, String.ofList_toList]

/-- **What is left of a text when it is trimmed.** -/
theorem trim_eq_iff : trim s = t ↔ Trimmed t ∧ ∃ a b, Blanks a ∧ Blanks b ∧ s = a ++ t ++ b := by
  constructor
  · rintro rfl
    exact ⟨trimmed_trim s, exists_eq_trim s⟩
  · rintro ⟨trimmed, a, b, front, back, rfl⟩
    rw [trim_append _ front back, trim_of_trimmed trimmed]

theorem Blanks.append (front : Blanks a) (back : Blanks b) : Blanks (a ++ b) := by
  intro c mem
  rw [String.toList_append, List.mem_append] at mem
  exact mem.elim (front c) (back c)

theorem blanks_empty : Blanks "" := nofun

end Text

namespace Requirement

open Text

variable {s n : String} {r : Requirement}

/-! ## Spellings -/

/-- A text begins with the **mark** of soft requirements. -/
def Marked (s : String) : Prop := s.toList.head? = some '~'

/-- A text **spells** a requirement when it consists of blanks, of a tilde and more blanks if the
requirement is soft, of its name, and of blanks again. The name is trimmed, and no mark is at the
front of that of a hard requirement. -/
structure Spells (s : String) (r : Requirement) : Prop where
  trimmed : Trimmed r.name
  plain : r.soft = false → ¬ Marked r.name
  text : ∃ a b c, Blanks a ∧ Blanks b ∧ Blanks c ∧
    s = a ++ (if r.soft then "~" ++ b else "") ++ r.name ++ c

theorem parse_eq (s : String) : parse s = ofTrimmed (trim s).toList := by
  rw [parse, trim, String.toList_ofList]

/-- Of a text whose first character other than blanks is a tilde, the rest is the name. -/
theorem parse_marked {a : String} (front : Blanks a) (s : String) :
    parse (a ++ "~" ++ s) = ⟨trim s, true⟩ := by
  have bare : (trim (a ++ "~" ++ s)).toList = '~' :: s.toList.rdropWhile isBlank := by
    rw [trim, String.toList_ofList, trimChars_eq, String.toList_append, String.toList_append,
      List.append_assoc, List.dropWhile_append_of_pos front]
    have mark : isBlank '~' = false := by decide
    simp only [String.reduceToList, List.cons_append, List.nil_append, List.dropWhile_cons, mark,
      Bool.false_eq_true, if_false, List.rdropWhile, List.reverse_cons, List.dropWhile_append]
    split
    · rename_i empty
      rw [List.isEmpty_iff.1 empty]
      simp
    · simp
  have tail : Blanks (.ofList (s.toList.rtakeWhile isBlank)) := by
    intro c mem
    rw [String.toList_ofList] at mem
    exact List.mem_rtakeWhile_imp mem
  have same : trim (.ofList (s.toList.rdropWhile isBlank)) = trim s := by
    rw [← trim_append _ blanks_empty tail, String.empty_append, ← String.ofList_append,
      List.rdropWhile_append_rtakeWhile, String.ofList_toList]
  rw [parse_eq, bare, ofTrimmed, ← same, trim, String.toList_ofList]

/-- A text that is trimmed to one without a mark is the name of a hard requirement. -/
theorem parse_of_not_marked (plain : ¬ Marked (trim s)) : parse s = ⟨trim s, false⟩ := by
  rw [parse_eq]
  unfold Marked at plain
  unfold ofTrimmed
  split
  · rename_i starts
    rw [starts] at plain
    exact (plain rfl).elim
  · rw [String.ofList_toList]

theorem Marked.exists_eq (marked : Marked s) : ∃ u, s = "~" ++ u := by
  unfold Marked at marked
  cases split : s.toList with
  | nil => simp [split] at marked
  | cons c cs =>
    refine ⟨.ofList cs, String.toList_injective ?_⟩
    simp_all

/-- **What a text spells is what it is read as.** -/
theorem parse_eq_iff : parse s = r ↔ Spells s r := by
  constructor
  · rintro rfl
    obtain ⟨a, c, front, back, split⟩ := exists_eq_trim s
    by_cases marked : Marked (trim s)
    · -- what is behind the mark is trimmed once more, which gives the blanks between mark and name
      obtain ⟨u, same⟩ := marked.exists_eq
      obtain ⟨b, d, middle, back, split'⟩ := exists_eq_trim (u ++ c)
      have whole : s = a ++ "~" ++ (u ++ c) := by
        rw [split, same]
        simp only [String.append_assoc]
      have parsed : parse s = ⟨trim (u ++ c), true⟩ := by rw [whole, parse_marked front]
      rw [parsed]
      refine ⟨trimmed_trim _, nofun, a, b, d, front, middle, back, ?_⟩
      rw [whole]
      nth_rewrite 1 [split']
      simp only [if_true, String.append_assoc]
    · rw [parse_of_not_marked marked]
      refine ⟨trimmed_trim _, fun _ => marked, a, "", c, front, blanks_empty, back, ?_⟩
      rwa [if_neg Bool.false_ne_true, String.append_empty]
  · rintro ⟨trimmed, plain, a, b, c, front, middle, back, rfl⟩
    obtain ⟨n, soft⟩ := r
    cases soft with
    | true =>
      have whole : a ++ ("~" ++ b) ++ n ++ c = a ++ "~" ++ (b ++ n ++ c) := by
        simp only [String.append_assoc]
      rw [if_pos rfl, whole, parse_marked front, trim_append n middle back,
        trim_of_trimmed trimmed]
    | false =>
      have bare : trim (a ++ n ++ c) = n := trim_eq_iff.2 ⟨trimmed, a, c, front, back, rfl⟩
      rw [if_neg Bool.false_ne_true, String.append_empty, parse_of_not_marked, bare]
      rw [bare]
      exact plain rfl

theorem spells_parse (s : String) : Spells s (parse s) := parse_eq_iff.1 rfl

/-- The mark before a name makes it the name of a soft requirement if the name is trimmed. -/
theorem parse_mark_append_iff : parse ("~" ++ n) = ⟨n, true⟩ ↔ Trimmed n := by
  have parsed := parse_marked blanks_empty n
  rw [String.empty_append] at parsed
  rw [parsed]
  constructor
  · intro same
    have bare : trim n = n := congrArg name same
    rw [← bare]
    exact trimmed_trim n
  · intro trimmed
    rw [trim_of_trimmed trimmed]

/-- A name by itself is that of a hard requirement if it is trimmed and has no mark. -/
theorem parse_self_iff : parse n = ⟨n, false⟩ ↔ Trimmed n ∧ ¬ Marked n := by
  constructor
  · intro parsed
    have spells := parse_eq_iff.1 parsed
    exact ⟨spells.trimmed, spells.plain rfl⟩
  · rintro ⟨trimmed, plain⟩
    have bare := trim_of_trimmed trimmed
    rw [parse_of_not_marked (by rwa [bare]), bare]

/-- What a step of a plan waits for has a name that can be spelled. -/
theorem spelled_of_plan {d : Draft} {p : Plan} (planned : d.plan = .ok p) {x : Dependency}
    (mem : x ∈ p.flow.dependencies) :
    Trimmed x.dst ∧ (x.soft = false → ¬ Marked x.dst) := by
  obtain ⟨-, f, declared, rfl⟩ := Draft.plan_eq_ok_iff.1 planned
  obtain ⟨-, -, rfl⟩ := Flow.declare_eq_ok_iff.1 declared
  obtain ⟨⟨entry, -, name⟩, soft⟩ := Draft.mem_dependencies_declarations.1 mem
  refine ⟨name ▸ (spells_parse entry).trimmed, fun hard => ?_⟩
  -- a dependency is hard if one of the entries that make it is
  have some_ : ¬ x.soft = true := by rw [hard]; exact Bool.false_ne_true
  rw [soft] at some_
  push Not at some_
  obtain ⟨entry, -, name, hard⟩ := some_
  exact name ▸ (spells_parse entry).plain (Bool.eq_false_iff.2 hard)

/-- **How requirements are spelled.** What is read from a text is what the text spells, whatever the
blanks around it or after the mark. A name is spelled by the mark and the name exactly if it is
trimmed, and by itself exactly if it is trimmed and does not begin with a mark; the dependencies of
a plan lead to such names only. -/
theorem parse_spells_trimmed :
    (∀ s, Trimmed (parse s).name) ∧
    (∀ s a b, Blanks a → Blanks b → parse (a ++ s ++ b) = parse s) ∧
    (∀ s a b, Blanks a → Blanks b → parse (a ++ "~" ++ b ++ s) = parse (a ++ "~" ++ s)) ∧
    (∀ n, parse ("~" ++ n) = ⟨n, true⟩ ↔ Trimmed n) ∧
    (∀ n, parse n = ⟨n, false⟩ ↔ Trimmed n ∧ ¬ Marked n) ∧
    (∀ s r, parse s = r ↔ Spells s r) ∧
    ∀ d p, Draft.plan d = .ok p → ∀ x ∈ p.flow.dependencies,
      Trimmed x.dst ∧ (x.soft = false → ¬ Marked x.dst) := by
  refine ⟨fun s => (spells_parse s).trimmed, fun s a b front back => ?_,
    fun s a b front middle => ?_, fun n => parse_mark_append_iff, fun n => parse_self_iff,
    fun s r => parse_eq_iff, fun d p planned x mem => spelled_of_plan planned mem⟩
  · rw [parse_eq, parse_eq, trim_append s front back]
  · have dropped := trim_append s middle blanks_empty
    rw [String.append_empty] at dropped
    rw [String.append_assoc, parse_marked front, parse_marked front, dropped]

/-- Blanks around the mark and the name do not count, and in the small draft they lead to a soft
dependency. -/
theorem parse_spells_trimmed_sample :
    (Blanks " " ∧ parse (" " ++ "~ s" ++ " ") = parse "~ s") ∧
      parse ("" ++ "~" ++ " " ++ "s") = parse ("" ++ "~" ++ "s") ∧
      Draft.sample.plan = .ok ⟨defaultScenarioName, none, defaultWorkers, Draft.sampleFlow⟩ ∧
      Trimmed "s" := by
  have blank : Blanks " " := by
    intro c mem
    obtain rfl : c = ' ' := by simpa using mem
    decide
  refine ⟨⟨blank, parse_spells_trimmed.2.1 _ _ _ blank blank⟩,
    parse_spells_trimmed.2.2.1 _ _ _ blanks_empty blank, Draft.plan_sample, ?_⟩
  have waits : (⟨"g", "s", true⟩ : Dependency) ∈ Draft.sampleFlow.dependencies := by
    simp [Draft.sampleFlow]
  exact (parse_spells_trimmed.2.2.2.2.2.2 _ _ Draft.plan_sample _ waits).1

end Requirement

end StepFlow
