import StepFlow.Leaf
import StepFlow.Proofs.Scenario.Checks

/-! # Where logs are kept

The log of a step is kept under its name in the log directory. Names are free, and one with slashes
is a path of its own: an absolute one leaves the log directory behind, one with more than one
component leads through another directory, and two names may come to the same component. What it
takes for the logs of a flow to stay in the log directory and apart from each other is said here
exactly; that there is no slash in the names is enough.

A path is taken by its components, as paths are compared: whether it is absolute, and its naming
parts in order.

Main statements: `inDirectory_logPath_iff`, `locate_logPath`, and `Flow.logs_apart`. -/

namespace StepFlow

namespace Path

/-! ## Components -/

/-- The **components** of a path: whether it is absolute, and its naming parts in order. -/
def components (p : String) : Bool × List String := (isAbsolute p, (parts p).filter isNaming)

/-- A path is **in a directory** when it has the components of the directory and one more. -/
def InDirectory (dir p : String) : Prop :=
  ∃ name, components p = ((components dir).1, (components dir).2 ++ [name])

/-- The last part of a path. -/
def lastPart (p : String) : String := (parts p).getLast?.getD ""

/-- A path is **direct** when it is not absolute and has no naming part before its last part. -/
def Direct (p : String) : Prop := isAbsolute p = false ∧ (parts p).dropLast.filter isNaming = []

theorem split_ne_nil (cs : List Char) : split cs ≠ [] := by
  cases cs with
  | nil => simp [split]
  | cons c rest =>
    unfold split
    split
    · simp
    · split <;> simp

theorem split_slash_cons (rest : List Char) : split ('/' :: rest) = [] :: split rest := by
  cases h : split rest with
  | nil => exact (split_ne_nil rest h).elim
  | cons part parts => simp [split, h]

theorem split_cons_of_ne {c : Char} {rest part : List Char} {parts : List (List Char)}
    (plain : c ≠ '/') (h : split rest = part :: parts) :
    split (c :: rest) = (c :: part) :: parts := by
  simp [split, h, plain]

/-- A text without slashes is one part. -/
theorem split_of_not_mem {cs : List Char} (plain : '/' ∉ cs) : split cs = [cs] := by
  induction cs with
  | nil => rfl
  | cons c rest ih =>
    rw [List.mem_cons, not_or] at plain
    exact split_cons_of_ne (Ne.symm plain.1) (ih plain.2)

/-- A slash is where two parts meet. -/
theorem split_append_slash (cs ds : List Char) :
    split (cs ++ '/' :: ds) = split cs ++ split ds := by
  induction cs with
  | nil => exact split_slash_cons ds
  | cons c rest ih =>
    by_cases slash : c = '/'
    · subst slash
      rw [List.cons_append, split_slash_cons, ih, split_slash_cons, List.cons_append]
    · cases inner : split rest with
      | nil => exact (split_ne_nil rest inner).elim
      | cons part parts =>
        rw [inner, List.cons_append] at ih
        rw [List.cons_append, split_cons_of_ne slash ih, split_cons_of_ne slash inner,
          List.cons_append]

/-- What has no slash belongs to the part before it. -/
theorem split_append_of_not_mem {cs ds last : List Char} {front : List (List Char)}
    (plain : '/' ∉ ds) (h : split cs = front ++ [last]) :
    split (cs ++ ds) = front ++ [last ++ ds] := by
  induction cs generalizing front last with
  | nil =>
    obtain ⟨rfl, rfl⟩ : front = [] ∧ last = [] := by
      cases front <;> simp_all [split]
    exact split_of_not_mem plain
  | cons c rest ih =>
    by_cases slash : c = '/'
    · subst slash
      rw [split_slash_cons] at h
      cases front with
      | nil => exact (split_ne_nil rest (List.cons.inj h).2).elim
      | cons first front =>
        obtain ⟨rfl, others⟩ := List.cons.inj h
        rw [List.cons_append, split_slash_cons, ih others, List.cons_append]
    · cases inner : split rest with
      | nil => exact (split_ne_nil rest inner).elim
      | cons part parts =>
        rw [split_cons_of_ne slash inner] at h
        cases front with
        | nil =>
          obtain ⟨rfl, rfl⟩ := List.cons.inj h
          have here : split rest = [] ++ [part] := inner
          exact split_cons_of_ne slash (ih here)
        | cons first front =>
          obtain ⟨rfl, others⟩ := List.cons.inj h
          have here : split rest = (part :: front) ++ [last] := by rw [inner, others]; rfl
          exact split_cons_of_ne slash (ih here)

theorem parts_append_slash (p q : String) : parts (p ++ "/" ++ q) = parts p ++ parts q := by
  rw [parts, parts, parts, String.append_assoc, String.toList_append, String.toList_append,
    ← List.map_append, ← split_append_slash]
  rfl

/-- A text without slashes at the end of a path belongs to its last part. -/
theorem parts_append (p : String) {q : String} (plain : '/' ∉ q.toList) :
    parts (p ++ q) = (parts p).dropLast ++ [lastPart p ++ q] := by
  obtain none | ⟨front, last, h⟩ := List.eq_nil_or_concat (split p.toList)
  · exact (split_ne_nil _ none).elim
  · rw [List.concat_eq_append] at h
    rw [lastPart, parts, parts, String.toList_append, split_append_of_not_mem plain h, h]
    simp

theorem direct_of_not_mem {p : String} (plain : '/' ∉ p.toList) : Direct p := by
  constructor
  · cases h : p.toList with
    | nil => simp [isAbsolute, h]
    | cons c cs =>
      rw [h, List.mem_cons, not_or] at plain
      simp [isAbsolute, h, Ne.symm plain.1]
  · rw [parts, split_of_not_mem plain]
    rfl

theorem lastPart_of_not_mem {p : String} (plain : '/' ∉ p.toList) : lastPart p = p := by
  rw [lastPart, parts, split_of_not_mem plain]
  simp

/-! ## Joined paths -/

section Join

variable {dir p : String}

theorem isAbsolute_append (some_ : dir ≠ "") (q : String) :
    isAbsolute (dir ++ q) = isAbsolute dir := by
  cases h : dir.toList with
  | nil => exact (some_ (String.toList_eq_nil_iff.1 h)).elim
  | cons c cs => simp [isAbsolute, h]

theorem join_of_isAbsolute (absolute : isAbsolute p = true) : join dir p = p := by
  rw [join, absolute, Bool.true_or, if_pos rfl]

/-- The parts of a path come after those of the directory that it is joined to; the empty part after
a slash at the end of the directory is not there any more. -/
theorem parts_join (relative : isAbsolute p = false) (some_ : dir ≠ "") :
    isAbsolute (join dir p) = isAbsolute dir ∧
      ∃ front, (parts dir = front ∨ parts dir = front ++ [""]) ∧
        parts (join dir p) = front ++ parts p := by
  have some' : dir.isEmpty = false := Bool.eq_false_iff.2 fun h => some_ (String.isEmpty_iff.1 h)
  rw [join, relative, some', Bool.or_false, if_neg Bool.false_ne_true]
  split
  · rename_i slash
    obtain ⟨front, split⟩ := List.getLast?_eq_some_iff.1 slash
    have ends : dir = .ofList front ++ "/" := by
      refine String.toList_injective ?_
      rw [split, String.toList_append, String.toList_ofList]
      rfl
    refine ⟨isAbsolute_append some_ p, parts (.ofList front), .inr ?_, ?_⟩
    · have empty := parts_append_slash (.ofList front) ""
      rw [String.append_empty, ← ends] at empty
      rw [empty]
      rfl
    · rw [← parts_append_slash, ← ends]
  · rw [String.append_assoc]
    refine ⟨isAbsolute_append some_ _, parts dir, .inl rfl, ?_⟩
    rw [← String.append_assoc, parts_append_slash]

/-- An absolute path replaces what it is joined to; the components of another one come after those
of the directory. -/
theorem components_join (relative : isAbsolute p = false) :
    components (join dir p) =
      ((components dir).1, (components dir).2 ++ (components p).2) := by
  by_cases empty : dir = ""
  · subst empty
    have same : join "" p = p := by
      rw [join, String.isEmpty_iff.2 rfl, Bool.or_true, if_pos rfl]
    rw [same, components, relative]
    rfl
  · obtain ⟨absolute, front, ends, joined⟩ := parts_join relative empty
    rw [components, components, components, absolute, joined, List.filter_append]
    rcases ends with h | h <;> rw [h]
    rw [List.filter_append]
    simp [isNaming]

end Join

end Path

/-! ## The paths of logs -/

section Paths

open StepFlow.Path

variable {n m : Name} {dir : String}

/-- The path of a log names the last part of the name of its step. -/
theorem parts_log (n : Name) :
    parts (n ++ ".log") = (parts n).dropLast ++ [lastPart n ++ ".log"] :=
  parts_append n (by decide)

theorem isAbsolute_log (n : Name) : isAbsolute (n ++ ".log") = isAbsolute n := by
  by_cases empty : n = ""
  · subst empty
    decide
  · exact isAbsolute_append empty _

/-- The name of a log is longer than the parts of a path that mean something else. -/
theorem append_log_ne (part : String) {q : String} (short : q.length < 4) :
    part ++ ".log" ≠ q := by
  intro same
  have length := congrArg String.length same
  rw [String.length_append] at length
  have own : ".log".length = 4 := by decide
  omega

theorem isNaming_log (part : String) : isNaming (part ++ ".log") = true := by
  simp only [isNaming, Bool.and_eq_true, decide_eq_true_eq]
  exact ⟨append_log_ne part (by decide), append_log_ne part (by decide)⟩

theorem components_log (n : Name) : components (n ++ ".log") =
    (isAbsolute n, (parts n).dropLast.filter isNaming ++ [lastPart n ++ ".log"]) := by
  rw [components, isAbsolute_log, parts_log, List.filter_append]
  simp [isNaming_log]

/-- The log of a step with a direct name is kept in the log directory, under the last part of the
name. -/
theorem components_logPath (direct : Direct n) : components (logPath dir n) =
    ((components dir).1, (components dir).2 ++ [lastPart n ++ ".log"]) := by
  have relative : isAbsolute (n ++ ".log") = false := (isAbsolute_log n).trans direct.1
  rw [logPath, components_join relative, components_log, direct.2, List.nil_append]

/-- **A log is kept in the log directory, whichever this is, exactly if the name of the step is
direct.** -/
theorem inDirectory_logPath_iff : (∀ dir, InDirectory dir (logPath dir n)) ↔ Direct n := by
  constructor
  · intro inside
    obtain ⟨name, same⟩ := inside "logs"
    have logs : components "logs" = (false, ["logs"]) := by decide
    rw [logPath, logs] at same
    cases absolute : isAbsolute n with
    | true =>
      rw [join_of_isAbsolute ((isAbsolute_log n).trans absolute), components_log, absolute] at same
      cases congrArg Prod.fst same
    | false =>
      rw [components_join ((isAbsolute_log n).trans absolute), components_log, logs] at same
      have names := congrArg List.length (congrArg Prod.snd same)
      simp only [List.length_append, List.length_singleton] at names
      exact ⟨absolute, List.length_eq_zero_iff.1 (by omega)⟩
  · intro direct dir
    exact ⟨_, components_logPath direct⟩

/-- Two steps with direct names have one log exactly if the last parts of their names are the
same. -/
theorem components_logPath_eq_iff (hn : Direct n) (hm : Direct m) :
    components (logPath dir n) = components (logPath dir m) ↔ lastPart n = lastPart m := by
  rw [components_logPath hn, components_logPath hm]
  simp [String.append_left_inj]

end Paths

/-! ## The places of logs -/

section Places

open StepFlow.Path

variable {f : Files} {dir : String} {names : List String} {node : Node} {n : Name}

theorem toList_join {p : String} (relative : isAbsolute p = false) (some_ : dir ≠ "") :
    (join dir p).toList = dir.toList ++ p.toList ∨
      (join dir p).toList = dir.toList ++ '/' :: p.toList := by
  have some' : dir.isEmpty = false := Bool.eq_false_iff.2 fun h => some_ (String.isEmpty_iff.1 h)
  rw [join, relative, some', Bool.or_false, if_neg Bool.false_ne_true]
  split
  · exact .inl String.toList_append
  · exact .inr (by simp)

/-- What can be looked up is neither empty nor holds a character that no path has. -/
theorem Files.locate_eq_ok {place : Files.Place} (here : f.locate dir = .ok place) :
    dir ≠ "" ∧ dir.toList.any (· = '\x00') = false ∧
      (parts dir).foldlM f.advance ⟨if isAbsolute dir then [] else f.cwd,
        f.root.get? (if isAbsolute dir then [] else f.cwd)⟩ = .ok place := by
  unfold Files.locate at here
  split at here
  · cases here
  · rename_i some_
    split at here
    · cases here
    · rename_i fine
      exact ⟨fun empty => some_ (String.isEmpty_iff.2 empty), Bool.eq_false_iff.2 fine, here⟩

theorem Files.eq_of_advance_empty {here place : Files.Place}
    (step : f.advance here "" = .ok place) :
    place = here := by
  unfold Files.advance at step
  split at step
  · cases step
  · split at step
    · cases step
    · exact (Except.ok.inj step).symm

/-- A joined path is looked up from the place of its directory on. -/
theorem Files.locate_join {p : String} {place : Files.Place} (relative : isAbsolute p = false)
    (here : f.locate dir = .ok place) : f.locate (join dir p) =
      if p.toList.any (· = '\x00') then .error .badPath
      else (parts p).foldlM f.advance place := by
  obtain ⟨some_, fine, walked⟩ := Files.locate_eq_ok here
  obtain ⟨absolute, front, ends, joined⟩ := parts_join relative some_
  -- the walk along the directory's parts leads to its place, with or without the empty last part
  have reached : front.foldlM f.advance ⟨if isAbsolute dir then [] else f.cwd,
      f.root.get? (if isAbsolute dir then [] else f.cwd)⟩ = .ok place := by
    rcases ends with h | h
    · rwa [h] at walked
    · rw [h, List.foldlM_append] at walked
      cases early : front.foldlM f.advance ⟨if isAbsolute dir then [] else f.cwd,
          f.root.get? (if isAbsolute dir then [] else f.cwd)⟩ with
      | error fault =>
        rw [early] at walked
        cases walked
      | ok before =>
        rw [early] at walked
        cases step : f.advance before "" with
        | error fault => simp [bind, Except.bind, step] at walked
        | ok after =>
          have same : after = place := by
            simpa [bind, Except.bind, pure, Except.pure, step] using walked
          rw [← same, Files.eq_of_advance_empty step]
  have kept : (join dir p).isEmpty = false := by
    refine Bool.eq_false_iff.2 fun empty => some_ ?_
    have none := String.toList_eq_nil_iff.2 (String.isEmpty_iff.1 empty)
    rcases toList_join relative some_ with h | h <;> rw [h] at none <;> simp_all
  have same : (join dir p).toList.any (· = '\x00') = p.toList.any (· = '\x00') := by
    rcases toList_join relative some_ with h | h <;> rw [h] <;> simp [fine]
  unfold Files.locate
  rw [kept, if_neg Bool.false_ne_true, same, absolute, joined, List.foldlM_append, reached]
  rfl

/-- A log is found in the log directory, under the last part of the name of its step, unless the
name is none that a file can have. -/
theorem locate_logPath (direct : Direct n) (here : f.locate dir = .ok ⟨names, some node⟩)
    (directory : node.isDirectory = true) : f.locate (logPath dir n) =
      if n.toList.any (· = '\x00') then .error .badPath
      else if (lastPart n ++ ".log").utf8ByteSize > Files.maxNameBytes then .error .nameTooLong
      else .ok ⟨names ++ [lastPart n ++ ".log"], node.entries.lookup (lastPart n ++ ".log")⟩ := by
  have relative : isAbsolute (n ++ ".log") = false := (isAbsolute_log n).trans direct.1
  have fine : (n ++ ".log").toList.any (· = '\x00') = n.toList.any (· = '\x00') := by
    simp
  -- the parts before the last one name nothing, so they lead nowhere else
  have stays : ∀ front : List String, front.filter isNaming = [] →
      front.foldlM f.advance ⟨names, some node⟩ = .ok ⟨names, some node⟩ := by
    intro front
    induction front with
    | nil => exact fun _ => rfl
    | cons part front ih =>
      intro none
      rw [List.filter_cons] at none
      split at none
      · cases none
      · rename_i empty
        have step : f.advance ⟨names, some node⟩ part = .ok ⟨names, some node⟩ := by
          simp [Files.advance, directory, empty]
        rw [List.foldlM_cons, step]
        exact ih none
  have last : f.advance ⟨names, some node⟩ (lastPart n ++ ".log") =
      if (lastPart n ++ ".log").utf8ByteSize > Files.maxNameBytes then .error .nameTooLong
      else .ok ⟨names ++ [lastPart n ++ ".log"], node.entries.lookup (lastPart n ++ ".log")⟩ := by
    have up : ¬ lastPart n ++ ".log" = ".." := append_log_ne _ (by decide)
    simp [Files.advance, directory, isNaming_log, up]
  rw [logPath, Files.locate_join relative here, fine, parts_log, List.foldlM_append,
    stays _ direct.2, ← last]
  have one : [lastPart n ++ ".log"].foldlM f.advance ⟨names, some node⟩ =
      f.advance ⟨names, some node⟩ (lastPart n ++ ".log") := by
    rw [List.foldlM_cons]
    exact bind_pure _
  rw [← one]
  rfl

/-- Wherever a log is found, it is in the log directory. -/
theorem names_of_locate_logPath {place : Files.Place} (direct : Direct n)
    (here : f.locate dir = .ok ⟨names, some node⟩) (directory : node.isDirectory = true)
    (found : f.locate (logPath dir n) = .ok place) :
    place.names = names ++ [lastPart n ++ ".log"] := by
  rw [locate_logPath direct here directory] at found
  split at found
  · cases found
  · split at found
    · cases found
    · exact (Except.ok.inj found) ▸ rfl

theorem Files.locate_of_write {path : String} {content : ByteArray} {after : Files}
    (written : f.write path content = .ok (names, after)) :
    ∃ old, f.locate path = .ok ⟨names, old⟩ := by
  unfold Files.write at written
  cases found : f.locate path with
  | error fault =>
    rw [found] at written
    cases written
  | ok place =>
    obtain ⟨at_, old⟩ := place
    rw [found] at written
    refine ⟨old, ?_⟩
    have same : at_ = names := by
      simp only [bind, Except.bind] at written
      split at written
      · cases written
      · exact congrArg Prod.fst (Except.ok.inj written)
      · split at written
        · cases written
        · exact congrArg Prod.fst (Except.ok.inj written)
    rw [same]

/-- The log that is opened for a step is in the log directory that was made for it. -/
theorem names_of_openLog {files made after : Files} {opened : List String} (direct : Direct n)
    (made_ : files.makeDirectories dir = .ok made)
    (here : made.locate dir = .ok ⟨names, some node⟩) (directory : node.isDirectory = true)
    (open_ : openLog dir n files = .ok (opened, after)) :
    opened = names ++ [lastPart n ++ ".log"] := by
  rw [openLog, made_] at open_
  cases written : made.write (logPath dir n) .empty with
  | error fault =>
    simp only [Except.mapError, bind, Except.bind, written] at open_
    cases open_
  | ok done =>
    simp only [Except.mapError, bind, Except.bind, written] at open_
    rw [Except.ok.inj open_] at written
    obtain ⟨old, found⟩ := Files.locate_of_write written
    exact names_of_locate_logPath direct here directory found

end Places

/-! ## The logs of a flow -/

namespace Flow

open StepFlow.Path

variable {f : Flow}

/-- A flow **keeps its logs apart** when, whatever the log directory, the log of every leaf is in
the directory and no two leaves have one log. -/
def KeepsLogsApart (f : Flow) : Prop :=
  ∀ dir, (∀ n, f.isLeaf n = true → InDirectory dir (logPath dir n)) ∧
    ∀ n m, f.isLeaf n = true → f.isLeaf m = true →
      components (logPath dir n) = components (logPath dir m) → n = m

/-- What it takes to keep logs apart: that the names of leaves are direct and that the last part of
such a name tells which leaf it is. -/
theorem keepsLogsApart_iff : f.KeepsLogsApart ↔ (∀ n, f.isLeaf n = true → Direct n) ∧
    ∀ n m, f.isLeaf n = true → f.isLeaf m = true → lastPart n = lastPart m → n = m := by
  constructor
  · intro apart
    have direct : ∀ n, f.isLeaf n = true → Direct n := fun n leaf =>
      inDirectory_logPath_iff.1 fun dir => (apart dir).1 n leaf
    refine ⟨direct, fun n m hn hm same => (apart "").2 n m hn hm ?_⟩
    exact (components_logPath_eq_iff (direct n hn) (direct m hm)).2 same
  · rintro ⟨direct, tells⟩ dir
    refine ⟨fun n leaf => ⟨_, components_logPath (direct n leaf)⟩, fun n m hn hm same => ?_⟩
    exact tells n m hn hm ((components_logPath_eq_iff (direct n hn) (direct m hm)).1 same)

/-- Names without slashes are enough. -/
theorem keepsLogsApart_of_not_mem (plain : ∀ n, f.isLeaf n = true → '/' ∉ n.toList) :
    f.KeepsLogsApart := by
  refine keepsLogsApart_iff.2 ⟨fun n leaf => direct_of_not_mem (plain n leaf), ?_⟩
  intro n m hn hm same
  rwa [lastPart_of_not_mem (plain n hn), lastPart_of_not_mem (plain m hm)] at same

/-- **When the logs of a flow are apart.** Each log of a flow is in the log directory and its own,
whatever the log directory, exactly if the names of leaves are direct and differ in their last
parts, as they do when there are no slashes in them. Then the logs are found in every directory
that is there, at different places and with nothing between the directory and them. -/
theorem logs_apart (f : Flow) :
    (f.KeepsLogsApart ↔ (∀ n, f.isLeaf n = true → Direct n) ∧
      ∀ n m, f.isLeaf n = true → f.isLeaf m = true → lastPart n = lastPart m → n = m) ∧
    ((∀ n, f.isLeaf n = true → '/' ∉ n.toList) → f.KeepsLogsApart) ∧
    (f.KeepsLogsApart → ∀ (files : Files) dir names entries,
      files.locate dir = .ok ⟨names, some (.directory entries)⟩ →
      (∀ n, f.isLeaf n = true → files.locate (logPath dir n) =
        if n.toList.any (· = '\x00') then .error .badPath
        else if (lastPart n ++ ".log").utf8ByteSize > Files.maxNameBytes then .error .nameTooLong
        else .ok ⟨names ++ [lastPart n ++ ".log"], entries.lookup (lastPart n ++ ".log")⟩) ∧
      ∀ n m p q, f.isLeaf n = true → f.isLeaf m = true →
        files.locate (logPath dir n) = .ok p → files.locate (logPath dir m) = .ok q →
        p.names = q.names → n = m) ∧
    (f.KeepsLogsApart → ∀ (files made after : Files) dir names entries opened n,
      f.isLeaf n = true → files.makeDirectories dir = .ok made →
      made.locate dir = .ok ⟨names, some (.directory entries)⟩ →
      openLog dir n files = .ok (opened, after) → opened = names ++ [lastPart n ++ ".log"]) := by
  refine ⟨keepsLogsApart_iff, keepsLogsApart_of_not_mem, ?_, fun apart files made after dir names
    entries opened n leaf made_ here => names_of_openLog ((keepsLogsApart_iff.1 apart).1 n leaf)
      made_ here rfl⟩
  intro apart files dir names entries here
  obtain ⟨direct, tells⟩ := keepsLogsApart_iff.1 apart
  have directory : (Node.directory entries).isDirectory = true := rfl
  refine ⟨fun n leaf => ?_, fun n m p q hn hm foundN foundM same => ?_⟩
  · have found := locate_logPath (direct n leaf) here directory
    exact found
  · rw [names_of_locate_logPath (direct n hn) here directory foundN,
      names_of_locate_logPath (direct m hm) here directory foundM] at same
    have last : lastPart n ++ ".log" = lastPart m ++ ".log" := by simpa using same
    exact tells n m hn hm ((String.append_left_inj _).1 last)

/-- The logs of the flow of the small draft are apart, and that of its first step is found in a
directory that is there. -/
theorem logs_apart_sample :
    (∀ n, Draft.sampleFlow.isLeaf n = true → '/' ∉ n.toList) ∧
      Draft.sampleFlow.isLeaf "s" = true ∧
      Files.usual.locate "tmp" = .ok ⟨["tmp"], some (.directory [])⟩ ∧
      Files.usual.locate (logPath "tmp" "s") = .ok ⟨["tmp", "s.log"], none⟩ := by
  have plain : ∀ n, Draft.sampleFlow.isLeaf n = true → '/' ∉ n.toList := by
    intro n leaf
    have among := contains_iff_mem_names.1 (contains_of_isLeaf leaf)
    have all : ∀ m ∈ Draft.sampleFlow.names, '/' ∉ m.toList := by decide
    exact all n among
  have here : Files.usual.locate "tmp" = .ok ⟨["tmp"], some (.directory [])⟩ := by rfl
  obtain ⟨-, enough, found, -⟩ := logs_apart Draft.sampleFlow
  refine ⟨plain, by decide, here, ?_⟩
  rw [(found (enough plain) _ _ _ _ here).1 "s" (by decide)]
  rfl

/-- Leaves of which one has a path for a name, and two have names for one file. -/
def stray : List Declaration := [.leaf "./x" {}, .leaf "a/b" {}, .leaf "x" {}]

/-- **An accepted flow need not keep its logs apart**: a log may lie outside of the log directory,
in one that nothing has made, and two leaves may have one log. -/
theorem stray_logs : ∃ f, declare stray = .ok f ∧
    f.isLeaf "a/b" = true ∧ ¬ InDirectory "logs" (logPath "logs" "a/b") ∧
    f.isLeaf "x" = true ∧ f.isLeaf "./x" = true ∧
    components (logPath "logs" "x") = components (logPath "logs" "./x") ∧
    openLog "logs" "a/b" {} = .error (.logFile "logs/a/b.log") := by
  have declared : declare stray =
      .ok ⟨[⟨"./x", none, .leaf {}⟩, ⟨"a/b", none, .leaf {}⟩, ⟨"x", none, .leaf {}⟩], []⟩ := by
    unfold declare assemble
    rw [List.mergeSort_of_pairwise (by decide +kernel)]
    decide +kernel
  have one : components (logPath "logs" "x") = components (logPath "logs" "./x") := by decide
  have lost : openLog "logs" "a/b" {} = .error (.logFile "logs/a/b.log") := by rfl
  refine ⟨_, declared, by decide, ?_, by decide, by decide, one, lost⟩
  rintro ⟨name, same⟩
  have whole : components (logPath "logs" "a/b") = (false, ["logs", "a", "b.log"]) := by decide
  have logs : components "logs" = (false, ["logs"]) := by decide
  rw [whole, logs] at same
  simp at same

end Flow

end StepFlow
