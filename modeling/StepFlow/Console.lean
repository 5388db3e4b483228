import StepFlow.Listener
import StepFlow.Scenario.Plan
import StepFlow.Text.Quoted

/-! # What is printed

The lines on standard output: the events of a run as they come, the table of statuses at its end,
and the plan where a run is only asked to be shown. -/

namespace StepFlow.Console

/-- Lines as they are printed. -/
def unlines (lines : List String) : String := String.join (lines.map (· ++ "\n"))

/-! ## Events -/

/-- The line for an event. -/
def eventLine : Event → String
  | .started s => "[" ++ s ++ "] started"
  | .output s line => "[" ++ s ++ "] " ++ line
  | .completed s code => "[" ++ s ++ "] completed (exit code " ++ toString code ++ ")"

/-! ## The table of statuses -/

/-- A text with spaces after it up to a number of characters. -/
def padTo (width : Nat) (s : String) : String :=
  s ++ String.ofList (List.replicate (width - s.length) ' ')

/-- The width of the column of names: the size in bytes of the longest one, four at least. -/
def nameWidth (names : List Name) : Nat := names.foldl (fun w n => max w n.utf8ByteSize) 4

/-- The lines of the table of statuses, a blank one in front. -/
def statusTable (scenario : String) (statuses : List (Name × Status)) : List String :=
  let width := nameWidth (statuses.map (·.1))
  let row (name status : String) : String := "  " ++ padTo width name ++ "  " ++ status
  "" :: ("scenario '" ++ scenario ++ "':") :: row "STEP" "STATUS" ::
    statuses.map fun e => row e.1 e.2.text

/-! ## The plan -/

/-- The lines for a value that may be missing. -/
def optionLine (label : String) : Option String → List String
  | some v => [label ++ v]
  | none => []

/-- The lines for a step. -/
def stepLines (f : Flow) (s : Step) : List String :=
  let own :=
    match s.kind with
    | .group children => ["  - " ++ s.name ++ " (group)",
        "      children: " ++ Text.quoteList children]
    | .leaf a => ("  - " ++ s.name) ::
        optionLine "      cmd: " a.command ++ optionLine "      cwd: " a.cwd
  let waits := (f.edgesFrom s.name).map (·.text)
  own ++ optionLine "      group: " s.group ++
    (if waits.isEmpty then [] else ["      requires: " ++ Text.quoteList waits])

/-- The lines that show a plan. -/
def planLines (p : Plan) : List String :=
  ["procflow dry-run", "  scenario.name = " ++ p.name] ++
    optionLine "  scenario.log_dir = " p.logDir ++
    ["  coordinator.max_workers = " ++ toString p.workers, "",
      "steps (" ++ toString p.flow.steps.length ++ "):"] ++
    p.flow.steps.flatMap (stepLines p.flow)

end StepFlow.Console
