import Timetable.CommandLine.Arguments
import Timetable.Files
import Timetable.Frontier.Text
import Timetable.Report
import Timetable.Schedule.Partition
import Timetable.Schedule.Reach
import Timetable.Schedule.Selection
import Timetable.Settings
import Timetable.Workload.Reader

/-!
# Commands

A command reads workloads, makes schedules of them with the strategy of its command line or else of
the settings, and answers with a text for people or a JSON object. The settings are read first, from
a file below the home directory. Files are reached through `Files`, so that a run can be followed in
memory.

* `Answer`: what a command answers, in both forms.
* `Problem`: why a command has no answer.
* `execute`: what a command does.
* `run`: from a command line to what is printed.
-/

namespace Timetable.CommandLine

open Text (join)
open Text.Decimal (natText)

/-- What a command answers: a text, and the members of a JSON object. -/
structure Answer where
  text : String
  members : List (String × Json) := []

/-- Why a command has no answer. -/
inductive Problem where
  /-- A file cannot be read or written. -/
  | file (cause : FileError)
  /-- A file does not hold a workload. -/
  | notAWorkload
  /-- A workload has no schedule, or two schedules cannot be merged. -/
  | build (cause : Workload.BuildError)
  /-- An entry of a frontier is refused. -/
  | entry (cause : Frontier.EntryError)
  /-- There is no home directory for the settings. -/
  | homeless
  deriving DecidableEq

def Problem.message : Problem → String
  | file cause => "IO error: " ++ cause.message
  | notAWorkload => "JSON error"
  | build cause => cause.message
  | entry cause => cause.message
  | homeless => "Config error: Cannot determine config path"

/-! ### Answers -/

def builtAnswer (strategy : Strategy) (s : Schedule Instruction) : Answer where
  text :=
    natText s.length ++ " slots, " ++ natText s.operations.length ++ " operations (" ++
      strategy.name ++ ")\n" ++ Report.slotsText s.slots
  members := [
    ("strategy", .string strategy.name),
    ("slots", .ofNat s.length),
    ("operations", .ofNat s.operations.length),
    ("schedule", Report.slotsJson s.slots)]

def partitionAnswer (s : Schedule Instruction) : Answer :=
  let sets := (independentResources s.slots).map fun set => set.toList.map Resource.render
  let line (set : List String) (index : Nat) : String :=
    "  " ++ natText index ++ ": \x7b" ++ join ", " set ++ "\x7d"
  { text :=
      natText sets.length ++ " independent resource sets\n" ++
        join "\n" (sets.zipIdx.map fun e => line e.1 e.2)
    members := [
      ("partitions", .ofNat sets.length),
      ("resource_sets", .array (sets.map Json.ofTexts)),
      ("factors", .array (s.factorize.map fun factor => Report.slotsJson factor.slots))] }

def mergedAnswer (mode : MergeMode) (align : Alignment) (first second merged : Nat)
    (slots : List (Slot Instruction)) : Answer where
  text :=
    mode.name ++ " of " ++ natText first ++ " and " ++ natText second ++ " slots (" ++
      align.name ++ "): " ++ natText merged ++ " slots\n" ++ Report.slotsText slots
  members := [
    ("mode", .string mode.name),
    ("align", .string align.name),
    ("slots", .ofNat merged),
    ("schedule", Report.slotsJson slots)]

def frontierAnswer (start stop : Frontier) (reached : List (Nat × Instruction)) : Answer where
  text :=
    "Start: " ++ Report.frontierText start ++ "\nEnd:   " ++ Report.frontierText stop ++
      "\nOperations before blocking:\n" ++
      join "\n" (reached.map fun e => "  " ++ natText e.1 ++ ": " ++ e.2.render)
  members := [
    ("start", Report.frontierJson start),
    ("end", Report.frontierJson stop),
    ("operations", .array (reached.map fun e => .ofMembers [
      ("index", .ofNat e.1),
      ("name", .string e.2.name),
      ("resources", Report.resourcesJson e.2.resources)]))]

def settingsAnswer (s : Settings) : Answer where
  text :=
    "Strategy: " ++ s.strategy.name ++ "\nAlignment: " ++ s.alignment.name ++
      "\nLog level: " ++ s.logLevel
  members := [
    ("default_strategy", .string s.strategy.name),
    ("default_alignment", .string s.alignment.name),
    ("log_level", .string s.logLevel)]

/-- The answer after the settings have been written. -/
def savedAnswer (path : String) : Answer where
  text := "Configuration saved"
  members := [("status", .string "saved"), ("path", .string path)]

/-- The answer where nothing is to be done with the settings. -/
def settingsHint : Answer where
  text :=
    "Use --show to display config, or --set-strategy/--set-align/--set-log-level to modify"

/-! ### Execution -/

variable {m : Type → Type} [Monad m]

def fileIn (directory name : String) : String :=
  if directory.endsWith "/" then directory ++ name else directory ++ "/" ++ name

def settingsDirectory (home : String) : String := fileIn home ".cadence"

def settingsFile (home : String) : String := fileIn (settingsDirectory home) "config.toml"

/-- The settings of the file below the home directory. Without a file they are the defaults. -/
def loadSettings (files : Files m) (home : Option String) : m Settings := do
  match home with
  | none => return {}
  | some home =>
    match ← files.read (settingsFile home) with
    | .ok text => return .parse text
    | .error _ => return {}

/-- Writes the settings, and answers where. -/
def saveSettings (files : Files m) (home : Option String) (s : Settings) :
    ExceptT Problem m String := do
  match home with
  | none => throw .homeless
  | some home =>
    if let .error e ← files.makeDirectory (settingsDirectory home) then throw (.file e)
    if let .error e ← files.write (settingsFile home) s.render then throw (.file e)
    return settingsFile home

def loadSchedule (files : Files m) (path : String) (strategy : Strategy) :
    ExceptT Problem m (Schedule Instruction) := do
  match ← files.read path with
  | .error e => throw (.file e)
  | .ok text =>
    match Workload.parse text with
    | none => throw .notAWorkload
    | some entries => ExceptT.mk (pure ((Workload.build strategy entries).mapError .build))

def mergeSchedules (mode : MergeMode) (schedules : List (Schedule Instruction))
    (align : Alignment) : Except Fault (Schedule Instruction) :=
  match mode with
  | .zip => Schedule.zipAll schedules align
  | .tetris => Schedule.tetrisAll schedules align

def isNamed (names : List String) (op : Instruction) : Bool := names.contains op.name

/-- What a command does and answers. -/
def execute (files : Files m) (home : Option String) (settings : Settings) :
    Command → ExceptT Problem m Answer
  | .build workload strategy => do
    let strategy := strategy.getD settings.strategy
    return builtAnswer strategy (← loadSchedule files workload strategy)
  | .partition workload strategy => do
    return partitionAnswer (← loadSchedule files workload (strategy.getD settings.strategy))
  | .merge first second mode align strategy => do
    let strategy := strategy.getD settings.strategy
    let align := align.getD settings.alignment
    let a ← loadSchedule files first strategy
    let b ← loadSchedule files second strategy
    match mergeSchedules mode [a, b] align with
    | .ok merged => return mergedAnswer mode align a.length b.length merged.length merged.slots
    | .error e => throw (.build (.fault e))
  | .frontier workload start blockers strategy => do
    match Frontier.parse start with
    | .error e => throw (.entry e)
    | .ok start =>
      let s ← loadSchedule files workload (strategy.getD settings.strategy)
      let blocks := isNamed blockers
      return frontierAnswer start (reachableFrontier s.slots start blocks)
        (operationsUntilBlocked s.slots start blocks)
  | .config showing strategy align logLevel => do
    if strategy.isSome || align.isSome || logLevel.isSome then
      let changed : Settings := {
        strategy := strategy.getD settings.strategy
        alignment := align.getD settings.alignment
        logLevel := logLevel.getD settings.logLevel }
      return savedAnswer (← saveSettings files home changed)
    else if showing then return settingsAnswer settings
    else return settingsHint

/-! ### Runs -/

/-- What a run prints, and the code with which it ends. -/
structure Response where
  exitCode : UInt32
  output : String := ""
  errors : String := ""

def usage : String := join "\n" [
  "Usage: cadence [--json] [--log-level LEVEL] COMMAND",
  "",
  "Commands:",
  "  build WORKLOAD [--strategy STRATEGY]",
  "  partition WORKLOAD [--strategy STRATEGY]",
  "  merge FIRST SECOND [--mode zip|tetris] [--align ALIGNMENT] [--strategy STRATEGY]",
  "  frontier WORKLOAD --start RESOURCE=INDEX,... [--blocker NAME]... [--strategy STRATEGY]",
  "  config [--show] [--set-strategy STRATEGY] [--set-align ALIGNMENT] [--set-log-level LEVEL]",
  "",
  "Strategies: " ++ join ", " (Strategy.all.map Strategy.name),
  "Alignments: " ++ join ", " (Alignment.all.map Alignment.name),
  ""]

def versionText : String := "cadence 0.1.0\n"

def Stop.response : Stop → Response
  | .help => { exitCode := 0, output := usage }
  | .version => { exitCode := 0, output := versionText }
  | .misuse cause => { exitCode := 2, errors := "error: " ++ cause.message ++ "\n\n" ++ usage }

def Answer.response (a : Answer) (json : Bool) : Response where
  exitCode := 0
  output := (if json then (Json.ofMembers a.members).pretty else a.text) ++ "\n"

def Problem.response (p : Problem) (json : Bool) : Response :=
  if json then
    let report := Json.ofMembers [("error", .string p.message), ("success", .bool false)]
    { exitCode := 1, output := report.compact ++ "\n" }
  else { exitCode := 1, errors := "Error: " ++ p.message ++ "\n" }

/-- What a command line leads to. -/
def run (files : Files m) (home : Option String) (words : List String) : m Response := do
  match parse words with
  | .error stop => return stop.response
  | .ok request =>
    let settings ← loadSettings files home
    match ← execute files home settings request.command with
    | .ok answer => return answer.response request.json
    | .error problem => return problem.response request.json

end Timetable.CommandLine
