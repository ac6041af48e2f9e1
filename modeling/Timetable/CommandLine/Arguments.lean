import Timetable.Strategy
import Timetable.Text.Pieces

/-!
# Command lines

A command line names a command, its operands, and options in any order. An option is written
`--name`, its value follows as the next word or behind an equals sign. After the word `--` every
word is an operand. Two options may also stand in front of the command.

Words are read in two steps. `tokens` tells options, values and operands apart, which needs no
knowledge of the command. `collect` then takes the tokens one after the other and stops at the first
that is wrong, or that asks for help.

* `Request`: what is asked for.
* `Stop`: why there is no request.
* `parse`: the request of a command line.
-/

namespace Timetable.CommandLine

open Text

/-! ### Requests -/

/-- How two schedules become one. -/
inductive MergeMode where
  /-- Slot by slot. -/
  | zip
  /-- The second one moved into the first as far as it goes. -/
  | tetris
  deriving DecidableEq

def MergeMode.name : MergeMode → String
  | zip => "zip"
  | tetris => "tetris"

def MergeMode.ofName? (name : String) : Option MergeMode :=
  [zip, tetris].find? fun m => m.name == name

/-- A command with its operands and options. -/
inductive Command where
  /-- The schedule of a workload. -/
  | build (workload : String) (strategy : Option Strategy)
  /-- The independent parts of the schedule of a workload. -/
  | partition (workload : String) (strategy : Option Strategy)
  /-- The schedules of two workloads made one. -/
  | merge (first second : String) (mode : MergeMode) (align : Option Alignment)
      (strategy : Option Strategy)
  /-- What can be reached from a frontier before an operation blocks the way. -/
  | frontier (workload : String) (start blockers : List String) (strategy : Option Strategy)
  /-- The settings, shown or changed. -/
  | config (showing : Bool) (strategy : Option Strategy) (align : Option Alignment)
      (logLevel : Option String)
  deriving DecidableEq

/-- A command, and how its answer is to be shown. -/
structure Request where
  json : Bool
  /-- Which events are logged in this run. -/
  logLevel : Option String
  command : Command
  deriving DecidableEq

/-- What is wrong with a command line. -/
inductive Misuse where
  | unknownOption (word : String)
  | missingValue (option : String)
  | needlessValue (option : String)
  | repeatedOption (option : String)
  | badValue (option value : String)
  | missingOption (option : String)
  | missingOperand
  | emptyOperand
  | surplusOperand (word : String)
  | missingCommand
  | unknownCommand (word : String)
  deriving DecidableEq

def Misuse.message : Misuse → String
  | unknownOption word => "unexpected option '" ++ word ++ "'"
  | missingValue option => "option '--" ++ option ++ "' needs a value"
  | needlessValue option => "option '--" ++ option ++ "' takes no value"
  | repeatedOption option => "option '--" ++ option ++ "' cannot be used twice"
  | badValue option value => "invalid value '" ++ value ++ "' for option '--" ++ option ++ "'"
  | missingOption option => "option '--" ++ option ++ "' is required"
  | missingOperand => "a file is missing"
  | emptyOperand => "the name of a file is empty"
  | surplusOperand word => "unexpected word '" ++ word ++ "'"
  | missingCommand => "a command is missing"
  | unknownCommand word => "there is no command '" ++ word ++ "'"

/-- Why a command line makes no request. -/
inductive Stop where
  | help
  | version
  | misuse (cause : Misuse)
  deriving DecidableEq

/-! ### Tokens -/

/-- The options that are there or not. -/
inductive Flag where
  | json
  | showing
  deriving DecidableEq

/-- The options with a value. -/
inductive Setting where
  | logLevel
  | strategy
  | align
  | mode
  | start
  | blocker
  | setStrategy
  | setAlign
  | setLogLevel
  deriving DecidableEq

/-- How the option is written, without the hyphens in front. -/
def Flag.name : Flag → String
  | json => "json"
  | showing => "show"

/-- How the option is written, without the hyphens in front. -/
def Setting.name : Setting → String
  | logLevel => "log-level"
  | strategy => "strategy"
  | align => "align"
  | mode => "mode"
  | start => "start"
  | blocker => "blocker"
  | setStrategy => "set-strategy"
  | setAlign => "set-align"
  | setLogLevel => "set-log-level"

def Flag.ofName? (name : String) : Option Flag := [json, showing].find? fun f => f.name == name

def Setting.ofName? (name : String) : Option Setting :=
  [logLevel, strategy, align, mode, start, blocker, setStrategy, setAlign, setLogLevel].find?
    fun s => s.name == name

/-- What words of a command line stand for. -/
inductive Token where
  | flag (flag : Flag)
  | setting (setting : Setting) (value : String)
  | help
  | version
  | operand (word : String)
  /-- The word after which there are no more options. -/
  | terminator
  | wrong (cause : Misuse)
  deriving DecidableEq

/-- A word by its form. -/
inductive Word where
  /-- A name behind two hyphens, and what stands behind an equals sign. -/
  | long (name : String) (value : Option String)
  /-- Letters behind one hyphen. -/
  | short (first : Char)
  | terminator
  | plain

/-- The form of a word. A hyphen alone is a plain word. -/
def Word.ofText (word : String) : Word :=
  match word.toList with
  | ['-', '-'] => .terminator
  | '-' :: '-' :: cs =>
    match splitAtFirst '=' cs with
    | none => .long (String.ofList cs) none
    | some (name, value) => .long (String.ofList name) (some (String.ofList value))
  | '-' :: c :: _ => .short c
  | _ => .plain

/-- Whether a word can be the value of the option before it. -/
def Word.isPlain : Word → Bool
  | .plain => true
  | _ => false

/-- The token of a long option without a value, or with one behind an equals sign. -/
def longOption (word name : String) (value : Option String) : Token :=
  match Setting.ofName? name, Flag.ofName? name, value with
  | some s, _, some value => .setting s value
  | some s, _, none => .wrong (.missingValue s.name)
  | none, some f, none => .flag f
  | none, some f, some _ => .wrong (.needlessValue f.name)
  | none, none, none =>
    if name = "help" then .help
    else if name = "version" then .version
    else .wrong (.unknownOption word)
  | none, none, some _ => .wrong (.unknownOption word)

/-- What the words stand for, where an option may be waiting for the first of them as its value.
Behind a wrong token none of them counts. -/
def tokens : Option Setting → List String → List Token
  | none, [] => []
  | some s, [] => [.wrong (.missingValue s.name)]
  | some s, word :: words =>
    if (Word.ofText word).isPlain then .setting s word :: tokens none words
    else [.wrong (.missingValue s.name)]
  | none, word :: words =>
    match Word.ofText word with
    | .plain => .operand word :: tokens none words
    | .terminator => .terminator :: words.map .operand
    | .short 'h' => .help :: tokens none words
    | .short 'V' => .version :: tokens none words
    | .short _ => [.wrong (.unknownOption word)]
    | .long name value =>
      match Setting.ofName? name, value with
      | some s, none => tokens (some s) words
      | _, _ => longOption word name value :: tokens none words

/-! ### Collecting -/

/-- What has been collected from a command line. -/
structure Collected where
  json : Bool := false
  showing : Bool := false
  logLevel : Option String := none
  strategy : Option Strategy := none
  align : Option Alignment := none
  mode : Option MergeMode := none
  start : Option (List String) := none
  blockers : List String := []
  setLogLevel : Option String := none
  operands : List String := []

/-- A value read for an option that may be given once. -/
def once {α : Type} (s : Setting) (held : Option α) (value : String) (read : String → Option α) :
    Except Stop (Option α) :=
  if held.isSome then .error (.misuse (.repeatedOption s.name))
  else
    match read value with
    | some v => .ok (some v)
    | none => .error (.misuse (.badValue s.name value))

/-- What is collected with one more option. A start may list several entries between commas, and it
may be given several times, as may a blocker. -/
def Collected.set (c : Collected) (s : Setting) (value : String) : Except Stop Collected :=
  match s with
  | .logLevel => do return { c with logLevel := ← once s c.logLevel value some }
  | .strategy | .setStrategy => do
    return { c with strategy := ← once s c.strategy value fun v => (Strategy.parse v).toOption }
  | .align | .setAlign => do
    return { c with align := ← once s c.align value fun v => (Alignment.parse v).toOption }
  | .mode => do return { c with mode := ← once s c.mode value MergeMode.ofName? }
  | .start =>
    let entries := (pieces ',' value.toList).map String.ofList
    .ok { c with start := some (c.start.getD [] ++ entries) }
  | .blocker => .ok { c with blockers := c.blockers ++ [value] }
  | .setLogLevel => do return { c with setLogLevel := ← once s c.setLogLevel value some }

/-- What is collected with one more flag. A flag may be given once. -/
def Collected.raise (c : Collected) (f : Flag) : Except Stop Collected :=
  match f with
  | .json =>
    if c.json then .error (.misuse (.repeatedOption f.name)) else .ok { c with json := true }
  | .showing =>
    if c.showing then .error (.misuse (.repeatedOption f.name)) else .ok { c with showing := true }

/-- What is collected with one more operand, of which a command takes a limited number. -/
def Collected.addOperand (c : Collected) (limit : Nat) (word : String) : Except Stop Collected :=
  if limit ≤ c.operands.length then .error (.misuse (.surplusOperand word))
  else if word = "" then .error (.misuse .emptyOperand)
  else .ok { c with operands := c.operands ++ [word] }

/-- What a command takes. -/
structure Scope where
  flags : List Flag
  settings : List Setting
  operands : Nat

/-- Collects what tokens give, up to the first that the scope does not allow. -/
def collect (scope : Scope) : List Token → Collected → Except Stop Collected
  | [], c => .ok c
  | token :: rest, c =>
    match token with
    | .flag f => do
      if !scope.flags.contains f then .error (.misuse (.unknownOption ("--" ++ f.name)))
      let c ← c.raise f
      collect scope rest c
    | .setting s value => do
      if !scope.settings.contains s then .error (.misuse (.unknownOption ("--" ++ s.name)))
      let c ← c.set s value
      collect scope rest c
    | .operand word => do
      let c ← c.addOperand scope.operands word
      collect scope rest c
    | .terminator => collect scope rest c
    | .help => .error .help
    | .version => .error (.misuse (.unknownOption "--version"))
    | .wrong cause => .error (.misuse cause)

/-! ### Commands -/

/-- The commands by name. -/
inductive CommandName where
  | build
  | partition
  | merge
  | frontier
  | config
  deriving DecidableEq

namespace CommandName

def name : CommandName → String
  | build => "build"
  | partition => "partition"
  | merge => "merge"
  | frontier => "frontier"
  | config => "config"

def ofName? (name : String) : Option CommandName :=
  [build, partition, merge, frontier, config].find? fun c => c.name == name

def scope : CommandName → Scope
  | build => ⟨[.json], [.logLevel, .strategy], 1⟩
  | partition => ⟨[.json], [.logLevel, .strategy], 1⟩
  | merge => ⟨[.json], [.logLevel, .strategy, .mode, .align], 2⟩
  | frontier => ⟨[.json], [.logLevel, .strategy, .start, .blocker], 1⟩
  | config => ⟨[.json, .showing], [.logLevel, .setStrategy, .setAlign, .setLogLevel], 0⟩

/-- The command with what has been collected for it. -/
def complete (name : CommandName) (c : Collected) : Except Stop Command :=
  match name, c.operands with
  | build, [workload] => .ok (.build workload c.strategy)
  | partition, [workload] => .ok (.partition workload c.strategy)
  | merge, [first, second] =>
    .ok (.merge first second (c.mode.getD .zip) c.align c.strategy)
  | frontier, [workload] =>
    match c.start with
    | some start => .ok (.frontier workload start c.blockers c.strategy)
    | none => .error (.misuse (.missingOption Setting.start.name))
  | config, [] => .ok (.config c.showing c.strategy c.align c.setLogLevel)
  | _, _ => .error (.misuse .missingOperand)

end CommandName

/-- Whether the words after the command `help` name a command, if there are any. -/
def checkHelp : List Token → Except Stop Request
  | [] => .error .help
  | [.operand word] =>
    if (CommandName.ofName? word).isSome || word = "help" then .error .help
    else .error (.misuse (.unknownCommand word))
  | _ => .error (.misuse .missingCommand)

/-- The request of tokens. What stands in front of the command holds where the command itself says
nothing else. -/
def requestOf : List Token → Collected → Except Stop Request
  | [], _ => .error (.misuse .missingCommand)
  | token :: rest, c =>
    match token with
    | .flag .json => do
      let c ← c.raise .json
      requestOf rest c
    | .setting .logLevel value => do
      let c ← c.set .logLevel value
      requestOf rest c
    | .operand word =>
      match CommandName.ofName? word with
      | some name => do
        let own ← collect name.scope rest {}
        let command ← name.complete own
        return ⟨c.json || own.json, own.logLevel.or c.logLevel, command⟩
      | none =>
        if word = "help" then checkHelp rest
        else .error (.misuse (.unknownCommand word))
    | .help => .error .help
    | .version => .error .version
    | .flag f => .error (.misuse (.unknownOption ("--" ++ f.name)))
    | .setting s _ => .error (.misuse (.unknownOption ("--" ++ s.name)))
    | .terminator => .error (.misuse .missingCommand)
    | .wrong cause => .error (.misuse cause)

def parse (words : List String) : Except Stop Request := requestOf (tokens none words) {}

end Timetable.CommandLine
