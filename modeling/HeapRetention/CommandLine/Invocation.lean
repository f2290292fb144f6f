-- Invocations of the program. The command line names one command with its
-- snapshot; settings and the detail of the log may be given before or after
-- the name of the command. What follows the name goes before what stands in
-- front of it.
import HeapRetention.CommandLine.Arguments
import HeapRetention.Report

namespace HeapRetention.CommandLine

/-- What a command line asks for. -/
structure Invocation where
  /-- The path of a settings file. -/
  settings : Option String
  /-- How often more detail in the log was asked for. -/
  verbosity : Nat
  /-- The path of the snapshot. -/
  snapshot : String
  report : ReportRequest
deriving DecidableEq, Repr

/-- A command line that can be followed. -/
inductive Parsed where
  | version
  | invocation (invocation : Invocation)
deriving DecidableEq, Repr

/-! ## Values -/

/-- A path, which may not be empty. -/
def path? (text : String) : Option String := if text.isEmpty then none else some text

/-- The path of the settings file among the options. -/
def Arguments.settings? (given : Arguments) : Option (Option String) :=
  match given.options.lookup "config" with
  | none => some none
  | some text => (path? text).map some

/-- The number of nodes to list, twenty if it is not given. -/
def Arguments.top? (given : Arguments) : Option UInt64 :=
  match given.options.lookup "top" with
  | none => some 20
  | some text => Numeral.word? 10 text.toList

/-- Whether an option without a value was given. -/
def Arguments.has (given : Arguments) (flag : String) : Bool := given.flags.contains flag

/-! ## Commands -/

/-- The options of a command. -/
def optionNames? (command : String) : Option OptionNames :=
  if command = "summary" ∨ command = "path" then some ⟨["config"], []⟩
  else if command = "dominators" then some ⟨["config"], ["json"]⟩
  else if command = "retained" then some ⟨["config", "heap", "top"], ["json"]⟩
  else none

/-- The snapshot and the report of a command, from its own arguments. -/
def report? (command : String) (given : Arguments) : Option (String × ReportRequest) :=
  match command, given.values with
  | "summary", [snapshot] => do
    pure (← path? snapshot, .summary)
  | "dominators", [snapshot] => do
    pure (← path? snapshot, .dominators (given.has "json"))
  | "retained", [snapshot] => do
    let top ← given.top?
    pure (← path? snapshot, .retained (given.options.lookup "heap") top (given.has "json"))
  | "path", [snapshot, id] => do
    let id ← NodeId.read? id.toList
    pure (← path? snapshot, .path id)
  | _, _ => none

/-- The invocation of a command with its arguments, after the arguments in front of it. -/
def command? (before : Arguments) (command : String) (arguments : List String) :
    Option Invocation := do
  let names ← optionNames? command
  let given ← Arguments.read? names {} arguments
  let outer ← before.settings?
  let inner ← given.settings?
  let (snapshot, report) ← report? command given
  let verbosity := if given.verbosity = 0 then before.verbosity else given.verbosity
  pure ⟨inner <|> outer, verbosity, snapshot, report⟩

/-- Reads one-letter options in front of the command, up to the one that asks for the version. -/
def outerLetters? (given : Arguments) : List Char → Option (Arguments ⊕ Unit)
  | [] => some (.inl given)
  | 'V' :: _ => some (.inr ())
  | 'v' :: letters => outerLetters? { given with verbosity := given.verbosity + 1 } letters
  | _ => none

/-- The options in front of the command. -/
def outerNames : OptionNames := ⟨["config"], []⟩

/-- Takes in the path of a settings file in front of the command. -/
def addSettings? (given : Arguments) (name value : String) : Option Arguments := do
  let given ← given.addOption? outerNames name value
  let _ ← path? value
  pure given

/-- Reads a command line. The version is shown as soon as it is asked for, and the command is the
first plain value. -/
def parseFrom (given : Arguments) : List String → Option Parsed
  | [] => none
  | argument :: rest =>
    match Argument.ofString argument with
    | .endOfOptions => none
    | .value command => (command? given command rest).map .invocation
    | .letters letters =>
      match outerLetters? given letters with
      | none => none
      | some (.inr ()) => some .version
      | some (.inl given) => parseFrom given rest
    | .option name (some value) =>
      (addSettings? given name value).bind fun given => parseFrom given rest
    | .option name none =>
      if name = "version" then some .version
      else if outerNames.valued.contains name then
        match rest with
        | [] => none
        | next :: rest =>
          match Argument.ofString next with
          | .value value => (addSettings? given name value).bind fun given => parseFrom given rest
          | _ => none
      else (given.addFlag? outerNames name).bind fun given => parseFrom given rest

/-- Reads a command line; none if the program cannot be used so. -/
def parse? (arguments : List String) : Option Parsed := parseFrom {} arguments

end HeapRetention.CommandLine
