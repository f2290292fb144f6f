-- Runs of the program. A run resolves its settings, reads the snapshot and
-- gives the text of one report, or it stops at the first thing that fails.
import HeapRetention.CommandLine.Invocation
import HeapRetention.Document
import HeapRetention.Toml.Reader

namespace HeapRetention.CommandLine

/-- The contents of files by their paths. -/
abbrev Files := String → Option ByteArray

/-- Why a run fails. -/
inductive Failure where
  | usage
  | unreadableSettings (path : String)
  | invalidSettings (path : String)
  | unreadableSnapshot (path : String)
  | invalidSnapshot (path : String)
  | document (error : DocumentError)
  | report (error : ReportError)
deriving DecidableEq, Repr

namespace Failure

/-- The message for the reader. -/
def message? : Failure → Option String
  | usage => none
  | unreadableSettings path => some s!"failed to read config {path}"
  | invalidSettings path => some s!"invalid config {path}"
  | unreadableSnapshot path => some s!"failed to read snapshot {path}"
  | invalidSnapshot path => some s!"failed to parse snapshot {path}"
  | document error => some error.message
  | report error => error.message?

/-- The exit code. A run that passes the largest count is broken off. -/
def exitCode : Failure → UInt32
  | usage => 2
  | report .overflow => 101
  | _ => 1

end Failure

/-- The text of a file, if the file is there and is text. -/
def readText? (files : Files) (path : String) : Option String :=
  (files path).bind String.fromUTF8?

/-- Loads a settings file. -/
def loadSettings (files : Files) (path : String) : Except Failure Settings :=
  match readText? files path with
  | none => .error (.unreadableSettings path)
  | some text =>
    match Toml.decode? (Settings.ofData? Toml.dialect) text with
    | some settings => .ok settings
    | none => .error (.invalidSettings path)

/-- The settings of a run: those that the command line names, or else those that the environment
names, or else the defaults. -/
def settingsFor (files : Files) (environment given : Option String) :
    Except Failure Settings :=
  match given <|> environment with
  | some path => loadSettings files path
  | none => .ok {}

/-- Loads a snapshot document. -/
def loadDocument (files : Files) (path : String) : Except Failure Document :=
  match readText? files path with
  | none => .error (.unreadableSnapshot path)
  | some text =>
    match Document.read? text with
    | some document => .ok document
    | none => .error (.invalidSnapshot path)

/-- Follows an invocation. From the second degree of detail on, the log is a detailed one. -/
def Invocation.run (files : Files) (environment : Option String) (invocation : Invocation) :
    Except Failure String := do
  let settings ← settingsFor files environment invocation.settings
  let document ← loadDocument files invocation.snapshot
  let graph ← match document.toGraph settings.width with
    | .ok graph => pure graph
    | .error error => throw (.document error)
  let session := Session.start graph settings {}
  match (session.report (2 ≤ invocation.verbosity) invocation.report).1 with
  | .ok text => pure text
  | .error error => throw (.report error)

/-- What the program shows when it is asked for its version. -/
def versionText : String := "heapdom 0.1.0\n"

/-- Follows a command line. -/
def run (files : Files) (environment : Option String) (arguments : List String) :
    Except Failure String :=
  match parse? arguments with
  | none => .error .usage
  | some .version => .ok versionText
  | some (.invocation invocation) => invocation.run files environment

/-- The paths that following a command line may read. -/
def paths (environment : Option String) (arguments : List String) : List String :=
  match parse? arguments with
  | some (.invocation invocation) =>
    (invocation.settings <|> environment).toList ++ [invocation.snapshot]
  | _ => []

end HeapRetention.CommandLine
