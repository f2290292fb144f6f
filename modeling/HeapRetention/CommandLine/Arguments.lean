-- Arguments of the command line. An argument is an option by its name, with or
-- without a value attached to it, a group of one-letter options, the mark that
-- ends all options, or a plain value.

namespace HeapRetention.CommandLine

/-- What one argument is. -/
inductive Argument where
  /-- The mark `--`, after which there are only plain values. -/
  | endOfOptions
  | option (name : String) (attached : Option String)
  | letters (letters : List Char)
  | value (text : String)
deriving DecidableEq, Repr

/-- Splits the text of an option at its first equals sign. -/
def splitAttached (text : List Char) : Argument :=
  let name := String.ofList (text.takeWhile (· ≠ '='))
  match text.dropWhile (· ≠ '=') with
  | _ :: value => .option name (some (String.ofList value))
  | [] => .option name none

/-- Tells what an argument is. A single dash is a plain value. -/
def Argument.ofString (text : String) : Argument :=
  match text.toList with
  | ['-', '-'] => .endOfOptions
  | '-' :: '-' :: rest => splitAttached rest
  | '-' :: c :: rest => .letters (c :: rest)
  | _ => .value text

/-- The options that may be given. -/
structure OptionNames where
  /-- The options with a value, each at most once. -/
  valued : List String
  /-- The options without a value, each at most once. -/
  flags : List String

/-- The arguments that were read so far. -/
structure Arguments where
  options : List (String × String) := []
  flags : List String := []
  /-- How often more detail in the log was asked for. -/
  verbosity : Nat := 0
  values : List String := []
deriving DecidableEq, Repr

namespace Arguments

/-- Takes in an option with its value. -/
def addOption? (names : OptionNames) (given : Arguments) (name value : String) :
    Option Arguments :=
  if names.valued.contains name && (given.options.lookup name).isNone then
    some { given with options := given.options ++ [(name, value)] }
  else none

/-- Takes in an option without a value. -/
def addFlag? (names : OptionNames) (given : Arguments) (name : String) : Option Arguments :=
  if name = "verbose" then some { given with verbosity := given.verbosity + 1 }
  else if names.flags.contains name && !given.flags.contains name then
    some { given with flags := given.flags ++ [name] }
  else none

/-- Takes in one-letter options. -/
def addLetters? (given : Arguments) (letters : List Char) : Option Arguments :=
  if letters.all (· = 'v') then
    some { given with verbosity := given.verbosity + letters.length }
  else none

/-- Reads all arguments of a command. The value of an option is attached to it or the next
argument, which then has to be a plain value. -/
def read? (names : OptionNames) (given : Arguments) : List String → Option Arguments
  | [] => some given
  | argument :: rest =>
    match Argument.ofString argument with
    | .endOfOptions => some { given with values := given.values ++ rest }
    | .value text => read? names { given with values := given.values ++ [text] } rest
    | .letters letters => (given.addLetters? letters).bind fun given => read? names given rest
    | .option name (some value) =>
      (given.addOption? names name value).bind fun given => read? names given rest
    | .option name none =>
      if names.valued.contains name then
        match rest with
        | [] => none
        | next :: rest =>
          match Argument.ofString next with
          | .value value =>
            (given.addOption? names name value).bind fun given => read? names given rest
          | _ => none
      else (given.addFlag? names name).bind fun given => read? names given rest

end Arguments

end HeapRetention.CommandLine
