import DegreeScore.Command.Flag
import DegreeScore.Text.EditDistance
import DegreeScore.Text.Lower

/-!
# The command line

The commands with their options, and how a list of arguments is read as one. The command is the first
argument that is neither a flag nor the value of one; `completion` is followed by a command of its own.
-/

namespace DegreeScore

/-- Options of `compile`. -/
structure CompileOptions where
  /-- The output directory; if empty, the one of the settings. -/
  out : String := ""
  keepGoing : Bool := false
  /-- The number of files to compile at once. -/
  jobs : Int := 1
  /-- The most files to compile; zero means all. -/
  most : Int := 0
deriving Repr

/-- Options of `inspect`. -/
structure InspectOptions where
  chords : Bool := false
  start : UInt32 := 0
  notes : Int := 0
deriving Repr

/-- Options of `events`. -/
structure EventsOptions where
  bpm : Float := 0

/-- Options of `serve`. -/
structure ServeOptions where
  /-- The address; if empty, the one of the settings. -/
  address : String := ""
deriving Repr

/-- Options of `watch`. The times are in nanoseconds. -/
structure WatchOptions where
  /-- The output directory; if empty, the one of the settings. -/
  out : String := ""
  interval : Int := 250000000
  delay : Int := 300000000
deriving Repr

/-- A command with its options and arguments. -/
inductive Command
  /-- Shows how to use the program. -/
  | help
  /-- Writes the completion script of a shell. -/
  | script (shell : String)
  | compile (o : CompileOptions) (paths : List String)
  | events (o : EventsOptions) (path : String)
  | inspect (o : InspectOptions) (path : String)
  | serve (o : ServeOptions)
  | watch (o : WatchOptions) (path : String)

/-- Why a command line could not be read. -/
inductive UsageError
  | unknownCommand (name : String)
  /-- An argument was given to a command that takes none. -/
  | unexpected (arg command : String)
  | flags (e : FlagError)
  /-- One argument was expected. -/
  | notOne (given : Nat)
  /-- At least one argument was expected. -/
  | noArguments
deriving Repr, DecidableEq

/-- Options with those that every command has. -/
structure Given (α : Type) where
  options : α
  verbose : Bool := false
  help : Bool := false

namespace Command

/-- The names of the commands, in the order in which they are suggested. -/
def names : List String := ["compile", "events", "inspect", "serve", "watch", "completion"]

/-- The flags that every command has. -/
def commonFlags (α : Type) : List (Flag (Given α)) :=
  [.switch "verbose" (some 'v') fun b g => { g with verbose := b },
    .switch "help" (some 'h') fun b g => { g with help := b }]

/-- The flags of `compile`. -/
def compileFlags : List (Flag CompileOptions) :=
  [.valued "out" (some 'o') .ok fun s o => { o with out := s },
    .switch "keep-going" none fun b o => { o with keepGoing := b },
    .valued "jobs" (some 'j') Flag.readInt fun n o => { o with jobs := n },
    .valued "max" none Flag.readInt fun n o => { o with most := n }]

/-- The flags of `inspect`. -/
def inspectFlags : List (Flag InspectOptions) :=
  [.switch "chords" none fun b o => { o with chords := b },
    .valued "from" none Flag.readWord fun n o => { o with start := n },
    .valued "notes" none Flag.readInt fun n o => { o with notes := n }]

/-- The flags of `events`. -/
def eventsFlags : List (Flag EventsOptions) :=
  [.valued "bpm" none Flag.readDecimal fun x o => { o with bpm := x }]

/-- The flags of `serve`. -/
def serveFlags : List (Flag ServeOptions) :=
  [.valued "addr" none .ok fun s o => { o with address := s }]

/-- The flags of `watch`. -/
def watchFlags : List (Flag WatchOptions) :=
  [.valued "out" (some 'o') .ok fun s o => { o with out := s },
    .valued "interval" none Flag.readDuration fun n o => { o with interval := n },
    .valued "delay" none Flag.readDuration fun n o => { o with delay := n }]

/-- A flag of a command among those that every command has. -/
def lift {α : Type} (f : Flag α) : Flag (Given α) :=
  { name := f.name, short := f.short, bare := f.bare
    set := fun v g => (f.set v g.options).map fun o => { g with options := o } }

/-- Reads the flags of a command and makes it from its options and arguments. -/
def parseWith {α : Type} (flags : List (Flag α)) (options : α)
    (make : α → List String → Except UsageError Command) (args : List String) :
    Except UsageError Command :=
  match Flag.read (flags.map lift ++ commonFlags α) { options } args with
  | .error e => .error (.flags e)
  | .ok (given, rest) => if given.help then .ok .help else make given.options rest

/-- Makes a command that takes one argument. -/
def withOne {α : Type} (make : α → String → Command) (o : α) : List String → Except UsageError Command
  | [path] => .ok (make o path)
  | args => .error (.notOne args.length)

/-- Makes a command that takes at least one argument. -/
def withSome {α : Type} (make : α → List String → Command) (o : α) :
    List String → Except UsageError Command
  | [] => .error .noArguments
  | args => .ok (make o args)

/-- Whether the argument after `arg` belongs to it, as far as one can tell before the command is
known: `arg` is a flag without a value that is no switch of every command. -/
def takesNext (arg : String) : Bool :=
  !arg.toList.contains '=' && (match arg.toList with
    | '-' :: '-' :: name => String.ofList name ≠ "verbose"
    | '-' :: c :: _ => arg.utf8ByteSize = 2 && c ≠ 'v'
    | _ => false)

/-- The first argument that is neither a flag nor the value of one. -/
def firstWord : List String → Option String
  | [] => none
  | arg :: rest =>
    if arg = "--" then none
    else if takesNext arg then
      match rest with
      | _ :: next :: more => firstWord (next :: more)
      | _ => none
    else if arg ≠ "" ∧ arg.toList.head? ≠ some '-' then some arg
    else firstWord rest

/-- Makes a command that takes no argument. -/
def withNone {α : Type} (name : String) (make : α → Command) (o : α) :
    List String → Except UsageError Command
  | [] => .ok (make o)
  | arg :: _ => .error (.unexpected arg name)

/-- The shells for which there is a completion script. -/
def shells : List String := ["bash", "zsh", "fish", "powershell"]

/-- The flags of the command that writes a completion script. -/
def scriptFlags : List (Flag Bool) := [.switch "no-descriptions" none fun b _ => b]

/-- Shows how to use the program, whatever the arguments. -/
def parseHelp (args : List String) : Except UsageError Command :=
  parseWith [] () (fun _ _ => .ok .help) args

/-- Reads the arguments of `completion`. -/
def parseCompletion (args : List String) : Except UsageError Command :=
  match firstWord args with
  | some shell =>
    if shell ∈ shells then
      parseWith scriptFlags false (withNone ("degreec completion " ++ shell) fun _ => .script shell)
        (args.erase shell)
    else parseHelp args
  | none => parseHelp args

/-- Reads a command line. -/
def parse (args : List String) : Except UsageError Command :=
  match firstWord args with
  | none => parseHelp args
  | some name =>
    let rest := args.erase name
    match name with
    | "compile" => parseWith compileFlags {} (withSome .compile) rest
    | "events" => parseWith eventsFlags {} (withOne .events) rest
    | "inspect" => parseWith inspectFlags {} (withOne .inspect) rest
    | "serve" => parseWith serveFlags {} (fun o _ => .ok (.serve o)) rest
    | "watch" => parseWith watchFlags {} (withOne .watch) rest
    | "help" => parseHelp rest
    | "completion" => parseCompletion rest
    | _ => .error (.unknownCommand name)

/-- Whether a command may have been meant by a name: it is at most two edits away or begins with it,
upper and lower case alike. -/
def isLike (name command : String) : Bool :=
  let typed := Text.lowered name
  Text.editDistance (Bytes.ofString typed) (Bytes.ofString command) ≤ 2 ||
    typed.toList.isPrefixOf command.toList

/-- The commands that may have been meant by a name. -/
def suggestions (name : String) : String :=
  match names.filter (isLike name) with
  | [] => ""
  | found => "\n\nDid you mean this?\n" ++ String.join (found.map fun c => "\t" ++ c ++ "\n")

end Command

/-- The text shown for a command line that could not be read. -/
def UsageError.message : UsageError → String
  | .unknownCommand name =>
    "unknown command " ++ Text.Quoted.text (Bytes.ofString name) ++ " for \"degreec\"" ++
      Command.suggestions name
  | .unexpected arg command =>
    "unknown command " ++ Text.Quoted.text (Bytes.ofString arg) ++ " for " ++
      Text.Quoted.text (Bytes.ofString command)
  | .flags e => e.message
  | .notOne given => "accepts 1 arg(s), received " ++ toString given
  | .noArguments => "requires at least 1 arg(s), only received 0"

/-- What follows the message for a command line that could not be read. -/
def UsageError.hint : UsageError → String
  | .unknownCommand _ => "Run 'degreec --help' for usage.\n"
  | _ => ""

end DegreeScore
