import DegreeScore.Command.Basic
import DegreeScore.Feed
import DegreeScore.Json.Printer
import DegreeScore.Midi.Decode
import DegreeScore.Preview
import DegreeScore.Report
import DegreeScore.Watch

/-!
# Running commands

What a command does to a tree of files, what it prints and how it fails. Serving and watching go on
after the command has been read, so they are handed back as `Ongoing`.
-/

namespace DegreeScore

/-- Something that goes on until it is stopped. -/
inductive Ongoing
  | serve (address : String)
  /-- Watches a source. It is looked at every `interval` and compiled when it has not changed for
  `delay`, both in nanoseconds. -/
  | watch (w : Watch) (interval delay : Int)
deriving Repr

/-- What a command came to. -/
structure Run where
  files : Files
  stdout : String := ""
  stderr : String := ""
  error : Option String := none
  ongoing : Option Ongoing := none

namespace Run

/-- A command that fails and leaves these files. -/
def failed (files : Files) (message : String) : Run := { files, error := some message }

end Run

/-- What compiling several sources came to. -/
structure Batch where
  files : Files
  /-- The number of sources that failed. -/
  failed : Nat := 0
  /-- The diagnostics, with the paths of their sources. -/
  lines : List String := []

/-- Compiles sources one after the other into a directory. Unless `keepGoing` is set, the first that
fails is the last one tried. -/
def Files.deliverAll (dir : String) (keepGoing : Bool) (fs : Files) : List String → Batch
  | [] => { files := fs }
  | path :: rest =>
    let (files, delivery) := fs.deliver dir path
    match delivery.error? with
    | none => Files.deliverAll dir keepGoing files rest
    | some _ =>
      let lines := delivery.lines path
      if keepGoing then
        let batch := Files.deliverAll dir keepGoing files rest
        { batch with failed := batch.failed + 1, lines := lines ++ batch.lines }
      else { files, failed := 1, lines }

namespace Command

/-- The output directory: the one given, or the one of the settings. -/
def outputDir (env : Environment) (out : String) : String := if out = "" then env.outputDir else out

/-- The text shown when the output directory could not be made. -/
def noOutputDir (dir : String) (e : FileError) : String :=
  "could not create output dir " ++ dir ++ ": " ++ e.message

/-- Compiles files and directories. -/
def runCompile (env : Environment) (fs : Files) (o : CompileOptions) (paths : List String) : Run :=
  match fs.gather o.most paths with
  | .error e => .failed fs ("could not gather sources: " ++ e.message)
  | .ok sources =>
    let dir := outputDir env o.out
    match fs.ensureDirectory dir with
    | (fs, some e) => .failed fs (noOutputDir dir e)
    | (fs, none) =>
      let batch := fs.deliverAll dir o.keepGoing sources
      { files := batch.files
        stderr := String.join (batch.lines.map (· ++ "\n"))
        error := if 0 < batch.failed then
            some (toString batch.failed ++ " of " ++ toString sources.length ++ " files failed")
          else none }

/-- Prints the playback feed of a source. -/
def runEvents (env : Environment) (fs : Files) (o : EventsOptions) (path : String) : Run :=
  match fs.compile path with
  | .error e => .failed fs e.message
  | .ok c =>
    match c.outcome with
    | .compiled p _ =>
      let bpm := if o.bpm ≤ 0 then c.bpm env else o.bpm
      match Playback.feed (Playback.messages env p.events bpm) with
      | .ok v => { files := fs, stdout := v.lines }
      | .error e => .failed fs e.message
    | _ => .failed fs (c.error?.getD "")

/-- Prints the report on a MIDI file. -/
def runInspect (fs : Files) (o : InspectOptions) (path : String) : Run :=
  match fs.read path with
  | .error e => .failed fs ("error reading midi file: " ++ e.message)
  | .ok bytes =>
    match Midi.File.decode bytes with
    | .error e => .failed fs ("error parsing midi file " ++ path ++ ": " ++ e.message)
    | .ok f =>
      let shown := if 0 < o.start ∨ 0 < o.notes then f.preview ⟨o.start, o.notes⟩ else f
      { files := fs, stdout := Report.ofFile shown o.chords }

/-- Makes ready to watch a source. -/
def runWatch (env : Environment) (fs : Files) (o : WatchOptions) (path : String) : Run :=
  let dir := outputDir env o.out
  match fs.ensureDirectory dir with
  | (fs, some e) => .failed fs (noOutputDir dir e)
  | (fs, none) =>
    let watch : Watch := { path, dir }
    match watch.obstacle? fs with
    | some message => .failed fs message
    | none => { files := fs, ongoing := some (.watch watch o.interval o.delay) }

/-- Runs a command. -/
def run (env : Environment) (fs : Files) : Command → Run
  | .help | .script _ => { files := fs }
  | .compile o paths => runCompile env fs o paths
  | .events o path => runEvents env fs o path
  | .inspect o path => runInspect fs o path
  | .serve o =>
    let address := if o.address = "" then env.serveAddress else o.address
    { files := fs, ongoing := some (.serve address) }
  | .watch o path => runWatch env fs o path

end Command

/-- Reads and runs a command line. What went wrong is printed after everything else. -/
def execute (env : Environment) (fs : Files) (args : List String) : Run :=
  match Command.parse args with
  | .error e =>
    { files := fs, error := some e.message
      stderr := "Error: " ++ e.message ++ "\n" ++ e.hint }
  | .ok command =>
    let r := command.run env fs
    match r.error with
    | none => r
    | some message => { r with stderr := r.stderr ++ "Error: " ++ message ++ "\n" }

end DegreeScore
