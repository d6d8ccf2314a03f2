import DegreeScore.Command.Run

/-!
# The program

Runs a command line on the files of this machine. What the command may look at is loaded into a tree of
files, the command runs on that tree, and what it changed is written back.
-/

namespace DegreeScore.Program

/-- The paths that a command looks at. -/
def pathsOf (env : Environment) : Command → List String
  | .help | .script _ => []
  | .compile o paths => paths ++ [Command.outputDir env o.out]
  | .events _ path => [path]
  | .inspect _ path => [path]
  | .serve _ => []
  | .watch o path => [path, Command.outputDir env o.out]

/-- The location of an absolute path. -/
def locationOf (path : String) : Location := (Path.names (Path.clean path)).filter (· ≠ "")

/-- The absolute path of a location. -/
def pathOf (l : Location) : String := "/" ++ "/".intercalate l

/-- The settings in the environment. -/
def environment : IO Environment := do
  let get (name : String) : IO String := return (← IO.getEnv name).getD ""
  return { outPath := ← get "DEGREEC_OUT_PATH", address := ← get "DEGREEC_ADDR",
           bpm := ← get "DEGREEC_BPM" }

/-- Puts an empty directory at a location unless one is there. -/
def withDirectory (fs : Files) (l : Location) : Files :=
  if (fs.find? l).isSome then fs else fs.put l .empty

/-- Loads the file or directory at a location. Of what is below a directory only sources are loaded. -/
partial def load (fs : Files) (l : Location) : IO Files := do
  let place := (← IO.currentDir) / pathOf l
  if ← place.isDir then
    let mut fs := withDirectory fs l
    for entry in ← place.readDir do
      let below := l ++ [entry.fileName]
      let deeper ← ((← IO.currentDir) / pathOf below).isDir
      if deeper ∨ entry.fileName.endsWith sourceExtension then fs ← load fs below
    return fs
  else if ← place.pathExists then
    return fs.put l (.file (← IO.FS.readBinFile place).data.toList)
  else
    return fs

/-- Loads what stands on the way to a location. -/
def loadParents (fs : Files) (l : Location) : IO Files := do
  let mut fs := fs
  for k in List.range l.length do
    let parent := l.take k
    let place := (← IO.currentDir) / pathOf parent
    if ← place.isDir then fs := withDirectory fs parent
    else if ← place.pathExists then fs := fs.put parent (.file [])
  return fs

/-- Loads what stands at paths. -/
def snapshot (paths : List String) : IO Files := do
  let here := locationOf (← IO.currentDir).toString
  let mut fs ← loadParents { here } here
  fs := withDirectory fs here
  for path in paths do
    let l := locationOf (if Path.isAbsolute path then path else pathOf here ++ "/" ++ path)
    fs ← loadParents fs l
    fs ← load fs l
  return fs

/-- Writes back what has changed. -/
def store (before after : Files) : IO Unit := do
  for l in Files.madeSince before after do
    IO.FS.createDirAll (pathOf l)
  for (l, content) in Files.changedSince before after do
    IO.FS.writeBinFile (pathOf l) ⟨content.toArray⟩

/-- Compiles a watched source as it is now. -/
def refresh (w : Watch) : IO Unit := do
  let before ← snapshot [w.path, w.dir]
  let (after, delivery) := w.refresh before
  store before after
  match delivery.error? with
  | some message => IO.eprintln message
  | none => return

/-- When a file was last changed and how long it is; `none` while it is missing. -/
def stamp (path : String) : IO (Option (Int × Nat × Nat)) := do
  try
    let data ← ((← IO.currentDir) / path).metadata
    return some (data.modified.sec, data.modified.nsec.toNat, data.byteSize.toNat)
  catch _ =>
    return none

/-- Looks at a source again and again. `due` is when to compile it, in milliseconds. -/
partial def watch (w : Watch) (interval delay : Nat) (seen : Option (Int × Nat × Nat))
    (due : Option Nat) : IO Unit := do
  let now ← IO.monoMsNow
  let due ← match due with
    | some time => if time ≤ now then refresh w *> pure none else pure (some time)
    | none => pure none
  IO.sleep interval.toUInt32
  match ← stamp w.path with
  | none => watch w interval delay seen due
  | found =>
    if found = seen then watch w interval delay seen due
    else watch w interval delay found (some ((← IO.monoMsNow) + delay))

/-- Goes on with what a command has started. -/
def proceed : Ongoing → IO UInt32
  | .serve address => do
    IO.eprintln ("Error: server failed: listen " ++ address ++ ": no network")
    return 1
  | .watch w interval delay => do
    let millis (n : Int) : Nat := (n / 1000000).toNat
    let seen ← stamp w.path
    watch w (millis interval) (millis delay) seen (some ((← IO.monoMsNow) + millis delay))
    return 0

end DegreeScore.Program

open DegreeScore in
/-- Runs the command line. -/
def main (args : List String) : IO UInt32 := do
  let env ← Program.environment
  let paths := match Command.parse args with
    | .ok command => Program.pathsOf env command
    | .error _ => []
  let before ← Program.snapshot paths
  let r := execute env before args
  Program.store before r.files
  IO.print r.stdout
  IO.eprint r.stderr
  match r.ongoing with
  | some ongoing => Program.proceed ongoing
  | none => return if r.error.isSome then 1 else 0
