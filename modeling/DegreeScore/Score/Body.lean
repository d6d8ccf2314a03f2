import DegreeScore.Score.Literal
import Std.Data.TreeMap

/-!
# Reading the body of a score

The body is read token by token. Its state is the level being read, which is the document or the
innermost open group, with the levels around it, the sections completed so far and the diagnostics.

A fault inside a group costs the whole group: the group is abandoned up to the bracket that closes
it, brackets of both kinds counting alike, and an error node takes its place in the level around it.
A fault in the document costs one balanced item from the token at fault on. A mark that is not
defined has been read already when that is noticed, so in the document it costs nothing more.
-/

namespace DegreeScore

/-- The sections that marks stand for in one level. -/
abbrev Scope := Std.TreeMap Bytes Nat

/-- A list of nodes being read. -/
structure Level where
  /-- The nodes so far, the last one first. -/
  nodes : List Node := []
  scope : Scope := ∅
  /-- The marks, each with its `=`, of which the next node is the section; the last one first. -/
  declaring : List Bytes := []
deriving Repr

/-- The level around an open group, in which the group will be the next node. -/
structure Enclosing where
  level : Level
  grouping : Grouping
  options : Option Options
deriving Repr

/-- How much of a node has been read. -/
inductive Progress
  | nothing
  /-- A mark, after which an `=` makes a declaration and anything else a reference. -/
  | mark (t : Token)
  /-- At least one option. The labels so far stand in `o` with the last one first. -/
  | options (o : Options)
  /-- The word `key` after these options. -/
  | key (o : Options)
deriving Repr

/-- What the next token is taken for. -/
inductive Mode
  | reading (p : Progress)
  /-- Part of a group that is given up, with so many brackets to close; `failure` replaces it. -/
  | abandoning (depth : Nat) (failure : Node)
  /-- Part of an item of the document that is given up, with so many brackets to close. -/
  | skipping (depth : Nat)
deriving Repr

/-- The state of reading a body. -/
structure Body where
  sections : Array Section := #[]
  diagnostics : Array Diagnostic := #[]
  level : Level := {}
  /-- The levels around the current one, the innermost first. -/
  enclosing : List Enclosing := []
  mode : Mode := .reading .nothing
deriving Repr

namespace Body

/-- Goes on with the next node. -/
def ready (b : Body) : Body := { b with mode := .reading .nothing }

/-- Makes `n` the section of each declared mark in turn. The node that is left plays the section of
the first mark that was written. -/
def declare (b : Body) (n : Node) : List Bytes → Body × Node
  | [] => (b, n)
  | mark :: rest =>
    let index := b.sections.size
    let b := { b with
      sections := b.sections.push ⟨mark, n⟩
      level := { b.level with scope := b.level.scope.insert mark index } }
    b.declare (.insert index) rest

/-- Adds a finished node to the current level. -/
def complete (b : Body) (n : Node) : Body :=
  let (b, n) := b.declare n b.level.declaring
  { b with
    level := { b.level with nodes := n :: b.level.nodes, declaring := [] }
    mode := .reading .nothing }

/-- Leaves the current group, which becomes the node that `make` gives for it. -/
def leave (b : Body) (make : Enclosing → Node) : Body :=
  match b.enclosing with
  | [] => b
  | e :: rest => { b with level := e.level, enclosing := rest }.complete (make e)

/-- The group that the current level turns out to be. -/
def groupNode (b : Body) (e : Enclosing) : Node := .group e.grouping b.level.nodes.reverse e.options

/-- Opens a group. -/
def enter (b : Body) (g : Grouping) (o : Option Options) : Body :=
  { b with
    level := {}
    enclosing := ⟨b.level, g, o⟩ :: b.enclosing
    mode := .reading .nothing }

/-- The section that a mark stands for: the latest of that name in the innermost level that has
one. -/
def lookup (b : Body) (name : Bytes) : Option Nat :=
  match b.level.scope[name]? with
  | some index => some index
  | none => b.enclosing.findSome? fun e => e.level.scope[name]?

/-- Reports a fault. In a group this abandons the group; in the document it leaves an error node. -/
def report (b : Body) (d : Diagnostic) : Body :=
  let b := { b with diagnostics := b.diagnostics.push d }
  match b.enclosing with
  | [] =>
    { b with
      level := { b.level with nodes := d.node :: b.level.nodes, declaring := [] }
      mode := .reading .nothing }
  | _ :: _ => { b with mode := .abandoning 1 d.node }

/-- The brackets left to close after a token. -/
def depthAfter (depth : Nat) (t : Token) : Nat :=
  match t.kind with
  | .opening _ => depth + 1
  | .closing _ => depth - 1
  | _ => depth

/-- Passes over a token of a group that is given up. -/
def abandon (b : Body) (depth : Nat) (failure : Node) (t : Token) : Body :=
  match depthAfter depth t with
  | 0 => b.leave fun _ => failure
  | depth => { b with mode := .abandoning depth failure }

/-- Passes over a token of an item that is given up. -/
def skip (b : Body) (depth : Nat) (t : Token) : Body :=
  match depthAfter depth t with
  | 0 => b.ready
  | depth => { b with mode := .skipping depth }

/-- Reports a fault of the token `t`, which is the first to be passed over. -/
def reject (b : Body) (t : Token) (fault : ScoreFault) : Body :=
  let b := b.report ⟨t, fault⟩
  match b.mode with
  | .abandoning depth failure => b.abandon depth failure t
  | _ => b.skip 0 t

/-- Takes the word `key` after the options `o`. -/
def keyWord (b : Body) (o : Options) (t : Token) : Body :=
  if o.key.isSome then b.reject t .repeatedKey else { b with mode := .reading (.key o) }

/-- Takes a duration after the options `o`. -/
def duration (b : Body) (o : Options) (t : Token) : Body :=
  if o.duration.isSome then b.reject t .repeatedDuration
  else match Literal.duration t.text with
    | .ok d => { b with mode := .reading (.options { o with duration := some d }) }
    | .error fault => b.reject t fault

/-- Takes the token at which a node proper begins. -/
def primary (b : Body) (o : Option Options) (t : Token) : Body :=
  match t.kind with
  | .opening g => b.enter g o
  | .integer | .note =>
    match Literal.degree t.text with
    | .ok (d, a) => b.complete (.note d a o)
    | .error fault => b.reject t fault
  | .rest => b.complete (.rest o)
  | _ => b.reject t .expectedNode

/-- Options as they were written, from those whose labels stand with the last one first. -/
def written (o : Options) : Options := { o with labels := o.labels.reverse }

/-- Takes a token after the options `o`, where `none` means that nothing has been read. A text is a
label after other options, and a node of its own without them. -/
def node (b : Body) (o : Option Options) (t : Token) : Body :=
  match t.kind, o with
  | .key, _ => b.keyWord (o.getD {}) t
  | .duration, _ => b.duration (o.getD {}) t
  | .text value, some o =>
    { b with mode := .reading (.options { o with labels := value :: o.labels }) }
  | .text value, none => b.complete (.event value none)
  | _, _ => b.primary (o.map written) t

/-- Takes a token between two nodes or after a declared mark. -/
def next (b : Body) (t : Token) : Body :=
  match t.kind, b.level.declaring, b.enclosing with
  | .mark, _, _ => { b with mode := .reading (.mark t) }
  | .closing g, [], e :: _ =>
    if g = e.grouping then b.leave b.groupNode else b.reject t (.mismatched e.grouping)
  | _, _, _ => b.node none t

/-- Takes the token after the word `key`. -/
def keyValue (b : Body) (o : Options) (t : Token) : Body :=
  match t.kind with
  | .integer =>
    match Literal.key t.text with
    | .ok k => { b with mode := .reading (.options { o with key := some k }) }
    | .error fault => b.reject t fault
  | _ => b.reject t .expectedKey

/-- Plays the section of a mark. -/
def refer (b : Body) (mark : Token) : Body :=
  match b.lookup mark.text with
  | some index => b.complete (.insert index)
  | none => b.report ⟨mark, .undefinedMark⟩

/-- Settles whether a mark just read is a reference, which it is unless `t` is an `=`. -/
def resolve (b : Body) (t : Token) : Body :=
  match b.mode, t.kind with
  | .reading (.mark _), .equals => b
  | .reading (.mark m), _ => b.refer m
  | _, _ => b

/-- Takes a token, a mark before it having been resolved. -/
def take (b : Body) (t : Token) : Body :=
  match b.mode with
  | .reading .nothing => b.next t
  | .reading (.mark m) =>
    { b.ready with level := { b.level with declaring := m.text :: b.level.declaring } }
  | .reading (.options o) => b.node (some o) t
  | .reading (.key o) => b.keyValue o t
  | .abandoning depth failure => b.abandon depth failure t
  | .skipping depth => b.skip depth t

/-- Settles what is unfinished when no more tokens come; `t` is the end of input, and a mark before
it has been resolved. -/
def settle (b : Body) (t : Token) : Body :=
  match b.mode with
  | .reading .nothing => if b.level.declaring.isEmpty then b else b.report ⟨t, .expectedNode⟩
  | .reading (.options _) => b.report ⟨t, .expectedNode⟩
  | .reading (.key _) => b.report ⟨t, .expectedKey⟩
  | _ => b

/-- Gives up the groups that are still open, from the innermost outwards. -/
def closeAll (t : Token) : List Enclosing → Body → Body
  | [], b => b
  | e :: rest, b =>
    let b := match b.mode with
      | .abandoning _ failure => b.leave fun _ => failure
      | _ =>
        let d : Diagnostic := ⟨t, .unclosed e.grouping⟩
        { b with diagnostics := b.diagnostics.push d }.leave fun _ => d.node
    closeAll t rest b

/-- Ends the body at the end of input. -/
def finish (b : Body) (t : Token) : Body :=
  let b := b.settle t
  closeAll t b.enclosing b

/-- Whether a comma would end the body: no group is open and no node is begun. -/
def isBetweenItems (b : Body) : Bool :=
  b.enclosing.isEmpty &&
    match b.mode with
    | .reading .nothing => b.level.declaring.isEmpty
    | _ => false

/-- The main passage: a lone node, or the sequence of all. -/
def main (b : Body) : Node :=
  match b.level.nodes with
  | [n] => n
  | nodes => .group .sequence nodes.reverse none

end Body

end DegreeScore
