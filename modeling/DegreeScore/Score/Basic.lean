import DegreeScore.Score.Metadata
import DegreeScore.Time.Ratio
import DegreeScore.Token.Basic

/-!
# Scores

A score is a tree of notes, rests, groups and labels, with sections that can be played again by
their mark. What a node does not say about duration, key and labels it takes over from the node
around it.
-/

namespace DegreeScore

/-- What is written before a node. -/
structure Options where
  duration : Option Ratio := none
  key : Option Int64 := none
  labels : List Bytes := []
deriving Repr, DecidableEq

/-- Whether options, if there are any, say nothing. -/
def Options.isEmpty : Option Options → Bool
  | none => true
  | some o => o.duration.isNone && o.key.isNone && o.labels.isEmpty

/-- An element of a score. -/
inductive Node
  /-- A scale degree above the tonal centre, moved by so many semitones. -/
  | note (degree accidental : Int64) (options : Option Options)
  | rest (options : Option Options)
  /-- A sequence plays its children in turn; a chord starts them together and lasts as long as the
  longest. -/
  | group (grouping : Grouping) (children : List Node) (options : Option Options)
  /-- Plays the section with this index. -/
  | insert (index : Int)
  /-- A label such as a dynamic or a program, which holds for what follows it. -/
  | event (label : Bytes) (options : Option Options)
  /-- Stands for a passage that could not be read. -/
  | error (offset : Int) (message : String)
  /-- A place where no node was given. -/
  | hole
deriving Repr

/-- The options of a node. -/
def Node.options : Node → Option Options
  | .note _ _ o | .rest o | .group _ _ o | .event _ o => o
  | .insert _ | .error .. | .hole => none

/-- A passage with a mark. -/
structure Section where
  mark : Bytes
  node : Node
deriving Repr

/-- What a source says: the main passage, the sections in the order of their completion, and the
metadata block if there is one. -/
structure Tree where
  main : Node
  sections : Array Section
  metadata : Option Table
deriving Repr

end DegreeScore
