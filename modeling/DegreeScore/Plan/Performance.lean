import DegreeScore.Midi.Event
import DegreeScore.Plan.Channels
import DegreeScore.Plan.Context
import DegreeScore.Sorting

/-!
# Performances

`Tree.perform` plays a score from time zero and lists the MIDI events in order of time. Events of
one time keep the order in which they were played.

A section is played in the context of its first playing, whatever the context of a later insert.
A section may lead back to itself. Every round then starts later than the one before it, until the
time no longer fits and playing ends with an overflow. Inserts are followed `Tree.reach` levels
deep, which is more than the number of sections and so more than inserts can be nested that do not
lead back to themselves.
-/

namespace DegreeScore

/-- An event at a time counted in whole notes. -/
structure TimedEvent where
  time : Ratio
  event : Midi.Event
deriving Repr, DecidableEq

/-- The events of a score in order of time, and its length. -/
structure Performance where
  events : List TimedEvent
  duration : Ratio
deriving Repr, DecidableEq

/-- Why a score cannot be played. -/
inductive PlanError
  | overflow (o : Ratio.Overflow)
  | outOfChannels (program : UInt8)
  | missingSection (index : Int)
  /-- A section that plays itself without end. -/
  | circular (index : Int)
  | missingNode
deriving Repr, DecidableEq

/-- The text shown for a score that cannot be played. -/
def PlanError.message : PlanError → String
  | .overflow o => o.message
  | .outOfChannels p => Channels.exhaustedMessage p
  | .missingSection i => "insert refers to missing section " ++ toString i
  | .circular i => "section " ++ toString i ++ " plays itself without end"
  | .missingNode => "unknown node type <nil>"

/-- What playing has brought about so far. -/
structure Stage where
  channels : Channels
  /-- For each section the context of its first playing, if it has been played. -/
  bound : Array (Option Context)
  events : Array TimedEvent

/-- A step of playing. -/
abbrev Player := StateT Stage (Except PlanError)

namespace Stage

/-- Nothing has been played of a score with so many sections. -/
def empty (sections : Nat) : Stage :=
  { channels := .free, bound := Array.replicate sections none, events := #[] }

end Stage

namespace Player

/-- Adds an event. -/
def emit (time : Ratio) (event : Midi.Event) : Player Unit :=
  modify fun s => { s with events := s.events.push ⟨time, event⟩ }

/-- The sum of two times. -/
def later (time duration : Ratio) : Player Ratio :=
  match time.add duration with
  | .ok t => return t
  | .error o => throw (.overflow o)

/-- The channel of a program, announced by a program change when it is first used. -/
def program (p : UInt8) (time : Ratio) : Player UInt8 := do
  match (← get).channels.allocate p with
  | .kept c => return Channels.number c
  | .fresh c t =>
    modify fun s => { s with channels := t }
    emit time (.channel (Channels.number c) (.programChange p))
    return Channels.number c
  | .exhausted => throw (.outOfChannels p)

/-- Applies one label: a dynamic sets the velocity, a program the channel, and any other label is
written out as a text. -/
def label (c : Context) (l : Bytes) (time : Ratio) : Player Context := do
  match dynamic? l with
  | some v => return { c with velocity := v }
  | none =>
    match program? l with
    | some p => return { c with channel := ← program p time }
    | none =>
      emit time (.info (.text Midi.MetaEvent.plainText l))
      return c

/-- Applies the labels that are no dynamics, in order. -/
def labels (c : Context) (time : Ratio) : List Bytes → Player Context
  | [] => return c
  | l :: rest => do
    let c ← if (dynamic? l).isSome then pure c else label c l time
    labels c time rest

/-- The context inside a node with these options. -/
def enter (c : Context) (o : Option Options) (time : Ratio) : Player Context :=
  match o with
  | none => return c
  | some o => labels (c.override o) time o.labels

/-- The context after a label that stands on its own. -/
def event (l : Bytes) (o : Option Options) (c : Context) (time : Ratio) : Player Context := do
  label (← enter c o time) l time

/-- The context in which to play a section: the one it was first played in, which is `c` if this is
the first time. -/
def contextFor (index : Nat) (c : Context) : Player Context := do
  match (← get).bound[index]? with
  | some (some first) => return first
  | _ =>
    modify fun s => { s with bound := s.bound.setIfInBounds index (some c) }
    return c

/-- Plays a note and returns its end. -/
def note (key : UInt8) (c : Context) (time : Ratio) : Player Ratio := do
  let stop ← later time c.duration
  emit time (.channel c.channel (.noteOn key c.velocity))
  emit stop (.channel c.channel (.noteOff key 0))
  return stop

mutual

/-- Plays a node at a time and returns its end. `insert` plays a section. -/
def node (insert : Int → Context → Ratio → Player Ratio) :
    Node → Context → Ratio → Player Ratio
  | .note degree accidental o, c, t => do
    let c ← enter c o t
    note (pitch degree accidental c.key) c t
  | .rest o, c, t => do
    let c ← enter c o t
    later t c.duration
  | .group .sequence children o, c, t => do
    let c ← enter c o t
    sequence insert children c t
  | .group .chord children o, c, t => do
    let c ← enter c o t
    chord insert children c t t
  | .insert index, c, t => insert index c t
  | .event l o, c, t => do
    let _ ← event l o c t
    return t
  | .error .., _, t => return t
  | .hole, _, _ => throw .missingNode

/-- Plays nodes in turn. A label changes the context of those after it. -/
def sequence (insert : Int → Context → Ratio → Player Ratio) :
    List Node → Context → Ratio → Player Ratio
  | [], _, t => return t
  | .event l o :: rest, c, t => do
    let c ← event l o c t
    sequence insert rest c t
  | n :: rest, c, t => do
    let t ← node insert n c t
    sequence insert rest c t

/-- Plays nodes together from `start` on. The end is the latest of `stop` and their ends; a label
changes the context of those after it. -/
def chord (insert : Int → Context → Ratio → Player Ratio) :
    List Node → Context → Ratio → Ratio → Player Ratio
  | [], _, _, stop => return stop
  | .event l o :: rest, c, start, stop => do
    let c ← event l o c start
    chord insert rest c start stop
  | n :: rest, c, start, stop => do
    let childStop ← node insert n c start
    chord insert rest c start (stop.max childStop)

end

/-- The section with an index, if there is one. -/
def section? (sections : Array Section) (index : Int) : Option Section :=
  if index < 0 then none else sections[index.toNat]?

/-- Plays the section with an index, and from it sections at most `depth` levels deep. -/
def play (sections : Array Section) : Nat → Int → Context → Ratio → Player Ratio
  | 0, index, _, _ =>
    match section? sections index with
    | none => throw (.missingSection index)
    | some _ => throw (.circular index)
  | depth + 1, index, c, t => do
    match section? sections index with
    | none => throw (.missingSection index)
    | some s =>
      let c ← contextFor index.toNat c
      node (play sections depth) s.node c t

end Player

/-- Whether an event may stay before another: it is not later. -/
def TimedEvent.notAfter (a b : TimedEvent) : Bool := !b.time.less a.time

/-- How many levels deep the inserts of a score are followed. -/
def Tree.reach (tree : Tree) : Nat := 0x4000000000000000 + tree.sections.size

/-- Plays a score. A score without a main passage is silent. -/
def Tree.perform (tree : Tree) : Except PlanError Performance :=
  match tree.main with
  | .hole => .ok ⟨[], .zero⟩
  | main =>
    let player := Player.node (Player.play tree.sections tree.reach) main .initial .zero
    match player.run (.empty tree.sections.size) with
    | .error e => .error e
    | .ok (stop, s) => .ok ⟨Sorting.sort TimedEvent.notAfter s.events.toList, stop⟩

end DegreeScore
