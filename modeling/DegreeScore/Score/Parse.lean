import DegreeScore.Score.Body
import DegreeScore.Score.MetadataBlock
import DegreeScore.Token.Lexer

/-!
# From source to score

A document is a body and, after a comma, at most one metadata block. Reading always gives a tree;
passages at fault are error nodes in it, and every fault is reported.
-/

namespace DegreeScore

/-- The part of a document that is settled once its body ends. -/
structure Draft where
  main : Node
  sections : Array Section
  diagnostics : Array Diagnostic
deriving Repr

namespace Draft

/-- The draft that a finished body gives. -/
def ofBody (b : Body) : Draft := ⟨b.main, b.sections, b.diagnostics⟩

/-- Adds a diagnostic. -/
def report (d : Draft) (t : Token) (fault : ScoreFault) : Draft :=
  { d with diagnostics := d.diagnostics.push ⟨t, fault⟩ }

end Draft

/-- How far a document has been read. -/
inductive Document
  | body (b : Body)
  | metadata (d : Draft) (b : Block)
  /-- After the metadata block, where nothing may follow. -/
  | trailing (d : Draft) (t : Table)
  | finished (d : Draft) (metadata : Option Table)
deriving Repr

namespace Document

/-- Nothing has been read. -/
def empty : Document := .body {}

/-- Takes a token of the body, in which a mark before it has been resolved. A comma between items
ends the body. -/
def bodyStep (b : Body) (t : Token) : Document :=
  match t.kind with
  | .endOfInput => .finished (.ofBody (b.finish t)) none
  | .comma => if b.isBetweenItems then .metadata (.ofBody b) {} else .body (b.take t)
  | _ => .body (b.take t)

/-- Takes the next token. -/
def step (s : Document) (t : Token) : Document :=
  match s with
  | .body b => bodyStep (b.resolve t) t
  | .metadata d b =>
    match b.step t with
    | .more b => .metadata d b
    | .done table => .trailing d table
    | .fault f => .finished (d.report t f) none
  | .trailing d table =>
    match t.kind with
    | .endOfInput => .finished d (some table)
    | _ => .finished (d.report t .expectedEnd) (some table)
  | .finished d table => .finished d table

/-- The tree and the diagnostics of what has been read. -/
def result : Document → Tree × List Diagnostic
  | .body b => (⟨b.main, b.sections, none⟩, b.diagnostics.toList)
  | .metadata d _ => (⟨d.main, d.sections, none⟩, d.diagnostics.toList)
  | .trailing d t => (⟨d.main, d.sections, some t⟩, d.diagnostics.toList)
  | .finished d t => (⟨d.main, d.sections, t⟩, d.diagnostics.toList)

end Document

/-- Reads tokens, the last of which is the end of input, as a document. -/
def Tree.ofTokens (tokens : List Token) : Tree × List Diagnostic :=
  (tokens.foldl Document.step .empty).result

/-- Reads a source: its tree and everything that is wrong with it, in the order of the source. -/
def Tree.parse (src : Bytes) : Tree × List Diagnostic := Tree.ofTokens (Token.scan src)

end DegreeScore
