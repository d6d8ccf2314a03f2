import DegreeScore.Decimal.Reading
import DegreeScore.Text.BasedNumeral
import DegreeScore.Text.Quoted
import DegreeScore.Time.Duration

/-!
# Flags

Flags set options of a record. A long flag is `--name value` or `--name=value`, a short one `-n value`,
`-nvalue` or `-n=value`; switches need no value, and short ones may share a dash. Flags and other
arguments may stand in any order, and everything after `--` is an argument.
-/

namespace DegreeScore

/-- A flag that sets an option of an `α`. -/
structure Flag (α : Type) where
  name : String
  /-- The letter that stands for the flag after one dash. -/
  short : Option Char := none
  /-- The value of a flag that is given without one; a flag with no such value needs one. -/
  bare : Option String := none
  /-- Sets the option to a value, or says what is wrong with the value. -/
  set : String → α → Except String α

/-- Why flags could not be read. -/
inductive FlagError
  | malformed (arg : String)
  | unknown (name : String)
  | unknownShort (letter : UInt8) (cluster : Bytes)
  | valueMissing (arg : String)
  | valueMissingShort (letter : UInt8) (cluster : Bytes)
  | badValue (value shown reason : String)
deriving Repr, DecidableEq

/-- The text shown for flags that could not be read. -/
def FlagError.message : FlagError → String
  | .malformed arg => "bad flag syntax: " ++ arg
  | .unknown name => "unknown flag: --" ++ name
  | .unknownShort letter cluster =>
    "unknown shorthand flag: " ++ Text.Quoted.single (Char.ofNat letter.toNat) ++ " in -" ++
      Utf8.toText cluster
  | .valueMissing arg => "flag needs an argument: " ++ arg
  | .valueMissingShort letter cluster =>
    "flag needs an argument: " ++ Text.Quoted.single (Char.ofNat letter.toNat) ++ " in -" ++
      Utf8.toText cluster
  | .badValue value shown reason =>
    "invalid argument " ++ Text.Quoted.text (Bytes.ofString value) ++ " for " ++
      Text.Quoted.text (Bytes.ofString shown) ++ " flag: " ++ reason

namespace Flag

/-- What is wrong with a numeral that the reader `function` refused. -/
def numeralFault (function value : String) (fault : Text.Numeral.Fault) : String :=
  function ++ ": parsing " ++ Text.Quoted.text (Bytes.ofString value) ++ ": " ++ fault.message

/-- Reads a truth value. -/
def readSwitch (value : String) : Except String Bool :=
  if value ∈ ["1", "t", "T", "TRUE", "true", "True"] then .ok true
  else if value ∈ ["0", "f", "F", "FALSE", "false", "False"] then .ok false
  else .error (numeralFault "strconv.ParseBool" value .invalid)

/-- Reads a whole number. -/
def readInt (value : String) : Except String Int :=
  (Text.BasedNumeral.int64 (Bytes.ofString value)).mapError (numeralFault "strconv.ParseInt" value)

/-- Reads a whole number that fits in an unsigned 32-bit word. -/
def readWord (value : String) : Except String UInt32 :=
  match Text.BasedNumeral.nat 0xffffffff (Bytes.ofString value) with
  | .ok n => .ok (UInt32.ofNat n)
  | .error fault => .error (numeralFault "strconv.ParseUint" value fault)

/-- Reads a double. -/
def readDecimal (value : String) : Except String Float :=
  (Decimal.read (Bytes.ofString value)).mapError (numeralFault "strconv.ParseFloat" value)

/-- Reads a duration in nanoseconds. -/
def readDuration (value : String) : Except String Int :=
  (Duration.read (Bytes.ofString value)).mapError (Duration.Fault.message (Bytes.ofString value))

variable {α : Type}

/-- A flag that holds when it is given. -/
def switch (name : String) (short : Option Char) (set : Bool → α → α) : Flag α :=
  { name, short, bare := some "true", set := fun v a => (readSwitch v).map (set · a) }

/-- A flag with a value that `read` reads. -/
def valued {β : Type} (name : String) (short : Option Char) (read : String → Except String β)
    (set : β → α → α) : Flag α :=
  { name, short, set := fun v a => (read v).map (set · a) }

/-- The flag as messages show it. -/
def shown (f : Flag α) : String :=
  match f.short with
  | some c => "-" ++ c.toString ++ ", --" ++ f.name
  | none => "--" ++ f.name

/-- Sets the option of a flag. -/
def assign (f : Flag α) (value : String) (a : α) : Except FlagError α :=
  (f.set value a).mapError (.badValue value f.shown)

/-- The flag with a name. -/
def named? (flags : List (Flag α)) (name : String) : Option (Flag α) := flags.find? (·.name = name)

/-- The flag with a letter. -/
def lettered? (flags : List (Flag α)) (letter : UInt8) : Option (Flag α) :=
  flags.find? fun f => f.short.any fun c => c.toNat = letter.toNat

/-- What reading an argument comes to. -/
inductive Progress (α : Type)
  /-- The options with the argument taken into account. -/
  | set (a : α)
  /-- The next argument is the value of a flag; `missing` is the error if there is none. -/
  | wants (f : Flag α) (a : α) (missing : FlagError)

/-- Splits a text at its first equals sign. -/
def splitValue (text : String) : String × Option String :=
  match text.toList.span (· ≠ '=') with
  | (name, []) => (String.ofList name, none)
  | (name, _ :: value) => (String.ofList name, some (String.ofList value))

/-- Reads an argument with two dashes. -/
def readLong (flags : List (Flag α)) (a : α) (arg : String) : Except FlagError (Progress α) :=
  let body := arg.toList.drop 2
  if body.headD '-' = '-' ∨ body.head? = some '=' then .error (.malformed arg)
  else
    let (name, value?) := splitValue (String.ofList body)
    match named? flags name with
    | none => .error (.unknown name)
    | some f =>
      match value?, f.bare with
      | some value, _ => (f.assign value a).map .set
      | none, some value => (f.assign value a).map .set
      | none, none => .ok (.wants f a (.valueMissing arg))

/-- What begins the flags of a test run, which do not concern the program. -/
def testWord : Bytes := Bytes.ofString "test."

/-- Reads the letters after one dash. The flags of a test run are passed over. -/
def readShort (flags : List (Flag α)) (a : α) : Bytes → Except FlagError (Progress α)
  | [] => .ok (.set a)
  | letter :: rest =>
    if testWord.isPrefixOf (letter :: rest) then .ok (.set a)
    else match lettered? flags letter with
    | none => .error (.unknownShort letter (letter :: rest))
    | some f =>
      match rest, f.bare with
      | 61 :: v :: value, _ => (f.assign (Utf8.toText (v :: value)) a).map .set
      | _, some value =>
        match f.assign value a with
        | .error e => .error e
        | .ok a => readShort flags a rest
      | [], none => .ok (.wants f a (.valueMissingShort letter [letter]))
      | value, none => (f.assign (Utf8.toText value) a).map .set

/-- Reads arguments after the `rest` seen so far, the last one first. Returns the options and the
arguments that are not flags. -/
def readFrom (flags : List (Flag α)) (a : α) (seen : List String) :
    List String → Except FlagError (α × List String)
  | [] => .ok (a, seen.reverse)
  | arg :: more =>
    match arg.toList with
    | ['-', '-'] => .ok (a, seen.reverse ++ more)
    | '-' :: c :: _ =>
      let progress := if c = '-' then readLong flags a arg
        else readShort flags a ((Bytes.ofString arg).drop 1)
      match progress with
      | .error e => .error e
      | .ok (.set a) => readFrom flags a seen more
      | .ok (.wants f a missing) =>
        match more with
        | [] => .error missing
        | value :: more =>
          match f.assign value a with
          | .error e => .error e
          | .ok a => readFrom flags a seen more
    | _ => readFrom flags a (arg :: seen) more

/-- Reads all arguments. -/
def read (flags : List (Flag α)) (a : α) (args : List String) :
    Except FlagError (α × List String) :=
  readFrom flags a [] args

end Flag

end DegreeScore
