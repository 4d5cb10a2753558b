import StackTape.Text.Literal
import StackTape.Text.Quoted

/-!
# Flags

Options on a command line: one or two dashes and a name, with a value behind an equals sign or as
the next argument.  A switch needs no value.  Flags end at the first argument without a dash, or
behind two dashes.  A flag writes what it is given into a record of options.
-/

namespace StackTape

/-- Why a flag does not take a value. -/
inductive FlagFault where
  | malformed
  | outOfRange
deriving DecidableEq, Repr

/-- The words for a fault. -/
def FlagFault.message : FlagFault → Bytes
  | .malformed => Bytes.ascii "parse error"
  | .outOfRange => Bytes.ascii "value out of range"

/-- The fault of an integer. -/
def FlagFault.ofInteger : IntegerFault → FlagFault
  | .malformed => .malformed
  | .outOfRange => .outOfRange

/-- Why arguments are refused. -/
inductive FlagError where
  | help
  | badForm (arg : Bytes)
  | unknown (name : Bytes)
  | noValue (name : Bytes)
  | badSwitch (value name : Bytes) (fault : FlagFault)
  | badValue (value name : Bytes) (fault : FlagFault)
deriving DecidableEq, Repr

/-- The message of refused arguments. -/
def FlagError.message : FlagError → Bytes
  | .help => Bytes.ascii "flag: help requested"
  | .badForm arg => Bytes.ascii "bad flag syntax: " ++ arg
  | .unknown name => Bytes.ascii "flag provided but not defined: -" ++ name
  | .noValue name => Bytes.ascii "flag needs an argument: -" ++ name
  | .badSwitch value name fault =>
    Bytes.ascii "invalid boolean value " ++ Quoted.text value ++ Bytes.ascii " for -" ++ name ++
      Bytes.ascii ": " ++ fault.message
  | .badValue value name fault =>
    Bytes.ascii "invalid value " ++ Quoted.text value ++ Bytes.ascii " for flag -" ++ name ++
      Bytes.ascii ": " ++ fault.message

/-- A flag of a record of options. -/
structure Flag (σ : Type) where
  name : Bytes
  /-- What the flag does. -/
  purpose : Bytes
  /-- The kind of the value; a switch has none. -/
  kind : Bytes
  /-- The value without the flag, as it is shown. -/
  standard : Option Bytes
  /-- Takes a value into the record. -/
  set : Bytes → σ → Except FlagFault σ

namespace Flag

variable {σ : Type}

/-- The truth value of a text. -/
def truth? (b : Bytes) : Option Bool :=
  if ["1", "t", "T", "true", "TRUE", "True"].any (Bytes.ascii · = b) then some true
  else if ["0", "f", "F", "false", "FALSE", "False"].any (Bytes.ascii · = b) then some false
  else none

/-- A flag that is on or off. -/
def switch (name purpose : String) (standard : Bool) (put : Bool → σ → σ) : Flag σ where
  name := Bytes.ascii name
  purpose := Bytes.ascii purpose
  kind := []
  standard := if standard then some (Bytes.ascii "true") else none
  set b s :=
    match truth? b with
    | some v => .ok (put v s)
    | none => .error .malformed

/-- A flag with an integer. -/
def integer (name purpose : String) (standard : Int64) (put : Int64 → σ → σ) : Flag σ where
  name := Bytes.ascii name
  purpose := Bytes.ascii purpose
  kind := Bytes.ascii "int"
  standard := if standard = 0 then none else some (Decimal.ofWord standard)
  set b s :=
    match Literal.parse b with
    | .ok v => .ok (put v s)
    | .error fault => .error (.ofInteger fault)

/-- A flag with an unsigned integer. -/
def natural (name purpose : String) (standard : UInt64) (put : UInt64 → σ → σ) : Flag σ where
  name := Bytes.ascii name
  purpose := Bytes.ascii purpose
  kind := Bytes.ascii "uint"
  standard := if standard = 0 then none else some (Decimal.ofNat standard.toNat)
  set b s :=
    match Literal.parseWord b with
    | .ok v => .ok (put v s)
    | .error fault => .error (.ofInteger fault)

/-- A flag with a text. -/
def text (name purpose : String) (standard : Bytes) (put : Bytes → σ → σ) : Flag σ where
  name := Bytes.ascii name
  purpose := Bytes.ascii purpose
  kind := Bytes.ascii "string"
  standard := if standard.isEmpty then none else some (Quoted.text standard)
  set b s := .ok (put b s)

/-- The flag needs no value. -/
def isSwitch (f : Flag σ) : Bool := f.kind.isEmpty

/-- The lines that describe a flag. -/
def describe (f : Flag σ) : Bytes :=
  let head := Bytes.ascii "  -" ++ f.name ++ (if f.isSwitch then [] else 0x20 :: f.kind)
  let gap := if head.length ≤ 4 then [0x09] else Bytes.ascii "\n    \t"
  let standard := match f.standard with
    | some v => Bytes.ascii " (default " ++ v ++ [0x29]
    | none => []
  Bytes.line (head ++ gap ++ f.purpose ++ standard)

/-- A dash. -/
def dash : UInt8 := 0x2D

/-- An argument as flags see it. -/
inductive Form where
  /-- Not a flag: here flags end. -/
  | plain
  /-- Two dashes: behind them flags end. -/
  | stop
  | malformed
  | flag (name : Bytes) (value : Option Bytes)
deriving DecidableEq, Repr

/-- Cuts the text of a flag at an equals sign, which cannot be its first byte. -/
def cut (b : Bytes) : Form :=
  let name := b.take 1 ++ (b.drop 1).takeWhile (· ≠ 0x3D)
  match b.drop name.length with
  | [] => .flag name none
  | _ :: value => .flag name (some value)

/-- The form of an argument. -/
def form : Bytes → Form
  | 0x2D :: 0x2D :: [] => .stop
  | 0x2D :: c :: rest =>
    let body := if c = dash then rest else c :: rest
    match body with
    | [] => .malformed
    | d :: _ => if d = dash ∨ d = 0x3D then .malformed else cut body
  | _ => .plain

/-- Takes a value, which `refuse` blames if it is refused. -/
def take (f : Flag σ) (v : Bytes) (s : σ) (refuse : Bytes → Bytes → FlagFault → FlagError) :
    Except FlagError σ :=
  match f.set v s with
  | .ok s => .ok s
  | .error fault => .error (refuse v f.name fault)

/-- Reads flags into a record of options; `waiting` is a flag whose value is the next argument. -/
def parseFrom (flags : List (Flag σ)) :
    (waiting : Option (Flag σ)) → σ → List Bytes → Except FlagError (σ × List Bytes)
  | none, s, [] => .ok (s, [])
  | some f, _, [] => .error (.noValue f.name)
  | some f, s, v :: rest =>
    match f.take v s .badValue with
    | .ok s => parseFrom flags none s rest
    | .error e => .error e
  | none, s, arg :: rest =>
    match form arg with
    | .plain => .ok (s, arg :: rest)
    | .stop => .ok (s, rest)
    | .malformed => .error (.badForm arg)
    | .flag name value =>
      match flags.find? (·.name = name), value with
      | none, _ =>
        if name = Bytes.ascii "help" ∨ name = Bytes.ascii "h" then .error .help
        else .error (.unknown name)
      | some f, some v =>
        match f.take v s (if f.isSwitch then .badSwitch else .badValue) with
        | .ok s => parseFrom flags none s rest
        | .error e => .error e
      | some f, none =>
        if f.isSwitch then
          match f.take (Bytes.ascii "true") s .badSwitch with
          | .ok s => parseFrom flags none s rest
          | .error e => .error e
        else parseFrom flags (some f) s rest

/-- Reads flags into a record of options: the record, and the arguments behind the flags. -/
def parse (flags : List (Flag σ)) (s : σ) (args : List Bytes) : Except FlagError (σ × List Bytes) :=
  parseFrom flags none s args

end Flag

end StackTape
