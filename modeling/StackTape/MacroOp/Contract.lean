import StackTape.MacroOp.Basic

/-!
# Operand contracts

What an operation asks of its operands before it is expanded: cells that must differ do, lists
have the length they need, bodies leave the pointer where it was, and literals hold tape text only.
The innermost operation that breaks its contract is reported.
-/

namespace StackTape

/-- How operands break a contract. -/
inductive OperandFault where
  | aliased (cell : Int64)
  | emptyList
  | preserveCount (got : Nat)
  | tooFewSources
  | workCount (got : Nat)
  | bodyMoves (displacement : Int64)
  | foreignText
deriving DecidableEq, Repr

/-- An operation whose operands break its contract. -/
structure OperandError where
  op : MacroOp
  fault : OperandFault
deriving Repr

/-- The words for a broken contract. -/
def OperandFault.message : OperandFault → Bytes
  | .aliased cell =>
    Bytes.ascii "cell " ++ Decimal.ofWord cell ++ Bytes.ascii " used twice: aliased operand cells"
  | .emptyList => Bytes.ascii "empty operand list"
  | .preserveCount got =>
    Bytes.ascii "preserve needs 2 cells, got " ++ Decimal.ofNat got ++
      Bytes.ascii ": too few operands"
  | .tooFewSources => Bytes.ascii "xor needs at least 2 sources: too few operands"
  | .workCount got =>
    Bytes.ascii "iseq needs 0 or 2 work cells, got " ++ Decimal.ofNat got ++
      Bytes.ascii ": too few operands"
  | .bodyMoves displacement =>
    Bytes.ascii "net displacement " ++ Decimal.ofWord displacement ++
      Bytes.ascii ": body is not pointer-neutral"
  | .foreignText => Bytes.ascii "invalid literal text"

/-- The message of a broken contract. -/
def OperandError.message (e : OperandError) : Bytes :=
  e.op.text ++ Bytes.ascii ": " ++ e.fault.message

namespace MacroOp

/-- The first cell of a list that occurs earlier in it or in `seen`. -/
def firstRepeat (seen : List Int64) : List Int64 → Option Int64
  | [] => none
  | c :: rest => if c ∈ seen then some c else firstRepeat (c :: seen) rest

/-- The fault of cells that are not all different. -/
def distinct (cells : List Int64) : Option OperandFault :=
  (firstRepeat [] cells).map OperandFault.aliased

/-- A byte of tape text or of the white space between. -/
def isTapeByte (b : UInt8) : Bool :=
  b ∈ [0x3E, 0x3C, 0x2B, 0x2D, 0x2E, 0x2C, 0x5B, 0x5D, 0x20, 0x09, 0x0D, 0x0A]

/-- The fault of an operation's own operands, its bodies apart. -/
def ownFault : MacroOp → Option OperandFault
  | .go _ | .add .. | .zero _ | .control _ | .cond .. | .loop .. => none
  | .literal text _ => if text.all isTapeByte then none else some .foreignText
  | .move dst src => distinct [dst, src]
  | .unmove dst src => distinct [dst, src]
  | .copy dst src work => distinct [dst, src, work]
  | .isZero dst src _ preserve =>
    if preserve.length ≠ 0 ∧ preserve.length ≠ 2 then some (.preserveCount preserve.length)
    else distinct (dst :: src :: preserve)
  | .and dst srcs work =>
    if srcs.isEmpty then some .emptyList else distinct (dst :: work :: srcs)
  | .or dst srcs => if srcs.isEmpty then some .emptyList else distinct (dst :: srcs)
  | .xor dst srcs work =>
    if srcs.length < 2 then some .tooFewSources else distinct (dst :: work :: srcs)
  | .isEq dst first second works =>
    if works.length ≠ 0 ∧ works.length ≠ 2 then some (.workCount works.length)
    else distinct (dst :: first :: second :: works)
  | .branch src work _ _ => distinct [src, work]

/-- The fault of a body of `owner` that moves the pointer, and else the fault found inside it. -/
def bodyFault? (owner : MacroOp) (body : List MacroOp) (inside : Option OperandError) :
    Option OperandError :=
  if displacement body ≠ 0 then some ⟨owner, .bodyMoves (displacement body)⟩ else inside

mutual

/-- The first broken contract of an operation, its bodies included. -/
def fault? : MacroOp → Option OperandError
  | .cond src body => bodyFault? (.cond src body) body (firstFault? body)
  | .loop src body => bodyFault? (.loop src body) body (firstFault? body)
  | .branch src work whenTrue whenFalse =>
    match ownFault (.branch src work whenTrue whenFalse) with
    | some fault => some ⟨.branch src work whenTrue whenFalse, fault⟩
    | none =>
      match bodyFault? (.branch src work whenTrue whenFalse) whenTrue (firstFault? whenTrue) with
      | some e => some e
      | none => bodyFault? (.branch src work whenTrue whenFalse) whenFalse (firstFault? whenFalse)
  | op => (ownFault op).map fun fault => ⟨op, fault⟩

/-- The first broken contract in a list. -/
def firstFault? : List MacroOp → Option OperandError
  | [] => none
  | op :: rest =>
    match fault? op with
    | some e => some e
    | none => firstFault? rest

end

/-- The operation keeps its contract. -/
def validate (op : MacroOp) : Except OperandError Unit :=
  match op.fault? with
  | some e => .error e
  | none => .ok ()

/-- Every operation of a list keeps its contract. -/
def validateAll (ops : List MacroOp) : Except OperandError Unit :=
  match firstFault? ops with
  | some e => .error e
  | none => .ok ()

end MacroOp

end StackTape
