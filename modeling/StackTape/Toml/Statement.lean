import StackTape.Toml.Scalar

/-!
# Statements of a TOML document

A document is a list of statements: headers of tables and of arrays of tables, and assignments of
an expression to a key.  Keys are paths; what they mean for tables that are there already is not
decided here.
-/

namespace StackTape

namespace Toml

/-- The parts of a dotted key. -/
abbrev Key := List Bytes

/-- The right side of an assignment. -/
inductive Expr where
  | scalar (s : Scalar)
  | array (items : List Expr)
  | table (pairs : List (Key × Expr))
deriving Repr, Inhabited

/-- A statement. -/
inductive Statement where
  | header (key : Key)
  /-- The header of one more table in an array of tables. -/
  | element (key : Key)
  | assign (key : Key) (value : Expr)
deriving Repr, Inhabited

/-! ### Keys -/

/-- A byte of a key without quotes. -/
def isBare (b : UInt8) : Bool :=
  isDigit b || (0x41 ≤ b && b ≤ 0x5A) || (0x61 ≤ b && b ≤ 0x7A) || b = 0x5F || b = 0x2D

/-- Reads one part of a key. -/
def readPart (b : Bytes) : Option (Bytes × Bytes) :=
  if b.head? = some doubleQuote || b.head? = some singleQuote then readShort b
  else
    let name := b.takeWhile isBare
    if name.isEmpty then none else some (name, b.drop name.length)

/-- Reads a key and the spaces around it; `fuel` bounds the number of parts. -/
def readKey : (fuel : Nat) → Bytes → Option (Key × Bytes)
  | 0, _ => none
  | fuel + 1, b =>
    match readPart (skipSpaces b) with
    | none => none
    | some (part, rest) =>
      match skipSpaces rest with
      | 0x2E :: more => (readKey fuel more).map fun (parts, r) => (part :: parts, r)
      | more => some ([part], more)

/-! ### Expressions -/

/-- Without blanks and comments at the front; `inComment` says that one is open. -/
def skipBlanks : (inComment : Bool) → Bytes → Bytes
  | _, [] => []
  | true, b :: rest => skipBlanks (b ≠ 0x0A) rest
  | false, b :: rest =>
    if isBlank b then skipBlanks false rest
    else if b = 0x23 then skipBlanks true rest
    else b :: rest

mutual

/-- Reads an expression. -/
def readExpr : (fuel : Nat) → Bytes → Option (Expr × Bytes)
  | 0, _ => none
  | fuel + 1, b =>
    match skipSpaces b with
    | 0x5B :: rest => (readItems fuel rest).map fun (items, r) => (.array items, r)
    | 0x7B :: rest => (readPairs fuel rest).map fun (pairs, r) => (.table pairs, r)
    | start => (readScalar start).map fun (s, r) => (.scalar s, r)

/-- Reads the items of an array up to its bracket; a comma may follow the last one. -/
def readItems : (fuel : Nat) → Bytes → Option (List Expr × Bytes)
  | 0, _ => none
  | fuel + 1, b =>
    match skipBlanks false b with
    | 0x5D :: rest => some ([], rest)
    | start =>
      match readExpr fuel start with
      | none => none
      | some (item, rest) =>
        match skipBlanks false rest with
        | 0x2C :: more => (readItems fuel more).map fun (items, r) => (item :: items, r)
        | 0x5D :: more => some ([item], more)
        | _ => none

/-- Reads the assignments of an inline table up to its brace; a comma may follow the last one. -/
def readPairs : (fuel : Nat) → Bytes → Option (List (Key × Expr) × Bytes)
  | 0, _ => none
  | fuel + 1, b =>
    match skipBlanks false b with
    | 0x7D :: rest => some ([], rest)
    | start =>
      match readKey (start.length + 1) start with
      | some (key, 0x3D :: right) =>
        match readExpr fuel right with
        | none => none
        | some (value, rest) =>
          match skipBlanks false rest with
          | 0x2C :: more => (readPairs fuel more).map fun (pairs, r) => ((key, value) :: pairs, r)
          | 0x7D :: more => some ([(key, value)], more)
          | _ => none
      | _ => none

end

/-! ### Documents -/

/-- Reads a header or an assignment. -/
def readStatement (b : Bytes) : Option (Statement × Bytes) :=
  let fuel := b.length + 1
  match b with
  | 0x5B :: 0x5B :: rest =>
    match readKey fuel rest with
    | some (key, 0x5D :: 0x5D :: more) => some (.element key, more)
    | _ => none
  | 0x5B :: rest =>
    match readKey fuel rest with
    | some (key, 0x5D :: more) => some (.header key, more)
    | _ => none
  | _ =>
    match readKey fuel b with
    | some (key, 0x3D :: right) =>
      (readExpr (2 * fuel) right).map fun (value, more) => (.assign key value, more)
    | _ => none

/-- The end of a statement: nothing, a comment or a line end follows. -/
def endsStatement (b : Bytes) : Bool :=
  match skipSpaces b with
  | [] => true
  | c :: _ => c = 0x23 || isLineEnd c

/-- Reads statements to the end; every one of them takes a byte at least. -/
def readStatements : (fuel : Nat) → Bytes → Option (List Statement)
  | 0, _ => none
  | fuel + 1, b =>
    match skipBlanks false b with
    | [] => some []
    | start =>
      match readStatement start with
      | none => none
      | some (s, rest) =>
        if endsStatement rest then (readStatements fuel rest).map (s :: ·) else none

/-- No control characters but tabs and line ends, and no carriage return by itself. -/
def isPlain : Bytes → Bool
  | [] => true
  | 0x0D :: rest => rest.head? = some 0x0A && isPlain rest
  | b :: rest => (0x20 ≤ b || b = 0x09 || b = 0x0A) && b ≠ 0x7F && isPlain rest

/-- Without a byte-order mark. -/
def dropMark : Bytes → Bytes
  | 0xEF :: 0xBB :: 0xBF :: rest => rest
  | 0xFF :: 0xFE :: rest => rest
  | 0xFE :: 0xFF :: rest => rest
  | b => b

/-- The statements of a document. -/
def statements (src : Bytes) : Option (List Statement) :=
  let b := dropMark src
  if Utf8.isValid b && isPlain b then readStatements (b.length + 1) b else none

end Toml

end StackTape
