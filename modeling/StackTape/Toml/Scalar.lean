import StackTape.Text.Hex
import StackTape.Text.Literal
import StackTape.Text.Utf8

/-!
# Scalars of a TOML document

The strings, numbers and dates of TOML 1.1.  A reader takes a scalar off the front of a text and
gives it back with the rest, or nothing if there is none.
-/

namespace StackTape

namespace Toml

/-- Reads something off the front of a text. -/
abbrev Reader (α : Type) := Bytes → Option (α × Bytes)

/-- A space or a tab. -/
def isSpace (b : UInt8) : Bool := b = 0x20 || b = 0x09

/-- Part of a line end. -/
def isLineEnd (b : UInt8) : Bool := b = 0x0A || b = 0x0D

/-- Without spaces at the front. -/
def skipSpaces (b : Bytes) : Bytes := b.dropWhile isSpace

/-- The backslash. -/
def backslash : UInt8 := 0x5C

/-- The quote of strings with escapes. -/
def doubleQuote : UInt8 := 0x22

/-- The quote of strings without. -/
def singleQuote : UInt8 := 0x27

/-! ### Strings -/

/-- The character of a number in hexadecimal digits. -/
def character (digits : Bytes) : Option Bytes := do
  let values ← digits.mapM Hex.value?
  let c := values.foldl (fun acc d => acc * 16 + d) 0
  if c < 0xD800 ∨ (0xE000 ≤ c ∧ c < 0x110000) then some (Utf8.encode c) else none

/-- The character that a letter behind a backslash stands for. -/
def escaped? : UInt8 → Option UInt8
  | 0x62 => some 0x08
  | 0x74 => some 0x09
  | 0x6E => some 0x0A
  | 0x66 => some 0x0C
  | 0x72 => some 0x0D
  | 0x65 => some 0x1B
  | 0x22 => some 0x22
  | 0x5C => some 0x5C
  | _ => none

/-- Replaces the escapes of a string. -/
def unescape : Bytes → Option Bytes
  | [] => some []
  | 0x5C :: 0x78 :: a :: b :: rest => do
    return (← character [a, b]) ++ (← unescape rest)
  | 0x5C :: 0x75 :: a :: b :: c :: d :: rest => do
    return (← character [a, b, c, d]) ++ (← unescape rest)
  | 0x5C :: 0x55 :: a :: b :: c :: d :: e :: f :: g :: h :: rest => do
    return (← character [a, b, c, d, e, f, g, h]) ++ (← unescape rest)
  | 0x5C :: l :: rest => do
    return (← escaped? l) :: (← unescape rest)
  | [0x5C] => none
  | b :: rest => do
    return b :: (← unescape rest)

/-- The inside of a string on one line, behind its opening quote; a backslash takes the byte after
it along. -/
def inside (quote : UInt8) : Reader Bytes
  | [] => none
  | b :: rest =>
    if b = quote then some ([], rest)
    else if isLineEnd b then none
    else if b = backslash ∧ quote = doubleQuote then
      match rest with
      | [] => none
      | c :: more =>
        if isLineEnd c then none
        else (inside quote more).map fun (s, r) => (b :: c :: s, r)
    else (inside quote rest).map fun (s, r) => (b :: s, r)

/-- A fourth quote in a row is refused if two come before the three: at most two quotes stand
before the closing ones. -/
def crowded (quote : UInt8) : (seen : Bytes) → Bool
  | a :: b :: more =>
    a = quote && b = quote && !(quote = doubleQuote && more.head? = some backslash)
  | _ => false

/-- The inside of a string over several lines, behind its opening quotes; `seen` is what was read,
the last byte first. -/
def insideLong (quote : UInt8) : (seen : Bytes) → Reader Bytes
  | _, [] => none
  | seen, b :: rest =>
    if b = quote then
      match rest with
      | c :: d :: more =>
        if c = quote ∧ d = quote then
          if more.head? = some quote then
            if crowded quote seen then none else insideLong quote (b :: seen) rest
          else some (seen.reverse, more)
        else insideLong quote (b :: seen) rest
      | _ => none
    else if b = backslash ∧ quote = doubleQuote then
      match rest with
      | [] => none
      | c :: more => insideLong quote (c :: b :: seen) more
    else insideLong quote (b :: seen) rest

/-- Without a line end at the front. -/
def dropLineEnd : Bytes → Bytes
  | 0x0A :: rest => rest
  | 0x0D :: 0x0A :: rest => rest
  | b => b

/-- A space or part of a line end. -/
def isBlank (b : UInt8) : Bool := isSpace b || isLineEnd b

/-- Only blanks come before the next line end. -/
def endsLine (b : Bytes) : Bool := (b.takeWhile isBlank).contains 0x0A

/-- Takes out every backslash at the end of a line with the blanks behind it. -/
def splice : (skipping : Bool) → Bytes → Bytes
  | _, [] => []
  | skipping, b :: rest =>
    if skipping && isBlank b then splice true rest
    else if b = backslash then
      match rest with
      | [] => [b]
      | c :: more =>
        if c = backslash then b :: c :: splice false more
        else if endsLine (c :: more) then splice true (c :: more)
        else b :: splice false (c :: more)
    else b :: splice false rest

/-- Reads a string on one line. -/
def readShort : Reader Bytes
  | 0x22 :: rest => do
    let (s, r) ← inside doubleQuote rest
    return (← unescape s, r)
  | 0x27 :: rest => inside singleQuote rest
  | _ => none

/-- Reads a string. -/
def readString : Reader Bytes
  | 0x22 :: 0x22 :: 0x22 :: rest => do
    let (s, r) ← insideLong doubleQuote [] rest
    return (← unescape (splice false (dropLineEnd s)), r)
  | 0x27 :: 0x27 :: 0x27 :: rest => do
    let (s, r) ← insideLong singleQuote [] rest
    return (dropLineEnd s, r)
  | b => readShort b

/-! ### Numbers -/

/-- A decimal digit. -/
def isDigit (b : UInt8) : Bool := 0x30 ≤ b && b ≤ 0x39

/-- A digit or an underscore. -/
def isNumeral (b : UInt8) : Bool := isDigit b || b = Literal.underscore

/-- A byte of a float behind its first point or exponent mark. -/
def isFloatByte (b : UInt8) : Bool :=
  isNumeral b || b = 0x2E || b = 0x2D || b = 0x2B || b = 0x65 || b = 0x45

/-- A point or an exponent mark. -/
def startsFraction (b : UInt8) : Bool := b = 0x2E || b = 0x65 || b = 0x45

/-- A sign. -/
def isSign (b : UInt8) : Bool := b = 0x2B || b = 0x2D

/-- Digits with single underscores between them. -/
def isDigits (b : Bytes) : Bool :=
  (Bytes.splitOn Literal.underscore b).all fun piece => !piece.isEmpty && piece.all isDigit

/-- Digits that start with a zero only if it is the only one. -/
def isWhole (b : Bytes) : Bool := isDigits b && (b.length ≤ 1 || b.head? ≠ some 0x30)

/-- The digits of a text. -/
def digits (b : Bytes) : Bytes := b.filter isDigit

/-- The number of a text of digits. -/
def number (b : Bytes) : Nat := (digits b).foldl (fun acc d => acc * 10 + (d.toNat - 0x30)) 0

/-- An exponent, held below a bound that no float comes near. -/
def exponent (b : Bytes) : Nat :=
  (digits b).foldl (fun acc d => if acc < 10000 then acc * 10 + (d.toNat - 0x30) else acc) 0

/-- The decimal `m * 10 ^ e` rounds to a finite double. -/
def isFinite (m : Nat) (e : Int) : Bool :=
  let limit := Nat.pow 2 1024 - Nat.pow 2 970
  let size : Int := (Decimal.ofNat m).length
  if m = 0 || size + e < 300 then true
  else if 320 < size + e then false
  else if 0 ≤ e then m * Nat.pow 10 e.toNat < limit
  else m < limit * Nat.pow 10 (-e).toNat

/-- The text, behind its sign, is a float of finite value. -/
def isFloat (b : Bytes) : Bool :=
  let whole := b.takeWhile (!startsFraction ·)
  let rest := b.drop whole.length
  let (fraction, rest, pointed) :=
    match rest with
    | 0x2E :: r => (r.takeWhile (!startsFraction ·), r.dropWhile (!startsFraction ·), true)
    | r => ([], r, false)
  let (power, signed) :=
    match rest with
    | _ :: c :: r => if isSign c then (r, c == 0x2D) else (c :: r, false)
    | _ => ([], false)
  let e : Int := if signed then -(exponent power : Int) else exponent power
  isWhole whole && (!pointed || isDigits fraction) && (rest.isEmpty || isDigits power) &&
    (rest.head? ≠ some 0x2E) &&
    isFinite (number (whole ++ fraction)) (e - (digits fraction).length)

/-! ### Dates and times -/

/-- Two digits within bounds. -/
def readTwo (lo hi : Nat) : Reader Nat
  | a :: b :: rest =>
    if isDigit a && isDigit b then
      let n := number [a, b]
      if lo ≤ n ∧ n ≤ hi then some (n, rest) else none
    else none
  | _ => none

/-- A given byte. -/
def expect (c : UInt8) : Bytes → Option Bytes
  | b :: rest => if b = c then some rest else none
  | [] => none

/-- The days of a month. -/
def daysIn (year month : Nat) : Nat :=
  if month = 2 then
    if year % 4 = 0 ∧ (year % 100 ≠ 0 ∨ year % 400 = 0) then 29 else 28
  else if month = 4 ∨ month = 6 ∨ month = 9 ∨ month = 11 then 30
  else 31

/-- Reads a date. -/
def readDate (b : Bytes) : Option Bytes := do
  let (century, b) ← readTwo 0 99 b
  let (year, b) ← readTwo 0 99 b
  let (month, b) ← readTwo 1 12 (← expect 0x2D b)
  let (_, b) ← readTwo 1 (daysIn (century * 100 + year) month) (← expect 0x2D b)
  return b

/-- Reads a time of the day; seconds, and their fraction, may be missing. -/
def readTime (b : Bytes) : Option Bytes := do
  let (_, b) ← readTwo 0 23 b
  let (_, b) ← readTwo 0 59 (← expect 0x3A b)
  match b with
  | 0x3A :: b =>
    let (_, b) ← readTwo 0 59 b
    match b with
    | 0x2E :: d :: rest => if isDigit d then return rest.dropWhile isDigit else return b
    | _ => return b
  | _ => return b

/-- The text is a time zone. -/
def isZone : Bytes → Bool
  | [0x5A] => true
  | s :: rest =>
    isSign s && (do
      let (_, b) ← readTwo 0 24 rest
      let (_, b) ← readTwo 0 60 (← expect 0x3A b)
      return b) = some []
  | [] => false

/-- The text is a date, a time, or both with or without a time zone. -/
def isMoment (b : Bytes) : Bool :=
  match readDate b with
  | some [] => true
  | some (0x54 :: rest) =>
    match readTime rest with
    | some zone => zone.isEmpty || isZone zone
    | none => false
  | some _ => false
  | none => readTime b = some []

/-- A byte of a date or time behind its first mark. -/
def isMomentByte (b : UInt8) : Bool :=
  isDigit b || [0x2D, 0x3A, 0x54, 0x74, 0x20, 0x2E, 0x5A, 0x7A, 0x2B].contains b

/-- The form of a date or time with capital letters and without spaces. -/
def momentForm (b : Bytes) : Bytes :=
  (b.reverse.dropWhile isSpace).reverse.map fun c =>
    if c = 0x7A then 0x5A else if c = 0x74 || c = 0x20 then 0x54 else c

/-! ### Scalars -/

/-- A scalar value; the values of floats and dates are not kept. -/
inductive Scalar where
  | text (b : Bytes)
  | integer (n : Int64)
  | boolean (b : Bool)
  | float
  | moment
deriving DecidableEq, Repr, Inhabited

/-- The integer of a text. -/
def integer (b : Bytes) : Option Scalar :=
  match Literal.parse b with
  | .ok n => some (.integer n)
  | .error _ => none

/-- A reader of words: the text starts with the word. -/
def word (w : String) (s : Scalar) : Reader Scalar := fun b =>
  if (Bytes.ascii w).isPrefixOf b then some (s, b.drop w.length) else none

/-- Reads a decimal number behind its sign, which `signed` is. -/
def readDecimal (signed : Bytes) (b : Bytes) : Option (Scalar × Bytes) :=
  let whole := b.takeWhile isNumeral
  let rest := b.drop whole.length
  if (rest.head?.map startsFraction).getD false then
    let all := whole ++ rest.takeWhile isFloatByte
    if isFloat all then some (.float, b.drop all.length) else none
  else if isWhole whole then (integer (signed ++ whole)).map (·, rest)
  else none

/-- Reads a number of another base. -/
def readBased (base : Nat) (lead : Bytes) (b : Bytes) : Option (Scalar × Bytes) :=
  let body := b.takeWhile fun c => (Literal.digitIn base c).isSome || c = Literal.underscore
  let pieces := Bytes.splitOn Literal.underscore body
  if pieces.all (!·.isEmpty) then (integer (lead ++ body)).map (·, b.drop body.length) else none

/-- Reads a number, a date or a time that starts with a digit. -/
def readNumber (b : Bytes) : Option (Scalar × Bytes) :=
  match b with
  | 0x30 :: 0x62 :: rest => readBased 2 [0x30, 0x62] rest
  | 0x30 :: 0x6F :: rest => readBased 8 [0x30, 0x6F] rest
  | 0x30 :: 0x78 :: rest => readBased 16 [0x30, 0x78] rest
  | _ =>
    let front := b.takeWhile isDigit
    match b.drop front.length with
    | c :: _ =>
      if c = 0x2D || c = 0x3A then
        let all := b.takeWhile isMomentByte
        if isMoment (momentForm all) then some (.moment, b.drop all.length) else none
      else readDecimal [] b
    | [] => readDecimal [] b

/-- Reads a scalar. -/
def readScalar : Reader Scalar := fun b =>
  match b with
  | [] => none
  | c :: rest =>
    if c = doubleQuote || c = singleQuote then (readString b).map fun (s, r) => (.text s, r)
    else if isDigit c then readNumber b
    else if isSign c then
      match rest with
      | d :: _ =>
        if isDigit d then readDecimal [c] rest
        else (word "inf" .float rest).orElse fun _ => word "nan" .float rest
      | [] => none
    else
      ((word "true" (.boolean true) b).orElse fun _ => word "false" (.boolean false) b).orElse
        fun _ => (word "inf" .float b).orElse fun _ => word "nan" .float b

end Toml

end StackTape
