import StackTape.Text.Bytes

/-!
# Devices

A machine reads from a source and writes to a sink.  Either may be limited to a number of
successful uses, after which every use fails.  A source may share its file with other readers: it
then fetches a piece at a time and whatever it has not fetched is there for the others.
-/

namespace StackTape

/-- Uses up one success of a limited device; `none` when there is none left. -/
def Allowance.use : Option Nat → Option (Option Nat)
  | none => some none
  | some 0 => none
  | some (n + 1) => some (some n)

/-- What a machine reads from. -/
structure Source where
  /-- Fetched and not yet read. -/
  buffer : Bytes := []
  /-- Not fetched yet. -/
  behind : Bytes := []
  /-- The reads that still succeed; `none` is no limit. -/
  allowance : Option Nat := none
deriving DecidableEq, Repr, Inhabited

/-- The answer of a source. -/
inductive Reading where
  | byte (b : UInt8)
  | ended
  | failed
deriving DecidableEq, Repr

namespace Source

/-- How many bytes are fetched at once. -/
def pieceSize : Nat := 4096

/-- The bytes that are still to come. -/
def remaining (s : Source) : Bytes := s.buffer ++ s.behind

/-- Fetches a piece if nothing is at hand. -/
def fill (s : Source) : Source :=
  if s.buffer.isEmpty then
    { s with buffer := s.behind.take pieceSize, behind := s.behind.drop pieceSize }
  else s

/-- Reads a byte.  The end of the input counts as a success. -/
def read (s : Source) : Reading × Source :=
  match Allowance.use s.allowance with
  | none => (.failed, s)
  | some allowance =>
    let s := { s.fill with allowance }
    match s.buffer with
    | [] => (.ended, s)
    | b :: rest => (.byte b, { s with buffer := rest })

end Source

/-- What a machine writes to. -/
structure Sink where
  written : Array UInt8 := #[]
  /-- The writes that still succeed; `none` is no limit. -/
  allowance : Option Nat := none
  /-- Written bytes are dropped. -/
  discards : Bool := false
deriving DecidableEq, Repr, Inhabited

namespace Sink

/-- Writes a byte; `none` if the sink fails. -/
def write (s : Sink) (b : UInt8) : Option Sink :=
  if s.discards then some s
  else
    match Allowance.use s.allowance with
    | none => none
    | some allowance => some { s with written := s.written.push b, allowance }

/-- Writes a text past the limit. -/
def append (s : Sink) (b : Bytes) : Sink := { s with written := s.written.appendList b }

end Sink

end StackTape
