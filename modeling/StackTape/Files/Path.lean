import StackTape.Text.Bytes

/-!
# Paths

Paths as texts with slashes.  Everything here is done on the text alone, without a look at any
file: `clean` is the shortest text for the same steps, `join` sets one path below another, and
`base`, `parent` and `extension` take a path apart.
-/

namespace StackTape

namespace Path

/-- The byte between the parts of a path. -/
def slash : UInt8 := 0x2F

/-- The part for the same directory. -/
def dot : Bytes := [0x2E]

/-- The part for the directory above. -/
def dotDot : Bytes := [0x2E, 0x2E]

/-- The path starts at the root. -/
def isAbsolute (p : Bytes) : Bool := p.head? = some slash

/-- One step of cleaning; the stack holds the parts that are kept, the last one first.  A step up
takes the part before it away; at the root it does nothing. -/
def keep (rooted : Bool) (stack : List Bytes) (part : Bytes) : List Bytes :=
  if part = [] || part = dot then stack
  else if part = dotDot then
    match stack with
    | [] => if rooted then [] else [part]
    | top :: rest => if top = dotDot then part :: stack else rest
  else part :: stack

/-- The shortest text for a path. -/
def clean (p : Bytes) : Bytes :=
  let rooted := isAbsolute p
  let kept := ((p.splitOn slash).foldl (keep rooted) []).reverse
  let body := Bytes.join [slash] kept
  if rooted then slash :: body else if body.isEmpty then dot else body

/-- The path `q` below `p`, cleaned; an empty one of the two does not count. -/
def join (p q : Bytes) : Bytes :=
  if p.isEmpty then
    if q.isEmpty then [] else clean q
  else clean (p ++ slash :: q)

/-- Without the slashes at the end. -/
def dropSlashes (p : Bytes) : Bytes := (p.reverse.dropWhile (· = slash)).reverse

/-- The part of a path behind its last slash. -/
def lastPart (p : Bytes) : Bytes := (p.reverse.takeWhile (· ≠ slash)).reverse

/-- The part of a path up to its last slash, which is kept. -/
def upToSlash (p : Bytes) : Bytes := (p.reverse.dropWhile (· ≠ slash)).reverse

/-- The last part of a path, slashes at its end apart. -/
def base (p : Bytes) : Bytes :=
  if p.isEmpty then dot
  else
    let q := dropSlashes p
    if q.isEmpty then [slash] else lastPart q

/-- The directory of a path, cleaned. -/
def parent (p : Bytes) : Bytes := clean (upToSlash p)

/-- The end of the last part from its last dot on; empty if there is no dot. -/
def extension (p : Bytes) : Bytes :=
  let tail := (lastPart p).reverse
  let ext := tail.takeWhile (· ≠ 0x2E)
  if ext.length < tail.length then 0x2E :: ext.reverse else []

/-- The last part without its extension. -/
def stem (p : Bytes) : Bytes :=
  let b := base p
  let ext := extension p
  if ext.isSuffixOf b then b.take (b.length - ext.length) else b

/-- The cleaned path from the root, given the working directory. -/
def absolute (cwd p : Bytes) : Bytes := if isAbsolute p then clean p else join cwd p

/-- The path that a project file in `dir` names: one from the root stays as it is, any other is
below `dir`. -/
def resolve (dir p : Bytes) : Bytes := if isAbsolute p then p else join dir p

end Path

end StackTape
