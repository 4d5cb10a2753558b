import StackTape.Toml.Statement

/-!
# Tables of a TOML document

The tables that the statements of a document make.  A table comes to be by its header, by an
assignment of an inline table, or because it is on the way of a key; one that is only implied by
a longer key may still be stated.  A key that has a value gets no second one.
-/

namespace StackTape

namespace Toml

/-- A value in a table. -/
inductive Value where
  | scalar (s : Scalar)
  | array (items : List Value)
  | table (entries : List (Bytes × Value))
  /-- An array of tables, made by headers. -/
  | tables (elements : List (List (Bytes × Value)))
deriving Repr, Inhabited

/-- The value is an array in brackets. -/
def Value.isArray : Value → Bool
  | .array _ => true
  | _ => false

/-- A table: names with their values, in the order in which they came. -/
abbrev Table := List (Bytes × Value)

namespace Table

/-- Replaces the value of a name, or adds the name at the end. -/
def insert (name : Bytes) (v : Value) : Table → Table
  | [] => [(name, v)]
  | (k, w) :: rest => if k = name then (k, v) :: rest else (k, w) :: insert name v rest

/-- The table at the end of a path; of an array of tables the last one is meant. -/
def follow : Key → Table → Option Table
  | [], t => some t
  | k :: rest, t =>
    match t.lookup k with
    | some (.table s) => follow rest s
    | some (.tables ts) => ts.getLast?.bind (follow rest)
    | _ => none

/-- What a name has in the table at the end of a path; the outer `none` is a path that leads
nowhere. -/
def entry? (context : Key) (name : Bytes) (t : Table) : Option (Option Value) :=
  (follow context t).map fun s => s.lookup name

/-- Gives a value to a name in the table at the end of a path. -/
def put (name : Bytes) (v : Value) : Key → Table → Table
  | [], t => insert name v t
  | k :: rest, t =>
    match t.lookup k with
    | some (.table s) => insert k (.table (put name v rest s)) t
    | some (.tables ts) =>
      match ts.getLast? with
      | some s => insert k (.tables (ts.dropLast ++ [put name v rest s])) t
      | none => t
    | _ => t

/-- Gives a value to a name at the end of a path, where missing tables are made; `none` if the path
leads through something else. -/
def graft (name : Bytes) (v : Value) : Key → Table → Option Table
  | [], t => some (insert name v t)
  | k :: rest, t =>
    match t.lookup k with
    | none => (graft name v rest []).map fun s => insert k (.table s) t
    | some (.table s) => (graft name v rest s).map fun s => insert k (.table s) t
    | some _ => none

/-- The value at the end of a path of tables. -/
def get? : Key → Table → Option Value
  | [], _ => none
  | [k], t => t.lookup k
  | k :: rest, t =>
    match t.lookup k with
    | some (.table s) => get? rest s
    | _ => none

end Table

/-- A document in the making. -/
structure Draft where
  root : Table := []
  /-- Keys of tables that are only implied. -/
  implied : List Key := []
  /-- Keys whose value is an array. -/
  arrays : List Key := []
deriving Repr, Inhabited

namespace Draft

/-- Marks a key as implied. -/
def imply (k : Key) (d : Draft) : Draft := { d with implied := k :: d.implied }

/-- A key is not implied any more. -/
def state (k : Key) (d : Draft) : Draft := { d with implied := d.implied.filter (· ≠ k) }

/-- Notes whether the value of a name is an array; an empty name stands for the table it is in. -/
def note (context : Key) (name : Bytes) (isArray : Bool) (d : Draft) : Draft :=
  let k :=
    if !name.isEmpty then context ++ [name]
    else if context.isEmpty then [[]]
    else context
  if isArray then { d with arrays := k :: d.arrays }
  else { d with arrays := d.arrays.filter (· ≠ k) }

/-- Gives a value to a name in the table of a context.  A name that is there must be an implied
one: it keeps its table, or an array takes the place of the tables that were made for it. -/
def set (context : Key) (name : Bytes) (v : Value) (d : Draft) : Option Draft :=
  let k := context ++ [name]
  match Table.entry? context name d.root with
  | none => none
  | some none => some { d with root := Table.put name v context d.root }
  | some (some _) =>
    if !d.implied.contains k then none
    else if d.arrays.contains k then
      some (state k { d with root := Table.put name v context d.root })
    else some (d.state k)

/-- Makes the tables on the way to a key that are missing. -/
def approach : (done todo : Key) → Draft → Option Draft
  | _, [], d => some d
  | done, p :: rest, d =>
    let here := done ++ [p]
    match Table.entry? done p d.root with
    | none => none
    | some none =>
      approach here rest (imply here { d with root := Table.put p (.table []) done d.root })
    | some (some (.table _)) => approach here rest d
    | some (some (.tables _)) => approach here rest d
    | some (some _) => none

/-- Adds an empty table to the array of tables of a key. -/
def extend (context : Key) (name : Bytes) (d : Draft) : Option Draft :=
  let add (ts : List Table) : Option Draft :=
    some { d with root := Table.put name (.tables (ts ++ [[]])) context d.root }
  match Table.entry? context name d.root with
  | some none => add []
  | some (some (.tables ts)) => add ts
  | _ => none

/-- Takes up the table of a key, or one more element of its array of tables. -/
def enter (k : Key) (isElement : Bool) (d : Draft) : Option Draft :=
  let context := k.dropLast
  let name := k.getLast?.getD []
  match approach [] context d with
  | none => none
  | some d => if isElement then d.extend context name else d.set context name (.table [])

/-- Enters the tables of a dotted key one after another, each of them implied. -/
def descend : (context parts : Key) → Draft → Option Draft
  | _, [], d => some d
  | context, p :: rest, d =>
    let here := context ++ [p]
    match (d.imply here).enter here false with
    | none => none
    | some d => descend here rest d

mutual

/-- The value of an expression for a name in a context, and the draft with the tables that its
inline tables make; `inArray` says that an array is around it. -/
def build (context : Key) (name : Bytes) (inArray : Bool) : Expr → Draft → Option (Value × Draft)
  | .scalar s, d => some (.scalar s, d)
  | .array items, d =>
    match buildItems context name items (d.note context name true) with
    | none => none
    | some (vs, d) => some (.array vs, d)
  | .table pairs, d =>
    let here := context ++ [name]
    match (d.imply here).enter here inArray with
    | none => none
    | some d =>
      match assignAll here pairs [] d with
      | none => none
      | some (t, d) => some (.table t, d)

/-- The values of the items of an array. -/
def buildItems (context : Key) (name : Bytes) : List Expr → Draft → Option (List Value × Draft)
  | [], d => some ([], d)
  | e :: rest, d =>
    match build context name true e d with
    | none => none
    | some (v, d) =>
      match buildItems context name rest d with
      | none => none
      | some (vs, d) => some (v :: vs, d)

/-- Carries out assignments in the table of a context; `made` collects them as a table of their
own. -/
def assignAll (context : Key) : List (Key × Expr) → (made : Table) → Draft →
    Option (Table × Draft)
  | [], made, d => some (made, d)
  | (key, e) :: rest, made, d =>
    let parts := key.dropLast
    let here := context ++ parts
    let name := key.getLast?.getD []
    match d.descend context parts with
    | none => none
    | some d =>
      match build here name false e d with
      | none => none
      | some (v, d) =>
        match d.set here name v, Table.graft name v parts made with
        | some d, some made => assignAll context rest made (d.note here name v.isArray)
        | _, _ => none

end

/-- Carries out the statements of a document in the table of a context. -/
def run : (context : Key) → List Statement → Draft → Option Draft
  | _, [], d => some d
  | _, .header k :: rest, d =>
    match d.enter k false with
    | none => none
    | some d => run k rest (d.note k [] false)
  | _, .element k :: rest, d =>
    match d.enter k true with
    | none => none
    | some d => run k rest (d.note k [] false)
  | context, .assign key e :: rest, d =>
    match assignAll context [(key, e)] [] d with
    | none => none
    | some (_, d) => run context rest d

end Draft

/-- The table of a document; `none` if it is not well-formed. -/
def parse (src : Bytes) : Option Table :=
  ((statements src).bind fun s => Draft.run [] s {}).map (·.root)

end Toml

end StackTape
