import StackTape.Expansion
import StackTape.Proofs.MacroOp.Rebase
import StackTape.Proofs.Machine.Performs

/-!
# What the nodes of an expansion do

`Writes text act e`: the part `e` of an expansion never refuses its operation, and the text of what
it builds performs `act`.  It can still fail, when a text is too long to be held.  Each kind of node
has one theorem; a node that is written through others uses theirs (`writes_copyNode` uses
`writes_drain` and `writes_moveNode`).
-/

namespace StackTape

open Machine (Performs)

/-- The text of nodes is put together from their texts. -/
theorem Node.flattenAll_append (a b : List Node) :
    Node.flattenAll (a ++ b) = Node.flattenAll a ++ Node.flattenAll b := by
  induction a with
  | nil => rfl
  | cons n rest ih => rw [List.cons_append, Node.flattenAll, ih, Node.flattenAll, List.append_assoc]

theorem Node.flattenAll_concat (a : List Node) (n : Node) :
    Node.flattenAll (a ++ [n]) = Node.flattenAll a ++ n.flatten := by
  rw [Node.flattenAll_append, Node.flattenAll, Node.flattenAll, List.append_nil]

theorem Node.flattenAll_single (n : Node) : Node.flattenAll [n] = n.flatten :=
  List.append_nil _

/-- The text of a loop around nodes. -/
theorem Node.flattenAll_loop (a b : List Node) :
    Node.flattenAll (.raw (Bytes.ascii "[") :: (a ++ .raw (Bytes.ascii "]") :: b)) =
      0x5B :: (Node.flattenAll a ++ 0x5D :: Node.flattenAll b) := by
  simp only [Node.flattenAll, Node.flattenAll_append, Node.flatten]
  rfl

/-- The text of a loop with a way to its cell and a way back. -/
theorem Node.flattenAll_enclosed (there back : Node) (a : List Node) :
    Node.flattenAll
      (there :: .raw (Bytes.ascii "[") :: (a ++ [.raw (Bytes.ascii "]"), back])) =
        there.flatten ++ ((0x5B :: (Node.flattenAll a ++ [0x5D])) ++ back.flatten) := by
  rw [Node.flattenAll, Node.flattenAll_loop]
  simp [Node.flattenAll]

/-- The text of a drain. -/
theorem Node.flattenAll_drain (there : Node) (round : List Node) :
    Node.flattenAll
      (there :: .raw (Bytes.ascii "[-") :: (round ++ [.raw (Bytes.ascii "]")])) =
        there.flatten ++ (0x5B :: (0x2D :: Node.flattenAll round ++ [0x5D])) := by
  rw [Node.flattenAll, Node.flattenAll, Node.flattenAll_concat]
  rfl

namespace Machine.Performs

variable {eof : EofMode} {fuel : Nat} {f g : View → Ending} {n : Node} {ns ms : List Node}

theorem node (h : Performs eof fuel n.flatten f) : Performs eof fuel (Node.flattenAll [n]) f := by
  rwa [Node.flattenAll_single]

/-- A node acts before the nodes behind it. -/
theorem nodes_cons (h : Performs eof fuel n.flatten f)
    (t : Performs eof fuel (Node.flattenAll ns) g) :
    Performs eof fuel (Node.flattenAll (n :: ns)) fun v => (f v).bind g :=
  h.append t

/-- Nodes act before the nodes behind them. -/
theorem nodes_append (h : Performs eof fuel (Node.flattenAll ns) f)
    (t : Performs eof fuel (Node.flattenAll ms) g) :
    Performs eof fuel (Node.flattenAll (ns ++ ms)) fun v => (f v).bind g := by
  rw [Node.flattenAll_append]
  exact h.append t

end Machine.Performs

/-! ### Several cells changed at once -/

namespace View

/-- Adds to the cells at some offsets. -/
def spread (v : View) : List (Int64 × UInt8) → View
  | [] => v
  | (d, x) :: rest => (v.plus d x).spread rest

/-- Every amount times `x`. -/
def scale (x : UInt8) (changes : List (Int64 × UInt8)) : List (Int64 × UInt8) :=
  changes.map fun c => (c.1, c.2 * x)

/-- Counts may change places, even on one cell. -/
theorem plus_comm (v : View) (d e : Int64) (x y : UInt8) :
    (v.plus d x).plus e y = (v.plus e y).plus d x := by
  refine ext_get rfl rfl rfl fun c => ?_
  simp only [get_plus]
  grind

/-- A write and a count on different cells may change places. -/
theorem put_plus_comm (v : View) {d e : Int64} (h : d ≠ e) (x y : UInt8) :
    (v.put d x).plus e y = (v.plus e y).put d x := by
  refine ext_get rfl rfl rfl fun c => ?_
  simp only [get_plus, get_put]
  grind

/-- A count may be made before or after the spreading. -/
theorem spread_plus (v : View) (changes : List (Int64 × UInt8)) (d : Int64) (x : UInt8) :
    (v.plus d x).spread changes = (v.spread changes).plus d x := by
  induction changes generalizing v with
  | nil => rfl
  | cons c rest ih => rw [spread, spread, plus_comm, ih]

/-- So may a write to a cell that gets no share. -/
theorem spread_put {d : Int64} {changes : List (Int64 × UInt8)} (h : ∀ c ∈ changes, c.1 ≠ d)
    (v : View) (x : UInt8) : (v.put d x).spread changes = (v.spread changes).put d x := by
  induction changes generalizing v with
  | nil => rfl
  | cons c rest ih =>
      rw [spread, spread, put_plus_comm _ (h c (by simp)).symm, ih fun e he => h e (by simp [he])]

/-- A cell that gets no share keeps its value. -/
theorem get_spread {d : Int64} {changes : List (Int64 × UInt8)} (h : ∀ c ∈ changes, c.1 ≠ d)
    (v : View) : (v.spread changes).get d = v.get d := by
  induction changes generalizing v with
  | nil => rfl
  | cons c rest ih =>
      rw [spread, ih fun e he => h e (by simp [he]), get_plus_of_ne _ (h c (by simp)).symm]

/-- Spreading twice is spreading the sum once. -/
theorem spread_scale (v : View) (changes : List (Int64 × UInt8)) (x y : UInt8) :
    (v.spread (scale x changes)).spread (scale y changes) = v.spread (scale (x + y) changes) := by
  induction changes generalizing v with
  | nil => rfl
  | cons c rest ih =>
      simp only [scale, List.map_cons, spread] at ih ⊢
      rw [← spread_plus, ih, plus_plus]
      congr 2
      grind

/-- Nothing is spread of nothing. -/
theorem spread_scale_zero (v : View) (changes : List (Int64 × UInt8)) :
    v.spread (scale 0 changes) = v := by
  induction changes generalizing v with
  | nil => rfl
  | cons c rest ih =>
      simp only [scale, List.map_cons, spread, UInt8.mul_zero, plus_zero] at ih ⊢
      exact ih v

theorem spread_scale_one (v : View) (changes : List (Int64 × UInt8)) :
    v.spread (scale 1 changes) = v.spread changes := by
  simp [scale]

/-- Spreading after a move is spreading farther away, before it. -/
theorem spread_go (v : View) (k : Int64) (changes : List (Int64 × UInt8)) :
    (v.go k).spread changes = (v.spread (changes.map fun c => (k + c.1, c.2))).go k := by
  induction changes generalizing v with
  | nil => rfl
  | cons c rest ih => rw [spread, plus_go, ih, List.map_cons, spread]

/-- Counting a cell down to zero, with other cells changed once a round, changes each of them as
many times as the cell says. -/
theorem repeats_drain {changes : List (Int64 × UInt8)} (h : ∀ c ∈ changes, c.1 ≠ 0) {n : Nat}
    (hn : n < 256) (v : View) (hv : v.get 0 = UInt8.ofNat n) :
    repeats 0 (fun v => .done ((v.plus 0 (-1)).spread changes)) (n + 1) v =
      .done ((v.put 0 0).spread (scale (v.get 0) changes)) := by
  induction n generalizing v with
  | zero =>
      have hz : v.get 0 = 0 := hv
      rw [repeats, if_pos hz, hz, spread_scale_zero, ← hz, put_get]
  | succ n ih =>
      have hz : v.get 0 ≠ 0 := by
        rw [hv, ne_eq, ← UInt8.toNat_inj, UInt8.toNat_ofNat_of_lt' hn]
        exact Nat.succ_ne_zero n
      have hget : ((v.plus 0 (-1)).spread changes).get 0 = v.get 0 + -1 := by
        rw [get_spread h, get_plus_self]
      have hv' : v.get 0 + -1 = UInt8.ofNat n := by
        rw [hv, UInt8.ofNat_add]
        grind
      rw [repeats, if_neg hz, Ending.bind_done, ih (by omega) _ (hget.trans hv'), hget,
        ← spread_put h, plus, put_put, ← spread_scale_one _ changes, spread_scale]
      congr 3
      grind

end View

namespace MacroOp

/-- A part of an expansion never refuses, and what it writes performs an action. -/
def Writes {α : Type} (eof : EofMode) (fuel : Nat) (text : α → Bytes) (act : View → Ending) :
    Except ExpandError α → Prop
  | .ok a => Performs eof fuel (text a) act
  | .error (.overlong _) => True
  | .error (.refused ..) => False

section

variable {α β : Type} {eof : EofMode} {fuel : Nat} {text : α → Bytes} {text' : β → Bytes}
  {f g : View → Ending}

/-- What comes after a part may use what its text performs. -/
theorem Writes.bind {x : Except ExpandError α} {k : α → Except ExpandError β}
    (hx : Writes eof fuel text f x)
    (hk : ∀ a, Performs eof fuel (text a) f → Writes eof fuel text' g (k a)) :
    Writes eof fuel text' g (x >>= k) := by
  match x with
  | .ok a => exact hk a hx
  | .error (.overlong _) => trivial
  | .error (.refused ..) => exact hx.elim

/-- A part that performs an action performs any action that this one meets. -/
theorem Writes.meets {x : Except ExpandError α} (hx : Writes eof fuel text f x)
    (h : ∀ v, (f v).Meets (g v)) : Writes eof fuel text g x := by
  match x with
  | .ok a => exact Performs.meets hx h
  | .error (.overlong _) => trivial
  | .error (.refused ..) => exact hx.elim

theorem Writes.congr {x : Except ExpandError α} (hx : Writes eof fuel text f x)
    (h : ∀ v, f v = g v) : Writes eof fuel text g x :=
  hx.meets fun v => .of_eq (h v)

end

section

variable {eof : EofMode} {fuel : Nat}

/-! ### Runs of one instruction -/

/-- A run is a number of copies, or too long. -/
theorem run_cases (c : UInt8) (count : Int64) :
    (∃ n : Nat, (n : Int) = count.toInt ∧ run c count = .ok (List.replicate n c)) ∨
      run c count = .error (.overlong count) := by
  unfold run
  by_cases h : count < 0 ∨ longestText < count
  · exact .inr (if_pos h)
  · refine .inl ⟨count.toInt.toNat, Int.toNat_of_nonneg ?_, if_neg h⟩
    have := (not_or.mp h).1
    rwa [Int64.not_lt, Int64.le_iff_toInt_le] at this

/-- A run of one move is one move by the product, which may wrap around. -/
theorem bytes_replicate_go {b : UInt8} {d : Int64} (hb : ∀ v : View, v.byte eof b = v.go d)
    (n : Nat) (v : View) : v.bytes eof (List.replicate n b) = v.go (Int64.ofNat n * d) := by
  induction n generalizing v with
  | zero => simp [View.bytes]
  | succ n ih =>
      rw [List.replicate_succ, View.bytes, ih, hb, View.go_go, Int64.ofNat_add]
      congr 1
      grind

/-- A run of one count is one count by the product, as bytes. -/
theorem bytes_replicate_plus {b : UInt8} {x : UInt8} (hb : ∀ v : View, v.byte eof b = v.plus 0 x)
    (n : Nat) (v : View) : v.bytes eof (List.replicate n b) = v.plus 0 (UInt8.ofNat n * x) := by
  induction n generalizing v with
  | zero => simp [View.bytes]
  | succ n ih =>
      rw [List.replicate_succ, View.bytes, ih, hb, View.plus_plus, UInt8.ofNat_add]
      congr 1
      grind

/-- A run that is not too long is as many instructions as it counts. -/
theorem writes_run {b : UInt8} {count : Int64} {act : View → Ending}
    (h : ∀ n : Nat, (n : Int) = count.toInt → Performs eof fuel (List.replicate n b) act) :
    Writes eof fuel id act (run b count) := by
  rcases run_cases b count with ⟨n, hn, hr⟩ | hr <;> rw [hr]
  · exact h n hn
  · trivial

/-- A run of one instruction performs what its bytes do. -/
theorem performs_replicate {b : UInt8} (hb : b ∈ [0x3E, 0x3C, 0x2B, 0x2D]) (n : Nat) :
    Performs eof fuel (List.replicate n b) fun v => .done (v.bytes eof (List.replicate n b)) := by
  have h : isTapeByte b ∧ isBracket b = false := by
    simp only [List.mem_cons, List.not_mem_nil, or_false] at hb
    rcases hb with rfl | rfl | rfl | rfl <;> decide
  exact .bytes (by simp [h.1]) (by simp [h.2])

theorem ofNat_of_toInt {n : Nat} {c : Int64} (h : (n : Int) = c.toInt) : Int64.ofNat n = c := by
  rw [← Int64.ofInt_eq_ofNat, h, Int64.ofInt_toInt]

/-- A move goes as far as it says, whichever way. -/
theorem writes_moveText (delta : Int64) :
    Writes eof fuel id (fun v => .done (v.go delta)) (moveText delta) := by
  unfold moveText
  split_ifs with hd
  · refine writes_run fun n hn => (performs_replicate (by simp) n).congr fun v => ?_
    rw [bytes_replicate_go (fun v => v.byte_left eof), ofNat_of_toInt hn]
    congr 2
    grind
  · refine writes_run fun n hn => (performs_replicate (by simp) n).congr fun v => ?_
    rw [bytes_replicate_go (fun v => v.byte_right eof), ofNat_of_toInt hn]
    congr 2
    grind

theorem ofInt_natCast (n : Nat) : UInt8.ofInt n = UInt8.ofNat n := by
  have h : ((n : Int) % 2 ^ 8).toNat = n % 2 ^ 8 := by omega
  rw [UInt8.ofInt, h, UInt8.ofNat_mod_size]

/-- A negative count is the opposite of the number of instructions. -/
theorem toInt_of_neg {n : Nat} {c : Int64} (hc : c < 0) (h : (n : Int) = (-c).toInt) :
    c.toInt = -n := by
  rw [Int64.lt_iff_toInt_lt, Int64.toInt_zero] at hc
  have hle := c.le_toInt
  rw [Int64.toInt_neg, Int.bmod_def] at h
  split_ifs at h <;> push_cast at * <;> omega

/-- A count changes the cell by its value modulo 256. -/
theorem writes_countText (count : Int64) :
    Writes eof fuel id (fun v => .done (v.plus 0 (UInt8.ofInt count.toInt)))
      (countText count) := by
  unfold countText
  split_ifs with hd
  · refine writes_run fun n hn => (performs_replicate (by simp) n).congr fun v => ?_
    rw [bytes_replicate_plus (fun v => v.byte_down eof), toInt_of_neg hd hn, UInt8.ofInt_neg,
      ofInt_natCast]
    congr 2
    grind
  · refine writes_run fun n hn => (performs_replicate (by simp) n).congr fun v => ?_
    rw [bytes_replicate_plus (fun v => v.byte_up eof), ← hn, ofInt_natCast,
      UInt8.mul_one]

/-- A move is written, or too long. -/
theorem moveText_cases (delta : Int64) :
    (∃ text, moveText delta = .ok text) ∨ ∃ count, moveText delta = .error (.overlong count) := by
  unfold moveText
  split_ifs
  · exact (run_cases 0x3C (-delta)).imp (fun ⟨n, _, h⟩ => ⟨_, h⟩) fun h => ⟨_, h⟩
  · exact (run_cases 0x3E delta).imp (fun ⟨n, _, h⟩ => ⟨_, h⟩) fun h => ⟨_, h⟩

/-! ### Straight-line operations -/

/-- A pointer move. -/
theorem writes_goNode (delta : Int64) :
    Writes eof fuel Node.flatten (fun v => .done (v.go delta)) (goNode delta) :=
  (writes_moveText delta).bind fun _ h => h

/-- A text that is put together is what it is, or too long. -/
theorem joined_cases (text : Bytes) :
    joined text = .ok text ∧ (text.length : Int) ≤ longestText.toInt ∨
      joined text = .error (.overlong (Int64.ofNat text.length)) ∧
        longestText.toInt < text.length := by
  unfold joined
  split_ifs with h
  · exact .inr ⟨rfl, h⟩
  · exact .inl ⟨rfl, Int.not_lt.mp h⟩

/-- Raw text is always written between a way there and a way back, which may be empty, if it is not
too long with them. -/
theorem literalNode_cases (text : Bytes) (shifted : Int64) :
    (∃ there back, moveText shifted = .ok there ∧ moveText (-shifted) = .ok back ∧
      literalNode text shifted = .ok (.leaf (.literal text shifted) (there ++ text ++ back))) ∨
    ∃ count, literalNode text shifted = .error (.overlong count) := by
  unfold literalNode
  split_ifs with h
  · subst h
    exact .inl ⟨[], [], rfl, rfl, by simp⟩
  · rcases moveText_cases shifted with ⟨there, h₁⟩ | ⟨count, h₁⟩ <;> rw [h₁]
    · rcases moveText_cases (-shifted) with ⟨back, h₂⟩ | ⟨count, h₂⟩ <;> rw [h₂]
      · rcases joined_cases (there ++ text ++ back) with ⟨h₃, -⟩ | ⟨h₃, -⟩
        · refine .inl ⟨there, back, rfl, rfl, ?_⟩
          simp only [h₃, bind, Except.bind, pure, Except.pure]
        · refine .inr ⟨Int64.ofNat (there ++ text ++ back).length, ?_⟩
          simp only [h₃, bind, Except.bind]
      · exact .inr ⟨count, rfl⟩
    · exact .inr ⟨count, rfl⟩

/-- Raw text without loops acts at its own cell, and the pointer comes back by the way it went. -/
theorem writes_literalNode {text : Bytes} (ht : text.all isTapeByte)
    (hb : text.any isBracket = false) (shifted : Int64) :
    Writes eof fuel Node.flatten
      (fun v => .done (((v.go shifted).bytes eof text).go (-shifted)))
      (literalNode text shifted) := by
  have hp : Performs eof fuel text fun v => .done (v.bytes eof text) := .bytes ht hb
  have hout : Writes eof fuel id (fun v => .done (v.go shifted)) (moveText shifted) :=
    writes_moveText shifted
  have hback : Writes eof fuel id (fun v => .done (v.go (-shifted))) (moveText (-shifted)) :=
    writes_moveText (-shifted)
  rcases literalNode_cases text shifted with ⟨there, back, h₁, h₂, h⟩ | ⟨count, h⟩ <;> rw [h]
  · rw [h₁] at hout
    rw [h₂] at hback
    exact (Performs.append hout hp).append hback
  · trivial

/-- A count is added to a cell, and the pointer comes back. -/
theorem writes_addNode (dst count : Int64) :
    Writes eof fuel Node.flatten (fun v => .done (v.plus dst (UInt8.ofInt count.toInt)))
      (addNode dst count) := by
  refine (writes_goNode dst).bind fun there h₁ => (writes_countText count).bind fun text h₂ =>
    (writes_goNode (-dst)).bind fun back h₃ => ?_
  have htext : Performs eof fuel (Node.raw text).flatten _ := h₂
  refine (h₁.nodes_cons (htext.nodes_cons h₃.node)).congr fun v => ?_
  simp [View.plus_go]

/-- A loop that counts the cell under the pointer down to zero. -/
theorem performs_drain {round : Bytes} {changes : List (Int64 × UInt8)}
    (hr : Performs eof fuel round fun v => .done (v.spread changes))
    (h : ∀ c ∈ changes, c.1 ≠ 0) :
    Performs eof fuel (0x5B :: (0x2D :: round ++ [0x5D])) fun v =>
      .done ((v.put 0 0).spread (View.scale (v.get 0) changes)) := by
  have hdown : Performs eof fuel [0x2D] fun v => .done (v.plus 0 (-1)) :=
    (Performs.bytes (by decide) (by decide)).congr fun v => by simp [View.bytes]
  exact (hdown.append hr).total fun v =>
    ⟨_, View.repeats_drain h (v.get 0).toNat_lt v (UInt8.ofNat_toNat).symm⟩

/-- A cell is counted down until it is zero. -/
theorem writes_zeroNode (dst : Int64) :
    Writes eof fuel Node.flatten (fun v => .done (v.put dst 0)) (zeroNode dst) := by
  refine (writes_goNode dst).bind fun there h₁ => (writes_goNode (-dst)).bind fun back h₂ => ?_
  have hz : Performs eof fuel (0x5B :: (0x2D :: [] ++ [0x5D])) fun v =>
      .done ((v.put 0 0).spread (View.scale (v.get 0) [])) := performs_drain .nil (by simp)
  have hclear : Performs eof fuel (Node.raw (Bytes.ascii "[-]")).flatten _ := hz
  refine (h₁.nodes_cons (hclear.nodes_cons h₂.node)).congr fun v => ?_
  simp [View.put_go, View.scale, View.spread]

/-- What a target's instruction adds. -/
def Target.amount (t : Target) : UInt8 := if t.change = 0x2B then 1 else -1

/-- The targets of a drain as seen from `pos`. -/
def Target.changes (pos : Int64) (targets : List Target) : List (Int64 × UInt8) :=
  targets.map fun t => (t.cell - pos, t.amount)

/-- Every target counts up or down. -/
def Target.Counting (targets : List Target) : Prop :=
  ∀ t ∈ targets, t.change = 0x2B ∨ t.change = 0x2D

/-- One instruction changes the cell by one, up or down. -/
theorem performs_change {t : Target} (ht : t.change = 0x2B ∨ t.change = 0x2D) :
    Performs eof fuel [t.change] fun v => .done (v.plus 0 t.amount) := by
  unfold Target.amount
  rcases ht with h | h <;> rw [h]
  · exact (Performs.bytes (by decide) (by decide)).congr fun v => by simp [View.bytes]
  · exact (Performs.bytes (by decide) (by decide)).congr fun v => by simp [View.bytes]

/-- One round visits every target once, and ends where the drain counts down. -/
theorem writes_visits (src pos : Int64) {targets : List Target} (ht : Target.Counting targets) :
    Writes eof fuel Node.flattenAll
      (fun v => .done ((v.spread (Target.changes pos targets)).go (src - pos)))
      (visits src pos targets) := by
  induction targets generalizing pos with
  | nil =>
      exact (writes_goNode (src - pos)).bind fun back h => h.node
  | cons t rest ih =>
      have hrest := ih t.cell fun u hu => ht u (by simp [hu])
      refine (writes_goNode (t.cell - pos)).bind fun there h₁ => hrest.bind fun more h₂ => ?_
      refine (h₁.append ((performs_change (ht t (by simp))).append h₂)).congr fun v => ?_
      simp only [Ending.bind_done, View.plus_go, View.spread_go, View.go_go, Target.changes,
        List.map_cons, List.map_map, View.spread, Int64.add_zero, Function.comp_def]
      congr 3
      · refine List.map_congr_left fun u _ => ?_
        congr 1
        grind
      · grind

/-- **A drain** adds its source to every target, or takes it away, and leaves the source zero. -/
theorem writes_drain (src : Int64) {targets : List Target} (ht : Target.Counting targets)
    (hs : ∀ t ∈ targets, t.cell ≠ src) :
    Writes eof fuel Node.flattenAll
      (fun v => .done (((v.put src 0).spread (View.scale (v.get src)
        (Target.changes 0 targets))).go src))
      (drain src targets) := by
  refine (writes_goNode src).bind fun there h₁ => (writes_visits src src ht).bind fun round h₂ => ?_
  have hround : Performs eof fuel (Node.flattenAll round) fun v =>
      .done (v.spread (Target.changes src targets)) :=
    h₂.congr fun v => by rw [show src - src = 0 by grind, View.go_zero]
  have hne : ∀ c ∈ Target.changes src targets, c.1 ≠ 0 := by
    intro c hc
    obtain ⟨t, ht, rfl⟩ := List.mem_map.mp hc
    have := hs t ht
    grind
  show Performs eof fuel (Node.flattenAll _) _
  rw [Node.flattenAll_drain]
  refine (h₁.append (performs_drain hround hne)).congr fun v => ?_
  simp only [Ending.bind_done, View.put_go, View.get_go, View.spread_go, Int64.add_zero]
  congr 3
  simp only [View.scale, Target.changes, List.map_map, Function.comp_def]
  refine List.map_congr_left fun u _ => ?_
  congr 1
  grind

/-- A drain and the way back. -/
theorem writes_drain_back (op : MacroOp) (src : Int64) {targets : List Target}
    (ht : Target.Counting targets) (hs : ∀ t ∈ targets, t.cell ≠ src) :
    Writes eof fuel Node.flatten
      (fun v => .done ((v.put src 0).spread (View.scale (v.get src) (Target.changes 0 targets))))
      (do
        let loop ← drain src targets
        let back ← goNode (-src)
        return Node.tree op (loop ++ [back])) := by
  refine (writes_drain src ht hs).bind fun loop h₁ => (writes_goNode (-src)).bind fun back h₂ => ?_
  refine (h₁.nodes_append h₂.node).congr fun v => ?_
  simp

/-- One cell is added to another and cleared. -/
theorem writes_moveNode {dst src : Int64} (h : dst ≠ src) :
    Writes eof fuel Node.flatten (fun v => .done ((v.plus dst (v.get src)).put src 0))
      (moveNode dst src) := by
  refine (writes_drain_back _ src (by simp [Target.Counting]) (by simpa using h)).congr fun v => ?_
  simp [Target.changes, Target.amount, View.scale, View.spread, View.put_plus_comm _ h.symm]

/-- One cell is taken away from another and cleared. -/
theorem writes_unmoveNode {dst src : Int64} (h : dst ≠ src) :
    Writes eof fuel Node.flatten (fun v => .done ((v.plus dst (-v.get src)).put src 0))
      (unmoveNode dst src) := by
  refine (writes_drain_back _ src (by simp [Target.Counting]) (by simpa using h)).congr fun v => ?_
  simp [Target.changes, Target.amount, View.scale, View.spread, View.put_plus_comm _ h.symm]

/-- A copy needs a work cell that is zero, since what it holds would be added to both. -/
theorem writes_copyNode {dst src work : Int64} (h : [dst, src, work].Nodup) :
    Writes eof fuel Node.flatten
      (fun v => if v.get work = 0 then .done (v.plus dst (v.get src)) else .stuck)
      (copyNode dst src work) := by
  simp only [List.nodup_cons, List.mem_cons, List.not_mem_nil, or_false, not_or] at h
  obtain ⟨⟨hds, hdw⟩, hsw, -⟩ := h
  have hw : (0 : Int64) ≠ work - src := by grind
  refine (writes_drain src (by simp [Target.Counting]) (by simp [hds, Ne.symm hsw])).bind
    fun loop h₁ => (writes_moveNode hw).bind fun restore h₂ =>
      (writes_goNode (-src)).bind fun back h₃ => ?_
  refine (h₁.nodes_append (h₂.nodes_cons h₃.node)).meets fun v => ?_
  split_ifs with hz
  · refine .of_eq ?_
    have e : src + (work - src) = work := by grind
    simp only [Ending.bind_done, View.plus_go, View.put_go, View.get_go, View.go_go_neg,
      Target.changes, Target.amount, View.scale, View.spread, List.map_cons, List.map_nil, if_true,
      UInt8.one_mul, e, Int64.sub_zero, Int64.add_zero]
    clear h₁ h₂ h₃
    congr 1
    refine View.ext_get rfl rfl rfl fun c => ?_
    simp only [View.get_put, View.get_plus]
    grind
  · trivial

/-! ### Conditions -/

section

variable {src : Int64} {body : List MacroOp} {inner : Unit → Except ExpandError (List Node)}
  {f : View → Ending} (f' : View → Ending)

/-- A condition whose body, run at the tested cell, does `f`; seen from where the condition stands
it does `f'`. -/
theorem writes_condNode (hd : displacement body = 0)
    (hi : Writes eof fuel Node.flattenAll f (inner ()))
    (hf : ∀ v : View, f' v = (f (v.go src)).map (·.go (-src))) :
    Writes eof fuel Node.flatten
      (fun v => if v.get src = 0 then .done v else (f' v).bind fun v => .done (v.put src 0))
      (condNode src body inner) := by
  unfold condNode
  rw [if_neg (not_not.mpr hd)]
  refine (writes_goNode src).bind fun there h₁ => hi.bind fun nodes h₂ =>
    (writes_zeroNode 0).bind fun clear h₃ => (writes_goNode (-src)).bind fun back h₄ => ?_
  show Performs eof fuel (Node.flattenAll _) _
  -- the body of the loop ends with the clearing
  rw [List.append_cons nodes clear, Node.flattenAll_enclosed, Node.flattenAll_concat]
  have honce := (h₂.append h₃).once fun v u hu => by
    obtain ⟨w, -, hw⟩ := bind_eq_done hu
    cases hw
    simp
  refine (h₁.append (honce.append h₄)).meets fun v => ?_
  simp only [Ending.bind_done, View.get_go, Int64.add_zero]
  split_ifs with hz
  · exact .of_eq (by simp)
  · rw [hf]
    cases f (v.go src) with
    | done u =>
        refine .of_eq ?_
        simp only [Ending.bind_done, Ending.map_done, View.put_go]
        congr 3
        grind
    | more u => exact ⟨rfl, rfl⟩
    | stuck => trivial

/-- A loop whose body, run at the tested cell, does `f`; seen from where the loop stands it does
`f'`. -/
theorem writes_loopNode (hd : displacement body = 0)
    (hi : Writes eof fuel Node.flattenAll f (inner ()))
    (hf : ∀ v : View, f' v = (f (v.go src)).map (·.go (-src))) :
    Writes eof fuel Node.flatten (View.repeats src f' fuel) (loopNode src body inner) := by
  unfold loopNode
  rw [if_neg (not_not.mpr hd)]
  refine (writes_goNode src).bind fun there h₁ => hi.bind fun nodes h₂ =>
    (writes_goNode (-src)).bind fun back h₃ => ?_
  show Performs eof fuel (Node.flattenAll _) _
  rw [Node.flattenAll_enclosed]
  refine (h₁.append (h₂.loop.append h₃)).meets fun v => ?_
  have hr := repeats_shift v src 0 hf fuel
  rw [Int64.add_zero] at hr
  rw [hr, Ending.bind_done]
  cases View.repeats 0 f fuel (v.go src) with
  | done u => exact .of_eq rfl
  | more u => exact ⟨rfl, rfl⟩
  | stuck => trivial

end

theorem byte_one : UInt8.ofInt (1 : Int64).toInt = 1 := by decide

theorem byte_neg_one : UInt8.ofInt (-1 : Int64).toInt = -1 := by decide

/-- A count is added if the source is nonzero, which is then cleared. -/
theorem writes_condAddNode (src dst count : Int64) :
    Writes eof fuel Node.flatten
      (fun v => if v.get src = 0 then .done v
        else .done ((v.plus dst (UInt8.ofInt count.toInt)).put src 0))
      (condAddNode src dst count) := by
  have hi : Writes eof fuel Node.flattenAll
      (fun v => .done (v.plus (dst - src) (UInt8.ofInt count.toInt)))
      (do return [← addNode (dst - src) count]) :=
    (writes_addNode (dst - src) count).bind fun n h => h.node
  refine writes_condNode (fun v => .done (v.plus dst (UInt8.ofInt count.toInt)))
    (by simp [displacement, moved]) hi fun v => ?_
  have e : src + (dst - src) = dst := by grind
  simp [View.plus_go, e]

/-- A cell that is not counted may be written. -/
theorem nonzero_put (v : View) {d : Int64} {ds : List Int64} (h : d ∉ ds) (x : UInt8) :
    (v.put d x).nonzero ds = v.nonzero ds :=
  List.countP_congr fun e he => by rw [View.get_put_of_ne v (ne_of_mem_of_not_mem he h)]

theorem nonzero_plus (v : View) {d : Int64} {ds : List Int64} (h : d ∉ ds) (x : UInt8) :
    (v.plus d x).nonzero ds = v.nonzero ds :=
  nonzero_put v h _

/-- The first cell counts if it is nonzero. -/
theorem nonzero_cons (v : View) (d : Int64) (ds : List Int64) :
    v.nonzero (d :: ds) = v.nonzero ds + if v.get d = 0 then 0 else 1 := by
  rw [View.nonzero, List.countP_cons]
  by_cases h : v.get d = 0 <;> simp [h, View.nonzero]

/-- One source of a count. -/
theorem condAdd_eq (v : View) {dst src : Int64} (h : dst ≠ src) (c : UInt8) :
    (if v.get src = 0 then Ending.done v else .done ((v.plus dst c).put src 0)) =
      .done ((v.put src 0).plus dst (View.bit (v.get src ≠ 0) * c)) := by
  split_ifs with hz
  · have hv : v.put src 0 = v := by rw [← hz, View.put_get]
    simp [View.bit, hz, hv]
  · simp [View.bit, hz, View.put_plus_comm _ h.symm]

/-- The count is added once for every nonzero source, modulo 256. -/
theorem writes_condAddNodes {dst : Int64} (count : Int64) {srcs : List Int64}
    (h : (dst :: srcs).Nodup) :
    Writes eof fuel Node.flattenAll
      (fun v => .done ((v.clear srcs).plus dst
        (UInt8.ofNat (v.nonzero srcs) * UInt8.ofInt count.toInt)))
      (condAddNodes dst count srcs) := by
  induction srcs with
  | nil => exact Performs.nil.congr fun v => by simp [View.nonzero, View.clear]
  | cons src rest ih =>
      simp only [List.nodup_cons, List.mem_cons, not_or] at h ih
      obtain ⟨⟨hds, hdr⟩, hsr, hr⟩ := h
      refine ((writes_condAddNode src dst count).congr fun v => condAdd_eq v hds _).bind
        fun n h₁ => (ih ⟨hdr, hr⟩).bind fun more h₂ => ?_
      refine (h₁.append h₂).congr fun v => ?_
      clear h₁ h₂
      rw [Ending.bind_done, nonzero_plus _ hdr, nonzero_put _ hsr, nonzero_cons]
      congr 1
      refine View.ext_get (by simp) (by simp) (by simp) fun c => ?_
      simp only [View.get_plus, View.get_clear, View.get_put, List.mem_cons, UInt8.ofNat_add,
        View.bit]
      split_ifs <;> grind

/-- A test sets its destination and clears its source. -/
theorem writes_isZeroNode {dst src : Int64} (h : dst ≠ src) (negated : Bool) :
    Writes eof fuel Node.flatten (View.test dst src negated []) (isZeroNode dst src negated) := by
  have hc : Writes eof fuel Node.flattenAll (View.test dst src negated [])
      (isZeroChildren dst src negated) := by
    unfold isZeroChildren
    cases negated with
    | true =>
        refine (writes_condAddNode src dst 1).bind fun n h₁ => h₁.node.congr fun v => ?_
        rw [condAdd_eq v h, byte_one, View.test]
        simp
    | false =>
        refine (writes_addNode dst 1).bind fun one h₁ =>
          (writes_condAddNode src dst (-1)).bind fun less h₂ =>
            (h₁.nodes_cons h₂.node).congr fun v => ?_
        rw [Ending.bind_done, condAdd_eq _ h, byte_one, byte_neg_one, View.test,
          View.get_plus_of_ne _ h.symm, ← View.put_plus_comm _ h.symm, View.plus_plus]
        by_cases hz : v.get src = 0 <;> simp [View.bit, hz]
  exact hc.bind fun _ hn => hn

/-- A preserving test works on a copy. -/
theorem writes_testNode {dst src : Int64} (negated : Bool) {preserve : List Int64}
    (hl : preserve.length = 0 ∨ preserve.length = 2) (h : (dst :: src :: preserve).Nodup) :
    Writes eof fuel Node.flatten (View.test dst src negated preserve)
      (testNode dst src negated preserve) := by
  match preserve with
  | [] => exact writes_isZeroNode (by simpa using h) negated
  | [spare, work] =>
      simp only [List.nodup_cons, List.mem_cons, List.not_mem_nil, or_false, not_or] at h
      obtain ⟨⟨hds, hdp, hdw⟩, ⟨hsp, hsw⟩, hpw, -⟩ := h
      have hn : [spare, src, work].Nodup := by simp [Ne.symm hsp, hpw, hsw]
      refine (writes_copyNode hn).bind fun copy h₁ =>
        (writes_isZeroNode hdp negated).bind fun test h₂ =>
          (h₁.nodes_cons h₂.node).meets fun v => ?_
      clear h₁ h₂
      unfold View.test
      dsimp only
      by_cases hz : v.get spare = 0 ∧ v.get work = 0
      · rw [if_pos hz, if_pos hz.2, Ending.bind_done]
        refine .of_eq (congrArg _ ?_)
        rw [View.get_plus_self, hz.1, UInt8.zero_add]
        refine View.ext_get rfl rfl rfl fun c => ?_
        simp only [View.get_plus, View.get_put]
        grind
      · rw [if_neg hz]
        trivial
  | [_] | _ :: _ :: _ :: _ => simp at hl

/-- A count of nonzero sources is what the conditions add up to. -/
theorem writes_orNode {dst : Int64} {srcs : List Int64} (hs : srcs ≠ [])
    (h : (dst :: srcs).Nodup) :
    Writes eof fuel Node.flatten (View.disjunction dst srcs) (orNode dst srcs) := by
  unfold orNode
  rw [if_neg (by simpa using hs)]
  refine (writes_condAddNodes 1 h).bind fun nodes h₁ => ?_
  exact Performs.congr h₁ fun v => by rw [byte_one, UInt8.mul_one, View.disjunction]

/-- The number of sources is counted modulo 256. -/
theorem byte_length (n : Nat) : UInt8.ofInt (Int64.ofNat n).toInt = UInt8.ofNat n := by
  have h : ((Int64.ofNat n).toInt % 2 ^ 8).toNat = n % 2 ^ 8 := by
    rw [Int64.toInt_ofNat', Int.bmod_def, Int64.size]
    split_ifs <;> omega
  rw [UInt8.ofInt, h, UInt8.ofNat_mod_size]

/-- A byte that counts the sources down comes to zero if the number of zero sources is a multiple of
256. -/
theorem count_eq_zero_iff (v : View) (srcs : List Int64) :
    UInt8.ofNat srcs.length + UInt8.ofNat (v.nonzero srcs) * -1 = 0 ↔
      256 ∣ srcs.countP fun d => v.get d = 0 := by
  have hlen : srcs.length = (srcs.countP fun d => v.get d = 0) + v.nonzero srcs := by
    simpa [View.nonzero] using List.length_eq_countP_add_countP fun d => decide (v.get d = 0)
  have hless : ∀ z n : UInt8, z + n + n * -1 = z := by
    intro z n
    grind
  rw [hlen, UInt8.ofNat_add, hless, UInt8.ofNat_eq_iff_mod_eq_toNat, Nat.dvd_iff_mod_eq_zero]
  rfl

/-- What the text of a conjunction does with any number of sources. -/
theorem writes_andNode_counted {dst work : Int64} {srcs : List Int64} (hs : srcs ≠ [])
    (h : (dst :: work :: srcs).Nodup) :
    Writes eof fuel Node.flatten
      (fun v => if v.get work = 0 then
          .done ((v.clear srcs).plus dst (View.bit (256 ∣ srcs.countP fun d => v.get d = 0)))
        else .stuck)
      (andNode dst srcs work) := by
  obtain ⟨hd, hw⟩ := List.nodup_cons.mp h
  have hdw : dst ≠ work := fun e => hd (by simp [e])
  have hds : dst ∉ srcs := fun e => hd (by simp [e])
  have hws : work ∉ srcs := (List.nodup_cons.mp hw).1
  unfold andNode
  rw [if_neg (by simpa using hs)]
  refine (writes_addNode work _).bind fun count h₁ => (writes_condAddNodes (-1) hw).bind
    fun tests h₂ => (writes_isZeroNode hdw false).bind fun test h₃ => ?_
  refine (h₁.nodes_cons (h₂.nodes_append h₃.node)).meets fun v => ?_
  clear h₁ h₂ h₃
  by_cases hz : v.get work = 0
  · rw [if_pos hz]
    refine .of_eq ?_
    have hget : ∀ u : View, u = (v.plus work (UInt8.ofNat srcs.length)).clear srcs →
        (u.plus work (UInt8.ofNat (v.nonzero srcs) * -1)).get work =
          UInt8.ofNat srcs.length + UInt8.ofNat (v.nonzero srcs) * -1 := by
      rintro u rfl
      simp [View.get_clear, hws, hz]
    have hbit : decide (UInt8.ofNat srcs.length + UInt8.ofNat (v.nonzero srcs) * -1 = 0) =
        decide (256 ∣ srcs.countP fun d => v.get d = 0) :=
      decide_eq_decide.mpr (count_eq_zero_iff v srcs)
    rw [Ending.bind_done, Ending.bind_done, byte_length, byte_neg_one, nonzero_plus _ hws,
      View.test, hget _ rfl, Bool.bne_false, hbit]
    refine congrArg _ (View.ext_get (by simp) (by simp) (by simp) fun c => ?_)
    simp only [View.get_plus, View.get_clear, View.get_put]
    split_ifs <;> grind
  · rw [if_neg hz]
    trivial

/-- A count below 256 is a multiple of 256 only if it is zero. -/
theorem dvd_countP_iff {α : Type} {p : α → Bool} {l : List α} (h : l.countP p < 256) :
    256 ∣ l.countP p ↔ ∀ a ∈ l, ¬ p a := by
  rw [← List.countP_eq_zero]
  exact ⟨fun hd => Nat.eq_zero_of_dvd_of_lt hd h, fun hz => hz ▸ Nat.dvd_zero 256⟩

/-- A conjunction starts from the number of its sources and takes one away for each that is nonzero.
-/
theorem writes_andNode {dst work : Int64} {srcs : List Int64} (hs : srcs ≠ [])
    (h : (dst :: work :: srcs).Nodup) :
    Writes eof fuel Node.flatten (View.conjunction dst srcs work) (andNode dst srcs work) := by
  refine (writes_andNode_counted hs h).meets fun v => ?_
  unfold View.conjunction
  by_cases hz : v.get work = 0 ∧ srcs.length ≤ 255
  · rw [if_pos hz, if_pos hz.1]
    have hlt : (srcs.countP fun d => v.get d = 0) < 256 :=
      Nat.lt_of_le_of_lt List.countP_le_length (Nat.lt_succ_of_le hz.2)
    have hbit : decide (256 ∣ srcs.countP fun d => v.get d = 0) =
        srcs.all fun d => v.get d ≠ 0 := by
      rw [Bool.eq_iff_iff, decide_eq_true_iff, dvd_countP_iff hlt]
      simp
    rw [hbit]
    exact .of_eq rfl
  · rw [if_neg hz]
    exact Ending.meets_stuck _

/-- What a toggle does: `dst` is parked in `work` and set to whether that is zero. -/
def flip (dst work : Int64) (v : View) : Ending :=
  ((v.plus work (v.get dst)).put dst 0).test dst work false []

/-- A toggle is the same at every cell. -/
theorem flip_shift (v : View) (d dst work : Int64) :
    flip (d + dst) (d + work) v = (flip dst work (v.go d)).map (·.go (-d)) := by
  have h := test_shift ((v.plus (d + work) (v.get (d + dst))).put (d + dst) 0) d dst work false []
  rw [List.map_nil] at h
  rw [flip, h, flip, View.get_go, View.plus_go, View.put_go]

/-- A cell that is zero or one is toggled by way of a work cell that is zero. -/
theorem flip_eq {dst work : Int64} (h : dst ≠ work) {v : View} (hw : v.get work = 0)
    (hb : v.get dst = 0 ∨ v.get dst = 1) : flip dst work v = .done (v.put dst (1 - v.get dst)) := by
  unfold flip View.test
  refine congrArg _ (View.ext_get rfl rfl rfl fun c => ?_)
  simp only [View.get_put, View.get_plus, View.bit]
  grind

/-- One source of a parity. -/
theorem writes_toggle {dst work src : Int64} (hdw : dst ≠ work) (hds : dst ≠ src) :
    Writes eof fuel Node.flatten (View.parity dst [src] work)
      (condNode src (toggle dst work) fun _ => do
        let park ← moveNode (work - src) (dst - src)
        let test ← isZeroNode (dst - src) (work - src) false
        return [park, test]) := by
  have hp : work - src ≠ dst - src := by grind
  have hi : Writes eof fuel Node.flattenAll (flip (dst - src) (work - src)) (do
      let park ← moveNode (work - src) (dst - src)
      let test ← isZeroNode (dst - src) (work - src) false
      return [park, test]) :=
    (writes_moveNode hp).bind fun park h₁ =>
      (writes_isZeroNode hp.symm false).bind fun test h₂ => h₁.nodes_cons h₂.node
  have hf : ∀ v : View,
      flip dst work v = (flip (dst - src) (work - src) (v.go src)).map (·.go (-src)) := by
    intro v
    rw [← flip_shift]
    congr 1 <;> grind
  refine (writes_condNode _ (by simp [displacement, toggle, moved]) hi hf).meets fun v => ?_
  unfold View.parity
  by_cases hz : v.get work = 0 ∧ (v.get dst = 0 ∨ v.get dst = 1)
  · rw [if_pos hz, flip_eq hdw hz.1 hz.2]
    refine .of_eq ?_
    by_cases hs : v.get src = 0
    · have hv : v.put src 0 = v := by rw [← hs, View.put_get]
      simp [hs, View.clear, View.nonzero, hv]
    · simp [hs, View.clear, View.nonzero, View.put_comm v hds]
  · rw [if_neg hz]
    exact Ending.meets_stuck _

/-- The first source is settled before the rest. -/
theorem parity_cons {dst work src : Int64} {rest : List Int64}
    (h : (dst :: work :: src :: rest).Nodup) (v : View) :
    (v.parity dst [src] work).bind (View.parity dst rest work) =
      v.parity dst (src :: rest) work := by
  simp only [List.nodup_cons, List.mem_cons, not_or] at h
  obtain ⟨⟨hdw, hds, hdr⟩, ⟨hws, -⟩, hsr, -⟩ := h
  rw [View.parity.eq_def dst [src] work v, View.parity.eq_def dst (src :: rest) work v]
  by_cases hz : v.get work = 0 ∧ (v.get dst = 0 ∨ v.get dst = 1)
  swap
  · rw [if_neg hz, if_neg hz, Ending.bind_stuck]
  rw [if_pos hz, if_pos hz, Ending.bind_done]
  obtain ⟨hw, hb⟩ := hz
  have h₁ : v.nonzero [src] = if v.get src = 0 then 0 else 1 := by
    rw [nonzero_cons, View.nonzero, List.countP_nil, Nat.zero_add]
  -- after the first source `work` is still zero and `dst` still 0 or 1
  generalize hx : (if v.nonzero [src] % 2 = 0 then v.get dst else 1 - v.get dst) = x
  have hx' : x = 0 ∨ x = 1 := by
    rw [h₁] at hx
    grind
  rw [View.clear, View.clear, View.parity, View.get_put_of_ne _ (Ne.symm hdw),
    View.get_put_of_ne _ hws, View.get_put_self, if_pos ⟨hw, hx'⟩, nonzero_put _ hdr,
    nonzero_put _ hsr, nonzero_cons]
  refine congrArg _ (View.ext_get (by simp) (by simp) (by simp) fun c => ?_)
  simp only [View.get_clear, View.get_put, List.mem_cons]
  rw [h₁] at hx
  by_cases hc : c = dst
  · simp only [hc, if_true]
    grind
  · simp only [hc, if_false]
    grind

/-- Toggles one after another make a parity. -/
theorem writes_toggleNodes {dst work : Int64} {srcs : List Int64}
    (h : (dst :: work :: srcs).Nodup) :
    Writes eof fuel Node.flattenAll (View.parity dst srcs work) (toggleNodes dst work srcs) := by
  induction srcs with
  | nil =>
      refine Performs.nil.meets fun v => ?_
      unfold View.parity
      by_cases hz : v.get work = 0 ∧ (v.get dst = 0 ∨ v.get dst = 1)
      · rw [if_pos hz]
        exact .of_eq (by simp [View.nonzero, View.clear])
      · rw [if_neg hz]
        exact Ending.meets_stuck _
  | cons src rest ih =>
      have hp := fun v => parity_cons h v
      simp only [List.nodup_cons, List.mem_cons, not_or] at h ih
      obtain ⟨⟨hdw, hds, hdr⟩, ⟨hws, hwr⟩, hsr, hr⟩ := h
      exact (writes_toggle hdw hds).bind fun n h₁ =>
        (ih ⟨⟨hdw, hdr⟩, hwr, hr⟩).bind fun more h₂ => (h₁.append h₂).congr hp

/-- A parity needs two sources. -/
theorem writes_xorNode {dst work : Int64} {srcs : List Int64} (hs : 2 ≤ srcs.length)
    (h : (dst :: work :: srcs).Nodup) :
    Writes eof fuel Node.flatten (View.parity dst srcs work) (xorNode dst srcs work) := by
  unfold xorNode
  rw [if_neg (Nat.not_lt.mpr hs)]
  exact (writes_toggleNodes h).bind fun _ hn => hn

/-- A comparison tests the difference, of the cells themselves or of copies. -/
theorem writes_isEqNode {dst first second : Int64} {works : List Int64}
    (hl : works.length = 0 ∨ works.length = 2) (h : (dst :: first :: second :: works).Nodup) :
    Writes eof fuel Node.flatten (View.compare dst first second works)
      (isEqNode dst first second works) := by
  match works with
  | [] =>
      simp only [List.nodup_cons, List.mem_cons, List.not_mem_nil, or_false, not_or] at h
      obtain ⟨⟨hd₁, hd₂⟩, h₁₂, -⟩ := h
      refine (writes_unmoveNode h₁₂).bind fun less h₁ =>
        (writes_isZeroNode hd₁ false).bind fun test h₂ =>
          (h₁.nodes_cons h₂.node).congr fun v => ?_
      clear h₁ h₂
      unfold View.test View.compare
      dsimp only [Ending.bind_done]
      refine congrArg _ (View.ext_get rfl rfl rfl fun c => ?_)
      simp only [View.get_put, View.get_plus, View.bit]
      grind
  | [spare, work] =>
      simp only [List.nodup_cons, List.mem_cons, List.not_mem_nil, or_false, not_or] at h
      obtain ⟨⟨hd₁, hd₂, hdp, hdw⟩, ⟨h₁₂, h₁p, h₁w⟩, ⟨h₂p, h₂w⟩, hpw, -⟩ := h
      have hn : [spare, first, work].Nodup := by simp [Ne.symm h₁p, hpw, h₁w]
      refine (writes_copyNode hn).bind fun copy h₁ => (writes_drain second
        (by simp [Target.Counting]) (by simp [Ne.symm h₂p, Ne.symm h₂w])).bind fun less h₂ =>
          (writes_goNode (-second)).bind fun back h₃ => (writes_moveNode h₂w).bind
            fun restore h₄ => (writes_isZeroNode hdp false).bind fun test h₅ => ?_
      refine (h₁.nodes_cons (h₂.nodes_append
        (h₃.nodes_cons (h₄.nodes_cons h₅.node)))).meets fun v => ?_
      clear h₁ h₂ h₃ h₄ h₅
      unfold View.compare
      dsimp only
      by_cases hz : v.get spare = 0 ∧ v.get work = 0
      · rw [if_pos hz, if_pos hz.2]
        refine .of_eq ?_
        simp only [Ending.bind_done, View.go_go_neg, Target.changes, Target.amount, View.scale,
          View.spread, List.map_cons, List.map_nil, Int64.sub_zero, View.test]
        refine congrArg _ (View.ext_get rfl rfl rfl fun c => ?_)
        simp only [View.get_put, View.get_plus, View.bit]
        grind
      · rw [if_neg hz]
        exact Ending.meets_stuck _
  | [_] | _ :: _ :: _ :: _ => simp at hl

end

end MacroOp

end StackTape
