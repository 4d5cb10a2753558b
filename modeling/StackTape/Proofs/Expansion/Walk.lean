import StackTape.Proofs.Expansion.Correct
import StackTape.Proofs.Machine.Walk

/-!
# Where the text of an expansion goes

An operation moves the pointer to the cells it names and back.  `Fits p e op` says that they are on
the tape: the offsets of `op` count from cell `p`, and the pointer stands `e` cells from there, as
it does in a body that was rebased to the cell tested around it.  `walks_expandAt`: the text of an
operation that fits is a walk.
-/

namespace StackTape

open Machine (largestCapacity)

/-- A cell of the tape. -/
def On (size : Nat) (x : Int) : Prop := 0 ≤ x ∧ x < size

namespace Walks

variable {size : Nat} {x y z : Int} {n : Node} {ns ms : List Node}

theorem node (h : Walks size x n.flatten y) : Walks size x (Node.flattenAll [n]) y := by
  rwa [Node.flattenAll_single]

/-- A node leads to where the nodes behind it start. -/
theorem nodes_cons (h : Walks size x n.flatten y) (t : Walks size y (Node.flattenAll ns) z) :
    Walks size x (Node.flattenAll (n :: ns)) z :=
  h.append t

/-- Nodes lead to where the nodes behind them start. -/
theorem nodes_append (h : Walks size x (Node.flattenAll ns) y)
    (t : Walks size y (Node.flattenAll ms) z) : Walks size x (Node.flattenAll (ns ++ ms)) z := by
  rw [Node.flattenAll_append]
  exact h.append t

end Walks

namespace MacroOp

/-- What a part of an expansion writes is a walk. -/
def Paces {α : Type} (size : Nat) (text : α → Bytes) (x y : Int) (e : Except ExpandError α) :
    Prop :=
  ∀ a, e = .ok a → Walks size x (text a) y

/-- What comes after a part starts where its text leads. -/
theorem Paces.bind {α β : Type} {size : Nat} {text : α → Bytes} {text' : β → Bytes}
    {x y x' y' : Int} {e : Except ExpandError α} {k : α → Except ExpandError β}
    (he : Paces size text x y e)
    (hk : ∀ a, Walks size x (text a) y → Paces size text' x' y' (k a)) :
    Paces size text' x' y' (e >>= k) := by
  intro b hb
  cases e with
  | error _ => cases hb
  | ok a => exact hk a (he a rfl) b hb

theorem Paces.pure {α : Type} {size : Nat} {text : α → Bytes} {x y : Int} {a : α}
    (h : Walks size x (text a) y) : Paces size text x y (.ok a) := by
  rintro b hb
  cases hb
  exact h

/-- A part that fails writes nothing. -/
theorem Paces.error {α : Type} {size : Nat} {text : α → Bytes} {x y : Int} (e : ExpandError) :
    Paces size text x y (.error e) := by
  intro a h
  cases h

/-! ### Offsets on the tape do not wrap -/

section

variable {size : Nat} (hs : size ≤ largestCapacity) {x : Int} {a b : Int64}

include hs

/-- Between cells of the tape, offsets are integers. -/
theorem toInt_sub_of_on (ha : On size (x + a.toInt)) (hb : On size (x + b.toInt)) :
    (a - b).toInt = a.toInt - b.toInt := by
  unfold On at ha hb
  unfold largestCapacity at hs
  rw [Int64.toInt_sub, Int.bmod_eq_of_le] <;> omega

/-- An offset seen from another cell. -/
theorem on_between (ha : On size (x + a.toInt)) (hb : On size (x + b.toInt)) :
    On size (x + a.toInt + (b - a).toInt) := by
  rw [toInt_sub_of_on hs hb ha, show x + a.toInt + (b.toInt - a.toInt) = x + b.toInt by omega]
  exact hb

/-- So is the way back to one of them. -/
theorem toInt_neg_of_on (hx : On size x) (ha : On size (x + a.toInt)) :
    (-a).toInt = -a.toInt := by
  unfold On at hx ha
  unfold largestCapacity at hs
  rw [Int64.toInt_neg, Int.bmod_eq_of_le] <;> omega

end

/-! ### Runs of one instruction -/

section

variable {size : Nat} {x : Int}

/-- A run to the right passes every cell on the way. -/
theorem walks_right (hx : 0 ≤ x) (n : Nat) (h : x + n < size) :
    Walks size x (List.replicate n 0x3E) (x + n) := by
  induction n generalizing x with
  | zero => simpa using Walks.nil x
  | succ n ih =>
      push_cast at h ⊢
      have := ih (x := x + 1) (by omega) (by omega)
      rw [show x + 1 + n = x + (n + 1) by omega] at this
      exact .right (by omega) this

/-- So does a run to the left. -/
theorem walks_left (n : Nat) (h : 0 ≤ x - n) : Walks size x (List.replicate n 0x3C) (x - n) := by
  induction n generalizing x with
  | zero => simpa using Walks.nil x
  | succ n ih =>
      push_cast at h ⊢
      have := ih (x := x - 1) (by omega)
      rw [show x - 1 - n = x - (n + 1) by omega] at this
      exact .left (by omega) this

/-- A run that moves nothing stays where it is. -/
theorem walks_still {c : UInt8} (hc : c ∉ [0x3E, 0x3C, 0x5B, 0x5D]) (n : Nat) :
    Walks size x (List.replicate n c) x := by
  induction n with
  | zero => exact .nil x
  | succ n ih => exact .still hc ih

theorem paces_run {b : UInt8} {count : Int64} {y : Int}
    (h : ∀ n : Nat, (n : Int) = count.toInt → Walks size x (List.replicate n b) y) :
    Paces size id x y (run b count) := by
  rcases run_cases b count with ⟨n, hn, hr⟩ | hr <;> rw [hr]
  · exact .pure (h n hn)
  · exact .error _

/-- A move between cells of the tape stays on it. -/
theorem paces_moveText (hx : On size x) {delta : Int64} (hy : On size (x + delta.toInt)) :
    Paces size id x (x + delta.toInt) (moveText delta) := by
  unfold moveText
  split_ifs with hd
  · refine paces_run fun n hn => ?_
    have := toInt_of_neg hd hn
    rw [this] at hy ⊢
    exact walks_left n hy.1
  · refine paces_run fun n hn => ?_
    rw [← hn] at hy ⊢
    exact walks_right hx.1 n hy.2

theorem paces_countText (count : Int64) : Paces size id x x (countText count) := by
  unfold countText
  split_ifs
  · exact paces_run fun n _ => walks_still (by decide) n
  · exact paces_run fun n _ => walks_still (by decide) n

theorem paces_goNode (hx : On size x) {delta : Int64} (hy : On size (x + delta.toInt)) :
    Paces size Node.flatten x (x + delta.toInt) (goNode delta) :=
  (paces_moveText hx hy).bind fun _ h => .pure h

end

/-! ### Nodes -/

section

variable {size : Nat} (hs : size ≤ largestCapacity) {x : Int} (hx : On size x)

include hs hx

/-- The text of the way back from a cell. -/
theorem paces_backText {dst : Int64} (hd : On size (x + dst.toInt)) :
    Paces size id (x + dst.toInt) x (moveText (-dst)) := by
  have e : x + dst.toInt + (-dst).toInt = x := by
    rw [toInt_neg_of_on hs hx hd]
    omega
  have := paces_moveText hd (show On size (x + dst.toInt + (-dst).toInt) by rwa [e])
  rwa [e] at this

/-- The way back from a cell. -/
theorem paces_back {dst : Int64} (hd : On size (x + dst.toInt)) :
    Paces size Node.flatten (x + dst.toInt) x (goNode (-dst)) :=
  (paces_backText hs hx hd).bind fun _ h => .pure h

omit hx in
/-- The way from one cell to another. -/
theorem paces_between {a b : Int64} (ha : On size (x + a.toInt)) (hb : On size (x + b.toInt)) :
    Paces size Node.flatten (x + a.toInt) (x + b.toInt) (goNode (b - a)) := by
  have e : x + a.toInt + (b - a).toInt = x + b.toInt := by
    rw [toInt_sub_of_on hs hb ha]
    omega
  have := paces_goNode ha (show On size (x + a.toInt + (b - a).toInt) by rwa [e])
  rwa [e] at this

/-- There, something that comes back to the same cell, and back. -/
theorem paces_there {dst : Int64} (hd : On size (x + dst.toInt)) {e : Except ExpandError Bytes}
    (he : Paces size id (x + dst.toInt) (x + dst.toInt) e) (op : MacroOp) :
    Paces size Node.flatten x x (do
      let there ← goNode dst
      let text ← e
      let back ← goNode (-dst)
      return Node.tree op [there, .raw text, back]) := by
  refine (paces_goNode hx hd).bind fun there h₁ => he.bind fun text h₂ =>
    (paces_back hs hx hd).bind fun back h₃ => .pure ?_
  exact h₁.nodes_cons (.nodes_cons (n := .raw text) h₂ h₃.node)

theorem paces_addNode {dst : Int64} (hd : On size (x + dst.toInt)) (count : Int64) :
    Paces size Node.flatten x x (addNode dst count) :=
  paces_there hs hx hd (paces_countText count) _

/-- A loop that moves nothing stays on the cell. -/
theorem paces_zeroNode {dst : Int64} (hd : On size (x + dst.toInt)) :
    Paces size Node.flatten x x (zeroNode dst) :=
  paces_there hs hx hd (.pure (.enclose (.still (by decide) (.nil _)))) _

/-- Raw text has to stay on the tape and come back to its cell. -/
theorem paces_literalNode {text : Bytes} {shifted : Int64} (hd : On size (x + shifted.toInt))
    (ht : Walks size (x + shifted.toInt) text (x + shifted.toInt)) :
    Paces size Node.flatten x x (literalNode text shifted) := by
  intro n hn
  rcases literalNode_cases text shifted with ⟨there, back, h₁, h₂, h⟩ | ⟨count, h⟩
  · obtain rfl := Except.ok.inj (h.symm.trans hn)
    exact ((paces_moveText hx hd there h₁).append ht).append (paces_backText hs hx hd back h₂)
  · cases h.symm.trans hn

omit hx in
/-- A round visits cells of the tape only. -/
theorem paces_visits {src pos : Int64} (hsrc : On size (x + src.toInt))
    (hpos : On size (x + pos.toInt)) {targets : List Target}
    (hc : Target.Counting targets) (ht : ∀ t ∈ targets, On size (x + t.cell.toInt)) :
    Paces size Node.flattenAll (x + pos.toInt) (x + src.toInt) (visits src pos targets) := by
  induction targets generalizing pos with
  | nil => exact (paces_between hs hpos hsrc).bind fun back h => .pure h.node
  | cons t rest ih =>
      have hcell := ht t (by simp)
      have hstill : t.change ∉ [0x3E, 0x3C, 0x5B, 0x5D] := by
        rcases hc t (by simp) with h | h <;> rw [h] <;> decide
      refine (paces_between hs hpos hcell).bind fun there h₁ =>
        (ih hcell (fun u hu => hc u (by simp [hu])) fun u hu => ht u (by simp [hu])).bind
          fun more h₂ => .pure ?_
      exact h₁.append (.still hstill h₂)

/-- A round of a drain starts and ends at its source. -/
theorem paces_drain {src : Int64} (hsrc : On size (x + src.toInt)) {targets : List Target}
    (hc : Target.Counting targets) (ht : ∀ t ∈ targets, On size (x + t.cell.toInt)) :
    Paces size Node.flattenAll x (x + src.toInt) (drain src targets) := by
  refine (paces_goNode hx hsrc).bind fun there h₁ =>
    (paces_visits hs hsrc hsrc hc ht).bind fun round h₂ => .pure ?_
  rw [Node.flattenAll_drain]
  exact h₁.append (.enclose (.still (by decide) h₂))

theorem paces_drain_back (op : MacroOp) {src : Int64} (hsrc : On size (x + src.toInt))
    {targets : List Target} (hc : Target.Counting targets)
    (ht : ∀ t ∈ targets, On size (x + t.cell.toInt)) :
    Paces size Node.flatten x x (do
      let loop ← drain src targets
      let back ← goNode (-src)
      return Node.tree op (loop ++ [back])) := by
  exact (paces_drain hs hx hsrc hc ht).bind fun loop h₁ => (paces_back hs hx hsrc).bind
    fun back h₂ => .pure (h₁.nodes_append h₂.node)

section

variable {dst src work : Int64} (hd : On size (x + dst.toInt)) (hsrc : On size (x + src.toInt))

include hd hsrc

theorem paces_moveNode : Paces size Node.flatten x x (moveNode dst src) :=
  paces_drain_back hs hx _ hsrc (by simp [Target.Counting]) (by simpa using hd)

theorem paces_unmoveNode : Paces size Node.flatten x x (unmoveNode dst src) :=
  paces_drain_back hs hx _ hsrc (by simp [Target.Counting]) (by simpa using hd)

/-- The second drain of a copy counts from the source, which changes nothing about its cells. -/
theorem paces_copyNode (hw : On size (x + work.toInt)) :
    Paces size Node.flatten x x (copyNode dst src work) := by
  have hz : On size (x + src.toInt + (0 : Int64).toInt) := by simpa using hsrc
  have hws := on_between hs hsrc hw
  exact (paces_drain hs hx hsrc (by simp [Target.Counting]) (by simp [hw, hd])).bind
    fun loop h₁ => (paces_moveNode hs hsrc hz hws).bind fun restore h₂ =>
      (paces_back hs hx hsrc).bind fun back h₃ =>
        .pure (h₁.nodes_append (h₂.nodes_cons h₃.node))

end

/-- The body of a condition has to stay on the tape only if it is written at all. -/
theorem paces_condNode {src : Int64} (hsrc : On size (x + src.toInt)) {body : List MacroOp}
    {inner : Unit → Except ExpandError (List Node)}
    (hi : displacement body = 0 →
      Paces size Node.flattenAll (x + src.toInt) (x + src.toInt) (inner ())) :
    Paces size Node.flatten x x (condNode src body inner) := by
  unfold condNode
  split_ifs with hb
  · exact .error _
  rw [not_not] at hb
  have hz : On size (x + src.toInt + (0 : Int64).toInt) := by simpa using hsrc
  refine (paces_goNode hx hsrc).bind fun there h₁ => (hi hb).bind fun nodes h₂ =>
    (paces_zeroNode hs hsrc hz).bind fun clear h₃ => (paces_back hs hx hsrc).bind
      fun back h₄ => .pure ?_
  show Walks size x (Node.flattenAll _) x
  -- the body of the loop ends with the clearing
  rw [List.append_cons nodes clear, Node.flattenAll_enclosed, Node.flattenAll_concat]
  exact h₁.append ((Walks.enclose (h₂.append h₃)).append h₄)

/-- So it is with a loop. -/
theorem paces_loopNode {src : Int64} (hsrc : On size (x + src.toInt)) {body : List MacroOp}
    {inner : Unit → Except ExpandError (List Node)}
    (hi : displacement body = 0 →
      Paces size Node.flattenAll (x + src.toInt) (x + src.toInt) (inner ())) :
    Paces size Node.flatten x x (loopNode src body inner) := by
  unfold loopNode
  split_ifs with hb
  · exact .error _
  rw [not_not] at hb
  refine (paces_goNode hx hsrc).bind fun there h₁ => (hi hb).bind fun nodes h₂ =>
    (paces_back hs hx hsrc).bind fun back h₃ => .pure ?_
  show Walks size x (Node.flattenAll _) x
  rw [Node.flattenAll_enclosed]
  exact h₁.append ((Walks.enclose h₂).append h₃)

theorem paces_condAddNode {src dst : Int64} (hsrc : On size (x + src.toInt))
    (hd : On size (x + dst.toInt)) (count : Int64) :
    Paces size Node.flatten x x (condAddNode src dst count) := by
  refine paces_condNode hs hx hsrc fun _ => ?_
  exact (paces_addNode hs hsrc (on_between hs hsrc hd) count).bind fun n h => .pure h.node

/-- One condition after another. -/
theorem paces_condAddNodes {dst : Int64} (hd : On size (x + dst.toInt)) (count : Int64)
    {srcs : List Int64} (hsrcs : ∀ c ∈ srcs, On size (x + c.toInt)) :
    Paces size Node.flattenAll x x (condAddNodes dst count srcs) := by
  induction srcs with
  | nil => exact .pure (.nil x)
  | cons src rest ih =>
      exact (paces_condAddNode hs hx (hsrcs src (by simp)) hd count).bind fun n h₁ =>
        (ih fun c hc => hsrcs c (by simp [hc])).bind fun more h₂ => .pure (h₁.nodes_cons h₂)

theorem paces_isZeroNode {dst src : Int64} (hd : On size (x + dst.toInt))
    (hsrc : On size (x + src.toInt)) (negated : Bool) :
    Paces size Node.flatten x x (isZeroNode dst src negated) := by
  have hc : Paces size Node.flattenAll x x (isZeroChildren dst src negated) := by
    unfold isZeroChildren
    split_ifs
    · exact (paces_condAddNode hs hx hsrc hd 1).bind fun n h => .pure h.node
    · exact (paces_addNode hs hx hd 1).bind fun one h₁ =>
        (paces_condAddNode hs hx hsrc hd (-1)).bind fun less h₂ =>
          .pure (h₁.nodes_cons h₂.node)
  exact hc.bind fun _ h => .pure h

/-- A preserving test visits its work cells too. -/
theorem paces_testNode {dst src : Int64} (hd : On size (x + dst.toInt))
    (hsrc : On size (x + src.toInt)) (negated : Bool) {preserve : List Int64}
    (hp : ∀ c ∈ preserve, On size (x + c.toInt)) :
    Paces size Node.flatten x x (testNode dst src negated preserve) := by
  unfold testNode
  split
  · exact paces_isZeroNode hs hx hd hsrc negated
  · next spare work =>
      exact (paces_copyNode hs hx (hp spare (by simp)) hsrc (hp work (by simp))).bind
        fun copy h₁ => (paces_isZeroNode hs hx hd (hp spare (by simp)) negated).bind
          fun test h₂ => .pure (h₁.nodes_cons h₂.node)
  · exact .error _

/-- A conjunction visits its work cell, its sources and its destination. -/
theorem paces_andNode {dst work : Int64} {srcs : List Int64} (hd : On size (x + dst.toInt))
    (hw : On size (x + work.toInt)) (hsrcs : ∀ c ∈ srcs, On size (x + c.toInt)) :
    Paces size Node.flatten x x (andNode dst srcs work) := by
  unfold andNode
  split_ifs
  · exact .error _
  exact (paces_addNode hs hx hw _).bind fun count h₁ =>
    (paces_condAddNodes hs hx hw (-1) hsrcs).bind fun tests h₂ =>
      (paces_isZeroNode hs hx hd hw false).bind fun test h₃ =>
        .pure (h₁.nodes_cons (h₂.nodes_append h₃.node))

theorem paces_orNode {dst : Int64} {srcs : List Int64} (hd : On size (x + dst.toInt))
    (hsrcs : ∀ c ∈ srcs, On size (x + c.toInt)) :
    Paces size Node.flatten x x (orNode dst srcs) := by
  unfold orNode
  split_ifs
  · exact .error _
  · exact (paces_condAddNodes hs hx hd 1 hsrcs).bind fun _ h => .pure h

/-- A parity visits its other cells from each of its sources. -/
theorem paces_xorNode {dst work : Int64} {srcs : List Int64} (hd : On size (x + dst.toInt))
    (hw : On size (x + work.toInt)) (hsrcs : ∀ c ∈ srcs, On size (x + c.toInt)) :
    Paces size Node.flatten x x (xorNode dst srcs work) := by
  have ht : Paces size Node.flattenAll x x (toggleNodes dst work srcs) := by
    induction srcs with
    | nil => exact .pure (.nil x)
    | cons src rest ih =>
        have hsrc := hsrcs src (by simp)
        have hd' := on_between hs hsrc hd
        have hw' := on_between hs hsrc hw
        refine (paces_condNode hs hx hsrc fun _ => ?_).bind fun n h₁ =>
          (ih fun c hc => hsrcs c (by simp [hc])).bind fun more h₂ => .pure (h₁.nodes_cons h₂)
        exact (paces_moveNode hs hsrc hw' hd').bind fun park h₁ =>
          (paces_isZeroNode hs hsrc hd' hw' false).bind fun test h₂ =>
            .pure (h₁.nodes_cons h₂.node)
  unfold xorNode
  split_ifs
  · exact .error _
  · exact ht.bind fun _ h => .pure h

/-- A preserving comparison visits its work cells too. -/
theorem paces_isEqNode {dst first second : Int64} (hd : On size (x + dst.toInt))
    (h₁ : On size (x + first.toInt)) (h₂ : On size (x + second.toInt)) {works : List Int64}
    (hw : ∀ c ∈ works, On size (x + c.toInt)) :
    Paces size Node.flatten x x (isEqNode dst first second works) := by
  unfold isEqNode
  split
  · exact (paces_unmoveNode hs hx h₁ h₂).bind fun less ha =>
      (paces_isZeroNode hs hx hd h₁ false).bind fun test hb => .pure (ha.nodes_cons hb.node)
  · next spare work =>
      have hp := hw spare (by simp)
      have hw := hw work (by simp)
      refine (paces_copyNode hs hx hp h₁ hw).bind fun copy ha => (paces_drain hs hx h₂
        (by simp [Target.Counting]) (by simp [hp, hw])).bind fun less hb =>
          (paces_back hs hx h₂).bind fun back hc => (paces_moveNode hs hx h₂ hw).bind
            fun restore hr => (paces_isZeroNode hs hx hd hp false).bind fun test he => .pure ?_
      exact ha.nodes_cons (hb.nodes_append (hc.nodes_cons (hr.nodes_cons he.node)))
  · exact .error _

end

/-! ### Operations that fit -/

mutual

/-- The cells of an operation are on the tape, its offsets counting from cell `p` and the pointer
standing `e` cells from there. -/
def Fits (size : Nat) (p e : Int) : MacroOp → Prop
  | .go delta => On size (p + delta.toInt) ∧ On size (p + e + delta.toInt)
  | .cond src body | .loop src body =>
    On size (p + src.toInt) ∧ FitsAll size p src.toInt body
  | .branch src work whenTrue whenFalse =>
    (On size (p + src.toInt) ∧ On size (p + work.toInt)) ∧
      FitsAll size p src.toInt whenTrue ∧ FitsAll size p work.toInt whenFalse
  | .literal text shifted =>
    On size (p + shifted.toInt) ∧ ∀ c ∈ text, c ∉ [0x3E, 0x3C, 0x5B, 0x5D]
  | .control _ => False
  | op => ∀ c ∈ op.used, On size (p + c.toInt)

/-- The cells of operations in sequence are on the tape. -/
def FitsAll (size : Nat) (p e : Int) : List MacroOp → Prop
  | [] => True
  | op :: rest => op.Fits size p e ∧ FitsAll size (p + op.moved.toInt) e rest

end

/-- How far operations in sequence take the pointer. -/
def travel : List MacroOp → Int
  | [] => 0
  | op :: rest => op.moved.toInt + travel rest

/-- The displacement of operations is where they travel, as a word. -/
theorem displacement_eq_ofInt (ops : List MacroOp) :
    displacement ops = Int64.ofInt (travel ops) := by
  induction ops with
  | nil => rfl
  | cons op rest ih => rw [displacement, travel, Int64.ofInt_add, Int64.ofInt_toInt, ih]

/-- Raw text that fits comes back to its cell. -/
theorem Fits.moved_of_literal {size : Nat} {p e : Int} {text : Bytes} {shifted : Int64}
    (h : (literal text shifted).Fits size p e) : (literal text shifted).moved = 0 := by
  have h₁ : text.count 0x3E = 0 := List.count_eq_zero.mpr fun hm => h.2 _ hm (by simp)
  have h₂ : text.count 0x3C = 0 := List.count_eq_zero.mpr fun hm => h.2 _ hm (by simp)
  simp [moved, textDisplacement, h₁, h₂]

/-- After an operation that fits, the offsets count from a cell of the tape again, and the pointer
stands on one. -/
theorem Fits.lands {size : Nat} {p e : Int} (hp : On size p) (hx : On size (p + e)) :
    ∀ {op : MacroOp}, op.Fits size p e →
      On size (p + op.moved.toInt) ∧ On size (p + e + op.moved.toInt)
  | .go _, h => h
  | .literal _ _, h => by
      rw [h.moved_of_literal]
      simpa using ⟨hp, hx⟩
  | .control _, h => h.elim
  | .add .., _ | .move .., _ | .unmove .., _ | .zero _, _ | .copy .., _ | .isZero .., _
  | .and .., _ | .or .., _ | .xor .., _ | .isEq .., _ | .cond .., _ | .loop .., _
  | .branch .., _ => by simpa [moved] using ⟨hp, hx⟩

/-- Operations that fit lead to cells of the tape, in both ways of counting. -/
theorem FitsAll.lands {size : Nat} {p e : Int} (hp : On size p) (hx : On size (p + e))
    {ops : List MacroOp} (h : FitsAll size p e ops) :
    On size (p + travel ops) ∧ On size (p + e + travel ops) := by
  induction ops generalizing p with
  | nil => simpa [travel] using ⟨hp, hx⟩
  | cons op rest ih =>
      obtain ⟨h₁, h₂⟩ := h.1.lands hp hx
      have := ih h₁ (by rwa [Int.add_right_comm]) h.2
      rw [travel, ← Int.add_assoc, ← Int.add_assoc, Int.add_right_comm p e]
      exact this

/-- A body that fits and has no net movement in words has none at all. -/
theorem FitsAll.travel_eq_zero {size : Nat} (hs : size ≤ largestCapacity) {p e : Int}
    (hp : On size p) (hx : On size (p + e)) {ops : List MacroOp} (h : FitsAll size p e ops)
    (hd : displacement ops = 0) : travel ops = 0 := by
  have hl := (h.lands hp hx).1
  rw [displacement_eq_ofInt] at hd
  have := congrArg Int64.toInt hd
  unfold On at hp hl
  unfold largestCapacity at hs
  rwa [Int64.toInt_ofInt_of_le (by omega) (by omega), Int64.toInt_zero] at this

/-! ### All operations -/

section

variable {size : Nat} (hs : size ≤ largestCapacity)

/-- An operation that leaves the pointer where it was. -/
theorem Paces.home {x : Int} {op : MacroOp} {e : Except ExpandError Node} (hm : op.moved = 0)
    (h : Paces size Node.flatten x x e) : Paces size Node.flatten x (x + op.moved.toInt) e := by
  rwa [hm, Int64.toInt_zero, Int.add_zero]

/-- Text without moves and loops stays where it is. -/
theorem walks_of_still {x : Int} {text : Bytes}
    (h : ∀ c ∈ text, c ∉ [0x3E, 0x3C, 0x5B, 0x5D]) : Walks size x text x := by
  induction text with
  | nil => exact .nil x
  | cons c rest ih => exact .still (h c (by simp)) (ih fun d hd => h d (by simp [hd]))

include hs

section

variable {p : Int} {d : Int64} (hx : On size (p - d.toInt))

include hx

/-- A shifted offset names the same cell. -/
theorem add_shift {c : Int64} (hc : On size (p + c.toInt)) :
    p - d.toInt + (c + d).toInt = p + c.toInt := by
  unfold On at hx hc
  unfold largestCapacity at hs
  rw [Int64.toInt_add, Int.bmod_eq_of_le] <;> omega

/-- A cell of the tape stays one when the operation is shifted and the pointer is moved against it.
-/
theorem on_shift {c : Int64} (hc : On size (p + c.toInt)) :
    On size (p - d.toInt + (c + d).toInt) := by
  rwa [add_shift hs hx hc]

theorem on_shiftCells {cells : List Int64} (hc : ∀ c ∈ cells, On size (p + c.toInt)) :
    ∀ c ∈ shiftCells d cells, On size (p - d.toInt + c.toInt) := by
  intro c hmem
  obtain ⟨b, hb, rfl⟩ := List.mem_map.mp hmem
  exact on_shift hs hx (hc b hb)

end

/-- A body expanded at the cell that is tested around it. -/
theorem paces_body {src : Int64} {p : Int} (hp : On size p) (hsrc : On size (p + src.toInt))
    {body : List MacroOp} (h : FitsAll size p src.toInt body) (hd : displacement body = 0)
    (hb : On size (p - (-src).toInt) → FitsAll size p (-(-src).toInt) body →
      Paces size Node.flattenAll (p - (-src).toInt) (p - (-src).toInt + travel body)
        (expandAllAt (-src) body)) :
    Paces size Node.flattenAll (p + src.toInt) (p + src.toInt) (expandAllAt (-src) body) := by
  have hneg := toInt_neg_of_on hs hp hsrc
  have e : p - (-src).toInt = p + src.toInt := by omega
  have e' : -(-src).toInt = src.toInt := by omega
  rw [e, e', h.travel_eq_zero hs hp hsrc hd, Int.add_zero] at hb
  exact hb hsrc h

end

mutual

/-- **The text of an operation that fits is a walk.** -/
theorem paces_expandAt {size : Nat} (hs : size ≤ largestCapacity) (d : Int64) {p : Int}
    (hp : On size p) (hx : On size (p - d.toInt)) :
    ∀ {op : MacroOp}, op.Fits size p (-d.toInt) →
      Paces size Node.flatten (p - d.toInt) (p - d.toInt + op.moved.toInt) (expandAt d op)
  | .go delta, h => paces_goNode hx h.2
  | .add dst count, h =>
      .home rfl (paces_addNode hs hx (on_shift hs hx (h dst (by simp [used]))) count)
  | .zero dst, h => .home rfl (paces_zeroNode hs hx (on_shift hs hx (h dst (by simp [used]))))
  | .move dst src, h =>
      .home rfl (paces_moveNode hs hx (on_shift hs hx (h dst (by simp [used])))
        (on_shift hs hx (h src (by simp [used]))))
  | .unmove dst src, h =>
      .home rfl (paces_unmoveNode hs hx (on_shift hs hx (h dst (by simp [used])))
        (on_shift hs hx (h src (by simp [used]))))
  | .copy dst src work, h =>
      .home rfl (paces_copyNode hs hx (on_shift hs hx (h dst (by simp [used])))
        (on_shift hs hx (h src (by simp [used]))) (on_shift hs hx (h work (by simp [used]))))
  | .isZero dst src negated preserve, h =>
      .home rfl (paces_testNode hs hx (on_shift hs hx (h dst (by simp [used])))
        (on_shift hs hx (h src (by simp [used]))) negated
        (on_shiftCells hs hx fun c hc => h c (by simp [used, hc])))
  | .and dst srcs work, h =>
      .home rfl (paces_andNode hs hx (on_shift hs hx (h dst (by simp [used])))
        (on_shift hs hx (h work (by simp [used])))
        (on_shiftCells hs hx fun c hc => h c (by simp [used, hc])))
  | .or dst srcs, h =>
      .home rfl (paces_orNode hs hx (on_shift hs hx (h dst (by simp [used])))
        (on_shiftCells hs hx fun c hc => h c (by simp [used, hc])))
  | .xor dst srcs work, h =>
      .home rfl (paces_xorNode hs hx (on_shift hs hx (h dst (by simp [used])))
        (on_shift hs hx (h work (by simp [used])))
        (on_shiftCells hs hx fun c hc => h c (by simp [used, hc])))
  | .isEq dst first second works, h =>
      .home rfl (paces_isEqNode hs hx (on_shift hs hx (h dst (by simp [used])))
        (on_shift hs hx (h first (by simp [used])))
        (on_shift hs hx (h second (by simp [used])))
        (on_shiftCells hs hx fun c hc => h c (by simp [used, hc])))
  | .cond src body, h => by
      refine .home rfl ?_
      rw [expandAt]
      refine paces_condNode hs hx (on_shift hs hx h.1) fun hd => ?_
      rw [add_shift hs hx h.1]
      exact paces_body hs hp h.1 h.2 ((displacement_shiftAll d body).symm.trans hd)
        fun hx hb => paces_expandAllAt hs (-src) hp hx hb
  | .loop src body, h => by
      refine .home rfl ?_
      rw [expandAt]
      refine paces_loopNode hs hx (on_shift hs hx h.1) fun hd => ?_
      rw [add_shift hs hx h.1]
      exact paces_body hs hp h.1 h.2 ((displacement_shiftAll d body).symm.trans hd)
        fun hx hb => paces_expandAllAt hs (-src) hp hx hb
  | .branch src work whenTrue whenFalse, ⟨⟨hsrc, hw⟩, ht, hf⟩ => by
      have hsrc' := on_shift hs hx hsrc
      have hw' := on_shift hs hx hw
      refine .home rfl ((paces_addNode hs hx hw' 1).bind fun one h₁ =>
        (paces_condNode hs hx hsrc' fun hd => ?_).bind fun taken h₂ =>
          (paces_condNode hs hx hw' fun hd => ?_).bind fun other h₃ =>
            .pure (h₁.nodes_cons (h₂.nodes_cons h₃.node)))
      · rw [displacement_append, displacement_shiftAll] at hd
        have hd' : displacement whenTrue = 0 := by simpa [displacement, moved] using hd
        rw [add_shift hs hx hsrc]
        exact (paces_body hs hp hsrc ht hd' fun hx hb =>
          paces_expandAllAt hs (-src) hp hx hb).bind fun nodes h₁ =>
          (paces_addNode hs hsrc (on_between hs hsrc hw) (-1)).bind fun less h₂ =>
            .pure (h₁.nodes_append h₂.node)
      · rw [add_shift hs hx hw]
        exact paces_body hs hp hw hf ((displacement_shiftAll d whenFalse).symm.trans hd)
          fun hx hb => paces_expandAllAt hs (-work) hp hx hb
  | .literal text shifted, h => by
      refine .home h.moved_of_literal (paces_literalNode hs hx (on_shift hs hx h.1) ?_)
      exact walks_of_still h.2
  | .control _, h => h.elim

/-- So it is with operations in sequence, each from where the one before has led. -/
theorem paces_expandAllAt {size : Nat} (hs : size ≤ largestCapacity) (d : Int64) {p : Int}
    (hp : On size p) (hx : On size (p - d.toInt)) :
    ∀ {ops : List MacroOp}, FitsAll size p (-d.toInt) ops →
      Paces size Node.flattenAll (p - d.toInt) (p - d.toInt + travel ops) (expandAllAt d ops)
  | [], _ => by
      rw [travel, Int.add_zero]
      exact .pure (.nil _)
  | op :: rest, ⟨h₁, h₂⟩ => by
      obtain ⟨hp', hx'⟩ := h₁.lands hp hx
      have e : p - d.toInt + op.moved.toInt = p + op.moved.toInt - d.toInt := by omega
      have hrest := paces_expandAllAt hs d hp' (e ▸ hx') h₂
      rw [← e, Int.add_assoc, ← travel] at hrest
      exact (paces_expandAt hs d hp hx h₁).bind fun n hn => hrest.bind fun more hm =>
        .pure (hn.nodes_cons hm)

end

/-- **Operations that fit are written as a walk.** -/
theorem walks_expandAll {size : Nat} (hs : size ≤ largestCapacity) {p : Int} (hp : On size p)
    {ops : List MacroOp} (h : FitsAll size p 0 ops) {nodes : List Node}
    (he : expandAll ops = .ok nodes) :
    Walks size p (Node.flattenAll nodes) (p + travel ops) := by
  have hx : On size (p - (0 : Int64).toInt) := by simpa using hp
  have := paces_expandAllAt hs 0 hp hx (by simpa using h) nodes he
  simpa using this

end MacroOp

end StackTape
