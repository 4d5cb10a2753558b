import StackTape.Proofs.Expansion.Text

/-!
# How long an expansion is

`lengthAt d op` counts the bytes of the text of `op` shifted by `d`, without writing it: the moves
between the cells that are visited one after another, the counts, and what stands between them.
`Measures good k text e` says how a part `e` of an expansion ends if its text has `k` bytes.  It
gives such a text and is `good`, or it is refused and is not, or it stops because a text is too long
to be held, and then `k` bytes are too many too.

There is one theorem for each kind of node, and `measures_expandAt` puts them together: what stands
against writing an operation is that it is not formed at some depth (`Formed`, `parts`) or that its
text is too long.  `lengthAllAt_le` bounds the length by the offsets and the number of operands.
-/

namespace StackTape

/-! ### Spans -/

/-- How far an offset reaches, or how high a count goes, one way or the other. -/
def span (n : Int64) : Nat := n.toInt.natAbs

@[simp] theorem span_zero : span 0 = 0 := rfl

@[simp] theorem span_one : span 1 = 1 := by decide

@[simp] theorem span_neg_one : span (-1) = 1 := by decide

/-- There and back is the same distance, the least offset included. -/
@[simp] theorem span_neg (n : Int64) : span (-n) = span n := by
  have hlow := n.le_toInt
  have hhigh := n.toInt_lt
  unfold span
  rw [Int64.toInt_neg, Int.bmod_def]
  split_ifs <;> omega

/-- A sum that overflows only comes nearer. -/
theorem span_add_le (a b : Int64) : span (a + b) ≤ span a + span b := by
  have ha := a.le_toInt
  have hb := b.le_toInt
  unfold span
  rw [Int64.toInt_add, Int.bmod_def]
  split_ifs <;> omega

/-- So it is with a difference. -/
theorem span_sub_le (a b : Int64) : span (a - b) ≤ span a + span b := by
  have ha := a.le_toInt
  have hb := b.le_toInt
  unfold span
  rw [Int64.toInt_sub, Int.bmod_def]
  split_ifs <;> omega

/-! ### Lengths of nodes -/

namespace Node

theorem length_nil : (flattenAll []).length = 0 := rfl

/-- The first node counts towards the length. -/
theorem length_cons (n : Node) (ns : List Node) :
    (flattenAll (n :: ns)).length = n.flatten.length + (flattenAll ns).length :=
  List.length_append

/-- The text of nodes is as long as their texts together. -/
theorem length_append (ns ms : List Node) :
    (flattenAll (ns ++ ms)).length = (flattenAll ns).length + (flattenAll ms).length := by
  rw [flattenAll_append, List.length_append]

theorem length_raw (text : Bytes) : (raw text).flatten.length = text.length := rfl

theorem length_tree (op : MacroOp) (ns : List Node) :
    (tree op ns).flatten.length = (flattenAll ns).length := rfl

end Node

namespace MacroOp

/-! ### The length of a text -/

/-- Visits to some cells from `pos`, with one change at each, and the way on to `home`. -/
def legsLength (home : Int64) : (pos : Int64) → List Int64 → Nat
  | pos, [] => span (home - pos)
  | pos, c :: rest => span (c - pos) + 1 + legsLength home c rest

/-- A drain of `src` that changes some cells once a round. -/
def drainLength (src : Int64) (cells : List Int64) : Nat := span src + legsLength src src cells + 3

/-- A count added to a cell. -/
def addLength (dst count : Int64) : Nat := 2 * span dst + span count

/-- A cell cleared. -/
def zeroLength (dst : Int64) : Nat := 2 * span dst + 3

/-- A drain of one cell into another, or out of it. -/
def moveLength (dst src : Int64) : Nat := drainLength src [dst] + span src

/-- A copy. -/
def copyLength (dst src work : Int64) : Nat :=
  drainLength src [work, dst] + moveLength 0 (work - src) + span src

/-- A condition around a text of `inner` bytes. -/
def condLength (src : Int64) (inner : Nat) : Nat := 2 * span src + inner + zeroLength 0 + 2

/-- A loop around a text of `inner` bytes. -/
def loopLength (src : Int64) (inner : Nat) : Nat := 2 * span src + inner + 2

/-- A count added to `dst` if `src` is nonzero. -/
def condAddLength (dst count src : Int64) : Nat := condLength src (addLength (dst - src) count)

/-- A test that drains its cell. -/
def isZeroLength (dst src : Int64) (negated : Bool) : Nat :=
  if negated then condAddLength dst 1 src else addLength dst 1 + condAddLength dst (-1) src

/-- A test, draining or preserving. -/
def testLength (dst src : Int64) (negated : Bool) : (preserve : List Int64) → Nat
  | [] => isZeroLength dst src negated
  | [spare, work] => copyLength spare src work + isZeroLength dst spare negated
  | _ => 0

/-- A conjunction. -/
def andLength (dst : Int64) (srcs : List Int64) (work : Int64) : Nat :=
  addLength work (Int64.ofNat srcs.length) + (srcs.map (condAddLength work (-1))).sum +
    isZeroLength dst work false

/-- A count of nonzero sources. -/
def orLength (dst : Int64) (srcs : List Int64) : Nat := (srcs.map (condAddLength dst 1)).sum

/-- One toggle of a parity. -/
def toggleLength (dst work src : Int64) : Nat :=
  condLength src (moveLength (work - src) (dst - src) + isZeroLength (dst - src) (work - src) false)

/-- A parity. -/
def xorLength (dst : Int64) (srcs : List Int64) (work : Int64) : Nat :=
  (srcs.map (toggleLength dst work)).sum

/-- A comparison, draining or preserving. -/
def isEqLength (dst first second : Int64) : (works : List Int64) → Nat
  | [] => moveLength first second + isZeroLength dst first false
  | [spare, work] =>
    copyLength spare first work + drainLength second [spare, work] + span second +
      moveLength second work + isZeroLength dst spare false
  | _ => 0

mutual

/-- The length of the text of an operation shifted by `d`; a body is written at the cell that is
tested. -/
def lengthAt (d : Int64) : MacroOp → Nat
  | .go delta => span delta
  | .add dst count => addLength (dst + d) count
  | .move dst src => moveLength (dst + d) (src + d)
  | .unmove dst src => moveLength (dst + d) (src + d)
  | .zero dst => zeroLength (dst + d)
  | .copy dst src work => copyLength (dst + d) (src + d) (work + d)
  | .isZero dst src negated preserve =>
    testLength (dst + d) (src + d) negated (shiftCells d preserve)
  | .and dst srcs work => andLength (dst + d) (shiftCells d srcs) (work + d)
  | .or dst srcs => orLength (dst + d) (shiftCells d srcs)
  | .xor dst srcs work => xorLength (dst + d) (shiftCells d srcs) (work + d)
  | .isEq dst first second works =>
    isEqLength (dst + d) (first + d) (second + d) (shiftCells d works)
  | .cond src body => condLength (src + d) (lengthAllAt (-src) body)
  | .loop src body => loopLength (src + d) (lengthAllAt (-src) body)
  | .branch src work whenTrue whenFalse =>
    addLength (work + d) 1 +
      condLength (src + d) (lengthAllAt (-src) whenTrue + addLength (work - src) (-1)) +
      condLength (work + d) (lengthAllAt (-work) whenFalse)
  | .literal text shifted => 2 * span (shifted + d) + text.length
  | .control _ => 0

/-- The length of the text of some operations shifted by `d`. -/
def lengthAllAt (d : Int64) : List MacroOp → Nat
  | [] => 0
  | op :: rest => lengthAt d op + lengthAllAt d rest

end

/-- The length of the text of some operations. -/
def textLength (ops : List MacroOp) : Nat := lengthAllAt 0 ops

/-! ### Operations that can be written -/

/-- There are as many operands as the expansion needs, the bodies leave the pointer where it was,
and no control flow is left. -/
def Formed : MacroOp → Prop
  | .isZero _ _ _ cells | .isEq _ _ _ cells => cells.length = 0 ∨ cells.length = 2
  | .and _ srcs _ | .or _ srcs => srcs ≠ []
  | .xor _ srcs _ => 2 ≤ srcs.length
  | .cond _ body | .loop _ body => displacement body = 0
  | .branch _ _ whenTrue whenFalse => displacement whenTrue = 0 ∧ displacement whenFalse = 0
  | .control _ => False
  | _ => True

/-- Shifting keeps the number of operands and the movement of the bodies. -/
theorem formed_shift (d : Int64) (op : MacroOp) : (shift d op).Formed ↔ op.Formed := by
  cases op <;> simp [shift, Formed, shiftCells, displacement_shiftAll]

/-! ### Parts of an expansion -/

/-- How a part of an expansion ends whose text has `k` bytes: with such a text if it is `good`,
refused if it is not, or stopped by a text that is too long, if `k` bytes are too many. -/
def Measures {α : Type} (good : Prop) (k : Nat) (text : α → Bytes) : Except ExpandError α → Prop
  | .ok a => good ∧ (text a).length = k
  | .error (.overlong _) => 2 ^ 48 < k
  | .error (.refused ..) => ¬ good

section

variable {α β : Type} {P Q : Prop} {j k : Nat} {text : α → Bytes} {text' : β → Bytes}
  {x : Except ExpandError α} {f : α → Except ExpandError β}

/-- Another way to say what is good. -/
theorem Measures.congr (h : Measures P k text x) (hpq : P ↔ Q) : Measures Q k text x :=
  propext hpq ▸ h

/-- Both parts are good, and the text of the second contains that of the first. -/
theorem Measures.bind (hx : Measures P j text x) (hjk : j ≤ k)
    (hf : ∀ a, (text a).length = j → Measures Q k text' (f a)) :
    Measures (P ∧ Q) k text' (x >>= f) := by
  match x with
  | .ok a => exact (hf a hx.2).congr (and_iff_right hx.1).symm
  | .error (.overlong _) => exact Nat.lt_of_lt_of_le hx hjk
  | .error (.refused ..) => exact fun h => hx h.1

/-- After a part that is never refused. -/
theorem Measures.next (hx : Measures True j text x) (hjk : j ≤ k)
    (hf : ∀ a, (text a).length = j → Measures Q k text' (f a)) : Measures Q k text' (x >>= f) :=
  (hx.bind hjk hf).congr (Iff.of_eq (true_and Q))

/-- What is good and not too long gives a result. -/
theorem Measures.exists_ok (h : Measures P k text x) (hP : P) (hk : k ≤ 2 ^ 48) :
    ∃ a, x = .ok a := by
  match x with
  | .ok a => exact ⟨a, rfl⟩
  | .error (.overlong _) => exact absurd h (Nat.not_lt.mpr hk)
  | .error (.refused ..) => exact absurd hP h

/-- What is put together at last is good. -/
theorem Measures.done {b : β} (h : (text' b).length = k) :
    Measures True k text' (.ok b : Except ExpandError β) :=
  ⟨trivial, h⟩

end

/-! ### Runs of one instruction -/

theorem longestText_toInt : longestText.toInt = 2 ^ 48 := by decide

/-- A run is as long as its count, and one of a negative count is not written. -/
theorem measures_run (b : UInt8) {count : Int64} {k : Nat}
    (h : 0 ≤ count.toInt ∧ count.toInt = k ∨ count.toInt < 0 ∧ 2 ^ 48 < k) :
    Measures True k id (run b count) := by
  unfold run
  split_ifs with hlong <;>
    rw [Int64.lt_iff_toInt_lt, Int64.lt_iff_toInt_lt, longestText_toInt, Int64.toInt_zero] at hlong
  · show 2 ^ 48 < k
    omega
  · refine .done ?_
    rw [id, Bytes.repeated, List.length_replicate]
    omega

/-- A run one way or the other.  The least offset of all has no opposite; it is too far both
ways. -/
theorem measures_signed (b c : UInt8) (n : Int64) :
    Measures True (span n) id (if n < 0 then run b (-n) else run c n) := by
  have hlow := n.le_toInt
  unfold span
  split_ifs with h <;> rw [Int64.lt_iff_toInt_lt, Int64.toInt_zero] at h
  · refine measures_run b ?_
    rw [Int64.toInt_neg, Int.bmod_def]
    split_ifs <;> omega
  · exact measures_run c (by omega)

/-- A move takes one instruction for every cell. -/
theorem measures_moveText (delta : Int64) : Measures True (span delta) id (moveText delta) :=
  measures_signed 0x3C 0x3E delta

/-- A count takes one instruction for every unit. -/
theorem measures_countText (count : Int64) : Measures True (span count) id (countText count) :=
  measures_signed 0x2D 0x2B count

/-- Text that is put together is too long just if it is longer than the longest. -/
theorem measures_joined (text : Bytes) : Measures True text.length id (joined text) := by
  rcases joined_cases text with ⟨h, -⟩ | ⟨h, hlong⟩ <;> rw [h]
  · exact .done rfl
  · rw [longestText_toInt] at hlong
    exact_mod_cast hlong

/-! ### Straight-line operations -/

theorem measures_goNode (delta : Int64) :
    Measures True (span delta) Node.flatten (goNode delta) :=
  (measures_moveText delta).next le_rfl fun _ h => .done h

theorem measures_back (delta : Int64) :
    Measures True (span delta) Node.flatten (goNode (-delta)) :=
  span_neg delta ▸ measures_goNode (-delta)

/-- Raw text with the way there and back is one text, and may be too long as a whole. -/
theorem measures_literalNode (text : Bytes) (shifted : Int64) :
    Measures True (2 * span shifted + text.length) Node.flatten (literalNode text shifted) := by
  unfold literalNode
  split_ifs with h
  · subst h
    exact .done (by rw [Node.flatten, span_zero]; omega)
  · refine (measures_moveText shifted).next (by omega) fun there h₁ => ?_
    refine (span_neg shifted ▸ measures_moveText (-shifted)).next (by omega) fun back h₂ => ?_
    have hlen : (there ++ text ++ back).length = 2 * span shifted + text.length := by
      rw [List.length_append, List.length_append]
      change there.length = _ at h₁
      change back.length = _ at h₂
      omega
    exact (hlen ▸ measures_joined (there ++ text ++ back)).next le_rfl fun _ h => .done h

/-- A text written at another cell. -/
theorem measures_there (op : MacroOp) (dst : Int64) {k : Nat} {e : Except ExpandError Bytes}
    (he : Measures True k id e) :
    Measures True (2 * span dst + k) Node.flatten (do
      let there ← goNode dst
      let text ← e
      let back ← goNode (-dst)
      return Node.tree op [there, .raw text, back]) := by
  refine (measures_goNode dst).next (by omega) fun there h₁ => he.next (by omega) fun text h₂ =>
    (measures_back dst).next (by omega) fun back h₃ => .done ?_
  change text.length = k at h₂
  simp only [Node.length_tree, Node.length_cons, Node.length_raw, Node.length_nil]
  omega

/-- A count between the way there and the way back. -/
theorem measures_addNode (dst count : Int64) :
    Measures True (addLength dst count) Node.flatten (addNode dst count) :=
  measures_there _ dst (measures_countText count)

/-- The loop that clears a cell has three instructions. -/
theorem measures_zeroNode (dst : Int64) :
    Measures True (zeroLength dst) Node.flatten (zeroNode dst) :=
  measures_there _ dst (.done rfl : Measures True 3 id (.ok (Bytes.ascii "[-]")))

/-- Every visit is a move and one instruction. -/
theorem measures_visits (src : Int64) (targets : List Target) (pos : Int64) :
    Measures True (legsLength src pos (targets.map (·.cell))) Node.flattenAll
      (visits src pos targets) := by
  induction targets generalizing pos with
  | nil =>
      refine (measures_goNode (src - pos)).next le_rfl fun back h => .done ?_
      rw [Node.length_cons, h, Node.length_nil]
      rfl
  | cons t rest ih =>
      rw [List.map_cons, legsLength]
      refine (measures_goNode (t.cell - pos)).next (by omega) fun there h₁ =>
        (ih t.cell).next (by omega) fun more h₂ => .done ?_
      simp only [Node.length_cons, Node.length_raw, List.length_singleton]
      omega

/-- A drain is the way there, and one round in brackets. -/
theorem measures_drain (src : Int64) (targets : List Target) :
    Measures True (drainLength src (targets.map (·.cell))) Node.flattenAll (drain src targets) := by
  unfold drainLength
  refine (measures_goNode src).next (by omega) fun there h₁ =>
    (measures_visits src targets src).next (by omega) fun round h₂ => .done ?_
  have hopen : (Bytes.ascii "[-").length = 2 ∧ (Bytes.ascii "]").length = 1 := ⟨rfl, rfl⟩
  simp only [Node.length_cons, Node.length_append, Node.length_raw, Node.length_nil]
  omega

/-- A drain and the way back. -/
theorem measures_drain_back (op : MacroOp) (src : Int64) (targets : List Target) :
    Measures True (drainLength src (targets.map (·.cell)) + span src) Node.flatten (do
      let loop ← drain src targets
      let back ← goNode (-src)
      return Node.tree op (loop ++ [back])) := by
  refine (measures_drain src targets).next (by omega) fun loop h₁ =>
    (measures_back src).next (by omega) fun back h₂ => .done ?_
  simp only [Node.length_tree, Node.length_append, Node.length_cons, Node.length_nil]
  omega

theorem measures_moveNode (dst src : Int64) :
    Measures True (moveLength dst src) Node.flatten (moveNode dst src) :=
  measures_drain_back _ src [⟨dst, 0x2B⟩]

theorem measures_unmoveNode (dst src : Int64) :
    Measures True (moveLength dst src) Node.flatten (unmoveNode dst src) :=
  measures_drain_back _ src [⟨dst, 0x2D⟩]

/-- A copy drains twice, the second time counting from its source. -/
theorem measures_copyNode (dst src work : Int64) :
    Measures True (copyLength dst src work) Node.flatten (copyNode dst src work) := by
  unfold copyLength
  refine (measures_drain src [⟨work, 0x2B⟩, ⟨dst, 0x2B⟩]).next ?_ fun loop h₁ =>
    (measures_moveNode 0 (work - src)).next (by omega) fun restore h₂ =>
      (measures_back src).next (by omega) fun back h₃ => .done ?_
  · simp only [List.map_cons, List.map_nil]
    omega
  · simp only [Node.length_tree, Node.length_append, Node.length_cons, Node.length_nil,
      List.map_cons, List.map_nil] at h₁ ⊢
    omega

/-! ### Conditions -/

section

variable {P : Prop} {k : Nat} (body : List MacroOp)
  (inner : Unit → Except ExpandError (List Node))

/-- A condition is refused if its body moves the pointer, whatever is inside. -/
theorem measures_condNode (src : Int64) (hi : Measures P k Node.flattenAll (inner ())) :
    Measures (displacement body = 0 ∧ P) (condLength src k) Node.flatten
      (condNode src body inner) := by
  unfold condNode condLength
  split_ifs with h
  · exact fun hg => h hg.1
  · have hgood : P ∧ True ↔ displacement body = 0 ∧ P := by tauto
    refine Measures.congr ?_ hgood
    refine (measures_goNode src).next (by omega) fun there h₁ => hi.bind (by omega) fun nodes h₂ =>
      (measures_zeroNode 0).next (by omega) fun clear h₃ =>
        (measures_back src).next (by omega) fun back h₄ => .done ?_
    have hone : (Bytes.ascii "[").length = 1 ∧ (Bytes.ascii "]").length = 1 := ⟨rfl, rfl⟩
    simp only [Node.length_tree, Node.length_cons, Node.length_append, Node.length_raw,
      Node.length_nil]
    omega

/-- So is a loop. -/
theorem measures_loopNode (src : Int64) (hi : Measures P k Node.flattenAll (inner ())) :
    Measures (displacement body = 0 ∧ P) (loopLength src k) Node.flatten
      (loopNode src body inner) := by
  unfold loopNode loopLength
  split_ifs with h
  · exact fun hg => h hg.1
  · have hgood : P ∧ True ↔ displacement body = 0 ∧ P := by tauto
    refine Measures.congr ?_ hgood
    refine (measures_goNode src).next (by omega) fun there h₁ => hi.bind (by omega) fun nodes h₂ =>
      (measures_back src).next (by omega) fun back h₃ => .done ?_
    have hone : (Bytes.ascii "[").length = 1 ∧ (Bytes.ascii "]").length = 1 := ⟨rfl, rfl⟩
    simp only [Node.length_tree, Node.length_cons, Node.length_append, Node.length_raw,
      Node.length_nil]
    omega

end

/-- One node as a list of nodes. -/
theorem Measures.single {P : Prop} {k : Nat} {e : Except ExpandError Node}
    (h : Measures P k Node.flatten e) :
    Measures P k Node.flattenAll (do return [← e]) :=
  (h.bind le_rfl fun _ h => .done (by rw [Node.flattenAll_single, h])).congr
    (Iff.of_eq (and_true P))

/-- The body of such a condition moves nothing. -/
theorem measures_condAddNode (src dst count : Int64) :
    Measures True (condAddLength dst count src) Node.flatten (condAddNode src dst count) :=
  (measures_condNode _ _ src (measures_addNode (dst - src) count).single).congr
    (iff_true_intro ⟨rfl, trivial⟩)

/-- One condition after another. -/
theorem measures_condAddNodes (dst count : Int64) (srcs : List Int64) :
    Measures True (srcs.map (condAddLength dst count)).sum Node.flattenAll
      (condAddNodes dst count srcs) := by
  induction srcs with
  | nil => exact .done rfl
  | cons src rest ih =>
      rw [List.map_cons, List.sum_cons]
      refine (measures_condAddNode src dst count).next (by omega) fun n h₁ =>
        ih.next (by omega) fun more h₂ => .done ?_
      rw [Node.length_cons, h₁, h₂]

/-- A test is one condition, with a count before it or without. -/
theorem measures_isZeroNode (dst src : Int64) (negated : Bool) :
    Measures True (isZeroLength dst src negated) Node.flatten (isZeroNode dst src negated) := by
  have hchildren : Measures True (isZeroLength dst src negated) Node.flattenAll
      (isZeroChildren dst src negated) := by
    unfold isZeroLength isZeroChildren
    split_ifs
    · exact (measures_condAddNode src dst 1).single
    · refine (measures_addNode dst 1).next (by omega) fun one h₁ =>
        (measures_condAddNode src dst (-1)).next (by omega) fun less h₂ => .done ?_
      rw [Node.length_cons, Node.flattenAll_single, h₁, h₂]
  exact hchildren.next le_rfl fun _ h => .done h

/-- A test is refused for a number of work cells that is neither none nor two. -/
theorem measures_testNode (dst src : Int64) (negated : Bool) (preserve : List Int64) :
    Measures (isZero dst src negated preserve).Formed (testLength dst src negated preserve)
      Node.flatten (testNode dst src negated preserve) := by
  match preserve with
  | [] => exact (measures_isZeroNode dst src negated).congr (iff_of_true trivial (.inl rfl))
  | [spare, work] =>
      refine Measures.congr ?_ (iff_of_true trivial (.inr rfl))
      rw [testLength]
      refine (measures_copyNode spare src work).next (by omega) fun copy h₁ =>
        (measures_isZeroNode dst spare negated).next (by omega) fun test h₂ => .done ?_
      rw [Node.length_tree, Node.length_cons, Node.flattenAll_single, h₁, h₂]
  | [_] | _ :: _ :: _ :: _ => simp [testNode, Measures, Formed]

/-- A conjunction is refused without sources. -/
theorem measures_andNode (dst : Int64) (srcs : List Int64) (work : Int64) :
    Measures (and dst srcs work).Formed (andLength dst srcs work) Node.flatten
      (andNode dst srcs work) := by
  unfold andNode andLength
  split_ifs with h
  · exact fun hg => hg (List.isEmpty_iff.mp h)
  · rw [List.isEmpty_iff] at h
    refine Measures.congr ?_ (iff_of_true trivial h)
    refine (measures_addNode work _).next (by omega) fun count h₁ =>
      (measures_condAddNodes work (-1) srcs).next (by omega) fun tests h₂ =>
        (measures_isZeroNode dst work false).next (by omega) fun test h₃ => .done ?_
    rw [Node.length_tree, Node.length_cons, Node.length_append, Node.flattenAll_single]
    omega

/-- So is a count of nonzero sources. -/
theorem measures_orNode (dst : Int64) (srcs : List Int64) :
    Measures (or dst srcs).Formed (orLength dst srcs) Node.flatten (orNode dst srcs) := by
  unfold orNode
  split_ifs with h
  · exact fun hg => hg (List.isEmpty_iff.mp h)
  · rw [List.isEmpty_iff] at h
    refine Measures.congr ?_ (iff_of_true trivial h)
    exact (measures_condAddNodes dst 1 srcs).next le_rfl fun _ h => .done h

/-- One toggle after another. -/
theorem measures_toggleNodes (dst work : Int64) (srcs : List Int64) :
    Measures True (xorLength dst srcs work) Node.flattenAll (toggleNodes dst work srcs) := by
  unfold xorLength
  induction srcs with
  | nil => exact .done rfl
  | cons src rest ih =>
      rw [List.map_cons, List.sum_cons]
      have hbody : Measures True (moveLength (work - src) (dst - src) +
          isZeroLength (dst - src) (work - src) false) Node.flattenAll (do
            let park ← moveNode (work - src) (dst - src)
            let test ← isZeroNode (dst - src) (work - src) false
            return [park, test]) := by
        refine (measures_moveNode _ _).next (by omega) fun park h₁ =>
          (measures_isZeroNode _ _ false).next (by omega) fun test h₂ => .done ?_
        rw [Node.length_cons, Node.flattenAll_single, h₁, h₂]
      have htoggle := (measures_condNode (toggle dst work) (fun _ => do
          let park ← moveNode (work - src) (dst - src)
          let test ← isZeroNode (dst - src) (work - src) false
          return [park, test]) src hbody).congr (iff_true_intro ⟨rfl, trivial⟩)
      refine htoggle.next (Nat.le_add_right _ _) fun n h₁ => ih.next (by omega) fun more h₂ =>
        .done ?_
      rw [Node.length_cons, h₁, h₂, toggleLength]

/-- A parity is refused with fewer than two sources. -/
theorem measures_xorNode (dst : Int64) (srcs : List Int64) (work : Int64) :
    Measures (xor dst srcs work).Formed (xorLength dst srcs work) Node.flatten
      (xorNode dst srcs work) := by
  unfold xorNode
  split_ifs with h
  · exact Nat.not_le.mpr h
  · refine Measures.congr ?_ (iff_of_true trivial (Nat.not_lt.mp h))
    exact (measures_toggleNodes dst work srcs).next le_rfl fun _ h => .done h

/-- A comparison is refused for a number of work cells that is neither none nor two. -/
theorem measures_isEqNode (dst first second : Int64) (works : List Int64) :
    Measures (isEq dst first second works).Formed (isEqLength dst first second works)
      Node.flatten (isEqNode dst first second works) := by
  match works with
  | [] =>
      refine Measures.congr ?_ (iff_of_true trivial (.inl rfl))
      rw [isEqLength]
      refine (measures_unmoveNode first second).next (by omega) fun less h₁ =>
        (measures_isZeroNode dst first false).next (by omega) fun test h₂ => .done ?_
      rw [Node.length_tree, Node.length_cons, Node.flattenAll_single, h₁, h₂]
  | [spare, work] =>
      refine Measures.congr ?_ (iff_of_true trivial (.inr rfl))
      rw [isEqLength]
      refine (measures_copyNode spare first work).next (by omega) fun copy h₁ =>
        (measures_drain second [⟨spare, 0x2D⟩, ⟨work, 0x2B⟩]).next ?_ fun less h₂ =>
          (measures_back second).next (by omega) fun back h₃ =>
            (measures_moveNode second work).next (by omega) fun restore h₄ =>
              (measures_isZeroNode dst spare false).next (by omega) fun test h₅ => .done ?_
      · simp only [List.map_cons, List.map_nil]
        omega
      · simp only [Node.length_tree, Node.length_append, Node.length_cons, Node.length_nil,
          List.map_cons, List.map_nil] at h₂ ⊢
        omega
  | [_] | _ :: _ :: _ :: _ => simp [isEqNode, Measures, Formed]

/-! ### All operations -/

/-- An operation without bodies is its only part. -/
theorem formed_alone (d : Int64) (op : MacroOp) :
    (shift d op).Formed ↔ ∀ part ∈ [op], part.Formed := by
  rw [formed_shift, List.forall_mem_singleton]

mutual

/-- **An operation is expanded if it is formed at every depth and its text is not too long**; it is
refused only if it is not formed, and its text is as long as `lengthAt` says. -/
theorem measures_expandAt (d : Int64) : ∀ op : MacroOp,
    Measures (∀ part ∈ op.parts, part.Formed) (lengthAt d op) Node.flatten (expandAt d op)
  | .go delta => (measures_goNode delta).congr (by simp [parts, Formed])
  | .add dst count => (measures_addNode _ count).congr (by simp [parts, Formed])
  | .move dst src => (measures_moveNode _ _).congr (by simp [parts, Formed])
  | .unmove dst src => (measures_unmoveNode _ _).congr (by simp [parts, Formed])
  | .zero dst => (measures_zeroNode _).congr (by simp [parts, Formed])
  | .copy dst src work => (measures_copyNode _ _ _).congr (by simp [parts, Formed])
  | .isZero dst src negated preserve =>
      (measures_testNode _ _ negated _).congr (formed_alone d (.isZero dst src negated preserve))
  | .and dst srcs work => (measures_andNode _ _ _).congr (formed_alone d (.and dst srcs work))
  | .or dst srcs => (measures_orNode _ _).congr (formed_alone d (.or dst srcs))
  | .xor dst srcs work => (measures_xorNode _ _ _).congr (formed_alone d (.xor dst srcs work))
  | .isEq dst first second works =>
      (measures_isEqNode _ _ _ _).congr (formed_alone d (.isEq dst first second works))
  | .literal text shifted => (measures_literalNode text _).congr (by simp [parts, Formed])
  | .control instr => fun h => h _ List.mem_cons_self
  | .cond src body => by
      refine (measures_condNode (shiftAll d body) (fun _ => expandAllAt (-src) body) (src + d)
        (measures_expandAllAt (-src) body)).congr ?_
      rw [parts, List.forall_mem_cons, displacement_shiftAll, Formed]
  | .loop src body => by
      refine (measures_loopNode (shiftAll d body) (fun _ => expandAllAt (-src) body) (src + d)
        (measures_expandAllAt (-src) body)).congr ?_
      rw [parts, List.forall_mem_cons, displacement_shiftAll, Formed]
  | .branch src work whenTrue whenFalse => by
      -- the body that is taken also clears the cell that the other one tests
      have htaken : Measures ((∀ part ∈ partsAll whenTrue, part.Formed) ∧ True)
          (lengthAllAt (-src) whenTrue + addLength (work - src) (-1)) Node.flattenAll (do
            let nodes ← expandAllAt (-src) whenTrue
            let less ← addNode (work - src) (-1)
            return nodes ++ [less]) := by
        refine (measures_expandAllAt (-src) whenTrue).bind (by omega) fun nodes h₁ =>
          (measures_addNode (work - src) (-1)).next (by omega) fun less h₂ => .done ?_
        rw [Node.length_append, Node.flattenAll_single, h₁, h₂]
      have hother := measures_condNode (shiftAll d whenFalse)
        (fun _ => expandAllAt (-work) whenFalse) (work + d) (measures_expandAllAt (-work) whenFalse)
      rw [lengthAt]
      refine Measures.congr ((measures_addNode (work + d) 1).next (by omega) fun one h₁ =>
        (measures_condNode (shiftAll d whenTrue ++ [.add (work + d) (-1)]) (fun _ => _) (src + d)
          htaken).bind (by omega) fun taken h₂ =>
            hother.bind (by omega) fun other h₃ => .done ?_) ?_
      · rw [Node.length_tree, Node.length_cons, Node.length_cons, Node.flattenAll_single]
        omega
      · rw [parts, List.forall_mem_cons, List.forall_mem_append, displacement_taken,
          displacement_shiftAll, Formed]
        tauto

/-- So it is with operations in sequence, which are stopped by the first that is not written. -/
theorem measures_expandAllAt (d : Int64) : ∀ ops : List MacroOp,
    Measures (∀ part ∈ partsAll ops, part.Formed) (lengthAllAt d ops) Node.flattenAll
      (expandAllAt d ops)
  | [] => ⟨nofun, rfl⟩
  | op :: rest => by
      rw [lengthAllAt]
      refine ((measures_expandAt d op).bind (by omega) fun n h₁ =>
        (measures_expandAllAt d rest).bind (Q := True) (by omega) fun more h₂ => .done ?_).congr ?_
      · rw [Node.length_cons, h₁, h₂]
      · rw [partsAll, List.forall_mem_append, and_true]

end

/-! ### How long a text can be -/

/-- The offsets and the counts of an operation, its bodies apart. -/
def operands : MacroOp → List Int64
  | .go delta => [delta]
  | .add dst count => [dst, count]
  | .move dst src | .unmove dst src => [dst, src]
  | .zero dst => [dst]
  | .copy dst src work => [dst, src, work]
  | .isZero dst src _ preserve => dst :: src :: preserve
  | .and dst srcs work => dst :: work :: Int64.ofNat srcs.length :: srcs
  | .or dst srcs => dst :: srcs
  | .xor dst srcs work => dst :: work :: srcs
  | .isEq dst first second works => dst :: first :: second :: works
  | .cond src _ | .loop src _ => [src]
  | .branch src work _ _ => [src, work]
  | .literal _ shifted => [shifted]
  | .control _ => []

/-- No operand is larger than `D`. -/
def Near (D : Nat) (op : MacroOp) : Prop := ∀ n ∈ op.operands, span n ≤ D

/-- How much there is to write for an operation, its bodies apart. -/
def weight : MacroOp → Nat
  | .literal text _ => text.length + 2
  | op => op.operands.length + 1

/-- How much there is to write for some operations, their bodies apart. -/
def weights (ops : List MacroOp) : Nat := (ops.map weight).sum

@[simp] theorem weights_nil : weights [] = 0 := rfl

@[simp] theorem weights_cons (op : MacroOp) (ops : List MacroOp) :
    weights (op :: ops) = op.weight + weights ops :=
  List.sum_cons

/-- What there is to write adds up. -/
@[simp] theorem weights_append (ops more : List MacroOp) :
    weights (ops ++ more) = weights ops + weights more := by
  rw [weights, List.map_append, List.sum_append, weights, weights]

section

variable {E : Nat} {dst src work count : Int64}

theorem addLength_le (count : Int64) (hd : span dst ≤ E) :
    addLength dst count ≤ 2 * E + span count := by
  unfold addLength
  omega

/-- A drain goes to its source, over to the other cell and back, and home again. -/
theorem moveLength_le (hd : span dst ≤ E) (hs : span src ≤ E) :
    moveLength dst src ≤ 6 * E + 4 := by
  have hout := span_sub_le dst src
  have hback := span_sub_le src dst
  simp only [moveLength, drainLength, legsLength]
  omega

/-- A drain over two cells goes a little farther. -/
theorem drainLength_le {a b : Int64} (hs : span src ≤ E) (ha : span a ≤ E) (hb : span b ≤ E) :
    drainLength src [a, b] ≤ 7 * E + 5 := by
  have hout := span_sub_le a src
  have hon := span_sub_le b a
  have hback := span_sub_le src b
  simp only [drainLength, legsLength]
  omega

/-- A copy drains over two cells, and then back from cells that may be twice as far away. -/
theorem copyLength_le (hd : span dst ≤ E) (hs : span src ≤ E) (hw : span work ≤ E) :
    copyLength dst src work ≤ 20 * E + 9 := by
  have hdrain := drainLength_le hs hw hd
  have hfar : span (work - src) ≤ 2 * E := (span_sub_le work src).trans (by omega)
  have hhere : span 0 ≤ 2 * E := by rw [span_zero]; omega
  have hrestore := moveLength_le hhere hfar
  unfold copyLength
  omega

/-- The body of a condition counts from the cell that is tested, so it may be twice as far away. -/
theorem condAddLength_le (hd : span dst ≤ E) (hs : span src ≤ E) (hc : span count = 1) :
    condAddLength dst count src ≤ 6 * E + 6 := by
  have hfar : span (dst - src) ≤ 2 * E := (span_sub_le dst src).trans (by omega)
  have hadd := addLength_le count hfar
  rw [condAddLength, condLength, zeroLength, span_zero]
  omega

/-- A test is one such condition and one count. -/
theorem isZeroLength_le (hd : span dst ≤ E) (hs : span src ≤ E) (negated : Bool) :
    isZeroLength dst src negated ≤ 8 * E + 7 := by
  have hup := condAddLength_le hd hs span_one
  have hdown := condAddLength_le hd hs span_neg_one
  have hone := addLength_le 1 hd
  rw [span_one] at hone
  unfold isZeroLength
  split_ifs <;> omega

/-- A preserving test is a copy and a test. -/
theorem testLength_le (hd : span dst ≤ E) (hs : span src ≤ E) (negated : Bool)
    {preserve : List Int64} (hp : ∀ c ∈ preserve, span c ≤ E) :
    testLength dst src negated preserve ≤ 28 * E + 16 := by
  match preserve with
  | [] => exact (isZeroLength_le hd hs negated).trans (by omega)
  | [spare, work] =>
      have hspare := hp spare (by simp)
      have hcopy := copyLength_le hspare hs (hp work (by simp))
      have htest := isZeroLength_le hd hspare negated
      rw [testLength]
      omega
  | [_] | _ :: _ :: _ :: _ => simp [testLength]

/-- A toggle counts from its source, so all of it may be twice as far away. -/
theorem toggleLength_le (hd : span dst ≤ E) (hw : span work ≤ E) (hs : span src ≤ E) :
    toggleLength dst work src ≤ 30 * E + 16 := by
  have hd' : span (dst - src) ≤ 2 * E := (span_sub_le dst src).trans (by omega)
  have hw' : span (work - src) ≤ 2 * E := (span_sub_le work src).trans (by omega)
  have hpark := moveLength_le hw' hd'
  have htest := isZeroLength_le hd' hw' false
  rw [toggleLength, condLength, zeroLength, span_zero]
  omega

/-- A preserving comparison is the longest of the operations with a fixed number of cells. -/
theorem isEqLength_le {first second : Int64} (hd : span dst ≤ E) (hf : span first ≤ E)
    (hs : span second ≤ E) {works : List Int64} (hw : ∀ c ∈ works, span c ≤ E) :
    isEqLength dst first second works ≤ 42 * E + 25 := by
  match works with
  | [] =>
      have hless := moveLength_le hf hs
      have htest := isZeroLength_le hd hf false
      rw [isEqLength]
      omega
  | [spare, work] =>
      have hspare := hw spare (by simp)
      have hwork := hw work (by simp)
      have hcopy := copyLength_le hspare hf hwork
      have hless := drainLength_le hs hspare hwork
      have hrestore := moveLength_le hs hwork
      have htest := isZeroLength_le hd hspare false
      rw [isEqLength]
      omega
  | [_] | _ :: _ :: _ :: _ => simp [isEqLength]

end

section

variable {D K : Nat} {d : Int64}

/-- Shifting doubles the reach at most. -/
theorem Near.shifted {op : MacroOp} (h : op.Near D) (hd : span d ≤ D) {n : Int64}
    (hn : n ∈ op.operands) : span (n + d) ≤ 2 * D := by
  have hadd := span_add_le n d
  have hle := h n hn
  omega

/-- So it does with every cell of a list. -/
theorem Near.shiftedCells {op : MacroOp} (h : op.Near D) (hd : span d ≤ D) (cells : List Int64)
    (hc : ∀ c ∈ cells, c ∈ op.operands) : ∀ c ∈ shiftCells d cells, span c ≤ 2 * D := by
  intro c hm
  obtain ⟨b, hb, rfl⟩ := List.mem_map.mp hm
  exact h.shifted hd (hc b hb)

theorem length_shiftCells (d : Int64) (cells : List Int64) :
    (shiftCells d cells).length = cells.length :=
  List.length_map _

/-- A sum over shifted cells, with one bound for all that are within reach. -/
theorem Near.sum_le {op : MacroOp} (h : op.Near D) (hd : span d ≤ D) (cells : List Int64)
    (hc : ∀ c ∈ cells, c ∈ op.operands) {f : Int64 → Nat}
    (hf : ∀ c, span c ≤ 2 * D → f c ≤ K) :
    ((shiftCells d cells).map f).sum ≤ K * cells.length := by
  have hsum := List.sum_le_card_nsmul ((shiftCells d cells).map f) K fun k hk => by
    obtain ⟨c, hm, rfl⟩ := List.mem_map.mp hk
    exact hf c (h.shiftedCells hd cells hc c hm)
  rwa [List.length_map, length_shiftCells, smul_eq_mul, Nat.mul_comm] at hsum

/-- The bodies of a branch apart, it is written with two counts and two conditions. -/
theorem branch_length_le {src work : Int64} {whenTrue whenFalse : List MacroOp}
    (h : (branch src work whenTrue whenFalse).Near D) (hd : span d ≤ D) :
    lengthAt d (.branch src work whenTrue whenFalse) ≤
      16 * D + 13 + lengthAllAt (-src) whenTrue + lengthAllAt (-work) whenFalse := by
  have hsrc := h.shifted hd (n := src) (by simp [operands])
  have hwork := h.shifted hd (n := work) (by simp [operands])
  have hfar := span_sub_le work src
  have hs := h src (by simp [operands])
  have hw := h work (by simp [operands])
  rw [lengthAt, condLength, condLength, addLength, addLength, zeroLength, span_zero, span_one,
    span_neg_one]
  omega

mutual

/-- **A text is no longer than the operands are large, times what there is to write**, wherever the
operation stands.  A body is written at the cell that is tested, so the offset outside adds nothing
to what is inside. -/
theorem lengthAt_le {d : Int64} (hK : 64 * (D + 1) ≤ K) (hd : span d ≤ D) :
    ∀ {op : MacroOp}, (∀ part ∈ op.parts, part.Near D) → lengthAt d op ≤ K * weights op.parts
  | .go delta, h => by
      have hle := h _ List.mem_cons_self delta List.mem_cons_self
      simp only [lengthAt, parts, weights_cons, weights_nil, weight, operands, List.length_cons,
        List.length_nil]
      omega
  | .add dst count, h => by
      have h := h (.add dst count) List.mem_cons_self
      have hadd := addLength_le count (h.shifted hd (n := dst) (by simp [operands]))
      have hcount := h count (by simp [operands])
      simp only [lengthAt, parts, weights_cons, weights_nil, weight, operands, List.length_cons,
        List.length_nil]
      omega
  | .move dst src, h | .unmove dst src, h => by
      have h := h _ List.mem_cons_self
      have hmove := moveLength_le (h.shifted hd (n := dst) (by simp [operands]))
        (h.shifted hd (n := src) (by simp [operands]))
      simp only [lengthAt, parts, weights_cons, weights_nil, weight, operands, List.length_cons,
        List.length_nil]
      omega
  | .zero dst, h => by
      have hdst := (h (.zero dst) List.mem_cons_self).shifted hd (n := dst) (by simp [operands])
      simp only [lengthAt, zeroLength, parts, weights_cons, weights_nil, weight, operands,
        List.length_cons, List.length_nil]
      omega
  | .copy dst src work, h => by
      have h := h (.copy dst src work) List.mem_cons_self
      have hcopy := copyLength_le (h.shifted hd (n := dst) (by simp [operands]))
        (h.shifted hd (n := src) (by simp [operands]))
        (h.shifted hd (n := work) (by simp [operands]))
      simp only [lengthAt, parts, weights_cons, weights_nil, weight, operands, List.length_cons,
        List.length_nil]
      omega
  | .isZero dst src negated preserve, h => by
      have h := h (.isZero dst src negated preserve) List.mem_cons_self
      have htest := testLength_le (h.shifted hd (n := dst) (by simp [operands]))
        (h.shifted hd (n := src) (by simp [operands])) negated
        (h.shiftedCells hd preserve (by simp +contextual [operands]))
      simp only [lengthAt, parts, weights_cons, weights_nil, weight, operands, List.length_cons,
        Nat.mul_add]
      omega
  | .and dst srcs work, h => by
      have h := h (.and dst srcs work) List.mem_cons_self
      have hdst := h.shifted hd (n := dst) (by simp [operands])
      have hwork := h.shifted hd (n := work) (by simp [operands])
      have hcount := h (Int64.ofNat srcs.length) (by simp [operands])
      have hadd := addLength_le (Int64.ofNat srcs.length) hwork
      have htest := isZeroLength_le hdst hwork false
      have hsum := h.sum_le hd srcs (by simp +contextual [operands]) (K := K)
        (f := condAddLength (work + d) (-1)) fun c hc =>
          (condAddLength_le hwork hc span_neg_one).trans (by omega)
      simp only [lengthAt, andLength, length_shiftCells, parts, weights_cons, weights_nil, weight,
        operands, List.length_cons, Nat.mul_add]
      omega
  | .or dst srcs, h => by
      have h := h (.or dst srcs) List.mem_cons_self
      have hdst := h.shifted hd (n := dst) (by simp [operands])
      have hsum := h.sum_le hd srcs (by simp +contextual [operands]) (K := K)
        (f := condAddLength (dst + d) 1) fun c hc =>
          (condAddLength_le hdst hc span_one).trans (by omega)
      simp only [lengthAt, orLength, parts, weights_cons, weights_nil, weight, operands,
        List.length_cons, Nat.mul_add]
      omega
  | .xor dst srcs work, h => by
      have h := h (.xor dst srcs work) List.mem_cons_self
      have hdst := h.shifted hd (n := dst) (by simp [operands])
      have hwork := h.shifted hd (n := work) (by simp [operands])
      have hsum := h.sum_le hd srcs (by simp +contextual [operands]) (K := K)
        (f := toggleLength (dst + d) (work + d)) fun c hc =>
          (toggleLength_le hdst hwork hc).trans (by omega)
      simp only [lengthAt, xorLength, parts, weights_cons, weights_nil, weight, operands,
        List.length_cons, Nat.mul_add]
      omega
  | .isEq dst first second works, h => by
      have h := h (.isEq dst first second works) List.mem_cons_self
      have heq := isEqLength_le (h.shifted hd (n := dst) (by simp [operands]))
        (h.shifted hd (n := first) (by simp [operands]))
        (h.shifted hd (n := second) (by simp [operands]))
        (h.shiftedCells hd works (by simp +contextual [operands]))
      simp only [lengthAt, parts, weights_cons, weights_nil, weight, operands, List.length_cons,
        Nat.mul_add]
      omega
  | .literal text shifted, h => by
      have hle := (h (.literal text shifted) List.mem_cons_self).shifted hd (n := shifted)
        (by simp [operands])
      have htext : text.length ≤ K * text.length := Nat.le_mul_of_pos_left _ (by omega)
      simp only [lengthAt, parts, weights_cons, weights_nil, weight, Nat.mul_add]
      omega
  | .control _, _ => Nat.zero_le _
  | .cond src body, h => by
      obtain ⟨h, hbody⟩ := List.forall_mem_cons.mp h
      have hsrc := h.shifted hd (n := src) (by simp [operands])
      have hinner := lengthAllAt_le hK
        ((span_neg src).trans_le (h src (by simp [operands]))) hbody
      rw [lengthAt, condLength, zeroLength, span_zero, parts, weights_cons, Nat.mul_add]
      simp only [weight, operands, List.length_cons, List.length_nil]
      omega
  | .loop src body, h => by
      obtain ⟨h, hbody⟩ := List.forall_mem_cons.mp h
      have hsrc := h.shifted hd (n := src) (by simp [operands])
      have hinner := lengthAllAt_le hK
        ((span_neg src).trans_le (h src (by simp [operands]))) hbody
      rw [lengthAt, loopLength, parts, weights_cons, Nat.mul_add]
      simp only [weight, operands, List.length_cons, List.length_nil]
      omega
  | .branch src work whenTrue whenFalse, h => by
      obtain ⟨h, hbodies⟩ := List.forall_mem_cons.mp h
      obtain ⟨htrue, hfalse⟩ := List.forall_mem_append.mp hbodies
      have hown := branch_length_le h hd
      have ht := lengthAllAt_le hK ((span_neg src).trans_le (h src (by simp [operands]))) htrue
      have hf := lengthAllAt_le hK ((span_neg work).trans_le (h work (by simp [operands]))) hfalse
      rw [parts, weights_cons, weights_append, Nat.mul_add, Nat.mul_add]
      simp only [weight, operands, List.length_cons, List.length_nil]
      omega

/-- So it is with operations in sequence. -/
theorem lengthAllAt_le {d : Int64} (hK : 64 * (D + 1) ≤ K) (hd : span d ≤ D) :
    ∀ {ops : List MacroOp}, (∀ part ∈ partsAll ops, part.Near D) →
      lengthAllAt d ops ≤ K * weights (partsAll ops)
  | [], _ => Nat.zero_le _
  | _ :: _, h => by
      obtain ⟨hop, hrest⟩ := List.forall_mem_append.mp h
      have hfst := lengthAt_le hK hd hop
      have hsnd := lengthAllAt_le hK hd hrest
      rw [lengthAllAt, partsAll, weights_append, Nat.mul_add]
      omega

end

/-- The text of operations whose operands are not large. -/
theorem textLength_le {ops : List MacroOp} (h : ∀ part ∈ partsAll ops, part.Near D) :
    textLength ops ≤ 64 * (D + 1) * weights (partsAll ops) :=
  lengthAllAt_le le_rfl (by rw [span_zero]; omega) h

end

end MacroOp

end StackTape
