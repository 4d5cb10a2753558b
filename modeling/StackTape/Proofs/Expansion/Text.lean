import StackTape.Proofs.Expansion.Correct

/-!
# The text that an expansion writes

`Written raw`: a text of moves and counts, pieces with the property `raw`, and loops around such
texts.  `Yields raw text e`: the text of whatever the part `e` of an expansion builds is written.
There is one theorem for each kind of node, and `yields_expandAllAt` puts them together: operations
whose raw text has the property, at every depth (`parts`), are expanded into written text, or not at
all.
-/

namespace StackTape

/-! ### Written text -/

/-- Moves and counts, pieces with the property `raw`, and loops around such text. -/
inductive Written (raw : Bytes → Prop) : Bytes → Prop where
  | nil : Written raw []
  | instr {c : UInt8} {rest : Bytes} (hc : c ∈ [0x3E, 0x3C, 0x2B, 0x2D]) (h : Written raw rest) :
      Written raw (c :: rest)
  | piece {text rest : Bytes} (ht : raw text) (h : Written raw rest) : Written raw (text ++ rest)
  | loop {body rest : Bytes} (hb : Written raw body) (h : Written raw rest) :
      Written raw (0x5B :: (body ++ 0x5D :: rest))

namespace Written

variable {raw : Bytes → Prop} {s t : Bytes} {n : Node} {ns ms : List Node}

/-- Two written texts in a row are one. -/
theorem append (hs : Written raw s) (ht : Written raw t) : Written raw (s ++ t) := by
  induction hs with
  | nil => exact ht
  | instr hc _ ih => exact .instr hc ih
  | piece hp _ ih =>
      rw [List.append_assoc]
      exact .piece hp ih
  | @loop body rest hb _ _ ih =>
      have e : 0x5B :: (body ++ 0x5D :: rest) ++ t = 0x5B :: (body ++ 0x5D :: (rest ++ t)) := by
        simp
      rw [e]
      exact .loop hb ih

/-- A run of one instruction is written. -/
theorem replicate {c : UInt8} (hc : c ∈ [0x3E, 0x3C, 0x2B, 0x2D]) (n : Nat) :
    Written raw (List.replicate n c) := by
  induction n with
  | zero => exact .nil
  | succ n ih => exact .instr hc ih

/-- The brackets are balanced, since only loops are put around a text. -/
theorem balanced (h : Written raw s) (hraw : ∀ text, raw text → Balanced text) : Balanced s := by
  induction h with
  | nil => exact .nil
  | @instr c _ hc _ ih =>
      have hplain : c ≠ 0x5B ∧ c ≠ 0x5D := by
        constructor <;> rintro rfl <;> simp at hc
      exact .instr hplain.1 hplain.2 ih
  | piece hp _ ih => exact (hraw _ hp).append ih
  | loop _ _ ihb ih => exact .loop ihb ih

/-- Every byte is an instruction of the text itself or stands in a piece. -/
theorem mem (h : Written raw s) {c : UInt8} (hc : c ∈ s) :
    c ∈ [0x3E, 0x3C, 0x2B, 0x2D, 0x5B, 0x5D] ∨ ∃ text, raw text ∧ c ∈ text := by
  induction h with
  | nil => cases hc
  | @instr b _ hb _ ih =>
      rcases List.mem_cons.mp hc with rfl | hc
      · simp only [List.mem_cons, List.not_mem_nil, or_false] at hb ⊢
        tauto
      · exact ih hc
  | piece hp _ ih =>
      rcases List.mem_append.mp hc with hc | hc
      · exact .inr ⟨_, hp, hc⟩
      · exact ih hc
  | loop _ _ ihb ih =>
      simp only [List.mem_cons, List.mem_append] at hc
      rcases hc with rfl | hc | rfl | hc
      · simp
      · exact ihb hc
      · simp
      · exact ih hc

/-- A node and the nodes behind it. -/
theorem nodes_cons (h : Written raw n.flatten) (t : Written raw (Node.flattenAll ns)) :
    Written raw (Node.flattenAll (n :: ns)) :=
  h.append t

/-- Nodes and the nodes behind them. -/
theorem nodes_append (h : Written raw (Node.flattenAll ns)) (t : Written raw (Node.flattenAll ms)) :
    Written raw (Node.flattenAll (ns ++ ms)) := by
  rw [Node.flattenAll_append]
  exact h.append t

/-- A loop around nodes. -/
theorem nodes_loop (h : Written raw (Node.flattenAll ns)) (t : Written raw (Node.flattenAll ms)) :
    Written raw
      (Node.flattenAll (.raw (Bytes.ascii "[") :: (ns ++ .raw (Bytes.ascii "]") :: ms))) := by
  rw [Node.flattenAll_loop]
  exact .loop h t

end Written

namespace MacroOp

/-! ### Parts of an expansion -/

/-- The text of whatever a part of an expansion builds is written. -/
def Yields {α : Type} (raw : Bytes → Prop) (text : α → Bytes) : Except ExpandError α → Prop
  | .ok a => Written raw (text a)
  | .error _ => True

/-- What comes after a part may use that its text is written. -/
theorem Yields.bind {α β : Type} {raw : Bytes → Prop} {text : α → Bytes} {text' : β → Bytes}
    {x : Except ExpandError α} {k : α → Except ExpandError β} (hx : Yields raw text x)
    (hk : ∀ a, Written raw (text a) → Yields raw text' (k a)) : Yields raw text' (x >>= k) := by
  match x with
  | .ok a => exact hk a hx
  | .error _ => trivial

section

variable {raw : Bytes → Prop}

/-! ### Runs of one instruction -/

/-- A run is one instruction again and again, or too long. -/
theorem yields_run {c : UInt8} (hc : c ∈ [0x3E, 0x3C, 0x2B, 0x2D]) (count : Int64) :
    Yields raw id (run c count) := by
  unfold run
  split_ifs
  · trivial
  · exact .replicate hc _

theorem yields_moveText (delta : Int64) : Yields raw id (moveText delta) := by
  unfold moveText
  split_ifs <;> exact yields_run (by decide) _

theorem yields_countText (count : Int64) : Yields raw id (countText count) := by
  unfold countText
  split_ifs <;> exact yields_run (by decide) _

/-! ### Straight-line operations -/

theorem yields_goNode (delta : Int64) : Yields raw Node.flatten (goNode delta) :=
  (yields_moveText delta).bind fun _ h => h

/-- Raw text is a piece between two moves. -/
theorem yields_literalNode {text : Bytes} (ht : raw text) (shifted : Int64) :
    Yields raw Node.flatten (literalNode text shifted) := by
  have hpiece : Written raw text := List.append_nil text ▸ .piece ht .nil
  have hout : Yields raw id (moveText shifted) := yields_moveText shifted
  have hback : Yields raw id (moveText (-shifted)) := yields_moveText (-shifted)
  rcases literalNode_cases text shifted with ⟨there, back, h₁, h₂, h⟩ | ⟨count, h⟩ <;> rw [h]
  · rw [h₁] at hout
    rw [h₂] at hback
    exact (hout.append hpiece).append hback
  · trivial

/-- A text written at another cell. -/
theorem yields_there (op : MacroOp) (dst : Int64) {e : Except ExpandError Bytes}
    (he : Yields raw id e) :
    Yields raw Node.flatten (do
      let there ← goNode dst
      let text ← e
      let back ← goNode (-dst)
      return Node.tree op [there, .raw text, back]) :=
  (yields_goNode dst).bind fun _ h₁ => he.bind fun _ h₂ => (yields_goNode (-dst)).bind fun _ h₃ =>
    h₁.nodes_cons (Written.nodes_cons h₂ (h₃.nodes_cons .nil))

/-- A count stands between the way there and the way back. -/
theorem yields_addNode (dst count : Int64) : Yields raw Node.flatten (addNode dst count) :=
  yields_there _ dst (yields_countText count)

/-- So does the loop that clears a cell. -/
theorem yields_zeroNode (dst : Int64) : Yields raw Node.flatten (zeroNode dst) :=
  yields_there _ dst (show Yields raw id (.ok (Bytes.ascii "[-]")) from
    .loop (.instr (by decide) .nil) .nil)

/-- Every visit is a move and one count. -/
theorem yields_visits (src : Int64) {targets : List Target} (hc : Target.Counting targets)
    (pos : Int64) : Yields raw Node.flattenAll (visits src pos targets) := by
  induction targets generalizing pos with
  | nil => exact (yields_goNode (src - pos)).bind fun _ h => h.nodes_cons .nil
  | cons t rest ih =>
      have hchange : t.change ∈ [0x3E, 0x3C, 0x2B, 0x2D] := by
        rcases hc t List.mem_cons_self with h | h <;> rw [h] <;> decide
      have hrest := ih (fun u hu => hc u (List.mem_cons_of_mem _ hu)) t.cell
      exact (yields_goNode (t.cell - pos)).bind fun _ h₁ => hrest.bind fun _ h₂ =>
        h₁.nodes_cons (.instr hchange h₂)

/-- A drain is one loop, whose first instruction counts down. -/
theorem yields_drain (src : Int64) {targets : List Target} (hc : Target.Counting targets) :
    Yields raw Node.flattenAll (drain src targets) := by
  refine (yields_goNode src).bind fun there h₁ => (yields_visits src hc src).bind
    fun round h₂ => ?_
  show Written raw _
  rw [Node.flattenAll_drain]
  exact h₁.append (.loop (.instr (by decide) h₂) .nil)

theorem yields_drain_back (op : MacroOp) (src : Int64) {targets : List Target}
    (hc : Target.Counting targets) :
    Yields raw Node.flatten (do
      let loop ← drain src targets
      let back ← goNode (-src)
      return Node.tree op (loop ++ [back])) :=
  (yields_drain src hc).bind fun _ h₁ => (yields_goNode (-src)).bind fun _ h₂ =>
    h₁.nodes_append (h₂.nodes_cons .nil)

theorem yields_moveNode (dst src : Int64) : Yields raw Node.flatten (moveNode dst src) :=
  yields_drain_back _ src (by simp [Target.Counting])

theorem yields_unmoveNode (dst src : Int64) : Yields raw Node.flatten (unmoveNode dst src) :=
  yields_drain_back _ src (by simp [Target.Counting])

/-- A copy is a drain over two cells, and a drain back. -/
theorem yields_copyNode (dst src work : Int64) :
    Yields raw Node.flatten (copyNode dst src work) :=
  (yields_drain src (by simp [Target.Counting])).bind fun _ h₁ =>
    (yields_moveNode 0 (work - src)).bind fun _ h₂ => (yields_goNode (-src)).bind fun _ h₃ =>
      h₁.nodes_append (h₂.nodes_cons (h₃.nodes_cons .nil))

/-! ### Conditions -/

section

variable {inner : Unit → Except ExpandError (List Node)}

/-- What is inside a condition stands in its brackets, with the clearing of the tested cell. -/
theorem yields_condNode (src : Int64) (body : List MacroOp)
    (hi : Yields raw Node.flattenAll (inner ())) :
    Yields raw Node.flatten (condNode src body inner) := by
  unfold condNode
  split_ifs
  · trivial
  · refine (yields_goNode src).bind fun there h₁ => hi.bind fun nodes h₂ =>
      (yields_zeroNode 0).bind fun clear h₃ => (yields_goNode (-src)).bind fun back h₄ => ?_
    have hclear : Written raw (Node.flattenAll [clear]) := h₃.nodes_cons .nil
    have hback : Written raw (Node.flattenAll [back]) := h₄.nodes_cons .nil
    have hloop := (h₂.nodes_append hclear).nodes_loop hback
    rw [List.append_assoc] at hloop
    exact h₁.nodes_cons hloop

/-- What is inside a loop stands in its brackets. -/
theorem yields_loopNode (src : Int64) (body : List MacroOp)
    (hi : Yields raw Node.flattenAll (inner ())) :
    Yields raw Node.flatten (loopNode src body inner) := by
  unfold loopNode
  split_ifs
  · trivial
  · exact (yields_goNode src).bind fun there h₁ => hi.bind fun nodes h₂ =>
      (yields_goNode (-src)).bind fun back h₃ =>
        h₁.nodes_cons (h₂.nodes_loop (h₃.nodes_cons .nil))

end

theorem yields_condAddNode (src dst count : Int64) :
    Yields raw Node.flatten (condAddNode src dst count) :=
  yields_condNode src _ ((yields_addNode (dst - src) count).bind fun _ h => h.nodes_cons .nil)

/-- One condition after another. -/
theorem yields_condAddNodes (dst count : Int64) (srcs : List Int64) :
    Yields raw Node.flattenAll (condAddNodes dst count srcs) := by
  induction srcs with
  | nil => exact .nil
  | cons src rest ih =>
      exact (yields_condAddNode src dst count).bind fun _ h₁ => ih.bind fun _ h₂ =>
        h₁.nodes_cons h₂

/-- A test is a condition, with a count before it or without. -/
theorem yields_isZeroNode (dst src : Int64) (negated : Bool) :
    Yields raw Node.flatten (isZeroNode dst src negated) := by
  have hchildren : Yields raw Node.flattenAll (isZeroChildren dst src negated) := by
    unfold isZeroChildren
    split_ifs
    · exact (yields_condAddNode src dst 1).bind fun _ h => h.nodes_cons .nil
    · exact (yields_addNode dst 1).bind fun _ h₁ =>
        (yields_condAddNode src dst (-1)).bind fun _ h₂ => h₁.nodes_cons (h₂.nodes_cons .nil)
  exact hchildren.bind fun _ h => h

/-- A preserving test is a copy and a draining test. -/
theorem yields_testNode (dst src : Int64) (negated : Bool) (preserve : List Int64) :
    Yields raw Node.flatten (testNode dst src negated preserve) := by
  match preserve with
  | [] => exact yields_isZeroNode dst src negated
  | [spare, work] =>
      exact (yields_copyNode spare src work).bind fun _ h₁ =>
        (yields_isZeroNode dst spare negated).bind fun _ h₂ => h₁.nodes_cons (h₂.nodes_cons .nil)
  | [_] | _ :: _ :: _ :: _ => trivial

/-- A conjunction is a count, one condition for each source, and a test. -/
theorem yields_andNode (dst : Int64) (srcs : List Int64) (work : Int64) :
    Yields raw Node.flatten (andNode dst srcs work) := by
  unfold andNode
  split_ifs
  · trivial
  · exact (yields_addNode work _).bind fun _ h₁ => (yields_condAddNodes work (-1) srcs).bind
      fun _ h₂ => (yields_isZeroNode dst work false).bind fun _ h₃ =>
        h₁.nodes_cons (h₂.nodes_append (h₃.nodes_cons .nil))

theorem yields_orNode (dst : Int64) (srcs : List Int64) :
    Yields raw Node.flatten (orNode dst srcs) := by
  unfold orNode
  split_ifs
  · trivial
  · exact (yields_condAddNodes dst 1 srcs).bind fun _ h => h

/-- One toggle after another, each inside the condition on its source. -/
theorem yields_toggleNodes (dst work : Int64) (srcs : List Int64) :
    Yields raw Node.flattenAll (toggleNodes dst work srcs) := by
  induction srcs with
  | nil => exact .nil
  | cons src rest ih =>
      refine (yields_condNode src (toggle dst work) ?_).bind fun _ h₁ => ih.bind fun _ h₂ =>
        h₁.nodes_cons h₂
      exact (yields_moveNode (work - src) (dst - src)).bind fun _ h₁ =>
        (yields_isZeroNode (dst - src) (work - src) false).bind fun _ h₂ =>
          h₁.nodes_cons (h₂.nodes_cons .nil)

theorem yields_xorNode (dst : Int64) (srcs : List Int64) (work : Int64) :
    Yields raw Node.flatten (xorNode dst srcs work) := by
  unfold xorNode
  split_ifs
  · trivial
  · exact (yields_toggleNodes dst work srcs).bind fun _ h => h

/-- A preserving comparison is a copy, a drain, a drain back and a test. -/
theorem yields_isEqNode (dst first second : Int64) (works : List Int64) :
    Yields raw Node.flatten (isEqNode dst first second works) := by
  match works with
  | [] =>
      exact (yields_unmoveNode first second).bind fun _ h₁ =>
        (yields_isZeroNode dst first false).bind fun _ h₂ => h₁.nodes_cons (h₂.nodes_cons .nil)
  | [spare, work] =>
      refine (yields_copyNode spare first work).bind fun _ h₁ =>
        (yields_drain second (by simp [Target.Counting])).bind fun _ h₂ =>
          (yields_goNode (-second)).bind fun _ h₃ => (yields_moveNode second work).bind fun _ h₄ =>
            (yields_isZeroNode dst spare false).bind fun _ h₅ => ?_
      exact h₁.nodes_cons
        (h₂.nodes_append (h₃.nodes_cons (h₄.nodes_cons (h₅.nodes_cons .nil))))
  | [_] | _ :: _ :: _ :: _ => trivial

end

/-! ### All operations -/

mutual

/-- An operation and every operation inside it. -/
def parts : MacroOp → List MacroOp
  | .cond src body => .cond src body :: partsAll body
  | .loop src body => .loop src body :: partsAll body
  | .branch src work whenTrue whenFalse =>
    .branch src work whenTrue whenFalse :: (partsAll whenTrue ++ partsAll whenFalse)
  | op => [op]

/-- The operations of a list and every operation inside them. -/
def partsAll : List MacroOp → List MacroOp
  | [] => []
  | op :: rest => parts op ++ partsAll rest

end

/-- The raw text of some operations has a property. -/
def RawAll (raw : Bytes → Prop) (ops : List MacroOp) : Prop :=
  ∀ text shifted, .literal text shifted ∈ ops → raw text

section

variable {raw : Bytes → Prop} {ops more : List MacroOp}

/-- The property holds of the operations in front. -/
theorem RawAll.left (h : RawAll raw (ops ++ more)) : RawAll raw ops :=
  fun text shifted hm => h text shifted (List.mem_append_left _ hm)

/-- It holds of those behind. -/
theorem RawAll.right (h : RawAll raw (ops ++ more)) : RawAll raw more :=
  fun text shifted hm => h text shifted (List.mem_append_right _ hm)

theorem RawAll.tail {op : MacroOp} (h : RawAll raw (op :: ops)) : RawAll raw ops :=
  fun text shifted hm => h text shifted (List.mem_cons_of_mem _ hm)

mutual

/-- **What is expanded is written**, at every offset, with nothing raw but the raw text. -/
theorem yields_expandAt (d : Int64) :
    ∀ {op : MacroOp}, RawAll raw op.parts → Yields raw Node.flatten (expandAt d op)
  | .go delta, _ => yields_goNode delta
  | .add dst count, _ => yields_addNode (dst + d) count
  | .move dst src, _ => yields_moveNode (dst + d) (src + d)
  | .unmove dst src, _ => yields_unmoveNode (dst + d) (src + d)
  | .zero dst, _ => yields_zeroNode (dst + d)
  | .copy dst src work, _ => yields_copyNode (dst + d) (src + d) (work + d)
  | .isZero dst src negated _, _ => yields_testNode (dst + d) (src + d) negated _
  | .and dst _ work, _ => yields_andNode (dst + d) _ (work + d)
  | .or dst _, _ => yields_orNode (dst + d) _
  | .xor dst _ work, _ => yields_xorNode (dst + d) _ (work + d)
  | .isEq dst first second _, _ => yields_isEqNode (dst + d) (first + d) (second + d) _
  | .cond src body, h => by
      have hbody : RawAll raw (partsAll body) := RawAll.tail h
      rw [expandAt]
      exact yields_condNode (src + d) _ (yields_expandAllAt (-src) hbody)
  | .loop src body, h => by
      have hbody : RawAll raw (partsAll body) := RawAll.tail h
      rw [expandAt]
      exact yields_loopNode (src + d) _ (yields_expandAllAt (-src) hbody)
  | .branch src work whenTrue whenFalse, h => by
      have hbodies : RawAll raw (partsAll whenTrue ++ partsAll whenFalse) := RawAll.tail h
      -- the body that is taken also clears the cell that the other one tests
      have htaken : Yields raw Node.flattenAll (do
          let nodes ← expandAllAt (-src) whenTrue
          let less ← addNode (work - src) (-1)
          return nodes ++ [less]) :=
        (yields_expandAllAt (-src) hbodies.left).bind fun _ h₁ =>
          (yields_addNode (work - src) (-1)).bind fun _ h₂ => h₁.nodes_append (h₂.nodes_cons .nil)
      rw [expandAt]
      exact (yields_addNode (work + d) 1).bind fun _ h₁ =>
        (yields_condNode (src + d) _ htaken).bind fun _ h₂ =>
          (yields_condNode (work + d) _ (yields_expandAllAt (-work) hbodies.right)).bind
            fun _ h₃ => h₁.nodes_cons (h₂.nodes_cons (h₃.nodes_cons .nil))
  | .literal text shifted, h =>
      yields_literalNode (h text shifted List.mem_cons_self) (shifted + d)
  | .control _, _ => trivial

/-- So it is with operations in sequence. -/
theorem yields_expandAllAt (d : Int64) :
    ∀ {ops : List MacroOp}, RawAll raw (partsAll ops) →
      Yields raw Node.flattenAll (expandAllAt d ops)
  | [], _ => Written.nil
  | _ :: _, h =>
      (yields_expandAt d h.left).bind fun _ h₁ => (yields_expandAllAt d h.right).bind fun _ h₂ =>
        h₁.nodes_cons h₂

end

end

end MacroOp

end StackTape
