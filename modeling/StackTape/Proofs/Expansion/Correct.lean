import StackTape.Proofs.Expansion.Nodes

/-!
# Expansion keeps the meaning

`writes_expandAt`: the text of an expanded operation performs what the operation means, at every
offset.  The bodies of conditions, loops and branches are expanded at the cell that is tested; the
rebasing law brings them back to where the operation stands, and the framing law keeps the tested
cell and the work cell of a branch out of its bodies.
-/

namespace StackTape

open Machine (Performs)

namespace MacroOp

/-! ### Shifted operations are proper -/

/-- Different cells stay different when they are shifted. -/
theorem nodup_shiftCells {cells : List Int64} (h : cells.Nodup) (d : Int64) :
    (shiftCells d cells).Nodup :=
  h.map fun a b hab => by grind

mutual

/-- **A shifted operation keeps its contract.** -/
theorem proper_shift (d : Int64) : ∀ {op : MacroOp}, op.Proper → (op.shift d).Proper
  | .go _, _ | .add .., _ | .zero _, _ => trivial
  | .move dst src, h | .unmove dst src, h => by
      simp only [Proper, shift] at h ⊢
      grind
  | .copy dst src work, h => nodup_shiftCells h d
  | .isZero dst src negated preserve, h => by
      refine ⟨?_, nodup_shiftCells h.2 d⟩
      rw [shiftCells, List.length_map]
      exact h.1
  | .and dst srcs work, h => ⟨by simpa [shiftCells] using h.1, nodup_shiftCells h.2 d⟩
  | .or dst srcs, h => ⟨by simpa [shiftCells] using h.1, nodup_shiftCells h.2 d⟩
  | .xor dst srcs work, h => ⟨by simpa [shiftCells] using h.1, nodup_shiftCells h.2 d⟩
  | .isEq dst first second works, h => by
      refine ⟨?_, nodup_shiftCells h.2 d⟩
      rw [shiftCells, List.length_map]
      exact h.1
  | .cond src body, h | .loop src body, h =>
      ⟨(displacement_shiftAll d body).trans h.1, properAll_shiftAll d h.2⟩
  | .branch src work whenTrue whenFalse, ⟨hne, ht, hf⟩ =>
      ⟨fun e => hne (by grind),
        ⟨(displacement_shiftAll d whenTrue).trans ht.1, properAll_shiftAll d ht.2⟩,
        (displacement_shiftAll d whenFalse).trans hf.1, properAll_shiftAll d hf.2⟩
  | .literal text shifted, h => h
  | .control _, h => h.elim

/-- So do shifted operations in sequence. -/
theorem properAll_shiftAll (d : Int64) : ∀ {ops : List MacroOp}, ProperAll ops →
    ProperAll (shiftAll d ops)
  | [], _ => trivial
  | _ :: _, h => ⟨proper_shift d h.1, properAll_shiftAll d h.2⟩

end

/-! ### Bodies -/

section

variable {eof : EofMode} {fuel : Nat}

/-- A body expanded at the tested cell does there what it does from where its operation stands. -/
theorem meaningAll_rebase (d src : Int64) (body : List MacroOp) (v : View) :
    meaningAll eof fuel (shiftAll d body) v =
      (meaningAll eof fuel (shiftAll (-src) body) (v.go (src + d))).map (·.go (-(src + d))) := by
  have h₁ : src + d + -src = d := by grind
  have h₂ : ∀ u : View, (u.go (- -src)).go (-(src + d)) = u.go (-d) := by
    intro u
    rw [View.go_go]
    congr 1
    grind
  rw [meaningAll_shiftAll, meaningAll_shiftAll, View.go_go, h₁, Ending.map_map]
  simp only [h₂]

section

variable {ops : List MacroOp} {v : View} {w : Int64}

/-- Proper operations do not see a cell that they do not use. -/
theorem meaningAll_put_unused (hp : ProperAll ops) (hw : w ∉ usedAll ops) (x : UInt8) :
    meaningAll eof fuel ops (v.put w x) =
      (meaningAll eof fuel ops v).map (·.poke (v.pointer + w) x) := by
  refine meaningAll_poke x ops hp fun d hd he => hw ?_
  rwa [show w = d by grind]

/-- Proper operations leave a cell that they do not use. -/
theorem meaningAll_unused (hp : ProperAll ops) {u : View} (hw : w ∉ usedAll ops)
    (h : meaningAll eof fuel ops v = .done u) :
    u.poke (v.pointer + w) (v.get w) = u := by
  have hpoke : meaningAll eof fuel ops (v.put w (v.get w)) = _ := meaningAll_put_unused hp hw _
  rw [View.put_get, h, Ending.map_done] at hpoke
  exact (Ending.done.inj hpoke).symm

/-- The last change to a cell counts. -/
theorem poke_poke (u : View) (a : Int64) (x y : UInt8) : (u.poke a x).poke a y = u.poke a y := by
  simp [View.poke]

/-- A cell that is not used and is zero can be set before the operations and cleared behind them. -/
theorem meaningAll_put_poke (hp : ProperAll ops) (hd : displacement ops = 0) {u : View}
    (hw : w ∉ usedAll ops) (hz : v.get w = 0) (h : meaningAll eof fuel ops v = .done u) :
    u.get w = 0 ∧ ∀ x, (u.poke (v.pointer + w) x).get w = x ∧
      (u.poke (v.pointer + w) x).put w 0 = u := by
  have hu := meaningAll_unused hp hw h
  have hptr : u.pointer = v.pointer := by simpa [hd] using meaningAll_pointer _ hp h
  rw [hz] at hu
  refine ⟨?_, fun x => ⟨?_, ?_⟩⟩
  · rw [← hu]
    simp [View.get, View.poke, hptr]
  · simp [View.get, View.poke, hptr]
  · show (u.poke (v.pointer + w) x).poke (u.pointer + w) 0 = u
    rw [hptr, poke_poke, hu]

end

/-- The text of a branch: `work` is set, the first condition runs the one body and takes `work`
back, the second one runs the other body if `work` is still set. -/
theorem branch_meets {src work : Int64} {whenTrue whenFalse : List MacroOp}
    (hp : (branch src work whenTrue whenFalse).Proper) (v : View) :
    Ending.Meets
      ((if (v.plus work 1).get src = 0 then Ending.done (v.plus work 1)
        else ((meaningAll eof fuel whenTrue (v.plus work 1)).bind fun v =>
          .done (v.plus work (-1))).bind fun v => .done (v.put src 0)).bind fun v =>
            if v.get work = 0 then .done v
            else (meaningAll eof fuel whenFalse v).bind fun v => .done (v.put work 0))
      (meaning eof fuel (branch src work whenTrue whenFalse) v) := by
  obtain ⟨hne, ⟨hdt, hpt⟩, hdf, hpf⟩ := hp
  rw [meaning]
  by_cases hz : v.get work = 0 ∧ src ∉ usedAll whenTrue ++ usedAll whenFalse ∧
      work ∉ usedAll whenTrue ++ usedAll whenFalse
  swap
  · rw [if_neg hz]
    exact Ending.meets_stuck _
  rw [if_pos hz]
  obtain ⟨hw, -, hwork⟩ := hz
  obtain ⟨hwt, hwf⟩ := not_or.mp (mt List.mem_append.mpr hwork)
  have hplus : v.plus work 1 = v.put work 1 := by rw [View.plus, hw, UInt8.zero_add]
  rw [hplus, View.get_put_of_ne v hne]
  by_cases hs : v.get src = 0
  · rw [if_pos hs, if_pos hs, Ending.bind_done, View.get_put_self, if_neg (by decide),
      meaningAll_put_unused hpf hwf]
    cases hm : meaningAll eof fuel whenFalse v with
    | done u =>
        obtain ⟨-, hset⟩ := meaningAll_put_poke hpf hdf hwf hw hm
        exact .of_eq (congrArg Ending.done (hset 1).2)
    | more u => exact ⟨rfl, rfl⟩
    | stuck => trivial
  · rw [if_neg hs, if_neg hs, meaningAll_put_unused hpt hwt]
    cases hm : meaningAll eof fuel whenTrue v with
    | done u =>
        obtain ⟨hclear, hset⟩ := meaningAll_put_poke hpt hdt hwt hw hm
        have hone : (u.poke (v.pointer + work) 1).plus work (-1) = u := by
          rw [View.plus, (hset 1).1]
          exact (hset 1).2
        have hzero : (u.put src 0).get work = 0 := by
          rwa [View.get_put_of_ne _ hne.symm]
        simp only [Ending.map_done, Ending.bind_done, hone, hzero, if_true]
        exact .of_eq rfl
    | more u => exact ⟨rfl, rfl⟩
    | stuck => trivial

/-- Displacements add up. -/
theorem displacement_append (a b : List MacroOp) :
    displacement (a ++ b) = displacement a + displacement b := by
  induction a with
  | nil => simp [displacement]
  | cons op rest ih => rw [List.cons_append, displacement, ih, displacement, Int64.add_assoc]

/-- The body that a branch takes moves the pointer as far as the one it was given. -/
theorem displacement_taken (d cell : Int64) (body : List MacroOp) :
    displacement (shiftAll d body ++ [.add cell (-1)]) = displacement body := by
  rw [displacement_append, displacement_shiftAll]
  exact Int64.add_zero _

/-- The body of the first condition of a branch. -/
theorem writes_taken {src work : Int64} {whenTrue : List MacroOp}
    (h : Writes eof fuel Node.flattenAll (meaningAll eof fuel (shiftAll (-src) whenTrue))
      (expandAllAt (-src) whenTrue)) :
    Writes eof fuel Node.flattenAll
      (fun v => (meaningAll eof fuel (shiftAll (-src) whenTrue) v).bind fun v =>
        .done (v.plus (work - src) (-1)))
      (do
        let nodes ← expandAllAt (-src) whenTrue
        let less ← addNode (work - src) (-1)
        return nodes ++ [less]) := by
  refine h.bind fun nodes h₁ => (writes_addNode (work - src) (-1)).bind fun less h₂ => ?_
  rw [byte_neg_one] at h₂
  exact h₁.nodes_append h₂.node

/-- The body of a branch that is taken, seen from the tested cell, where it is written. -/
theorem taken_rebase (d src work : Int64) (body : List MacroOp) (v : View) :
    ((meaningAll eof fuel (shiftAll d body) v).bind fun v => .done (v.plus (work + d) (-1))) =
      ((meaningAll eof fuel (shiftAll (-src) body) (v.go (src + d))).bind fun v =>
        .done (v.plus (work - src) (-1))).map (·.go (-(src + d))) := by
  rw [meaningAll_rebase d src]
  refine Ending.bind_map fun u => ?_
  have e : -(src + d) + (work + d) = work - src := by grind
  rw [Ending.map_done, View.plus_go, e]

/-! ### All operations -/

mutual

/-- **The text of an expanded operation performs what the operation means**, at every offset. -/
theorem writes_expandAt (d : Int64) : ∀ {op : MacroOp}, op.Proper →
    Writes eof fuel Node.flatten (meaning eof fuel (op.shift d)) (expandAt d op)
  | .go delta, _ => (writes_goNode delta).congr fun _ => rfl
  | .add dst count, _ => (writes_addNode _ count).congr fun _ => rfl
  | .move dst src, h => (writes_moveNode (proper_shift d h)).congr fun _ => rfl
  | .unmove dst src, h => (writes_unmoveNode (proper_shift d h)).congr fun _ => rfl
  | .zero dst, _ => (writes_zeroNode _).congr fun _ => rfl
  | .copy dst src work, h => (writes_copyNode (proper_shift d h)).congr fun _ => rfl
  | .isZero dst src negated preserve, h => by
      obtain ⟨hl, hn⟩ := proper_shift d h
      exact (writes_testNode negated hl hn).congr fun _ => rfl
  | .and dst srcs work, h => by
      obtain ⟨hs, hn⟩ := proper_shift d h
      exact (writes_andNode hs hn).congr fun _ => rfl
  | .or dst srcs, h => by
      obtain ⟨hs, hn⟩ := proper_shift d h
      exact (writes_orNode hs hn).congr fun _ => rfl
  | .xor dst srcs work, h => by
      obtain ⟨hs, hn⟩ := proper_shift d h
      exact (writes_xorNode hs hn).congr fun _ => rfl
  | .isEq dst first second works, h => by
      obtain ⟨hl, hn⟩ := proper_shift d h
      exact (writes_isEqNode hl hn).congr fun _ => rfl
  | .cond src body, h => by
      have hc : Writes eof fuel Node.flatten _ (condNode (src + d) (shiftAll d body) fun _ =>
          expandAllAt (-src) body) :=
        writes_condNode _ (proper_shift d h).1 (writes_expandAllAt (-src) h.2)
          (meaningAll_rebase d src body)
      exact hc.congr fun _ => rfl
  | .loop src body, h => by
      have hl : Writes eof fuel Node.flatten _ (loopNode (src + d) (shiftAll d body) fun _ =>
          expandAllAt (-src) body) :=
        writes_loopNode _ (proper_shift d h).1 (writes_expandAllAt (-src) h.2)
          (meaningAll_rebase d src body)
      exact hl.congr fun _ => rfl
  | .branch src work whenTrue whenFalse, h => by
      obtain ⟨-, ⟨hdt, -⟩, hdf, -⟩ := proper_shift d h
      have ht : Writes eof fuel Node.flatten _ (condNode (src + d)
          (shiftAll d whenTrue ++ [.add (work + d) (-1)]) fun _ => do
            let nodes ← expandAllAt (-src) whenTrue
            let less ← addNode (work - src) (-1)
            return nodes ++ [less]) :=
        writes_condNode _ (by rw [displacement_append, hdt]; rfl)
          (writes_taken (writes_expandAllAt (-src) h.2.1.2)) (taken_rebase d src work whenTrue)
      have hf : Writes eof fuel Node.flatten _ (condNode (work + d) (shiftAll d whenFalse) fun _ =>
          expandAllAt (-work) whenFalse) :=
        writes_condNode _ hdf (writes_expandAllAt (-work) h.2.2.2)
          (meaningAll_rebase d work whenFalse)
      refine (writes_addNode (work + d) 1).bind fun one h₁ => ht.bind fun taken h₂ =>
        hf.bind fun other h₃ => (h₁.nodes_cons (h₂.nodes_cons h₃.node)).meets fun v => ?_
      rw [Ending.bind_done, byte_one]
      exact branch_meets (proper_shift d h) v
  | .literal text shifted, h => by
      refine (writes_literalNode h.1 h.2 (shifted + d)).congr fun v => ?_
      rw [shift, meaning, if_neg (by simp [h.2])]
  | .control _, h => h.elim

/-- So it is with operations in sequence. -/
theorem writes_expandAllAt (d : Int64) : ∀ {ops : List MacroOp}, ProperAll ops →
    Writes eof fuel Node.flattenAll (meaningAll eof fuel (shiftAll d ops)) (expandAllAt d ops)
  | [], _ => Performs.nil.congr fun _ => rfl
  | _ :: _, h => (writes_expandAt d h.1).bind fun _ h₁ =>
      (writes_expandAllAt d h.2).bind fun _ h₂ => (h₁.append h₂).congr fun _ => rfl

end

/-- **The text of proper operations performs what they mean.** -/
theorem writes_expandAll {ops : List MacroOp} (h : ProperAll ops) :
    Writes eof fuel Node.flattenAll (meaningAll eof fuel ops) (expandAll ops) :=
  (writes_expandAllAt 0 h).congr fun v => by
    rw [meaningAll_shiftAll, View.go_zero]
    cases meaningAll eof fuel ops v <;> simp

end

end MacroOp

end StackTape
