import StackTape.Proofs.Expansion.Run
import StackTape.Proofs.Lowering.Frame

/-!
# Fresh machines

What a machine shows before it runs (`Machine.view_new`), and how its cells store a state of the
stack machine afterwards (`Machine.Stores`).
-/

namespace StackTape

open Machine MacroOp Lowering

/-- The cells of a machine from `base` on: every slot of a frame at its offset, the stack above the
frame, and zero elsewhere. -/
structure Machine.Stores (m : Machine) (f : Frame) (base : Nat) (σ : Store) : Prop where
  slot : ∀ name d, f.offset? name = some d → m.cell (base + d.toInt.toNat) = σ.slots name
  stack : ∀ k x, σ.stack.reverse[k]? = some x → m.cell (base + f.totalSize.toInt.toNat + k) = x
  other : ∀ a < m.capacity, (∀ name d, f.offset? name = some d → a ≠ base + d.toInt.toNat) →
    (a < base + f.totalSize.toInt.toNat ∨
      base + f.totalSize.toInt.toNat + σ.stack.length ≤ a) → m.cell a = 0

theorem ofNat_toInt_toNat {d : Int64} (hd : 0 ≤ d.toInt) : Int64.ofNat d.toInt.toNat = d := by
  have := d.toInt_lt
  rw [← Int64.toInt_inj, Int64.toInt_ofNat_of_lt (by omega), Int.toNat_of_nonneg hd]

/-- A machine that shows a picture of a state stores it. -/
theorem Frame.Sized.stores {f : Frame} (hf : f.Sized) (base : Nat) {l : Lowering} {σ : Store}
    {v w : View} (hp : (hf.layout (Int64.ofNat base)).Pictures (fun _ => 0) l σ v) {s : Setting}
    {m : Machine} (hm : Shows s m w) (hw : w.cells = v.cells)
    (hd : base + l.depth.toInt < s.size) : m.Stores f base σ := by
  obtain ⟨b, hb, hl, rfl⟩ := hp
  have hh : (hf.layout (Int64.ofNat base)).height = f.totalSize := rfl
  have ho : (hf.layout (Int64.ofNat base)).origin = Int64.ofNat base := rfl
  have ht : 0 ≤ f.totalSize.toInt := by
    rw [hf.toInt_totalSize]
    exact Frame.cells_nonneg hf.positive
  have hsize := hm.possible
  unfold largestCapacity at hsize
  rw [hh] at hl
  -- the cells of the machine are those of the stack on its floor
  have hc : ∀ i < s.size, m.cell i = (b.stacked σ.stack).cells (Int64.ofNat i) := by
    intro i hi
    rw [← hm.cells i hi, hw]
  refine ⟨fun name d hd' => ?_, fun k x hx => ?_, fun a ha hna hout => ?_⟩
  · obtain ⟨p, hp, rfl, rfl⟩ := (hf.offset?_eq_some_iff (Int64.ofNat base)).mp hd'
    have hbel := (hf.layout (Int64.ofNat base)).below p hp
    rw [hh] at hbel
    rw [hc _ (by omega), Int64.ofNat_add, ofNat_toInt_toNat hbel.1, View.cells_stacked_of_ne]
    · exact hb.slot p hp
    · intro k hk he
      rw [hb.pointer] at he
      exact Layout.above_ne hp (by omega) he.symm
  · have hk : k < σ.stack.length := by
      have := (List.getElem?_eq_some_iff.mp hx).1
      simpa using this
    rw [View.cells_stacked (show σ.stack.length < 2 ^ 63 by omega) hk, hb.pointer] at hx
    rw [hc _ (by omega), Int64.ofNat_add, Int64.ofNat_add, ofNat_toInt_toNat ht]
    exact Option.some.inj hx
  · rw [hm.size] at ha
    rw [hc a ha, View.cells_stacked_of_ne, hb.other]
    · intro p hp he
      have hbel := (hf.layout (Int64.ofNat base)).below p hp
      rw [hh] at hbel
      rw [ho, ← ofNat_toInt_toNat hbel.1, ← Int64.ofNat_add] at he
      have hlt : base + p.depth.toInt.toNat < s.size := by omega
      exact hna p.name p.depth ((hf.offset?_eq_some_iff _).mpr ⟨p, hp, rfl, rfl⟩)
        (ofNat_inj (ha.trans_le hm.possible) (hlt.trans_le hm.possible) he)
    · intro k hk he
      rw [hb.pointer, ho, hh, ← ofNat_toInt_toNat ht, ← Int64.ofNat_add, ← Int64.ofNat_add] at he
      have hlt : base + f.totalSize.toInt.toNat + k < s.size := by omega
      have := ofNat_inj (ha.trans_le hm.possible) (hlt.trans_le hm.possible) he
      omega

/-- A fresh machine has nothing but its input. -/
theorem Machine.view_new {capacity : Int64} {input : Source} {sink : Sink} {m : Machine}
    (h : Machine.new? capacity input sink = some m) :
    m.view = ⟨fun _ => 0, 0, input.remaining, []⟩ ∧ m.loops = [] ∧ m.pointer = 0 ∧
      m.input = input ∧ m.output = sink := by
  unfold Machine.new? at h
  by_cases h₁ : capacity ≤ 0
  · rw [if_pos h₁] at h
    cases h
    exact ⟨rfl, rfl, rfl, rfl, rfl⟩
  · rw [if_neg h₁] at h
    dsimp only at h
    split_ifs at h
    cases h
    exact ⟨rfl, rfl, rfl, rfl, rfl⟩

end StackTape
