import StackTape.Proofs.Expansion.Parallel
import StackTape.Proofs.Expansion.Run
import StackTape.Proofs.Machine.Homing

/-!
# How generated text ends

Two facts about the text of operations that hold whatever the cells contain, because every loop in
it comes back to the cell it tests.

* `Output.generate_pointer`: a run that comes to the end of the text has moved the pointer by the
  net movement of the operations.  Operands may alias and work cells may be in use.
* `Output.generate_halts`: text of validated operations without loops comes to an end.  A round of a
  drain counts its source down, since no target is the source, and a condition clears the cell it
  tests, so every loop ends by induction on that cell (`Halts.loop`).
-/

namespace StackTape

open Machine MacroOp

/-- A count moves nothing. -/
theorem pace_count {c : UInt8} (h : c ∈ [0x2B, 0x2D]) : pace c = 0 := by
  simp only [List.mem_cons, List.not_mem_nil, or_false] at h
  rcases h with rfl | rfl <;> rfl

/-! ### The pointer -/

theorem Parallel.homing {strict : Prop} {raw : Bytes → Prop} {x y x' y' : Int64} {s t : Bytes}
    (h : Parallel strict raw x y s t x' y')
    (hraw : ∀ text, raw text → text.any isBracket = false) : Homing s (x' - x) := by
  induction h with
  | nil x => simpa using Homing.nil
  | @fst x _ x' _ c _ _ hc _ ih =>
      obtain ⟨h₁, h₂⟩ := ne_bracket hc (by decide) (by decide)
      rw [show x' - x = pace c + (x' - (x + pace c)) by grind]
      exact .instr h₁ h₂ ih
  | snd _ _ ih => exact ih
  | @both x x' _ c _ _ hc _ ih =>
      obtain ⟨h₁, h₂⟩ := ne_bracket hc (by decide) (by decide)
      rw [show x' - x = pace c + (x' - x) by rw [pace_count hc, Int64.zero_add]]
      exact .instr h₁ h₂ ih
  | @piece x x' _ text _ _ ht _ ih =>
      rw [show x' - x = textDisplacement text + (x' - (x + textDisplacement text)) by grind]
      exact (Homing.of_plain (hraw text ht)).append ih
  | @loop x _ _ _ _ _ _ _ _ _ ihb ih =>
      rw [show x - x = 0 by grind] at ihb
      exact .loop ihb ih

/-- **The net movement says where the pointer is** at the end of a run of generated text, whatever
the cells, the input and the hook: raw text without brackets is all that is asked of the
operations. -/
theorem Output.generate_pointer {ops : List MacroOp} {extent : Int64} {out : Output}
    (h : Output.generate ops extent = .ok out)
    (ht : ∀ text shifted, .literal text shifted ∈ partsAll ops → text.any isBracket = false)
    {m : Machine} (hm : Reachable m) (hl : m.loops = []) {σ : Type} {o : Options} {hook : Hook σ}
    {fuel : Nat} {s : σ} {e : Finished σ} (hr : m.run o hook fuel out.code s = some e)
    (hs : e.stop = none) :
    (e.machine.pointer : Int) = m.pointer + (displacement ops).toInt := by
  obtain ⟨-, nodes, hx, hc⟩ := Output.generate_eq_ok h
  have hp : Parallel False (fun text => text.any isBracket = false) 0 0 (Node.flattenAll nodes)
      (Node.flattenAll nodes) (0 + displacement ops) (0 + displacement ops) :=
    parallel_expandAll nofun ⟨ht, nofun⟩ nofun hx 0
  have hhome := hp.homing fun _ => id
  rw [Int64.zero_add, Int64.sub_zero, ← hc] at hhome
  exact eq_add_toInt hm.sound.core_onTape.lt (Reachable.run hm hr).sound.core_onTape.lt
    (hhome.run hm.sound hl hr hs)

/-- A copy under a condition, whose work cell is its destination and is in use, and then two cells
on. -/
theorem Output.generate_pointer_alias : ∃ m out e,
    Reachable m ∧ m.cell 1 = 1 ∧ m.cell 2 = 255 ∧ m.pointer = 1 ∧
      Output.generate [.cond 0 [.copy 1 0 1], .go 1, .literal [0x3E] 0] 2 = .ok out ∧
      m.run {} Hook.silent 30 out.code () = some e ∧ e.stop = none ∧ e.machine.pointer = 3 := by
  obtain ⟨m₁, m₂, m, h₁, h₂, hs, hc₁, hc₂, hpt⟩ : ∃ m₁ m₂ m : Machine,
      Machine.poke? { capacity := 4 } 1 1 = some m₁ ∧ m₁.poke? 2 255 = some m₂ ∧
        m₂.seek 1 = .ok m ∧ m.cell 1 = 1 ∧ m.cell 2 = 255 ∧ m.pointer = 1 :=
    ⟨_, _, _, rfl, rfl, rfl, rfl, rfl, rfl⟩
  have hm : Reachable m :=
    .seek (.poke (.poke (.new (show Machine.new? 4 {} {} = some _ from rfl)) h₁) h₂) hs
  have hl : m.loops = [] := by cases h₁; cases h₂; cases hs; rfl
  have hcode : (Output.generate [.cond 0 [.copy 1 0 1], .go 1, .literal [0x3E] 0] 2).toOption.map
      Output.code = some (Bytes.ascii "[[->++<]>[-<+>]<[-]]>>") := by decide +kernel
  obtain ⟨out, hg, hout⟩ := exists_ok_of_map_eq_some hcode
  have hrun : (m.run {} Hook.silent 30 out.code ()).map (·.stop) = some none := by
    rw [hout]
    cases h₁
    cases h₂
    cases hs
    cbv
  obtain ⟨e, hr, hstop⟩ := Option.map_eq_some_iff.mp hrun
  have hpointer := Output.generate_pointer hg (by simp [partsAll, parts, isBracket]) hm hl hr hstop
  have hd : (displacement [.cond 0 [.copy 1 0 1], .go 1, .literal [0x3E] 0]).toInt = 2 := by decide
  rw [hpt, hd] at hpointer
  exact ⟨m, out, e, hm, hc₁, hc₂, hpt, hg, hr, hstop, by exact_mod_cast hpointer⟩

/-! ### Halting -/

/-- The evaluation of a piece comes to its end, with the pointer `d` cells further on, or stops at
the end of the tape or at a device. -/
def Halts (eof : EofMode) (s : Bytes) (d : Int64) (u : Core) : Prop :=
  ∃ v stop, Evaluates eof s u v stop ∧
    (stop = none → Int64.ofNat v.pointer = Int64.ofNat u.pointer + d) ∧
    ∀ e, stop = some e → e.leavesTape ∨ e.isDevice

namespace Halts

variable {eof : EofMode} {s body : Bytes} {c : UInt8} {d : Int64} {u : Core}

theorem instr (ht : isTapeByte c) (hb : isBracket c = false) (hu : u.OnTape)
    (ih : ∀ {u : Core}, u.OnTape → Halts eof s d u) : Halts eof (c :: s) (pace c + d) u := by
  have hplain : c ≠ 0x5B ∧ c ≠ 0x5D := by simpa [isBracket] using hb
  obtain ⟨u₁, stop, hbyte⟩ : ∃ u₁ stop, u.byte eof c = (u₁, stop) := ⟨_, _, rfl⟩
  cases stop with
  | some e =>
      refine ⟨u₁, some e, .stops hplain.1 hplain.2 hbyte, fun h => absurd h (by simp), ?_⟩
      intro e' he
      cases he
      exact Core.byte_stop ht hb hbyte
  | none =>
      obtain ⟨v, stop, he, hp, hs⟩ := ih (hu.byte hbyte)
      refine ⟨v, stop, .instr hplain.1 hplain.2 hbyte he, fun hn => ?_, hs⟩
      rw [hp hn, Core.byte_pointer hbyte, Int64.add_assoc]

theorem plain {text : Bytes} (ht : text.all isTapeByte) (hb : text.any isBracket = false)
    (hu : u.OnTape) (ih : ∀ {u : Core}, u.OnTape → Halts eof s d u) :
    Halts eof (text ++ s) (textDisplacement text + d) u := by
  induction text generalizing u with
  | nil =>
      rw [show textDisplacement [] + d = d by simp [textDisplacement]]
      exact ih hu
  | cons c rest iht =>
      rw [List.all_cons, Bool.and_eq_true] at ht
      rw [List.any_cons, Bool.or_eq_false_iff] at hb
      rw [textDisplacement_cons, Int64.add_assoc]
      exact instr ht.1 hb.1 hu fun hu => iht ht.2 hb.2 hu

theorem toNat_sub_one_lt {x : UInt8} (h : x ≠ 0) : (x - 1).toNat < x.toNat := by
  have hpos : 0 < x.toNat := Nat.pos_of_ne_zero fun h0 => h (UInt8.toNat_inj.mp h0)
  have hone : (1 : UInt8) ≤ x := UInt8.le_iff_toNat_le.mpr hpos
  rw [UInt8.toNat_sub_of_le _ _ hone]
  exact Nat.sub_lt hpos Nat.one_pos

/-- **A loop whose rounds wane halts**, by induction on the cell under the pointer. -/
theorem loop (hb : Balanced body) (hw : Wanes body)
    (ihb : ∀ {u : Core}, u.OnTape → Halts eof body 0 u)
    (ih : ∀ {u : Core}, u.OnTape → Halts eof s d u) (hu : u.OnTape) :
    Halts eof (0x5B :: (body ++ 0x5D :: s)) d u := by
  induction hn : u.current.toNat using Nat.strong_induction_on generalizing u with
  | _ n ihn =>
      by_cases hz : u.current = 0
      · obtain ⟨v, stop, he, hp, hs⟩ := ih hu
        exact ⟨v, stop, .pass hb hz he, hp, hs⟩
      obtain ⟨v, stop, he, hp, hs⟩ := ihb hu
      cases stop with
      | some e => exact ⟨v, some e, .inside hb hz he, fun h => absurd h (by simp), hs⟩
      | none =>
          have hv := he.onTape hu
          have hpv := hp rfl
          rw [Int64.add_zero] at hpv
          have hlt : v.current.toNat < n := by
            rw [← hn]
            rcases hw hu he (ofNat_inj hv.lt hu.lt hpv) with h | h
            · rw [h]
              exact Nat.pos_of_ne_zero fun h0 => hz (UInt8.toNat_inj.mp h0)
            · rw [h]
              exact toNat_sub_one_lt hz
          obtain ⟨w, stop, he', hp', hs'⟩ := ihn _ hlt hv rfl
          refine ⟨w, stop, .round hb hz he he', fun hnone => ?_, hs'⟩
          rw [hp' hnone, hpv]

end Halts

/-- A move or a count is tape text other than a bracket. -/
theorem plain_byte {c : UInt8} (h : c ∈ [0x3E, 0x3C] ++ [0x2B, 0x2D]) :
    isTapeByte c ∧ isBracket c = false := by
  simp only [List.mem_append, List.mem_cons, List.not_mem_nil, or_false] at h
  rcases h with (rfl | rfl) | rfl | rfl <;> decide

/-- **Strict text halts**: its loops wane. -/
theorem Parallel.halts {strict : Prop} {raw : Bytes → Prop} {x y x' y' : Int64} {s t : Bytes}
    (h : Parallel strict raw x y s t x' y') (hst : strict)
    (hraw : ∀ text, raw text → text.all isTapeByte ∧ text.any isBracket = false)
    {eof : EofMode} {u : Core} (hu : u.OnTape) : Halts eof s (x' - x) u := by
  induction h generalizing u with
  | nil => exact ⟨u, none, .nil u, by simp, fun _ h => absurd h (by simp)⟩
  | @fst x _ x' _ c _ _ hc _ ih =>
      obtain ⟨ht, hb⟩ := plain_byte (List.mem_append_left _ hc)
      rw [show x' - x = pace c + (x' - (x + pace c)) by grind]
      exact Halts.instr ht hb hu ih
  | snd _ _ ih => exact ih hu
  | @both x x' _ c _ _ hc _ ih =>
      obtain ⟨ht, hb⟩ := plain_byte (List.mem_append_right _ hc)
      rw [show x' - x = pace c + (x' - x) by rw [pace_count hc, Int64.zero_add]]
      exact Halts.instr ht hb hu ih
  | @piece x x' _ text _ _ ht _ ih =>
      rw [show x' - x = textDisplacement text + (x' - (x + textDisplacement text)) by grind]
      exact Halts.plain (hraw text ht).1 (hraw text ht).2 hu ih
  | @loop x _ _ _ _ _ _ hw hb _ ihb ih =>
      rw [show x - x = 0 by grind] at ihb
      have hbal := (hb.homing fun text ht => (hraw text ht).2).balanced
      exact Halts.loop hbal (hw hst) ihb ih hu

namespace MacroOp

mutual

/-- What is inside a proper operation is proper. -/
theorem proper_of_mem_parts : ∀ {op : MacroOp}, op.Proper → ∀ part ∈ op.parts, part.Proper
  | .cond src body, h | .loop src body, h => by
      rw [parts, List.forall_mem_cons]
      exact ⟨h, proper_of_mem_partsAll h.2⟩
  | .branch src work whenTrue whenFalse, h => by
      rw [parts, List.forall_mem_cons, List.forall_mem_append]
      exact ⟨h, proper_of_mem_partsAll h.2.1.2, proper_of_mem_partsAll h.2.2.2⟩
  | .go _, h | .add .., h | .move .., h | .unmove .., h | .zero _, h | .copy .., h
  | .isZero .., h | .and .., h | .or .., h | .xor .., h | .isEq .., h | .literal .., h =>
      List.forall_mem_singleton.mpr h
  | .control _, h => h.elim

theorem proper_of_mem_partsAll : ∀ {ops : List MacroOp}, ProperAll ops →
    ∀ part ∈ partsAll ops, part.Proper
  | [], _ => by simp [partsAll]
  | _ :: _, h => by
      rw [partsAll, List.forall_mem_append]
      exact ⟨proper_of_mem_parts h.1, proper_of_mem_partsAll h.2⟩

end

end MacroOp

/-- **Text without loops of its own halts.**  The text of validated operations, none of which is a
loop, control flow or raw text with brackets, is refused for no operation.  On any machine without
open loops, whatever its cells hold, the run ends: at the end of the text, or where the pointer
would leave the tape or a device fails. -/
theorem Output.generate_halts {ops : List MacroOp} (hv : validateAll ops = .ok ())
    (hp : plainAll ops) (hloop : ∀ src body, .loop src body ∉ partsAll ops) {m : Machine}
    (hm : Reachable m) (hl : m.loops = []) {o : Options} (ho : o.maxSteps = 0) (extent : Int64) :
    (∀ op fault, Output.generate ops extent ≠ .error (.expansion (.refused op fault))) ∧
    ∀ out, Output.generate ops extent = .ok out →
      ∃ r, m.Ends o out.code r ∧ ∀ stop, r.stop = some stop → stop.leavesTape ∨ stop.isDevice := by
  have hprop := properAll_of_validateAll hv hp
  refine ⟨Output.generate_ne_refused hprop extent, fun out h => ?_⟩
  obtain ⟨-, nodes, hx, hc⟩ := Output.generate_eq_ok h
  have hheld : Held True (fun text => text.all isTapeByte ∧ text.any isBracket = false)
      (partsAll ops) :=
    ⟨fun text shifted hm => proper_of_mem_partsAll hprop _ hm, fun _ => hloop⟩
  have hself := parallel_expandAll (fun _ text ht => (Homing.of_plain ht.2).balanced) hheld
    (fun _ => hprop) hx 0
  have hhalts : Halts o.eof _ _ m.core := hself.halts trivial (fun _ => id) hm.sound.core_onTape
  obtain ⟨v, stop, he, -, hstop⟩ := hhalts
  rw [← hc] at he
  obtain ⟨r, hr, -, rfl⟩ := he.ends ho hm.sound hl
  refine ⟨r, hr, fun stop hs => ?_⟩
  simpa using hstop stop.unplaced (by rw [hs]; rfl)

/-- A test whose work cells are in use, and a condition that clears and counts the cell it tests. -/
theorem Output.generate_halts_dirty : ∃ m out r,
    Reachable m ∧ m.cell 2 = 7 ∧
      Output.generate [.isZero 1 0 false [2, 3], .cond 1 [.zero 1, .add 1 3, .literal [0x2C] 0]] 4 =
        .ok out ∧
      m.Ends {} out.code r ∧ ∀ stop, r.stop = some stop → stop.leavesTape ∨ stop.isDevice := by
  obtain ⟨m, hp, hc⟩ : ∃ m, Machine.poke? { capacity := 4 } 2 7 = some m ∧ m.cell 2 = 7 :=
    ⟨_, rfl, rfl⟩
  have hm : Reachable m := .poke (.new (show Machine.new? 4 {} {} = some _ from rfl)) hp
  have hl : m.loops = [] := by cases hp; rfl
  have hv : validateAll [.isZero 1 0 false [2, 3],
      .cond 1 [.zero 1, .add 1 3, .literal [0x2C] 0]] = .ok () :=
    rfl
  have hcode : (Output.generate [.isZero 1 0 false [2, 3],
      .cond 1 [.zero 1, .add 1 3, .literal [0x2C] 0]] 4).toOption.map Output.code =
        some (Bytes.ascii "[->>>+<+<<]>>>[-<<<+>>>]<<<>+<>>[<->[-]]<<>[[-]+++<,>[-]]<") := by
    decide +kernel
  obtain ⟨out, hg, -⟩ := exists_ok_of_map_eq_some hcode
  obtain ⟨r, hr, hstop⟩ := (Output.generate_halts hv (by decide) (by simp [partsAll, parts]) hm hl
    (o := {}) rfl 4).2 out hg
  exact ⟨m, out, r, hm, hc, hg, hr, hstop⟩

end StackTape
