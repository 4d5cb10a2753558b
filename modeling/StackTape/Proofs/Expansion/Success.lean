import StackTape.Proofs.Expansion.Length
import StackTape.Proofs.Expansion.Run
import StackTape.Proofs.Machine.Nesting

/-!
# What can be generated

Text is generated just if every operation is formed at every depth and the text can be held
(`measures_generate`): no run of one instruction, no raw text with the way there and back, and
nothing that is put together from them is longer than it.  Whatever keeps its contract and holds no
control flow is formed (`formed_of_validateAll`), so that only the length stands against it
(`Output.generate_succeeds`).
-/

namespace StackTape

namespace MacroOp

/-! ### Contracts -/

mutual

/-- An operation that keeps its contract is formed at every depth, control flow apart. -/
theorem formed_of_fault? : ∀ {op : MacroOp}, op.fault? = none →
    ∀ part ∈ op.parts, (∀ instr, part ≠ .control instr) → part.Formed
  | .cond src body, h, part, hm, hc | .loop src body, h, part, hm, hc => by
      rw [fault?] at h
      obtain ⟨hd, hb⟩ := bodyFault?_eq_none h
      rcases List.mem_cons.mp hm with rfl | hm
      · exact hd
      · exact formed_of_firstFault? hb part hm hc
  | .branch src work whenTrue whenFalse, h, part, hm, hc => by
      rw [fault?] at h
      split at h
      · cases h
      · split at h
        · cases h
        · next ht =>
            obtain ⟨hdt, hbt⟩ := bodyFault?_eq_none ht
            obtain ⟨hdf, hbf⟩ := bodyFault?_eq_none h
            rcases List.mem_cons.mp hm with rfl | hm
            · exact ⟨hdt, hdf⟩
            · rcases List.mem_append.mp hm with hm | hm
              · exact formed_of_firstFault? hbt part hm hc
              · exact formed_of_firstFault? hbf part hm hc
  | .isZero .., h, part, hm, _ | .and .., h, part, hm, _ | .or .., h, part, hm, _
  | .xor .., h, part, hm, _ | .isEq .., h, part, hm, _ => by
      obtain rfl := List.mem_singleton.mp hm
      exact (proper_of_fault? _ h rfl).1
  | .go _, _, part, hm, _ | .add .., _, part, hm, _ | .move .., _, part, hm, _
  | .unmove .., _, part, hm, _ | .zero _, _, part, hm, _ | .copy .., _, part, hm, _
  | .literal .., _, part, hm, _ => by
      obtain rfl := List.mem_singleton.mp hm
      trivial
  | .control instr, _, part, hm, hc => absurd (List.mem_singleton.mp hm) (hc instr)

theorem formed_of_firstFault? : ∀ {ops : List MacroOp}, firstFault? ops = none →
    ∀ part ∈ partsAll ops, (∀ instr, part ≠ .control instr) → part.Formed
  | [], _, _, hm, _ => by cases hm
  | op :: rest, h, part, hm, hc => by
      rw [firstFault?] at h
      split at h
      · cases h
      · next ho =>
          rcases List.mem_append.mp hm with hm | hm
          · exact formed_of_fault? ho part hm hc
          · exact formed_of_firstFault? h part hm hc

end

theorem formed_of_validateAll {ops : List MacroOp} (hv : validateAll ops = .ok ())
    (hc : ∀ instr, .control instr ∉ partsAll ops) : ∀ part ∈ partsAll ops, part.Formed := by
  unfold validateAll at hv
  split at hv
  · cases hv
  · next hf =>
      refine fun part hm => formed_of_firstFault? hf part hm fun instr he => hc instr ?_
      exact he ▸ hm

/-! ### Generated text -/

/-- **What becomes of the text of some operations**: it is what the length says, or too long, or
refused for an operation that is not formed. -/
theorem measures_generate (ops : List MacroOp) :
    Measures (∀ part ∈ partsAll ops, part.Formed) (textLength ops) Prod.snd (generate ops) := by
  refine ((measures_expandAllAt 0 ops).bind (Q := True) le_rfl fun nodes h => ?_).congr
    (Iff.of_eq (and_true _))
  exact (h ▸ measures_joined (Node.flattenAll nodes)).next le_rfl fun code h => .done h

end MacroOp

open MacroOp

namespace Output

variable {ops : List MacroOp} {extent : Int64} {out : Output} {e : CompileError}

/-- Whatever is generated is formed, as long as the length says, and not too long. -/
theorem length_of_generate (h : generate ops extent = .ok out) :
    (∀ part ∈ partsAll ops, part.Formed) ∧ out.code.length = textLength ops ∧
      textLength ops ≤ 2 ^ 48 := by
  have hm := measures_generate ops
  unfold generate at h
  split at h
  · cases h
  · next nodes code hx =>
      cases h
      obtain ⟨-, -, hlen⟩ := MacroOp.generate_eq_ok hx
      rw [longestText_toInt] at hlen
      rw [hx] at hm
      refine ⟨hm.1, hm.2, ?_⟩
      rw [← hm.2]
      exact_mod_cast hlen

/-- Generation stops for an operation that is not formed, or for a text that is too long. -/
theorem cases_of_generate (h : generate ops extent = .error e) :
    (¬ ∀ part ∈ partsAll ops, part.Formed) ∧ (∃ op fault, e = .expansion (.refused op fault)) ∨
      2 ^ 48 < textLength ops ∧ ∃ count, e = .expansion (.overlong count) := by
  have hm := measures_generate ops
  unfold generate at h
  split at h
  · next e' hx =>
      cases h
      rw [hx] at hm
      match e', hm with
      | .overlong count, hm => exact .inr ⟨hm, count, rfl⟩
      | .refused op fault, hm => exact .inl ⟨hm, op, fault, rfl⟩
  · cases h

/-- Formed operations whose text is not too long are written. -/
theorem exists_generate (hf : ∀ part ∈ partsAll ops, part.Formed)
    (hl : textLength ops ≤ 2 ^ 48) (extent : Int64) : ∃ out, generate ops extent = .ok out := by
  obtain ⟨⟨nodes, code⟩, h⟩ := (measures_generate ops).exists_ok hf hl
  rw [generate, h]
  exact ⟨_, rfl⟩

/-- What is generated holds the operations, and its text is that of its nodes. -/
theorem parts_of_generate (h : generate ops extent = .ok out) :
    out.ops = ops ∧ out.code = Node.flattenAll out.nodes := by
  unfold generate at h
  split at h
  · cases h
  · next nodes code hx =>
      cases h
      exact ⟨rfl, (MacroOp.generate_eq_ok hx).2.1⟩

/-- The text that is generated is written, with nothing raw but the raw text of the operations. -/
theorem written_of_generate {raw : Bytes → Prop} (ht : RawAll raw (partsAll ops))
    (h : generate ops extent = .ok out) : Written raw out.code := by
  obtain ⟨-, nodes, hx, hcode⟩ := generate_eq_ok h
  have hy : Yields raw Node.flattenAll (expandAll ops) := yields_expandAllAt 0 ht
  rw [hx] at hy
  rw [hcode]
  exact hy

end Output

theorem all_isTapeByte_of_validate {text : Bytes} {shifted : Int64}
    (h : (MacroOp.literal text shifted).validate = .ok ()) : text.all isTapeByte := by
  by_contra hn
  simp [validate, fault?, ownFault, hn] at h

/-- An instruction that is written by an expansion is a byte of tape text, and not white space. -/
theorem isTapeByte_of_instr {c : UInt8} (hc : c ∈ [0x3E, 0x3C, 0x2B, 0x2D, 0x5B, 0x5D]) :
    isTapeByte c ∧ ¬ Machine.isSpace c := by
  simp only [List.mem_cons, List.not_mem_nil, or_false] at hc
  rcases hc with rfl | rfl | rfl | rfl | rfl | rfl <;> decide

/-- **When text is generated, and what it is.**  Operations that give a text are formed at every
depth, and the text is as long as `textLength` says and can be held.  What gives none is refused for
an operation, and then one is not formed, or it stops because a text is too long.  This needs more
than `2 ^ 47` bytes in all; up to there text is generated just if every operation is formed, and
whatever keeps its contract and holds no control flow is generated.  A text is that short if no
operand is large and there is not much to write.  If the raw text keeps its contract and its
brackets are balanced, so are those of the whole text, which consists of instructions and of the
white space of the raw text. -/
theorem Output.generate_succeeds (ops : List MacroOp) (extent : Int64) :
    (∀ out, Output.generate ops extent = .ok out → (∀ part ∈ partsAll ops, part.Formed) ∧
      out.code.length = textLength ops ∧ textLength ops ≤ 2 ^ 48) ∧
    (∀ e, Output.generate ops extent = .error e →
      (¬ ∀ part ∈ partsAll ops, part.Formed) ∧ (∃ op fault, e = .expansion (.refused op fault)) ∨
        2 ^ 47 < textLength ops ∧ ∃ count, e = .expansion (.overlong count)) ∧
    (textLength ops ≤ 2 ^ 47 →
      ((∃ out, Output.generate ops extent = .ok out) ↔ ∀ part ∈ partsAll ops, part.Formed)) ∧
    (validateAll ops = .ok () → (∀ instr, .control instr ∉ partsAll ops) →
      (∀ op fault, Output.generate ops extent ≠ .error (.expansion (.refused op fault))) ∧
        (textLength ops ≤ 2 ^ 47 → ∃ out, Output.generate ops extent = .ok out)) ∧
    (∀ D, (∀ part ∈ partsAll ops, part.Near D) →
      textLength ops ≤ 64 * (D + 1) * weights (partsAll ops)) ∧
    ∀ out, Output.generate ops extent = .ok out →
      (∀ text shifted, .literal text shifted ∈ partsAll ops →
        (MacroOp.literal text shifted).validate = .ok () ∧ Balanced text) →
      Balanced out.code ∧ ∀ c ∈ out.code, isTapeByte c ∧
        (Machine.isSpace c → ∃ text shifted, .literal text shifted ∈ partsAll ops ∧ c ∈ text) := by
  refine ⟨fun out h => length_of_generate h, fun e h => ?_, fun hl => ?_, fun hv hc => ?_,
    fun D h => textLength_le h, fun out h ht => ?_⟩
  · exact (cases_of_generate h).imp_right (And.imp_left (lt_trans (by decide)))
  · exact ⟨fun ⟨out, h⟩ => (length_of_generate h).1,
      fun hf => exists_generate hf (hl.trans (by decide)) extent⟩
  · have hf := formed_of_validateAll hv hc
    refine ⟨fun op fault h => ?_, fun hl => exists_generate hf (hl.trans (by decide)) extent⟩
    rcases cases_of_generate h with ⟨hn, -⟩ | ⟨-, count, he⟩
    · exact hn hf
    · cases he
  · have hw : Written (fun text => ∃ shifted, .literal text shifted ∈ partsAll ops) out.code :=
      written_of_generate (fun _ shifted hm => ⟨shifted, hm⟩) h
    refine ⟨hw.balanced fun text ⟨shifted, hm⟩ => (ht text shifted hm).2, fun c hc => ?_⟩
    rcases hw.mem hc with hc | ⟨text, ⟨shifted, hm⟩, hc⟩
    · obtain ⟨hb, hs⟩ := isTapeByte_of_instr hc
      exact ⟨hb, fun h => absurd h hs⟩
    · have hb := List.all_eq_true.mp (all_isTapeByte_of_validate (ht text shifted hm).1) c hc
      exact ⟨hb, fun _ => ⟨text, shifted, hm, hc⟩⟩

/-- A condition with a body, and raw text with a space, a loop and an output. -/
theorem Output.generate_succeeds_nested :
    let text : Bytes := [0x2E, 0x20, 0x5B, 0x2D, 0x5D]
    let ops : List MacroOp := [.cond 2 [.add 1 3], .literal text 1]
    validateAll ops = .ok () ∧ (∀ instr, .control instr ∉ partsAll ops) ∧
    textLength ops = 21 ∧ ∃ out, Output.generate ops 0 = .ok out ∧ out.code.length = 21 ∧
      Balanced out.code ∧ 0x20 ∈ out.code ∧ ∀ c ∈ out.code, isTapeByte c := by
  intro text ops
  obtain ⟨hok, -, -, hgen, -, htext⟩ := Output.generate_succeeds ops 0
  have hv : validateAll ops = .ok () := rfl
  have hc : ∀ instr, .control instr ∉ partsAll ops := by simp [ops, partsAll, parts]
  have hl : textLength ops = 21 := by decide
  obtain ⟨out, ho⟩ := (hgen hv hc).2 (by rw [hl]; decide)
  have ht : ∀ raw shifted, .literal raw shifted ∈ partsAll ops →
      (MacroOp.literal raw shifted).validate = .ok () ∧ Balanced raw := by
    intro raw shifted hm
    obtain ⟨rfl, rfl⟩ : raw = text ∧ shifted = 1 := by simpa [ops, partsAll, parts] using hm
    exact ⟨rfl, by decide⟩
  obtain ⟨hb, hall⟩ := htext out ho ht
  refine ⟨hv, hc, hl, out, ho, (hok out ho).2.1.trans hl, hb, ?_, fun c hm => (hall c hm).1⟩
  cases ho
  decide

/-- A move that keeps its contract and overflows nowhere, and is longer than any text. -/
theorem Output.generate_overlong :
    (∀ part ∈ partsAll [.go 0x4000000000000], part.Formed) ∧
    validateAll [.go 0x4000000000000] = .ok () ∧
    (-(0x4000000000000 : Int64)).toInt = -(0x4000000000000 : Int64).toInt ∧
    ¬ ∃ out, Output.generate [.go 0x4000000000000] 0 = .ok out := by
  refine ⟨?_, rfl, by decide, ?_⟩
  · simp [partsAll, parts, Formed]
  · rintro ⟨out, h⟩
    cases h

end StackTape
