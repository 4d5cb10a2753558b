import StackTape.Proofs.Expansion.Parallel
import StackTape.Proofs.Expansion.Run
import StackTape.Proofs.MacroOp.Shift

/-!
# Runs of a shifted operation

An operation run at a cell and the operation shifted back by `k` and run `k` cells further on do
the same.  Their texts are parallel, so a run of the one is followed by a run of the other, with the
same cells, input and output at every place where both do something, until one of them leaves the
tape (`Parallel.follows`).  `shift_rebases` says this of whole runs, and what else shifting keeps.
-/

namespace StackTape

open Machine (Core Evaluates)

/-! ### Parallel texts, evaluated -/

/-- Two cores that differ in their pointers only, which stand as far apart as `x` and `y`. -/
structure Beside (x y : Int64) (u v : Core) : Prop where
  moved : v = { u with pointer := v.pointer }
  apart : Int64.ofNat u.pointer - x = Int64.ofNat v.pointer - y
  fst : u.OnTape
  snd : v.OnTape

namespace Beside

variable {x y : Int64} {u v : Core}

theorem refl (x : Int64) (h : u.OnTape) : Beside x x u u := ⟨rfl, rfl, h, h⟩

theorem eq (h : Beside x x u v) : v = u := by
  have hp : Int64.ofNat u.pointer = Int64.ofNat v.pointer := by
    have := h.apart
    grind
  rw [h.moved, ← Machine.ofNat_inj h.fst.lt h.snd.lt hp]

theorem symm (h : Beside x y u v) : Beside y x v u := by
  refine ⟨?_, h.apart.symm, h.snd, h.fst⟩
  rw [h.moved]

end Beside

/-- What is evaluated from one core is evaluated from the other by `t` too, unless one of them
leaves the tape. -/
def Follows (eof : EofMode) (t : Bytes) (v : Core) (x' y' : Int64) (u' : Core)
    (stop : Option Stop) : Prop :=
  (∃ v', Evaluates eof t v v' stop ∧ (stop = none → Beside x' y' u' v') ∧
    (stop ≠ none → v' = u')) ∨
  (∃ e, stop = some e ∧ e.leavesTape) ∨
  ∃ v' e, Evaluates eof t v v' (some e) ∧ e.leavesTape

theorem Follows.map {eof : EofMode} {t t' : Bytes} {v w u' : Core} {x' y' : Int64}
    {stop : Option Stop} (h : Follows eof t v x' y' u' stop)
    (hf : ∀ {v' stop}, Evaluates eof t v v' stop → Evaluates eof t' w v' stop) :
    Follows eof t' w x' y' u' stop := by
  rcases h with ⟨v', he, hb⟩ | hl | ⟨v', e, he, hl⟩
  · exact .inl ⟨v', hf he, hb⟩
  · exact .inr (.inl hl)
  · exact .inr (.inr ⟨v', e, hf he, hl⟩)

namespace Parallel

variable {strict : Prop} {raw : Bytes → Prop} {x y x' y' : Int64} {s t : Bytes}

theorem symm (h : Parallel strict raw x y s t x' y') (hs : ¬ strict) :
    Parallel strict raw y x t s y' x' := by
  induction h with
  | nil => exact .nil _ _
  | fst hc _ ih => exact .snd hc ih
  | snd hc _ ih => exact .fst hc ih
  | both hc _ ih => exact .both hc ih
  | piece ht _ ih => exact .piece ht ih
  | loop _ _ _ ihb ih => exact .loop (fun hst => absurd hst hs) ihb ih

/-- The rounds of one loop are followed by the rounds of the other. -/
theorem follows_loop {eof : EofMode} {body body' : Bytes} {u u' : Core} {stop : Option Stop}
    (hb : Balanced body) (hb' : Balanced body')
    (ihb : ∀ {u u' : Core} {stop : Option Stop}, u.OnTape → Evaluates eof body u u' stop →
      Follows eof body' u x x u' stop)
    (ih : ∀ {u u' : Core} {stop : Option Stop}, u.OnTape → Evaluates eof s u u' stop →
      Follows eof t u x' y' u' stop)
    (hu : u.OnTape) (he : Evaluates eof (0x5B :: (body ++ 0x5D :: s)) u u' stop) :
    Follows eof (0x5B :: (body' ++ 0x5D :: t)) u x' y' u' stop := by
  generalize hn : 0x5B :: (body ++ 0x5D :: s) = n at he
  induction he with
  | nil => cases hn
  | instr h₁ | stops h₁ => exact absurd (List.cons.inj hn).1.symm h₁
  | pass hb₁ h t =>
      obtain ⟨rfl, rfl⟩ := Machine.loop_unique hb hb₁ (List.cons.inj hn).2
      exact (ih hu t).map fun he => .pass hb' h he
  | round hb₁ h b _ _ iht =>
      obtain ⟨rfl, rfl⟩ := Machine.loop_unique hb hb₁ (List.cons.inj hn).2
      rcases ihb hu b with ⟨v', hev, hbes, -⟩ | ⟨_, hs, -⟩ | ⟨v', e, hev, hl⟩
      · obtain rfl := (hbes rfl).eq
        exact (iht (b.onTape hu) hn).map fun he => .round hb' h hev he
      · cases hs
      · exact .inr (.inr ⟨v', e, .inside hb' h hev, hl⟩)
  | inside hb₁ h b =>
      obtain ⟨rfl, rfl⟩ := Machine.loop_unique hb hb₁ (List.cons.inj hn).2
      rcases ihb hu b with ⟨v', hev, -, hsame⟩ | hl | ⟨v', e, hev, hl⟩
      · obtain rfl := hsame (by simp)
        exact .inl ⟨v', .inside hb' h hev, nofun, fun _ => rfl⟩
      · exact .inr (.inl hl)
      · exact .inr (.inr ⟨v', e, .inside hb' h hev, hl⟩)

/-- **Parallel texts follow each other**: what the one does the other does, until one of them leaves
the tape. -/
theorem follows (h : Parallel strict raw x y s t x' y') (hraw : ∀ text, raw text → Balanced text)
    {eof : EofMode} {u v u' : Core} {stop : Option Stop} (hb : Beside x y u v)
    (he : Evaluates eof s u u' stop) : Follows eof t v x' y' u' stop := by
  induction h generalizing u v u' stop with
  | nil =>
      cases he
      exact .inl ⟨v, .nil v, fun _ => hb, fun hs => absurd rfl hs⟩
  | @fst x y _ _ c s t hc _ ih =>
      obtain ⟨hopen, -⟩ := Machine.ne_bracket hc (by decide) (by decide)
      obtain ⟨u₁, h₁, ht⟩ | ⟨e, hs, h₁⟩ := he.cons_cases hopen
      · refine ih ⟨?_, ?_, hb.fst.byte h₁, hb.snd⟩ ht
        · rcases Core.byte_move hc eof u with ⟨p, hm⟩ | ⟨_, hm, -⟩ <;> rw [hm] at h₁ <;> cases h₁
          exact hb.moved
        · rw [Core.byte_pointer h₁]
          have := hb.apart
          grind
      · rcases Core.byte_move hc eof u with ⟨p, hm⟩ | ⟨_, hm, hl⟩ <;> rw [hm] at h₁ <;> cases h₁
        exact .inr (.inl ⟨e, hs, hl⟩)
  | @snd x y _ _ c s t hc _ ih =>
      have hplain := Machine.ne_bracket hc (by decide) (by decide)
      rcases Core.byte_move hc eof v with ⟨p, hm⟩ | ⟨e, hm, hl⟩
      · refine (ih ⟨?_, ?_, hb.fst, hb.snd.byte hm⟩ he).map fun he =>
          .instr hplain.1 hplain.2 hm he
        · have := hb.moved
          rw [this]
        · have h₁ := Core.byte_pointer hm
          have h₂ := hb.apart
          grind
      · exact .inr (.inr ⟨v, e, .stops hplain.1 hplain.2 hm, hl⟩)
  | @both x _ _ c s t hc _ ih =>
      have hplain := Machine.ne_bracket hc (by decide) (by decide)
      obtain rfl := hb.eq
      have hcount := Core.byte_count hc eof v
      obtain ⟨u₁, h₁, ht⟩ | ⟨e, hs, h₁⟩ := he.cons_cases hplain.1
      · exact (ih (.refl x (hb.fst.byte h₁)) ht).map fun he => .instr hplain.1 hplain.2 h₁ he
      · rw [hcount] at h₁
        cases h₁
  | @piece x _ _ text s t ht _ ih =>
      obtain rfl := hb.eq
      obtain ⟨u₁, h₁, hrest⟩ | ⟨e, rfl, h₁⟩ := he.split (hraw text ht)
      · exact (ih (.refl _ (h₁.onTape hb.fst)) hrest).map fun he => h₁.append he
      · exact .inl ⟨u', h₁.append_stop t, nofun, fun _ => rfl⟩
  | loop _ hp _ ihb ih =>
      obtain rfl := hb.eq
      obtain ⟨hb₁, hb₂⟩ := hp.balanced hraw
      exact follows_loop hb₁ hb₂ (fun hu he => ihb (.refl _ hu) he)
        (fun hu he => ih (.refl _ hu) he) hb.fst he

end Parallel

/-! ### Whole runs -/

/-- The stop of a run whose budget is spent. -/
def Stop.isLimit : Stop → Bool
  | .stepLimit .. => true
  | _ => false

/-- The run was not cut short by its budget or by the end of the tape. -/
def Finished.Settled {σ : Type} (r : Finished σ) : Prop :=
  ∀ stop, r.stop = some stop → stop.leavesTape = false ∧ stop.isLimit = false

/-- Two runs that read, wrote and left the same and ended for the same reason: the second with the
pointer `k` cells further on if they came to the end of their texts, and else at the same cell. -/
structure Finished.Agrees {σ : Type} (k : Int64) (r r' : Finished σ) : Prop where
  tape : r'.machine.tape = r.machine.tape
  input : r'.machine.input = r.machine.input
  output : r'.machine.output = r.machine.output
  reason : r'.stop.map Stop.unplaced = r.stop.map Stop.unplaced
  ended : r.stop = none → (r'.machine.pointer : Int) = r.machine.pointer + k.toInt
  stopped : r.stop ≠ none → r'.machine.pointer = r.machine.pointer

namespace Machine

variable {o : Options} {code : Bytes} {m m' : Machine} {r r' : Finished Unit}

theorem Ends.unlimited (h : m.Ends o code r) (hr : r.Settled) :
    m.Ends { o with maxSteps := 0 } code r := by
  obtain ⟨fuel, h⟩ := h
  rcases runFrom_unlimited h with ⟨_, _, hs⟩ | h
  · cases (hr _ hs).2
  · exact ⟨fuel, h⟩

theorem seek_eq_ok {p : Int64} (h : m.seek p = .ok m') :
    ∃ i, m' = { m with pointer := i } ∧ Int64.ofNat i = p := by
  unfold seek index? at h
  by_cases hp : 0 ≤ p ∧ p.toInt.toNat < m.capacity
  · rw [if_pos hp] at h
    cases h
    refine ⟨_, rfl, MacroOp.ofNat_of_toInt (Int.toNat_of_nonneg ?_)⟩
    have := Int64.le_iff_toInt_le.mp hp.1
    rwa [Int64.toInt_zero] at this
  · rw [if_neg hp] at h
    cases h

/-- **A run of one of two parallel texts** is followed by a run of the other, on a machine that
stands beside the first, if neither leaves the tape. -/
theorem ends_beside {raw : Bytes → Prop} {x y x' y' : Int64} {s t : Bytes}
    (h : Parallel False raw x y s t x' y') (hraw : ∀ text, raw text → Balanced text)
    (hm : m.Sound) (hl : m.loops = []) (hm' : m'.Sound) (hl' : m'.loops = [])
    (hb : Beside x y m.core m'.core) (ho : o.maxSteps = 0) (hr : m.Ends o s r)
    (hstay : ∀ stop, r.stop = some stop → stop.leavesTape = false) (hstay' : m'.StaysOnTape o t) :
    ∃ r', m'.Ends o t r' ∧ r'.stop.map Stop.unplaced = r.stop.map Stop.unplaced ∧
      (r.stop = none → Beside x' y' r.machine.core r'.machine.core) ∧
      (r.stop ≠ none → r'.machine.core = r.machine.core) := by
  have hev := hr.evaluates (h.balanced hraw).1 ho hm hl
  rcases h.follows hraw hb hev with ⟨v, hv, hend, hstop⟩ | ⟨e, hs, hleaves⟩ | ⟨v, e, hv, hleaves⟩
  · obtain ⟨r', hr', rfl, hst⟩ := hv.ends ho hm' hl'
    refine ⟨r', hr', hst, fun hn => hend (by rw [hn]; rfl), fun hn => hstop ?_⟩
    simpa using hn
  · obtain ⟨stop, hstop, rfl⟩ := Option.map_eq_some_iff.mp hs
    rw [Stop.leavesTape_unplaced, hstay stop hstop] at hleaves
    cases hleaves
  · obtain ⟨r', hr', -, hst⟩ := hv.ends ho hm' hl'
    obtain ⟨stop, hstop, rfl⟩ := Option.map_eq_some_iff.mp hst
    rw [Stop.leavesTape_unplaced, hstay' r' stop hr' hstop] at hleaves
    cases hleaves

end Machine

namespace MacroOp

open Machine

/-- The text of an operation and of the operation shifted back. -/
theorem parallel_shift {op : MacroOp} {k : Int64} {n n' : Node}
    (ht : ∀ text shifted, .literal text shifted ∈ op.parts → Balanced text)
    (h : op.expand = .ok n) (h' : (op.shift (-k)).expand = .ok n') (p : Int64) :
    Parallel False Balanced p (p + k) n.flatten n'.flatten (p + op.moved) (p + k + op.moved) := by
  have hpairs : Pairs False Balanced Node.flatten p (p + k) (p + op.moved) (p + k + op.moved)
      (expandAt 0 op) (expandAt (-k + 0) op) :=
    pairs_expandAt nofun (by grind) ⟨ht, nofun⟩ nofun
  rw [← expandAt_shift] at hpairs
  rw [expand] at h h'
  rw [h, h'] at hpairs
  exact hpairs

theorem expand_shift_cases (op : MacroOp) (d : Int64) :
    (∃ count, op.expand = .error (.overlong count)) ∨
      (∃ count, (op.shift d).expand = .error (.overlong count)) ∨
      (∃ n n', op.expand = .ok n ∧ (op.shift d).expand = .ok n') ∨
      ∃ a b fault, op.expand = .error (.refused a fault) ∧
        (op.shift d).expand = .error (.refused b fault) := by
  have hpairs : Pairs False (fun _ => True) Node.flatten d 0 (d + op.moved) (0 + op.moved)
      (expandAt 0 op) (expandAt (d + 0) op) :=
    pairs_expandAt nofun (by grind) ⟨fun _ _ _ => trivial, nofun⟩ nofun
  rw [← expandAt_shift] at hpairs
  rw [expand, expand]
  match h : expandAt 0 op, h' : expandAt 0 (op.shift d) with
  | .error (.overlong count), _ => exact .inl ⟨count, rfl⟩
  | _, .error (.overlong count) => exact .inr (.inl ⟨count, rfl⟩)
  | .ok n, .ok n' => exact .inr (.inr (.inl ⟨n, n', rfl, rfl⟩))
  | .error (.refused a fault), .error (.refused b fault') =>
      rw [h, h'] at hpairs
      exact .inr (.inr (.inr ⟨a, b, fault, rfl, hpairs ▸ rfl⟩))
  | .ok _, .error (.refused ..) | .error (.refused ..), .ok _ =>
      rw [h, h'] at hpairs
      exact hpairs.elim

theorem validate_shift (op : MacroOp) (d : Int64) :
    (op.shift d).validate = op.validate.mapError (OperandError.shift d) := by
  unfold validate
  rw [fault?_shift]
  cases op.fault? <;> rfl

section

variable {op : MacroOp} {k p : Int64} {n n' : Node} {m m₁ m₂ : Machine} {o : Options}
  (ht : ∀ text shifted, .literal text shifted ∈ op.parts → Balanced text)
  (h : op.expand = .ok n) (h' : (op.shift (-k)).expand = .ok n') (hm : Reachable m)
  (hl : m.loops = []) (h₁ : m.seek p = .ok m₁) (h₂ : m.seek (p + k) = .ok m₂)

include hm h₁ h₂ in
/-- The same machine at two cells. -/
theorem beside_of_seek : Beside p (p + k) m₁.core m₂.core := by
  have ht₁ := (Reachable.seek hm h₁).sound.core_onTape
  have ht₂ := (Reachable.seek hm h₂).sound.core_onTape
  obtain ⟨i, rfl, hi⟩ := seek_eq_ok h₁
  obtain ⟨j, rfl, hj⟩ := seek_eq_ok h₂
  refine ⟨rfl, ?_, ht₁, ht₂⟩
  show Int64.ofNat i - p = Int64.ofNat j - (p + k)
  rw [hi, hj]
  grind

theorem loops_of_seek {m m' : Machine} (hl : m.loops = []) (h : m.seek p = .ok m') :
    m'.loops = [] := by
  obtain ⟨i, rfl, -⟩ := seek_eq_ok h
  exact hl

include ht h h' hm hl h₁ h₂

/-- The runs of an operation and of the shifted one agree. -/
theorem agrees_of_ends {r₁ r₂ : Finished Unit} (hr₁ : m₁.Ends o n.flatten r₁)
    (hr₂ : m₂.Ends o n'.flatten r₂) (hs₁ : r₁.Settled) (hs₂ : r₂.Settled) : r₁.Agrees k r₂ := by
  have hr₁ := hr₁.unlimited hs₁
  have hr₂ := hr₂.unlimited hs₂
  have hstay : m₂.StaysOnTape { o with maxSteps := 0 } n'.flatten := by
    intro r stop hr hstop
    rw [hr.unique rfl hr₂] at hstop
    exact (hs₂ stop hstop).1
  obtain ⟨r, hr, hreason, hended, hstopped⟩ := ends_beside (parallel_shift ht h h' p)
    (fun _ => id) (Reachable.seek hm h₁).sound (loops_of_seek hl h₁) (Reachable.seek hm h₂).sound
    (loops_of_seek hl h₂) (beside_of_seek hm h₁ h₂) rfl hr₁ (fun stop hstop => (hs₁ stop hstop).1)
    hstay
  obtain rfl := hr.unique rfl hr₂
  by_cases hn : r₁.stop = none
  · have hb := hended hn
    refine ⟨congrArg Core.tape hb.moved, congrArg Core.input hb.moved,
      congrArg Core.output hb.moved, hreason, fun _ => ?_, fun hne => absurd hn hne⟩
    have hapart := hb.apart
    exact eq_add_toInt hb.fst.lt hb.snd.lt (by grind)
  · have hc := hstopped hn
    exact ⟨congrArg Core.tape hc, congrArg Core.input hc, congrArg Core.output hc, hreason,
      fun he => absurd he hn, fun _ => congrArg Core.pointer hc⟩

/-- The run of an operation ends just when the run of the shifted one does. -/
theorem ends_iff_of_shift (ho : o.maxSteps = 0) (hs₁ : m₁.StaysOnTape o n.flatten)
    (hs₂ : m₂.StaysOnTape o n'.flatten) :
    (∃ r, m₁.Ends o n.flatten r) ↔ ∃ r, m₂.Ends o n'.flatten r := by
  have hp := parallel_shift ht h h' p
  have hb := beside_of_seek hm h₁ h₂
  have hm₁ := (Reachable.seek hm h₁).sound
  have hm₂ := (Reachable.seek hm h₂).sound
  have hl₁ := loops_of_seek hl h₁
  have hl₂ := loops_of_seek hl h₂
  constructor
  · rintro ⟨r, hr⟩
    obtain ⟨r', hr', -⟩ := ends_beside hp (fun _ => id) hm₁ hl₁ hm₂ hl₂ hb ho hr
      (fun stop => hs₁ r stop hr) hs₂
    exact ⟨r', hr'⟩
  · rintro ⟨r, hr⟩
    obtain ⟨r', hr', -⟩ := ends_beside (hp.symm id) (fun _ => id) hm₂ hl₂ hm₁ hl₁ hb.symm ho hr
      (fun stop => hs₂ r stop hr) hs₁
    exact ⟨r', hr'⟩

end

/-- **The laws of shifting.**  An operation with balanced raw text, run at a cell, and the operation
shifted back by `k`, run `k` cells further on, leave the same cells, read and write the same and end
for the same reason, `k` cells apart when they come to the end of their texts and at the same cell
when an instruction stops them; and one of them ends just when the other does, if neither leaves the
tape.  Shifting is an action of the offsets.  It changes neither the net movement nor how an
operation breaks its contract, nor for which fault it is refused. -/
theorem shift_rebases (op : MacroOp) :
    (∀ (k : Int64) (n n' : Node),
      (∀ text shifted, .literal text shifted ∈ op.parts → Balanced text) →
      op.expand = .ok n → (op.shift (-k)).expand = .ok n' →
      ∀ (m m₁ m₂ : Machine) (p : Int64) (o : Options), Reachable m → m.loops = [] →
        m.seek p = .ok m₁ → m.seek (p + k) = .ok m₂ →
        (∀ r₁ r₂, m₁.Ends o n.flatten r₁ → m₂.Ends o n'.flatten r₂ → r₁.Settled → r₂.Settled →
          r₁.Agrees k r₂) ∧
        (o.maxSteps = 0 → m₁.StaysOnTape o n.flatten → m₂.StaysOnTape o n'.flatten →
          ((∃ r₁, m₁.Ends o n.flatten r₁) ↔ ∃ r₂, m₂.Ends o n'.flatten r₂))) ∧
    (∀ a b, (op.shift a).shift b = op.shift (a + b)) ∧ op.shift 0 = op ∧
    ∀ d, displacement [op.shift d] = displacement [op] ∧
      (op.shift d).validate = op.validate.mapError (OperandError.shift d) ∧
      ((∃ count, op.expand = .error (.overlong count)) ∨
        (∃ count, (op.shift d).expand = .error (.overlong count)) ∨
        (∃ n n', op.expand = .ok n ∧ (op.shift d).expand = .ok n') ∨
        ∃ a b fault, op.expand = .error (.refused a fault) ∧
          (op.shift d).expand = .error (.refused b fault)) := by
  refine ⟨fun k n n' ht h h' m m₁ m₂ p o hm hl h₁ h₂ => ⟨fun r₁ r₂ hr₁ hr₂ hs₁ hs₂ => ?_,
    fun ho hs₁ hs₂ => ?_⟩, fun a b => shift_shift a b op, shift_zero op, fun d => ⟨?_, ?_, ?_⟩⟩
  · exact agrees_of_ends ht h h' hm hl h₁ h₂ hr₁ hr₂ hs₁ hs₂
  · exact ends_iff_of_shift ht h h' hm hl h₁ h₂ ho hs₁ hs₂
  · exact displacement_shiftAll d [op]
  · exact validate_shift op d
  · exact expand_shift_cases op d

/-- A condition that is met, run at cell 1 and two cells further on. -/
theorem shift_rebases_cond : ∃ m m₁ m₂ n n' r₁ r₂,
    Reachable m ∧ m.cell 1 = 1 ∧ m.seek 1 = .ok m₁ ∧ m.seek (1 + 2) = .ok m₂ ∧
    expand (.cond 0 [.add 1 5]) = .ok n ∧ ((cond 0 [.add 1 5]).shift (-2)).expand = .ok n' ∧
    m₁.Ends {} n.flatten r₁ ∧ m₂.Ends {} n'.flatten r₂ ∧ r₁.stop = none ∧ r₁.Agrees 2 r₂ := by
  obtain ⟨m, m₁, m₂, hp, hc, h₁, h₂⟩ : ∃ m m₁ m₂, Machine.poke? { capacity := 4 } 1 1 = some m ∧
      m.cell 1 = 1 ∧ m.seek 1 = .ok m₁ ∧ m.seek (1 + 2) = .ok m₂ :=
    ⟨_, _, _, rfl, rfl, rfl, rfl⟩
  have hm : Reachable m := .poke (.new (show Machine.new? 4 {} {} = some _ from rfl)) hp
  have hl : m.loops = [] := by cases hp; rfl
  have ht : ∀ text shifted, literal text shifted ∈ parts (.cond 0 [.add 1 5]) → Balanced text := by
    simp [parts, partsAll]
  have htext : (expand (.cond 0 [.add 1 5])).toOption.map Node.flatten =
      some (Bytes.ascii "[>+++++<[-]]") := by decide +kernel
  have htext' : ((cond 0 [.add 1 5]).shift (-2)).expand.toOption.map Node.flatten =
      some (Bytes.ascii "<<[>+++++<[-]]>>") := by decide +kernel
  obtain ⟨n, hn, hflat⟩ := exists_ok_of_map_eq_some htext
  obtain ⟨n', hn', hflat'⟩ := exists_ok_of_map_eq_some htext'
  have hrun₁ : (m₁.run {} Hook.silent 40 n.flatten ()).map (·.stop) = some none := by
    rw [hflat]
    cases hp
    cases h₁
    cbv
  have hrun₂ : (m₂.run {} Hook.silent 40 n'.flatten ()).map (·.stop) = some none := by
    rw [hflat']
    cases hp
    cases h₂
    cbv
  obtain ⟨r₁, hr₁, hs₁⟩ := Option.map_eq_some_iff.mp hrun₁
  obtain ⟨r₂, hr₂, hs₂⟩ := Option.map_eq_some_iff.mp hrun₂
  have hsettled : ∀ r : Finished Unit, r.stop = none → r.Settled := by
    intro r hs stop h
    rw [hs] at h
    cases h
  have hagree := ((shift_rebases (.cond 0 [.add 1 5])).1 2 n n' ht hn hn' m m₁ m₂ 1 {} hm hl h₁
    h₂).1 r₁ r₂ ⟨40, hr₁⟩ ⟨40, hr₂⟩ (hsettled r₁ hs₁) (hsettled r₂ hs₂)
  exact ⟨m, m₁, m₂, n, n', r₁, r₂, hm, hc, h₁, h₂, hn, hn', ⟨40, hr₁⟩, ⟨40, hr₂⟩, hs₁, hagree⟩

/-- One byte of raw text at cell 0, and shifted back by one at cell 1: neither run leaves the tape,
and they do not end one cell apart. -/
def NotApart (c : UInt8) (sink : Sink) (o : Options) : Prop :=
  ∃ m m₁ m₂ n n' r₁ r₂, Machine.new? 2 {} sink = some m ∧ m.loops = [] ∧ Balanced [c] ∧
    m.seek 0 = .ok m₁ ∧ m.seek (0 + 1) = .ok m₂ ∧ expand (.literal [c] 0) = .ok n ∧
    ((literal [c] 0).shift (-1)).expand = .ok n' ∧ m₁.Ends o n.flatten r₁ ∧
    m₂.Ends o n'.flatten r₂ ∧ (∀ stop, r₁.stop = some stop → stop.leavesTape = false) ∧
    (∀ stop, r₂.stop = some stop → stop.leavesTape = false) ∧
    (r₂.machine.pointer : Int) ≠ r₁.machine.pointer + 1

/-- **Runs that are stopped end at the same cell**, not one cell apart: at an instruction that the
machine does not know, at one whose device fails, and where the budget of the second run is
spent. -/
theorem shift_stops_together :
    NotApart 0x78 {} {} ∧ NotApart 0x2E { allowance := some 0 } {} ∧
      NotApart 0x2B {} { maxSteps := 1 } := by
  refine ⟨?_, ?_, ?_⟩
  · exact ⟨_, _, _, _, _, _, _, rfl, rfl, .instr (by decide) (by decide) .nil, rfl, rfl, rfl, rfl,
      ⟨4, rfl⟩, ⟨4, rfl⟩, fun _ h => by cases h; rfl, fun _ h => by cases h; rfl, by decide⟩
  · exact ⟨_, _, _, _, _, _, _, rfl, rfl, .instr (by decide) (by decide) .nil, rfl, rfl, rfl, rfl,
      ⟨4, rfl⟩, ⟨4, rfl⟩, fun _ h => by cases h; rfl, fun _ h => by cases h; rfl, by decide⟩
  · exact ⟨_, _, _, _, _, _, _, rfl, rfl, .instr (by decide) (by decide) .nil, rfl, rfl, rfl, rfl,
      ⟨4, rfl⟩, ⟨4, rfl⟩, (fun _ h => by cases h), fun _ h => by cases h; rfl, by decide⟩

end MacroOp

end StackTape
