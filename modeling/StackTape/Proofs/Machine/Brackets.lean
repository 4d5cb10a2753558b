import StackTape.Proofs.Machine.Steps

/-!
# Matching brackets, and the machines there are

`Balanced` text has a `]` for every `[`.  A scan for the end of a loop passes over balanced text
without stopping in it (`matchFrom_balanced`), so the `[` in front of a balanced body skips to the
`]` behind it (`matchFrom_loop`).

A machine remembers the skips of its text.  `Reachable` are the machines that a history of runs,
moves and pokes can produce; on each of them the pointer is on the tape and what is remembered is
what a scan would find (`Reachable.sound`).
-/

namespace StackTape

/-- Text whose brackets match. -/
inductive Balanced : Bytes → Prop where
  | nil : Balanced []
  | instr {c : UInt8} {rest : Bytes} (h₁ : c ≠ 0x5B) (h₂ : c ≠ 0x5D) (t : Balanced rest) :
      Balanced (c :: rest)
  | loop {body rest : Bytes} (b : Balanced body) (t : Balanced rest) :
      Balanced (0x5B :: (body ++ 0x5D :: rest))

namespace Balanced

theorem append {s t : Bytes} (hs : Balanced s) (ht : Balanced t) : Balanced (s ++ t) := by
  induction hs with
  | nil => exact ht
  | instr h₁ h₂ _ ih => exact .instr h₁ h₂ ih
  | @loop body rest b _ _ ih =>
      have e : 0x5B :: (body ++ 0x5D :: rest) ++ t = 0x5B :: (body ++ 0x5D :: (rest ++ t)) := by
        simp
      rw [e]
      exact .loop b ih

/-- A loop around balanced text. -/
theorem enclose {s : Bytes} (hs : Balanced s) : Balanced (0x5B :: (s ++ [0x5D])) :=
  .loop hs .nil

/-- Text without brackets. -/
theorem of_plain {s : Bytes} (h : ∀ c ∈ s, c ≠ 0x5B ∧ c ≠ 0x5D) : Balanced s := by
  induction s with
  | nil => exact .nil
  | cons c rest ih =>
      obtain ⟨h₁, h₂⟩ := h c (by simp)
      exact .instr h₁ h₂ (ih fun d hd => h d (by simp [hd]))

end Balanced

namespace Machine

/-! ### Where a piece of text stands -/

/-- The text has the piece `seg` at position `i`. -/
def Holds (text : Array UInt8) (i : Nat) (seg : Bytes) : Prop := seg <+: text.toList.drop i

theorem holds_whole (code : Bytes) : Holds code.toArray 0 code := by
  simp [Holds]

theorem holds_cons_iff {text : Array UInt8} {i : Nat} {c : UInt8} {rest : Bytes} :
    Holds text i (c :: rest) ↔ (i < text.size ∧ text.getD i 0 = c) ∧ Holds text (i + 1) rest := by
  unfold Holds
  by_cases hi : i < text.size
  · rw [List.drop_eq_getElem_cons (by simpa using hi), List.cons_prefix_cons]
    simp [Array.getD, hi, eq_comm]
  · rw [List.drop_eq_nil_of_le (by simpa using hi)]
    simp [hi]

theorem holds_append_iff {text : Array UInt8} {i : Nat} {s t : Bytes} :
    Holds text i (s ++ t) ↔ Holds text i s ∧ Holds text (i + s.length) t := by
  induction s generalizing i with
  | nil => simp [Holds]
  | cons c rest ih =>
      rw [List.cons_append, holds_cons_iff, holds_cons_iff, ih, ← and_assoc, List.length_cons,
        Nat.add_right_comm, Nat.add_assoc]

/-! ### The scan for the end of a loop -/

section

variable {text : Array UInt8} {i : Nat}

theorem matchFrom_eq (hi : i < text.size) (depth : Nat) :
    matchFrom text depth i =
      if text.getD i 0 = 0x5B then matchFrom text (depth + 1) (i + 1)
      else if text.getD i 0 = 0x5D then
        match depth with
        | 0 => some i
        | depth + 1 => matchFrom text depth (i + 1)
      else matchFrom text depth (i + 1) := by
  have e : text.getD i 0 = text[i] := by simp [Array.getD, hi]
  rw [e]
  cases depth with
  | zero => rw [matchFrom.eq_def text 0 i, dif_pos hi]
  | succ depth => rw [matchFrom.eq_def text (depth + 1) i, dif_pos hi]

/-- The scan passes over balanced text. -/
theorem matchFrom_balanced {seg : Bytes} (hb : Balanced seg) (h : Holds text i seg)
    (depth : Nat) : matchFrom text depth i = matchFrom text depth (i + seg.length) := by
  induction hb generalizing i depth with
  | nil => rfl
  | @instr c rest h₁ h₂ _ ih =>
      obtain ⟨⟨hi, hc⟩, hr⟩ := holds_cons_iff.mp h
      rw [matchFrom_eq hi, hc, if_neg h₁, if_neg h₂, ih hr, List.length_cons, Nat.add_right_comm,
        Nat.add_assoc]
  | @loop body rest _ _ ihb iht =>
      -- the `[` opens a level, the body keeps it, and the `]` closes it again
      obtain ⟨⟨hi, hc⟩, h⟩ := holds_cons_iff.mp h
      obtain ⟨hbody, h⟩ := holds_append_iff.mp h
      obtain ⟨⟨hj, hd⟩, hrest⟩ := holds_cons_iff.mp h
      rw [matchFrom_eq hi, hc, if_pos rfl, ihb hbody, matchFrom_eq hj, hd, if_neg (by decide),
        if_pos rfl]
      simp only [List.length_cons, List.length_append]
      rw [iht hrest]
      congr 1
      omega

/-- The `[` in front of a balanced body matches the `]` behind it. -/
theorem matchFrom_loop {seg : Bytes} (hb : Balanced seg)
    (h : Holds text i (0x5B :: (seg ++ [0x5D]))) :
    matchFrom text 0 (i + 1) = some (i + 1 + seg.length) := by
  obtain ⟨-, h⟩ := holds_cons_iff.mp h
  obtain ⟨hseg, h⟩ := holds_append_iff.mp h
  obtain ⟨⟨hj, hd⟩, -⟩ := holds_cons_iff.mp h
  rw [matchFrom_balanced hb hseg, matchFrom_eq hj, hd, if_neg (by decide), if_pos rfl]

end

/-! ### What a machine remembers -/

/-- What the machine remembers of a text is what a scan of it finds. -/
def Remembers (text : Array UInt8) (m : Machine) : Prop :=
  ∀ i j, m.skips[i]? = some j → matchFrom text 0 (i + 1) = some j

/-- Skipping finds what a scan finds. -/
theorem Remembers.skip {text : Array UInt8} {m : Machine} (h : Remembers text m) (ip : Nat) :
    (m.skip text ip).1 = matchFrom text 0 (ip + 1) := by
  unfold Machine.skip
  cases hs : m.skips[ip]? with
  | some j => exact (h ip j hs).symm
  | none => cases matchFrom text 0 (ip + 1) <;> rfl

/-- Only what is remembered changes in a skip, and it stays right. -/
theorem Remembers.skip_snd {text : Array UInt8} {m : Machine} (h : Remembers text m) (ip : Nat) :
    ∃ skips, (m.skip text ip).2 = { m with skips } ∧
      Remembers text { m with skips } := by
  unfold Machine.skip
  cases hs : m.skips[ip]? with
  | some j => exact ⟨m.skips, rfl, h⟩
  | none =>
      cases hm : matchFrom text 0 (ip + 1) with
      | none => exact ⟨m.skips, rfl, h⟩
      | some j =>
          refine ⟨m.skips.insert ip j, rfl, fun i k hk => ?_⟩
          rw [Std.HashMap.getElem?_insert] at hk
          split_ifs at hk with hi
          · rw [← eq_of_beq hi, hm, hk]
          · exact h i k hk

/-! ### One instruction -/

/-- What every instruction keeps: the size of the tape, the text, a pointer on the tape and a
right memory. -/
theorem exec_keeps (eof : EofMode) (text : Array UInt8) (ip : Nat) (c : UInt8) (m : Machine)
    (hp : m.pointer < m.capacity) (hr : Remembers text m) :
    let m' := (exec eof text ip c m).1
    m'.capacity = m.capacity ∧ m'.code = m.code ∧ m'.pointer < m'.capacity ∧
      Remembers text m' := by
  obtain ⟨skips, hskip, hrem⟩ := hr.skip_snd ip
  unfold exec
  simp only
  by_cases h₁ : c = 0x3E
  · rw [if_pos h₁]
    split_ifs with h
    · exact ⟨rfl, rfl, h, hr⟩
    · exact ⟨rfl, rfl, hp, hr⟩
  rw [if_neg h₁]
  by_cases h₂ : c = 0x3C
  · rw [if_pos h₂]
    split_ifs with h
    · exact ⟨rfl, rfl, hp, hr⟩
    · exact ⟨rfl, rfl, Nat.lt_of_le_of_lt (Nat.sub_le _ _) hp, hr⟩
  rw [if_neg h₂]
  by_cases h₃ : c = 0x2B
  · rw [if_pos h₃]
    exact ⟨rfl, rfl, hp, hr⟩
  rw [if_neg h₃]
  by_cases h₄ : c = 0x2D
  · rw [if_pos h₄]
    exact ⟨rfl, rfl, hp, hr⟩
  rw [if_neg h₄]
  by_cases h₅ : c = 0x5B
  · rw [if_pos h₅]
    split_ifs with h
    · generalize m.skip text ip = e at hskip
      obtain ⟨j | j, m₁⟩ := e <;> cases hskip <;> exact ⟨rfl, rfl, hp, hrem⟩
    · exact ⟨rfl, rfl, hp, hr⟩
  rw [if_neg h₅]
  by_cases h₆ : c = 0x5D
  · rw [if_pos h₆]
    cases m.loops <;> exact ⟨rfl, rfl, hp, hr⟩
  rw [if_neg h₆]
  by_cases h₇ : c = 0x2E
  · rw [if_pos h₇]
    cases m.output.write m.current <;> exact ⟨rfl, rfl, hp, hr⟩
  rw [if_neg h₇]
  by_cases h₈ : c = 0x2C
  · rw [if_pos h₈]
    rcases m.input.read with ⟨_ | _ | _, _⟩ <;> exact ⟨rfl, rfl, hp, hr⟩
  · rw [if_neg h₈]
    exact ⟨rfl, rfl, hp, hr⟩

/-! ### Every machine there is -/

/-- The pointer is on a tape of a possible size, and what is remembered of the text is right. -/
structure Sound (m : Machine) : Prop where
  onTape : m.pointer < m.capacity
  possible : m.capacity ≤ largestCapacity
  remembers : Remembers m.code.toArray m

/-- The machines that runs, moves and pokes produce from a new one. -/
inductive Reachable : Machine → Prop where
  | new {capacity : Int64} {input : Source} {output : Sink} {m : Machine}
      (h : new? capacity input output = some m) : Reachable m
  | run {m : Machine} {σ : Type} {o : Options} {hook : Hook σ} {fuel : Nat} {code : Bytes} {s : σ}
      {r : Finished σ} (t : Reachable m) (h : m.run o hook fuel code s = some r) :
      Reachable r.machine
  | seek {m m' : Machine} {p : Int64} (t : Reachable m) (h : m.seek p = .ok m') : Reachable m'
  | poke {m m' : Machine} {i : Int64} {v : UInt8} (t : Reachable m) (h : m.poke? i v = some m') :
      Reachable m'
  | reset {m : Machine} (t : Reachable m) : Reachable m.reset

theorem Remembers.fresh {text : Array UInt8} {m : Machine} (h : m.skips = {}) :
    Remembers text m := by
  intro i j hij
  rw [h] at hij
  simp at hij

theorem Sound.new {capacity : Int64} {input : Source} {output : Sink} {m : Machine}
    (h : new? capacity input output = some m) : m.Sound := by
  unfold new? at h
  by_cases h₁ : capacity ≤ 0
  · rw [if_pos h₁] at h
    cases h
    exact ⟨show 0 < defaultCapacity by decide, show defaultCapacity ≤ largestCapacity by decide,
      .fresh rfl⟩
  · rw [if_neg h₁] at h
    dsimp only at h
    by_cases h₂ : capacity.toInt.toNat ≤ largestCapacity
    · rw [if_pos h₂] at h
      cases h
      refine ⟨?_, h₂, .fresh rfl⟩
      rw [Int64.le_iff_toInt_le] at h₁
      simp only [Int64.toInt_zero] at h₁
      show 0 < capacity.toInt.toNat
      omega
    · rw [if_neg h₂] at h
      cases h

/-- Taking up a text forgets what was remembered of another one. -/
theorem Sound.load {m : Machine} (h : m.Sound) (code : Bytes) :
    (m.load code).Sound ∧ (m.load code).code = code := by
  unfold Machine.load
  split_ifs with hc
  · exact ⟨h, hc⟩
  · exact ⟨⟨h.onTape, h.possible, .fresh rfl⟩, rfl⟩

theorem Sound.traceAt {m : Machine} (h : m.Sound) (o : Options) (code : Bytes) (ip : Nat) :
    (m.traceAt o code ip).Sound ∧ (m.traceAt o code ip).code = m.code := by
  unfold Machine.traceAt
  split_ifs with ht
  · exact ⟨⟨h.onTape, h.possible, h.remembers⟩, rfl⟩
  · exact ⟨h, rfl⟩

theorem Sound.exec {m : Machine} (h : m.Sound) (eof : EofMode) (ip : Nat) (c : UInt8) :
    (exec eof m.code.toArray ip c m).1.Sound ∧
      (exec eof m.code.toArray ip c m).1.code = m.code := by
  obtain ⟨hcap, hcode, hp, hr⟩ := exec_keeps eof m.code.toArray ip c m h.onTape h.remembers
  refine ⟨⟨hp, hcap ▸ h.possible, ?_⟩, hcode⟩
  rw [hcode]
  exact hr

theorem Sound.runFrom {σ : Type} {o : Options} {hook : Hook σ} {fuel ip : Nat} {s : σ}
    {m : Machine} {r : Finished σ} (hm : m.Sound)
    (h : m.runFrom o hook m.code.toArray fuel ip s = some r) : r.machine.Sound := by
  induction fuel generalizing ip s m with
  | zero => cases h
  | succ fuel ih =>
      obtain ⟨ht, hcode⟩ := hm.traceAt o m.code ip
      have he := ht.exec o.eof ip (m.code.toArray.getD ip 0)
      rw [hcode] at he
      rw [Machine.runFrom] at h
      by_cases hip : ip < m.code.toArray.size
      · rw [if_pos hip] at h
        generalize m.code.toArray.getD ip 0 = c at h he
        by_cases hsp : isSpace c
        · simp only [hsp, if_true] at h
          exact ih hm h
        simp only [hsp, if_false, Bool.false_eq_true] at h
        by_cases hspent : m.spent o
        · simp only [hspent, if_true] at h
          cases h
          exact hm
        simp only [hspent, if_false, Bool.false_eq_true] at h
        generalize Machine.exec o.eof m.code.toArray ip c (m.traceAt o m.code ip) = e at h he
        obtain ⟨m₁, stop | next⟩ := e
        · cases h
          exact he.1
        · -- the count and the hook touch neither pointer, text nor memory
          obtain ⟨⟨hp, hc, hr⟩, hcode₁⟩ := he
          have hs : (m₁.tick.heed (hook.react s m₁.tick ip)).Sound := ⟨hp, hc, hr⟩
          have ht : m.code = (m₁.tick.heed (hook.react s m₁.tick ip)).code := hcode₁.symm
          rw [ht] at h
          dsimp only at h
          split_ifs at h with ha
          · cases h
            exact hs
          · exact ih hs h
      · rw [if_neg hip] at h
        cases h
        obtain ⟨hf, -⟩ := hm.traceAt o m.code m.code.toArray.size
        dsimp only
        split <;> exact hf

/-- **Every machine there is** has its pointer on the tape and a right memory. -/
theorem Reachable.sound {m : Machine} (h : Reachable m) : m.Sound := by
  induction h with
  | new h => exact .new h
  | @run m σ o hook fuel code s r _ h ih =>
      obtain ⟨hl, hc⟩ := ih.load code
      have hr : (m.load code).runFrom o hook (m.load code).code.toArray fuel 0 s = some r := by
        rw [hc]
        exact h
      exact hl.runFrom hr
  | @seek m m' p _ h ih =>
      unfold Machine.seek index? at h
      split_ifs at h with hp
      cases h
      exact ⟨hp.2, ih.possible, ih.remembers⟩
  | @poke m m' i v _ h ih =>
      obtain ⟨j, -, rfl⟩ := Option.map_eq_some_iff.mp h
      exact ⟨ih.onTape, ih.possible, ih.remembers⟩
  | reset _ ih => exact ⟨Nat.zero_lt_of_lt ih.onTape, ih.possible, .fresh rfl⟩

end Machine

end StackTape
