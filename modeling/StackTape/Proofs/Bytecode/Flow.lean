import StackTape.Proofs.Bytecode.Partition
import StackTape.Proofs.Bytecode.Stack

/-!
# Flat code and its blocks

`Flow` is code as the stack machine walks through it: places with instructions, the place behind a
place, and the place of a label.  Flat code is a flow whose places are positions, and a program is
one whose places are a block and a position in it.

A flow simulates another if it has the same instructions with silent ones put in between
(`Flow.Simulates`); then both show the same states at the instructions that they share, and both
end, or get stuck, in the same state.  `build_flow`: a program simulates the code that it was built
from.
-/

namespace StackTape

/-- Code as places: the instruction of a place, `none` where the code ends, the place behind it,
and the place of a label. -/
structure Flow (α : Type) where
  instr? : α → Option Instr
  next : α → α
  target? : Bytes → Option α

namespace Flow

variable {α β γ : Type}

/-- Executes the instruction of a place; `none` if it cannot be executed. -/
def exec (c : Flow α) (eof : EofMode) (a : α) (i : Instr) (σ : Store) : Option (α × Store) :=
  match i with
  | .jump target => (c.target? target).map (·, σ)
  | .cond whenTrue whenFalse =>
    match σ.stack with
    | x :: st =>
      (c.target? (if x ≠ 0 then whenTrue else whenFalse)).map (·, { σ with stack := st })
    | [] => none
  | i => (i.effect eof σ).map (c.next a, ·)

/-- One step; `none` where the code ends, and where it is stuck. -/
def step (c : Flow α) (eof : EofMode) (s : α × Store) : Option (α × Store) :=
  (c.instr? s.1).bind fun i => c.exec eof s.1 i s.2

/-- The states at the places of `n` steps, as far as `shown` shows the places. -/
def trace (c : Flow α) (shown : α → Option γ) (eof : EofMode) : Nat → α × Store → List (γ × Store)
  | 0, _ => []
  | n + 1, s =>
    ((shown s.1).map (·, s.2)).toList ++
      match c.step eof s with
      | some s' => trace c shown eof n s'
      | none => []

/-- The place itself if it has an instruction other than a label. -/
def visible (c : Flow α) (a : α) : Option α :=
  match c.instr? a with
  | some i => if i.label?.isNone then some a else none
  | none => none

/-- A run that can go no further. -/
inductive Stops (c : Flow α) (eof : EofMode) : α × Store → α × Store → Prop where
  | here {s : α × Store} (h : c.step eof s = none) : Stops c eof s s
  | more {s s₁ s' : α × Store} (h : c.step eof s = some s₁) (t : Stops c eof s₁ s') :
      Stops c eof s s'

/-- A run comes to the end of the code. -/
def Halts (c : Flow α) (eof : EofMode) (s : α × Store) (σ : Store) : Prop :=
  ∃ a, c.Stops eof s (a, σ) ∧ c.instr? a = none

/-- A run comes to an instruction that cannot be executed. -/
def Sticks (c : Flow α) (eof : EofMode) (s : α × Store) (σ : Store) : Prop :=
  ∃ a, c.Stops eof s (a, σ) ∧ c.instr? a ≠ none

/-! ### Simulation -/

/-- `d` walks as `c` does, with silent steps put in.  `origin` is the place of `c` that a place of
`d` stands for, and `rank` counts the silent steps down. -/
structure Simulates (d : Flow β) (c : Flow α) (origin : β → Option α) (rank : β → Nat)
    (R : α → β → Prop) : Prop where
  kept : ∀ {a b a'}, R a b → origin b = some a' → a' = a ∧ ∃ i, c.instr? a = some i ∧
    d.instr? b = some i ∧ (i.isTerminator = false → R (c.next a) (d.next b)) ∧
    ∀ t ∈ i.targets, ∃ a₁ b₁, c.target? t = some a₁ ∧ d.target? t = some b₁ ∧ R a₁ b₁
  silent : ∀ {a b}, R a b → origin b = none → c.instr? a = none ∧ d.instr? b = none ∨
    ∃ b₁, (∀ eof σ, d.step eof (b, σ) = some (b₁, σ)) ∧ R a b₁ ∧ rank b₁ < rank b

/-- Silent steps. -/
inductive Skips (d : Flow β) (origin : β → Option α) : β → β → Prop where
  | refl (b : β) : Skips d origin b b
  | more {b b₁ b' : β} (ho : origin b = none)
      (h : ∀ eof σ, d.step eof (b, σ) = some (b₁, σ)) (t : Skips d origin b₁ b') :
      Skips d origin b b'

theorem Skips.trace {d : Flow β} {origin : β → Option α} {b b' : β} (h : Skips d origin b b')
    (shown : α → Option γ) (eof : EofMode) (n : Nat) (σ : Store) :
    ∃ m, d.trace (fun b => (origin b).bind shown) eof m (b, σ) =
      d.trace (fun b => (origin b).bind shown) eof n (b', σ) := by
  induction h with
  | refl => exact ⟨n, rfl⟩
  | more ho h _ ih =>
      obtain ⟨m, hm⟩ := ih
      exact ⟨m + 1, by simp [Flow.trace, h, ho, hm]⟩

theorem Skips.stops {d : Flow β} {origin : β → Option α} {b b' : β} (h : Skips d origin b b')
    {eof : EofMode} {σ : Store} {s : β × Store} (hs : d.Stops eof (b', σ) s) :
    d.Stops eof (b, σ) s := by
  induction h with
  | refl => exact hs
  | more _ h _ ih => exact .more (h eof σ) (ih hs)

namespace Simulates

variable {c : Flow α} {d : Flow β} {origin : β → Option α} {rank : β → Nat} {R : α → β → Prop}
  {eof : EofMode} {a : α} {b : β} {σ : Store}

/-- An instruction that both share takes them to related places, or neither. -/
theorem step (h : Simulates d c origin rank R) (hr : R a b) {a' : α} (ho : origin b = some a')
    (eof : EofMode) (σ : Store) :
    c.step eof (a, σ) = none ∧ d.step eof (b, σ) = none ∨
      ∃ a₁ b₁ σ₁, c.step eof (a, σ) = some (a₁, σ₁) ∧ d.step eof (b, σ) = some (b₁, σ₁) ∧
        R a₁ b₁ := by
  obtain ⟨rfl, i, hc, hd, hnext, htargets⟩ := h.kept hr ho
  simp only [Flow.step, hc, hd, Option.bind_some]
  cases i with
  | jump t =>
      obtain ⟨a₁, b₁, ha, hb, hr₁⟩ := htargets t (by simp [Instr.targets])
      exact .inr ⟨a₁, b₁, σ, by simp [exec, ha], by simp [exec, hb], hr₁⟩
  | cond t f =>
      cases hs : σ.stack with
      | nil => exact .inl ⟨by simp [exec, hs], by simp [exec, hs]⟩
      | cons x st =>
          obtain ⟨a₁, b₁, ha, hb, hr₁⟩ := htargets (if x ≠ 0 then t else f) (by
            split_ifs <;> simp [Instr.targets])
          exact .inr ⟨a₁, b₁, { σ with stack := st }, by simp only [exec, hs, ha]; rfl,
            by simp only [exec, hs, hb]; rfl, hr₁⟩
  | _ =>
      have hr₁ := hnext rfl
      simp only [exec]
      rcases Option.eq_none_or_eq_some (Instr.effect eof _ σ) with he | ⟨σ₁, he⟩
      · exact .inl ⟨by rw [he]; rfl, by rw [he]; rfl⟩
      · exact .inr ⟨_, _, σ₁, by rw [he]; rfl, by rw [he]; rfl, hr₁⟩

/-- After its silent steps `d` stands at a place that `c` shares, or both are at their end. -/
theorem settles (h : Simulates d c origin rank R) (hr : R a b) :
    ∃ b₁, Skips d origin b b₁ ∧ R a b₁ ∧
      ((∃ a', origin b₁ = some a') ∨
        origin b₁ = none ∧ c.instr? a = none ∧ d.instr? b₁ = none) := by
  induction hk : rank b using Nat.strong_induction_on generalizing b with
  | _ k ih =>
      cases ho : origin b with
      | some a' => exact ⟨b, .refl b, hr, .inl ⟨a', ho⟩⟩
      | none =>
          rcases h.silent hr ho with hend | ⟨b₁, hd, hr₁, hlt⟩
          · exact ⟨b, .refl b, hr, .inr ⟨ho, hend⟩⟩
          · obtain ⟨b₂, hskip, hr₂, hset⟩ := ih (rank b₁) (hk ▸ hlt) hr₁ rfl
            exact ⟨b₂, .more ho hd hskip, hr₂, hset⟩

theorem visible_kept (h : Simulates d c origin rank R) (hr : R a b) {a' : α}
    (ho : origin b = some a') : (origin b).bind c.visible = c.visible a := by
  rw [ho, Option.bind_some, (h.kept hr ho).1]

/-- What `c` shows, `d` shows. -/
theorem trace_le (h : Simulates d c origin rank R) (hr : R a b) (σ : Store) (n : Nat) :
    ∃ m, d.trace (fun b => (origin b).bind c.visible) eof m (b, σ) =
      c.trace c.visible eof n (a, σ) := by
  induction n generalizing a b σ with
  | zero => exact ⟨0, rfl⟩
  | succ n ih =>
      obtain ⟨b₁, hskip, hr₁, ⟨a', ho⟩ | ⟨ho, hc, hd⟩⟩ := h.settles hr
      · have hv := h.visible_kept hr₁ ho
        rcases h.step hr₁ ho eof σ with ⟨hc, hd⟩ | ⟨a₂, b₂, σ₂, hc, hd, hr₂⟩
        · obtain ⟨m, hm⟩ := hskip.trace c.visible eof 1 σ
          exact ⟨m, by simp [hm, trace, hc, hd, hv]⟩
        · obtain ⟨k, hk⟩ := ih hr₂ σ₂
          obtain ⟨m, hm⟩ := hskip.trace c.visible eof (k + 1) σ
          exact ⟨m, by simp [hm, trace, hc, hd, hv, hk]⟩
      · obtain ⟨m, hm⟩ := hskip.trace c.visible eof 1 σ
        exact ⟨m, by simp [hm, trace, Flow.step, hc, hd, ho, visible]⟩

/-- What `d` shows, `c` shows. -/
theorem le_trace (h : Simulates d c origin rank R) (hr : R a b) (σ : Store) (m : Nat) :
    ∃ n, c.trace c.visible eof n (a, σ) =
      d.trace (fun b => (origin b).bind c.visible) eof m (b, σ) := by
  induction m generalizing a b σ with
  | zero => exact ⟨0, rfl⟩
  | succ m ih =>
      cases ho : origin b with
      | some a' =>
          have hv := h.visible_kept hr ho
          rcases h.step hr ho eof σ with ⟨hc, hd⟩ | ⟨a₁, b₁, σ₁, hc, hd, hr₁⟩
          · exact ⟨1, by simp [trace, hc, hd, hv]⟩
          · obtain ⟨n, hn⟩ := ih hr₁ σ₁
            exact ⟨n + 1, by simp [trace, hc, hd, hv, hn]⟩
      | none =>
          rcases h.silent hr ho with ⟨hc, hd⟩ | ⟨b₁, hd, hr₁, -⟩
          · exact ⟨1, by simp [trace, Flow.step, hc, hd, ho, visible]⟩
          · obtain ⟨n, hn⟩ := ih hr₁ σ
            exact ⟨n, by simp [trace, hd, ho, hn]⟩

/-- Where a run of `c` stops, one of `d` stops, and both have an instruction there or neither. -/
theorem stops (h : Simulates d c origin rank R) (hr : R a b) {s : α × Store}
    (hs : c.Stops eof (a, σ) s) :
    ∃ b₁, d.Stops eof (b, σ) (b₁, s.2) ∧ (c.instr? s.1 = none ↔ d.instr? b₁ = none) := by
  generalize hs₀ : (a, σ) = s₀ at hs
  induction hs generalizing a b σ with
  | here hnone =>
      subst hs₀
      obtain ⟨b₁, hskip, hr₁, ⟨a', ho⟩ | ⟨-, hc, hd⟩⟩ := h.settles hr
      · obtain ⟨-, i, hc, hd, -⟩ := h.kept hr₁ ho
        rcases h.step hr₁ ho eof σ with ⟨-, hstop⟩ | ⟨a₂, b₂, σ₂, hstep, -⟩
        · exact ⟨b₁, hskip.stops (.here hstop), by simp [hc, hd]⟩
        · rw [hnone] at hstep
          cases hstep
      · exact ⟨b₁, hskip.stops (.here (by simp [Flow.step, hd])), by simp [hc, hd]⟩
  | more hstep t ih =>
      subst hs₀
      obtain ⟨b₁, hskip, hr₁, ⟨a', ho⟩ | ⟨-, hc, -⟩⟩ := h.settles hr
      · rcases h.step hr₁ ho eof σ with ⟨hc, -⟩ | ⟨a₂, b₂, σ₂, hc, hd, hr₂⟩
        · rw [hc] at hstep
          cases hstep
        · rw [hc] at hstep
          obtain ⟨b₃, hstop, hiff⟩ := ih hr₂ (Option.some.inj hstep)
          exact ⟨b₃, hskip.stops (.more hd hstop), hiff⟩
      · simp [Flow.step, hc] at hstep

/-- Where a run of `d` stops, one of `c` stops. -/
theorem stops_back (h : Simulates d c origin rank R) (hr : R a b) {s : β × Store}
    (hs : d.Stops eof (b, σ) s) :
    ∃ a₁, c.Stops eof (a, σ) (a₁, s.2) ∧ (c.instr? a₁ = none ↔ d.instr? s.1 = none) := by
  generalize hs₀ : (b, σ) = s₀ at hs
  induction hs generalizing a b σ with
  | here hnone =>
      subst hs₀
      cases ho : origin b with
      | some a' =>
          obtain ⟨-, i, hc, hd, -⟩ := h.kept hr ho
          rcases h.step hr ho eof σ with ⟨hstop, -⟩ | ⟨a₁, b₁, σ₁, -, hstep, -⟩
          · exact ⟨a, .here hstop, by simp [hc, hd]⟩
          · rw [hnone] at hstep
            cases hstep
      | none =>
          rcases h.silent hr ho with ⟨hc, hd⟩ | ⟨b₁, hd, -, -⟩
          · exact ⟨a, .here (by simp [Flow.step, hc]), by simp [hc, hd]⟩
          · have := hd eof σ
            rw [hnone] at this
            cases this
  | more hstep t ih =>
      subst hs₀
      cases ho : origin b with
      | some a' =>
          rcases h.step hr ho eof σ with ⟨-, hd⟩ | ⟨a₁, b₁, σ₁, hc, hd, hr₁⟩
          · rw [hd] at hstep
            cases hstep
          · rw [hd] at hstep
            obtain ⟨a₂, hstop, hiff⟩ := ih hr₁ (Option.some.inj hstep)
            exact ⟨a₂, .more hc hstop, hiff⟩
      | none =>
          rcases h.silent hr ho with ⟨-, hd⟩ | ⟨b₁, hd, hr₁, -⟩
          · simp [Flow.step, hd] at hstep
          · rw [hd] at hstep
            exact ih hr₁ (Option.some.inj hstep)

/-- Both end in the same state, or neither does. -/
theorem halts_iff (h : Simulates d c origin rank R) (hr : R a b) {τ : Store} :
    c.Halts eof (a, σ) τ ↔ d.Halts eof (b, σ) τ := by
  constructor
  · rintro ⟨a', hs, hi⟩
    obtain ⟨b', hs', hiff⟩ := h.stops hr hs
    exact ⟨b', hs', hiff.mp hi⟩
  · rintro ⟨b', hs, hi⟩
    obtain ⟨a', hs', hiff⟩ := h.stops_back hr hs
    exact ⟨a', hs', hiff.mpr hi⟩

/-- Both get stuck in the same state, or neither does. -/
theorem sticks_iff (h : Simulates d c origin rank R) (hr : R a b) {τ : Store} :
    c.Sticks eof (a, σ) τ ↔ d.Sticks eof (b, σ) τ := by
  constructor
  · rintro ⟨a', hs, hi⟩
    obtain ⟨b', hs', hiff⟩ := h.stops hr hs
    exact ⟨b', hs', mt hiff.mpr hi⟩
  · rintro ⟨b', hs, hi⟩
    obtain ⟨a', hs', hiff⟩ := h.stops_back hr hs
    exact ⟨a', hs', mt hiff.mp hi⟩

end Simulates

/-- Flat code: places are positions. -/
def ofCode (code : List Instr) : Flow Nat where
  instr? k := code[k]?
  next k := k + 1
  target? name := code.findIdx? fun i => i = .label name

theorem target?_ofCode {code : List Instr} {name : Bytes} (h : name ∈ Instr.labels code) :
    ∃ k, (ofCode code).target? name = some k ∧ code[k]? = some (.label name) := by
  have hsome : (code.findIdx? fun i => i = .label name).isSome := by
    rw [List.findIdx?_isSome, List.any_eq_true]
    exact ⟨_, Instr.mem_labels.mp h, by simp⟩
  obtain ⟨k, hk⟩ := Option.isSome_iff_exists.mp hsome
  obtain ⟨hlt, hp, -⟩ := List.findIdx?_eq_some_iff_getElem.mp hk
  have hp : code[k] = .label name := by simpa using hp
  exact ⟨k, hk, by rw [List.getElem?_eq_getElem hlt, hp]⟩

end Flow

namespace Program

open Instr

/-- A program: places are blocks and positions in them. -/
def flow (p : Program) : Flow (Bytes × Nat) where
  instr? a := (p.block? a.1).bind fun b => b.instrs[a.2]?
  next a := (a.1, a.2 + 1)
  target? name := (p.block? name).map fun _ => (name, 0)

/-- The places of the instructions of a program, in order. -/
def places (p : Program) : List (Bytes × Nat) :=
  p.blocks.flatMap fun b => (List.range b.instrs.length).map (b.label, ·)

/-- The position of a place among all instructions. -/
def position (p : Program) (a : Bytes × Nat) : Nat :=
  ((p.blocks.takeWhile fun b => b.label ≠ a.1).flatMap (·.instrs)).length + a.2

theorem position_next (p : Program) (a : Bytes × Nat) :
    p.position (p.flow.next a) = p.position a + 1 := rfl

/-- A place of an instruction, or the end of the last block. -/
def Valid (p : Program) (a : Bytes × Nat) : Prop :=
  ∃ before b after, p.blocks = before ++ b :: after ∧ a.1 = b.label ∧
    (a.2 < b.instrs.length ∨ a.2 = b.instrs.length ∧ after = [])

section

variable {p : Program} {code : List Instr} {a : Bytes × Nat}

theorem position_eq (hn : (p.blocks.map (·.label)).Nodup) {before after : List Block} {b : Block}
    (hb : p.blocks = before ++ b :: after) (k : Nat) :
    p.position (b.label, k) = (before.flatMap (·.instrs)).length + k := by
  have hne : ∀ c ∈ before, c.label ≠ b.label := by
    rw [hb, List.map_append, List.map_cons] at hn
    intro c hc he
    exact List.disjoint_of_nodup_append hn (List.mem_map_of_mem hc)
      (by rw [he]; exact List.mem_cons_self)
  rw [position, hb, List.takeWhile_append_of_pos (by simpa using hne),
    List.takeWhile_cons_of_neg (by simp), List.append_nil]

/-- The instruction of a place stands at its position. -/
theorem Partitioned.instr?_eq (h : Partitioned code p) (hn : (labels code).Nodup)
    (hv : p.Valid a) : p.flow.instr? a = code[p.position a]? := by
  obtain ⟨before, b, after, hb, ha, hlt⟩ := hv
  rw [← h.cuts.labels] at hn
  have hmem : b ∈ p.blocks := by simp [hb]
  obtain ⟨label, k⟩ := a
  obtain rfl : label = b.label := ha
  have hblock : p.flow.instr? (b.label, k) = b.instrs[k]? := by
    simp [flow, block?_of_mem hn hmem]
  rw [hblock, position_eq hn hb, ← h.cuts.text, hb, List.flatMap_append, List.flatMap_cons,
    List.getElem?_append_right (Nat.le_add_right _ _), Nat.add_sub_cancel_left]
  rcases hlt with hlt | ⟨rfl, rfl⟩
  · exact (List.getElem?_append_left hlt).symm
  · simp

/-- Behind an instruction that is no terminator the block goes on, or the program ends. -/
theorem Partitioned.valid_next (h : Partitioned code p) (hn : (labels code).Nodup)
    (ha : Alternates code) (hv : p.Valid a) {i : Instr} (hi : p.flow.instr? a = some i)
    (ht : i.isTerminator = false) : p.Valid (p.flow.next a) := by
  obtain ⟨before, b, after, hb, hl, hlt⟩ := hv
  rw [← h.cuts.labels] at hn
  have hmem : b ∈ p.blocks := by simp [hb]
  have hi : b.instrs[a.2]? = some i := by simpa [flow, hl, block?_of_mem hn hmem] using hi
  obtain ⟨hlt, hget⟩ := List.getElem?_eq_some_iff.mp hi
  refine ⟨before, b, after, hb, hl, ?_⟩
  rcases Nat.lt_or_ge (a.2 + 1) b.instrs.length with hlt' | hge
  · exact .inl hlt'
  · have hlen : a.2 + 1 = b.instrs.length := Nat.le_antisymm hlt hge
    refine .inr ⟨hlen, ?_⟩
    -- the next block would start with a label, which only a terminator comes before
    cases after with
    | nil => rfl
    | cons c after =>
        obtain ⟨name, body, rfl, -⟩ := h.cuts.block ha (show c ∈ p.blocks by simp [hb])
        rw [← h.cuts.text, hb, List.flatMap_append, List.flatMap_cons] at ha
        have hlast : b.instrs.getLast? = some i := by
          rw [List.getLast?_eq_getElem?, ← hlen, Nat.add_sub_cancel, hi]
        have := (List.isChain_append.mp (List.isChain_append.mp ha).2.1).2.2 i hlast
          (.label name) (by simp)
        rw [ht] at this
        simp [label?] at this

/-- The place of a label. -/
theorem Partitioned.target (h : Partitioned code p) (hn : (labels code).Nodup)
    (ha : Alternates code) {name : Bytes} (hm : name ∈ labels code) :
    p.flow.target? name = some (name, 0) ∧ p.Valid (name, 0) ∧
      code[p.position (name, 0)]? = some (.label name) := by
  have hn' := hn
  rw [← h.cuts.labels] at hm hn'
  obtain ⟨b, hb, rfl⟩ := List.mem_map.mp hm
  obtain ⟨name, body, rfl, -⟩ := h.cuts.block ha hb
  have hblock := block?_of_mem hn' hb
  rw [Block.label_of] at hblock ⊢
  obtain ⟨before, after, hbs⟩ := List.append_of_mem hb
  have hv : p.Valid (name, 0) := ⟨before, _, after, hbs, by simp, .inl (by simp)⟩
  refine ⟨by simp [flow, hblock], hv, ?_⟩
  rw [← h.instr?_eq hn hv]
  simp [flow, hblock]

/-- A program starts at its first place. -/
theorem Partitioned.start (h : Partitioned code p) (hn : (labels code).Nodup)
    (ha : Alternates code) : p.Valid (p.entry, 0) ∧ p.position (p.entry, 0) = 0 := by
  have he := h.entry
  rw [h.order] at he
  rw [← h.cuts.labels] at hn
  cases hb : p.blocks with
  | nil =>
      rw [hb] at he
      cases he
  | cons b rest =>
      obtain ⟨name, body, rfl, -⟩ := h.cuts.block ha (show b ∈ p.blocks by simp [hb])
      have hentry : (Block.of name body).label = p.entry := by simpa [hb] using he
      rw [← hentry]
      have hpos := position_eq hn (show p.blocks = [] ++ _ :: rest from hb) 0
      exact ⟨⟨[], _, rest, hb, rfl, .inl (by simp)⟩, hpos⟩

/-- A label that is defined once has one position. -/
theorem position_unique {code : List Instr} (hn : (labels code).Nodup) {j k : Nat} {name : Bytes}
    (hj : code[j]? = some (.label name)) (hk : code[k]? = some (.label name)) : j = k := by
  induction code generalizing j k with
  | nil => simp at hj
  | cons i rest ih =>
      have hrest : (labels rest).Nodup := hn.sublist ((List.sublist_cons_self i rest).filterMap _)
      have hmem : ∀ {n : Nat}, rest[n]? = some (.label name) → i ≠ .label name := by
        rintro n hr rfl
        rw [labels_label, List.nodup_cons, mem_labels] at hn
        exact hn.1 (List.mem_of_getElem? hr)
      cases j with
      | zero =>
          cases k with
          | zero => rfl
          | succ k => exact absurd (Option.some.inj hj) (hmem hk)
      | succ j =>
          cases k with
          | zero => exact absurd (Option.some.inj hk) (hmem hj)
          | succ k => exact congrArg _ (ih hrest hj hk)

end

/-! ### Where places come from -/

section

variable {code : List Instr} {k : Nat} {tagged : List (Option Nat × Instr)}

/-- Every instruction of the source has its place. -/
theorem Padded.exists_kept (h : Padded k code tagged) {n : Nat} {i : Instr}
    (hi : code[n]? = some i) :
    ∃ j, tagged[j]? = some (some (k + n), i) ∧
      Padded (k + n) (code.drop n) (tagged.drop j) := by
  induction h generalizing n with
  | nil => simp at hi
  | @keep k j rest tagged h ih =>
      cases n with
      | zero =>
          cases hi
          exact ⟨0, rfl, .keep h⟩
      | succ n =>
          obtain ⟨m, hm, hp⟩ := ih hi
          rw [Nat.add_assoc, Nat.add_comm 1] at hm hp
          exact ⟨m + 1, hm, hp⟩
  | mark _ _ ih | jump _ ih =>
      obtain ⟨m, hm, hp⟩ := ih hi
      exact ⟨m + 1, hm, hp⟩

/-- What is kept is an instruction of the source. -/
theorem Padded.kept (h : Padded k code tagged) {n : Nat} {i : Instr}
    (hm : (some n, i) ∈ tagged) : ∃ m, n = k + m ∧ code[m]? = some i := by
  induction h with
  | nil => cases hm
  | @keep k j rest tagged h ih =>
      rcases List.mem_cons.mp hm with he | hm
      · cases he
        exact ⟨0, rfl, rfl⟩
      · obtain ⟨m, rfl, hi⟩ := ih hm
        exact ⟨m + 1, by omega, hi⟩
  | mark _ _ ih | jump _ ih =>
      rcases List.mem_cons.mp hm with he | hm
      · cases he
      · exact ih hm

/-- What is put in is a label or a jump. -/
theorem Padded.inserted (h : Padded k code tagged) {i : Instr} (hm : (none, i) ∈ tagged) :
    ∃ name, i = .label name ∨ i = .jump name := by
  induction h with
  | nil => cases hm
  | keep _ ih =>
      rcases List.mem_cons.mp hm with he | hm
      · cases he
      · exact ih hm
  | mark name _ ih =>
      rcases List.mem_cons.mp hm with he | hm
      · cases he
        exact ⟨name, .inl rfl⟩
      · exact ih hm
  | @jump _ _ _ name _ _ ih =>
      rcases List.mem_cons.mp hm with he | hm
      · cases he
        exact ⟨name, .inr rfl⟩
      · exact ih hm

theorem Padded.filterMap_fst (h : Padded k code tagged) :
    tagged.filterMap (·.1) = List.range' k code.length := by
  induction h with
  | nil => rfl
  | keep _ ih => simp [ih, List.range'_succ]
  | mark _ _ ih | jump _ ih => simpa using ih

end

/-- Which places of a program stand for positions of flat code: read in order they are all of them,
with their instructions, and what was put in between are labels and jumps. -/
structure Origins (p : Program) (code : List Instr) (origin : Bytes × Nat → Option Nat) : Prop where
  order : p.places.filterMap origin = List.range code.length
  kept : ∀ a ∈ p.places, ∀ k, origin a = some k → p.flow.instr? a = code[k]?
  inserted : ∀ a ∈ p.places, origin a = none →
    ∃ name, p.flow.instr? a = some (.label name) ∨ p.flow.instr? a = some (.jump name)

section

variable {p : Program} {code full : List Instr} {tagged : List (Option Nat × Instr)}

/-- The origins of places that tags say. -/
def originIn (p : Program) (tagged : List (Option Nat × Instr)) (a : Bytes × Nat) : Option Nat :=
  tagged[p.position a]?.bind (·.1)

/-- The places are all positions in order. -/
theorem map_position (hn : (p.blocks.map (·.label)).Nodup) (before : List Block)
    {after : List Block} (hb : p.blocks = before ++ after) :
    (after.flatMap fun b => (List.range b.instrs.length).map (b.label, ·)).map p.position =
      List.range' (before.flatMap (·.instrs)).length (after.flatMap (·.instrs)).length := by
  induction after generalizing before with
  | nil => rfl
  | cons b after ih =>
      have hrest := ih (before ++ [b]) (by simp [hb])
      have hfirst : (List.range b.instrs.length).map (fun k => p.position (b.label, k)) =
          List.range' (before.flatMap (·.instrs)).length b.instrs.length := by
        rw [List.range'_eq_map_range]
        exact List.map_congr_left fun k _ => position_eq hn hb k
      rw [List.flatMap_cons, List.map_append, List.map_map, hrest, List.flatMap_cons,
        List.length_append, ← List.range'_append_1]
      simp only [Function.comp_def, hfirst]
      simp

theorem filterMap_getElem? {α β : Type} (l : List α) (f : α → Option β) :
    (List.range l.length).filterMap (fun j => l[j]?.bind f) = l.filterMap f := by
  have h : (List.range l.length).map (fun j => l[j]?) = l.map some := by
    refine List.ext_getElem (by simp) fun j h₁ h₂ => ?_
    have hj : j < l.length := by simpa using h₂
    simp [hj]
  have := congrArg (List.filterMap fun x => x.bind f) h
  simpa [List.filterMap_map, Function.comp_def] using this

theorem valid_of_mem {a : Bytes × Nat} (ha : a ∈ p.places) : p.Valid a := by
  obtain ⟨b, hb, ha⟩ := List.mem_flatMap.mp ha
  obtain ⟨k, hk, rfl⟩ := List.mem_map.mp ha
  obtain ⟨before, after, hbs⟩ := List.append_of_mem hb
  exact ⟨before, b, after, hbs, rfl, .inl (List.mem_range.mp hk)⟩

/-- The instruction of a place is the one that is tagged at its position. -/
theorem instr?_of_tagged (h : Partitioned full p) (hn : (labels full).Nodup)
    (htag : tagged.map (·.2) = full) {a : Bytes × Nat} (hv : p.Valid a) {o : Option Nat}
    {i : Instr} (hj : tagged[p.position a]? = some (o, i)) : p.flow.instr? a = some i := by
  rw [h.instr?_eq hn hv, ← htag, List.getElem?_map, hj, Option.map_some]

/-- The tags say where the places come from. -/
theorem origins (h : Partitioned full p) (hn : (labels full).Nodup)
    (hpad : Padded 0 code tagged) (htag : tagged.map (·.2) = full) :
    p.Origins code (p.originIn tagged) := by
  have hn' := hn
  rw [← h.cuts.labels] at hn'
  have hpos : p.places.map p.position = List.range tagged.length := by
    have := map_position hn' [] rfl
    rw [h.cuts.text, ← htag, List.length_map] at this
    rw [List.range_eq_range']
    exact this
  have htagged : ∀ a ∈ p.places, ∃ o i, tagged[p.position a]? = some (o, i) ∧
      p.flow.instr? a = some i := by
    intro a ha
    have hlt : p.position a < tagged.length := by
      rw [← List.mem_range, ← hpos]
      exact List.mem_map_of_mem ha
    obtain ⟨⟨o, i⟩, ht⟩ : ∃ t, tagged[p.position a]? = some t :=
      ⟨_, List.getElem?_eq_getElem hlt⟩
    exact ⟨o, i, ht, instr?_of_tagged h hn htag (valid_of_mem ha) ht⟩
  refine ⟨?_, fun a ha k ho => ?_, fun a ha ho => ?_⟩
  · have : p.places.filterMap (p.originIn tagged) =
        (p.places.map p.position).filterMap fun j => tagged[j]?.bind (·.1) := by
      rw [List.filterMap_map]
      rfl
    rw [this, hpos, filterMap_getElem?, hpad.filterMap_fst, ← List.range_eq_range']
  · obtain ⟨o, i, ht, hi⟩ := htagged a ha
    rw [originIn, ht] at ho
    obtain rfl : o = some k := ho
    obtain ⟨m, rfl, hm⟩ := hpad.kept (List.mem_of_getElem? ht)
    rw [hi, Nat.zero_add, hm]
  · obtain ⟨o, i, ht, hi⟩ := htagged a ha
    rw [originIn, ht] at ho
    obtain rfl : o = none := ho
    obtain ⟨name, rfl | rfl⟩ := hpad.inserted (List.mem_of_getElem? ht)
    · exact ⟨name, .inl hi⟩
    · exact ⟨name, .inr hi⟩

theorem drop_eq_cons {α : Type} {l rest : List α} {x : α} {n : Nat} (h : l.drop n = x :: rest) :
    l[n]? = some x ∧ l.drop (n + 1) = rest := by
  constructor
  · rw [← Nat.add_zero n, ← List.getElem?_drop, h, List.getElem?_cons_zero]
  · rw [← List.drop_drop, h, List.drop_one, List.tail_cons]

section

variable (h : Partitioned full p) (hn : (labels full).Nodup) (ha : Alternates full)
  (htag : tagged.map (·.2) = full) {a : Bytes × Nat} {k : Nat} (hv : p.Valid a)
  (hp : Padded k (code.drop k) (tagged.drop (p.position a)))

include h hn ha htag

/-- A label stands at the position where the tags have it. -/
theorem target_of_tagged {name : Bytes} {j : Nat} {o : Option Nat}
    (hj : tagged[j]? = some (o, .label name)) :
    p.flow.target? name = some (name, 0) ∧ p.Valid (name, 0) ∧ p.position (name, 0) = j := by
  have hfull : full[j]? = some (.label name) := by
    rw [← htag, List.getElem?_map, hj, Option.map_some]
  obtain ⟨htgt, hv, hpos⟩ := h.target hn ha (mem_labels.mpr (List.mem_of_getElem? hfull))
  exact ⟨htgt, hv, position_unique hn hpos hfull⟩

include hv hp

/-- At an instruction that was kept both have it, and go on at places that belong together. -/
theorem simulates_kept (hpad : Padded 0 code tagged)
    (ht : ∀ i ∈ code, ∀ t ∈ i.targets, t ∈ labels code) {k' : Nat}
    (ho : p.originIn tagged a = some k') :
    k' = k ∧ ∃ i, code[k]? = some i ∧ p.flow.instr? a = some i ∧
      (i.isTerminator = false → p.Valid (p.flow.next a) ∧
        Padded (k + 1) (code.drop (k + 1)) (tagged.drop (p.position a + 1))) ∧
      ∀ t ∈ i.targets, ∃ k₁ a₁, (Flow.ofCode code).target? t = some k₁ ∧
        p.flow.target? t = some a₁ ∧ p.Valid a₁ ∧
        Padded k₁ (code.drop k₁) (tagged.drop (p.position a₁)) := by
  obtain ⟨⟨o, i⟩, hj, hor⟩ := Option.bind_eq_some_iff.mp ho
  obtain rfl : o = some k' := hor
  have hdrop : tagged.drop (p.position a) = (some k', i) :: tagged.drop (p.position a + 1) := by
    obtain ⟨hlt, hget⟩ := List.getElem?_eq_some_iff.mp hj
    rw [List.drop_eq_getElem_cons hlt, hget]
  rw [hdrop] at hp
  generalize hcode : code.drop k = rest₀ at hp
  cases hp with
  | keep hp =>
      obtain ⟨hi, hrest⟩ := drop_eq_cons hcode
      have hia := instr?_of_tagged h hn htag hv hj
      refine ⟨rfl, i, hi, hia, fun hterm => ⟨h.valid_next hn ha hv hia hterm, ?_⟩,
        fun t hmem => ?_⟩
      · rwa [hrest]
      · -- the target is a label of the source, whose place is the one that was kept
        obtain ⟨k₁, htgt, hk₁⟩ := Flow.target?_ofCode (ht i (List.mem_of_getElem? hi) t hmem)
        obtain ⟨j₁, hj₁, hp₁⟩ := hpad.exists_kept hk₁
        obtain ⟨htgt', hv₁, rfl⟩ := target_of_tagged h hn ha htag hj₁
        rw [Nat.zero_add] at hp₁
        exact ⟨k₁, (t, 0), htgt, htgt', hv₁, hp₁⟩

/-- A label or a jump that was put in does nothing but go on, and nearer to the end. -/
theorem simulates_inserted (ho : p.originIn tagged a = none) :
    code[k]? = none ∧ p.flow.instr? a = none ∨
      ∃ a₁, (∀ eof σ, p.flow.step eof (a, σ) = some (a₁, σ)) ∧
        (p.Valid a₁ ∧ Padded k (code.drop k) (tagged.drop (p.position a₁))) ∧
        tagged.length - p.position a₁ < tagged.length - p.position a := by
  generalize hcode : code.drop k = rest₀ at hp ⊢
  generalize htl : tagged.drop (p.position a) = tl at hp
  cases hp with
  | nil =>
      refine .inl ⟨?_, ?_⟩
      · exact List.getElem?_eq_none (List.drop_eq_nil_iff.mp hcode)
      · rw [h.instr?_eq hn hv, ← htag]
        exact List.getElem?_eq_none (by simpa using List.drop_eq_nil_iff.mp htl)
  | keep hp =>
      rw [originIn, (drop_eq_cons htl).1] at ho
      cases ho
  | mark name hp =>
      obtain ⟨hj, hrest⟩ := drop_eq_cons htl
      have hia := instr?_of_tagged h hn htag hv hj
      have hlt := (List.getElem?_eq_some_iff.mp hj).1
      refine .inr ⟨p.flow.next a, fun eof σ => ?_, ⟨h.valid_next hn ha hv hia rfl, ?_⟩, ?_⟩
      · simp [Flow.step, hia, Flow.exec, Instr.effect]
      · rwa [position_next, hrest]
      · rw [position_next]
        omega
  | @jump _ _ o name tagged' hp =>
      obtain ⟨hj, hrest⟩ := drop_eq_cons htl
      have hia := instr?_of_tagged h hn htag hv hj
      have hlt := (List.getElem?_eq_some_iff.mp hj).1
      obtain ⟨htgt, hv₁, hpos⟩ := target_of_tagged h hn ha htag (drop_eq_cons hrest).1
      refine .inr ⟨(name, 0), fun eof σ => ?_, ⟨hv₁, ?_⟩, ?_⟩
      · simp [Flow.step, hia, Flow.exec, htgt]
      · rwa [hpos, hrest]
      · rw [hpos]
        omega

end

/-- **The blocks walk as the flat code does.** -/
theorem simulates (h : Partitioned full p) (hn : (labels full).Nodup) (ha : Alternates full)
    (hpad : Padded 0 code tagged) (htag : tagged.map (·.2) = full)
    (ht : ∀ i ∈ code, ∀ t ∈ i.targets, t ∈ labels code) :
    p.flow.Simulates (Flow.ofCode code) (p.originIn tagged)
      (fun a => tagged.length - p.position a)
      (fun k a => p.Valid a ∧ Padded k (code.drop k) (tagged.drop (p.position a))) where
  kept hr ho := simulates_kept h hn ha htag hr.1 hr.2 hpad ht ho
  silent hr ho := simulates_inserted h hn ha htag hr.1 hr.2 ho

/-- **Cutting code into blocks keeps its meaning.**  Code that defines every target, and no label
twice, makes a program with any labeler.  From any state the two show the same states at the
instructions of the code that are no labels, for any number of steps, and end, or get stuck, in the
same state. -/
theorem build_flow (hne : code ≠ []) (hn : (labels code).Nodup)
    (ht : ∀ i ∈ code, ∀ t ∈ i.targets, t ∈ labels code) (l : Labeler) :
    ∃ p origin, build code l = .ok p ∧ p.Origins code origin ∧ ∀ eof σ,
      (∀ n, ∃ m, p.flow.trace (fun a => (origin a).bind (Flow.ofCode code).visible) eof m
          ((p.entry, 0), σ) =
        (Flow.ofCode code).trace (Flow.ofCode code).visible eof n (0, σ)) ∧
      (∀ m, ∃ n, (Flow.ofCode code).trace (Flow.ofCode code).visible eof n (0, σ) =
        p.flow.trace (fun a => (origin a).bind (Flow.ofCode code).visible) eof m
          ((p.entry, 0), σ)) ∧
      ∀ τ, ((Flow.ofCode code).Halts eof (0, σ) τ ↔ p.flow.Halts eof ((p.entry, 0), σ) τ) ∧
        ((Flow.ofCode code).Sticks eof (0, σ) τ ↔ p.flow.Sticks eof ((p.entry, 0), σ) τ) := by
  obtain ⟨p, hb, hpart, -⟩ | ⟨_, e, -, -, hnone, i, hi, he⟩ := build_cases hne hn l
  · obtain ⟨tagged, hpad, htag⟩ := padded_addJumps code l
    have hn' : (labels (addJumps (addLabels code l).1)).Nodup := by
      rw [labels_addJumps]
      exact nodup_labels_addLabels hn l
    have halt : Alternates (addJumps (addLabels code l).1) :=
      alternates_addJumps sealed_insertLabels
    have hsim := simulates hpart hn' halt hpad htag ht
    obtain ⟨hv, hpos⟩ := hpart.start hn' halt
    have hr : p.Valid (p.entry, 0) ∧
        Padded 0 (code.drop 0) (tagged.drop (p.position (p.entry, 0))) :=
      ⟨hv, by rw [hpos]; exact hpad⟩
    exact ⟨p, p.originIn tagged, hb, origins hpart hn' hpad htag, fun eof σ =>
      ⟨hsim.trace_le hr σ, hsim.le_trace hr σ, fun τ => ⟨hsim.halts_iff hr, hsim.sticks_iff hr⟩⟩⟩
  · exact absurd (labels_subset_addLabels code l (ht i hi e he)) hnone

/-- Code that counts a byte down from two: it ends, as its blocks do, with what it was given. -/
theorem build_flow_countdown :
    ∃ p, build [.label [0x61], .dup, .cond [0x62] [0x63], .label [0x62], .push [0x31, 0x63], .subc,
        .jump [0x61], .label [0x63]] { stem := [0x64] } = .ok p ∧
      p.flow.Halts .unchanged ((p.entry, 0), ⟨[2], fun _ => 0, [], []⟩)
        ⟨[0], fun _ => 0, [], []⟩ := by
  obtain ⟨p, origin, hb, -, hrun⟩ := build_flow
    (show [.label [0x61], .dup, .cond [0x62] [0x63], .label [0x62], .push [0x31, 0x63], .subc,
      .jump [0x61], .label [0x63]] ≠ [] from nofun)
    (by decide) (by simp [targets, labels, label?]) { stem := [0x64] }
  obtain ⟨-, -, hends⟩ := hrun .unchanged ⟨[2], fun _ => 0, [], []⟩
  refine ⟨p, hb, (hends _).1.mp ⟨8, ?_, rfl⟩⟩
  iterate 18 refine .more rfl ?_
  exact .here rfl

end

end Program

end StackTape
