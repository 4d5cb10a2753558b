import StackTape.Proofs.Machine.Evaluation
import StackTape.Proofs.Machine.Loops
import StackTape.Proofs.MacroOp.Rebase

/-!
# Text whose loops come home

`Homing s d`: every loop of `s` encloses text that moves the pointer by nothing, and `s` itself
moves it by `d`.  The pointer at the end of a run of such text does not depend on what the cells
hold (`Homing.run`), whatever hook watches the run.

The invariant of the run is `Ahead`: of the loop that is being run a homing piece is left, then its
`]`, and ahead of the `[` it goes back to there is again such a piece, up to the end of the text.
-/

namespace StackTape

open Machine (pace)

/-- Every loop encloses text without net movement, and the text moves the pointer by a number of
cells. -/
inductive Homing : Bytes → Int64 → Prop where
  | nil : Homing [] 0
  | instr {c : UInt8} {rest : Bytes} {d : Int64} (h₁ : c ≠ 0x5B) (h₂ : c ≠ 0x5D)
      (h : Homing rest d) : Homing (c :: rest) (pace c + d)
  | loop {body rest : Bytes} {d : Int64} (hb : Homing body 0) (h : Homing rest d) :
      Homing (0x5B :: (body ++ 0x5D :: rest)) d

namespace Homing

variable {s t : Bytes} {c : UInt8} {d e : Int64}

/-- Two texts in a row lead as far as both together. -/
theorem append (hs : Homing s d) (ht : Homing t e) : Homing (s ++ t) (d + e) := by
  induction hs with
  | nil => simpa using ht
  | instr h₁ h₂ _ ih =>
      rw [Int64.add_assoc]
      exact .instr h₁ h₂ ih
  | loop hb _ _ ih =>
      rw [Machine.Evaluates.loop_append]
      exact .loop hb ih

/-- Where every loop comes home, the brackets are balanced. -/
theorem balanced (h : Homing s d) : Balanced s := by
  induction h with
  | nil => exact .nil
  | instr h₁ h₂ _ ih => exact .instr h₁ h₂ ih
  | loop _ _ ihb ih => exact .loop ihb ih

/-- Text without brackets moves the pointer by its net movement. -/
theorem of_plain (h : s.any MacroOp.isBracket = false) : Homing s (MacroOp.textDisplacement s) := by
  induction s with
  | nil => exact .nil
  | cons c rest ih =>
      rw [List.any_cons, Bool.or_eq_false_iff] at h
      simp only [MacroOp.isBracket, Bool.or_eq_false_iff, decide_eq_false_iff_not] at h
      rw [MacroOp.textDisplacement_cons]
      exact .instr h.1.1 h.1.2 (ih h.2)

/-- The first instruction leads as far as it moves. -/
theorem of_cons (h₁ : c ≠ 0x5B) (h : Homing (c :: s) d) : ∃ e, d = pace c + e ∧ Homing s e := by
  generalize hn : c :: s = n at h
  cases h with
  | nil => cases hn
  | instr _ _ h =>
      cases hn
      exact ⟨_, rfl, h⟩
  | loop => exact absurd (List.cons.inj hn).1 h₁

/-- A bracket that opens has its partner, with a round between them that comes home. -/
theorem of_open (h : Homing (0x5B :: s) d) :
    ∃ body rest, s = body ++ 0x5D :: rest ∧ Homing body 0 ∧ Homing rest d := by
  generalize hn : 0x5B :: s = n at h
  cases h with
  | nil => cases hn
  | instr h₁ => exact absurd (List.cons.inj hn).1.symm h₁
  | loop hb h => exact ⟨_, _, (List.cons.inj hn).2, hb, h⟩

/-- No bracket closes that was not opened. -/
theorem not_close (h : Homing (0x5D :: s) d) : False := by
  generalize hn : 0x5D :: s = n at h
  cases h with
  | nil => cases hn
  | instr _ h₂ => exact h₂ (List.cons.inj hn).1.symm
  | loop => cases (List.cons.inj hn).1

end Homing

namespace Machine

/-! ### What is ahead of a run -/

/-- The text behind a homing piece, with loops open and the pointer at `y`: the end of the text, or
the `]` of the innermost loop, and then what is ahead of its `[`. -/
inductive After (text : Array UInt8) (last : Int64) : Bytes → List Nat → Int64 → Prop where
  | done : After text last [] [] last
  | back {top : Nat} {loops : List Nat} {seg tail rest : Bytes} {y d : Int64}
      (ht : text.toList.drop top = seg ++ tail) (hs : Homing seg d)
      (h : After text last tail loops (y + d)) : After text last (0x5D :: rest) (top :: loops) y

/-- With the pointer at `x` a homing piece is ahead of the position `ip`, and the run comes from
there to the end of the text with the pointer at `last`. -/
def Ahead (text : Array UInt8) (last : Int64) (ip : Nat) (loops : List Nat) (x : Int64) : Prop :=
  ∃ seg tail d, text.toList.drop ip = seg ++ tail ∧ Homing seg d ∧
    After text last tail loops (x + d)

section

variable {text : Array UInt8} {last x : Int64} {ip : Nat} {loops : List Nat} {c : UInt8}

theorem drop_eq_cons (hip : ip < text.size) (hc : text.getD ip 0 = c) :
    text.toList.drop ip = c :: text.toList.drop (ip + 1) := by
  have hlt : ip < text.toList.length := by simpa using hip
  rw [List.drop_eq_getElem_cons hlt, ← hc]
  simp [Array.getD, hip]

namespace Ahead

/-- An instruction that is no bracket leads one step ahead. -/
theorem plain (h : Ahead text last ip loops x) (hip : ip < text.size) (hc : text.getD ip 0 = c)
    (h₁ : c ≠ 0x5B) (h₂ : c ≠ 0x5D) : Ahead text last (ip + 1) loops (x + pace c) := by
  obtain ⟨seg, tail, d, ht, hs, ha⟩ := h
  rw [drop_eq_cons hip hc] at ht
  cases seg with
  | nil =>
      cases ha with
      | done => cases ht
      | back => exact absurd (List.cons.inj ht).1 h₂
  | cons b seg =>
      obtain ⟨rfl, hrest⟩ := List.cons.inj ht
      obtain ⟨e, rfl, hseg⟩ := hs.of_cons h₁
      rw [← Int64.add_assoc] at ha
      exact ⟨seg, tail, e, hrest, hseg, ha⟩

/-- At a bracket that opens, the text ahead comes home both ways, into the loop and past it. -/
theorem opened (h : Ahead text last ip loops x) (hip : ip < text.size)
    (hc : text.getD ip 0 = 0x5B) :
    ∃ body, Balanced body ∧ Holds text ip (0x5B :: (body ++ [0x5D])) ∧
      Ahead text last (ip + 1) (ip :: loops) x ∧
      Ahead text last (ip + 1 + body.length + 1) loops x := by
  obtain ⟨seg, tail, d, ht, hs, ha⟩ := h
  have hdrop := ht
  rw [drop_eq_cons hip hc] at ht
  cases seg with
  | nil =>
      cases ha with
      | done => cases ht
      | back => cases (List.cons.inj ht).1
  | cons b seg =>
      obtain ⟨rfl, hrest⟩ := List.cons.inj ht
      obtain ⟨body, rest, rfl, hb, hr⟩ := hs.of_open
      have hin : text.toList.drop (ip + 1) = body ++ 0x5D :: (rest ++ tail) := by
        rw [hrest]
        simp
      refine ⟨body, hb.balanced, ⟨rest ++ tail, ?_⟩, ⟨body, _, 0, hin, hb, ?_⟩, rest, tail, d, ?_,
        hr, ha⟩
      · rw [hdrop]
        simp
      · rw [Int64.add_zero]
        exact .back hdrop hs ha
      · rw [← List.drop_drop, ← List.drop_drop, hin]
        simp

/-- At a bracket that closes, the pointer is where it was when the loop was entered. -/
theorem closed {top : Nat} (h : Ahead text last ip (top :: loops) x) (hip : ip < text.size)
    (hc : text.getD ip 0 = 0x5D) : Ahead text last top loops x := by
  obtain ⟨seg, tail, d, ht, hs, ha⟩ := h
  rw [drop_eq_cons hip hc] at ht
  cases seg with
  | nil =>
      cases hs
      rw [Int64.add_zero] at ha
      cases ha with
      | back ht hs ha => exact ⟨_, _, _, ht, hs, ha⟩
  | cons b seg =>
      obtain ⟨rfl, -⟩ := List.cons.inj ht
      exact hs.not_close.elim

/-- At its end the text has led where it was to lead. -/
theorem finished (h : Ahead text last ip loops x) (hip : ¬ ip < text.size) : x = last := by
  obtain ⟨seg, tail, d, ht, hs, ha⟩ := h
  rw [List.drop_eq_nil_of_le (by simpa using hip)] at ht
  obtain ⟨rfl, rfl⟩ := List.append_eq_nil_iff.mp ht.symm
  cases hs
  cases ha
  exact (Int64.add_zero x).symm

end Ahead

/-! ### Runs -/

/-- What is ahead of a point of a run, which remembers the text rightly. -/
structure Bound {σ : Type} (text : Array UInt8) (last : Int64) (p : Point σ) : Prop where
  ahead : Ahead text last p.ip p.machine.loops (Int64.ofNat p.machine.pointer)
  remembers : Remembers text p.machine

section

variable {σ : Type} {o : Options} {hook : Hook σ} {p q : Point σ}

/-- An instruction goes on to what is ahead of it. -/
theorem Executed.ahead {eof : EofMode} {u m : Machine} {next : Nat}
    (he : Executed eof text ip u (text.getD ip 0) m (.ok next)) (hip : ip < text.size)
    (h : Ahead text last ip u.loops (Int64.ofNat u.pointer)) (hr : Remembers text u) :
    Ahead text last next m.loops (Int64.ofNat m.pointer) := by
  have hpointer := he.pointer
  generalize hc : text.getD ip 0 = c at he hpointer
  cases he with
  | enter =>
      obtain ⟨_, -, -, hin, -⟩ := h.opened hip hc
      exact hin
  | pass _ hj =>
      obtain ⟨body, hb, hh, -, hout⟩ := h.opened hip hc
      rw [hr.skip, matchFrom_loop hb hh] at hj
      cases hj
      obtain ⟨skips, hskip, -⟩ := hr.skip_snd ip
      rw [hskip]
      exact hout
  | back hl => exact (hl ▸ h).closed hip hc
  | right | left | up | down | write | read | ended =>
      rw [hpointer]
      exact h.plain hip hc (by decide) (by decide)

/-- One turn of the machine keeps the text ahead bound for the same cell. -/
theorem Bound.turn (h : Bound text last p) (ht : turn o hook text p = .ok q) :
    Bound text last q := by
  refine ⟨?_, (kept_remembers text).turn ht h.remembers⟩
  obtain ⟨hip, ⟨hs, hq, hm⟩ | ⟨u, m, hu, hm, he⟩⟩ := turn_eq_ok ht
  · have hspace := hs
    simp only [isSpace, Bool.or_eq_true, decide_eq_true_eq] at hspace
    have hplain : text.getD p.ip 0 ≠ 0x5B ∧ text.getD p.ip 0 ≠ 0x5D ∧
        pace (text.getD p.ip 0) = 0 := by
      rcases hspace with ((h | h) | h) | h <;> rw [h] <;> decide
    have hnext := h.ahead.plain hip rfl hplain.1 hplain.2.1
    rw [hplain.2.2, Int64.add_zero] at hnext
    rwa [hq, hm]
  · obtain ⟨_, _, _, _, rfl⟩ := hu
    have hnext := he.ahead hip h.ahead h.remembers
    obtain ⟨_, _, _, _, hq⟩ := hm
    rw [hq]
    exact hnext

/-- So does a whole run. -/
theorem Bound.visits (h : Bound text last p) (hv : Visits o hook text p q) :
    Bound text last q := by
  induction hv with
  | refl => exact h
  | more ht _ ih => exact ih (h.turn ht)

end

end

end Machine

open Machine in
/-- **The pointer at the end of a run of homing text** is where the text takes it, whatever the
cells hold and the hook does. -/
theorem Homing.run {σ : Type} {o : Options} {hook : Hook σ} {fuel : Nat} {code : Bytes} {s : σ}
    {e : Finished σ} {m : Machine} {d : Int64} (h : Homing code d) (hm : m.Sound)
    (hl : m.loops = []) (hr : m.run o hook fuel code s = some e) (hs : e.stop = none) :
    Int64.ofNat e.machine.pointer = Int64.ofNat m.pointer + d := by
  have hload : (m.load code).core = m.core ∧ (m.load code).loops = [] :=
    ⟨(hm.bears code).core, (loops_load code m).trans hl⟩
  have hstart : Bound code.toArray (Int64.ofNat m.pointer + d) (m.start code s) := by
    refine ⟨⟨code, [], d, by simp [start], h, ?_⟩, (hm.bears code).remembers⟩
    show After code.toArray _ [] (m.load code).loops (Int64.ofNat (m.load code).core.pointer + d)
    rw [hload.1, hload.2]
    exact .done
  obtain ⟨q, hv, hq⟩ := run_iff_visits.mp ⟨fuel, hr⟩
  cases turnEnd_of_turn hq with
  | halted hip hm _ =>
      obtain ⟨_, _, _, _, rfl⟩ := hm
      exact (hstart.visits hv).ahead.finished hip
  | spent | stopped | aborted | leftOpen => cases hs

end StackTape
