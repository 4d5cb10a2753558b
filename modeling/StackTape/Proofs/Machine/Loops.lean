import StackTape.Proofs.Machine.Nesting
import StackTape.Proofs.Machine.Turns
import StackTape.Proofs.Machine.Whole

/-!
# The loops that are open in a run

A `[` on a zero cell skips ahead by a scan of the text, a `]` goes back by the stack of open loops.
The two agree: at every point of a run the stack holds the positions of the brackets that are
unclosed in the text so far, on top of what it held when the run started (`Stacked`, kept by every
turn: `Stacked.turn`).

`run_loops`: on a machine without open loops this makes every `]` go back to its match, and a run
that comes to its end has balanced text.  `run_balanced`: a run of balanced text matches its
brackets whatever loops an earlier run left open, but at its end it faults for them;
`run_after_fault` is such a run.
-/

namespace StackTape

/-- The stop of a run for a bracket without a match. -/
def Stop.isUnbalanced : Stop → Bool
  | .fault f => f.kind = .unbalancedLoop
  | _ => false

namespace Machine

variable {σ : Type} {o : Options} {hook : Hook σ} {text : Array UInt8} {left inner : List Nat}
  {p q : Point σ} {e : Finished σ} {eof : EofMode} {ip next : Nat} {m m' : Machine} {stop : Stop}

/-! ### One instruction -/

/-- A right memory stays right. -/
theorem kept_remembers (text : Array UInt8) : Kept text (Remembers text) where
  executed {_ ip _ m m' _} h hm := by
    obtain ⟨skips, hs, hr⟩ := hm.skip_snd ip
    cases h with
    | pass | unclosed => exact hs ▸ hr
    | _ => exact hm
  alike {m m'} h hm := by
    obtain ⟨_, _, _, _, rfl⟩ := h
    exact hm

theorem Alike.loops (h : Alike m m') : m'.loops = m.loops := by
  obtain ⟨_, _, _, _, rfl⟩ := h
  rfl

/-- Balanced text has no `]` behind a beginning without open loops. -/
theorem Nesting.not_close (h : Nesting text ip []) (hb : Balanced text.toList)
    (hip : ip < text.size) : text.getD ip 0 ≠ 0x5D := by
  intro hc
  obtain ⟨seg, hseg, hh, rfl⟩ := h.balanced
  have hclose : Holds text (0 + seg.length) [0x5D] := by
    rw [Nat.zero_add]
    exact holds_cons_iff.mpr ⟨⟨hip, hc⟩, List.nil_prefix⟩
  obtain ⟨rest, hrest⟩ := holds_append_iff.mpr ⟨hh, hclose⟩
  rw [List.drop_zero, List.append_assoc, List.singleton_append] at hrest
  rw [← hrest] at hb
  exact hseg.not_close hb

theorem exists_matches_of_balanced (hb : Balanced text.toList) (hip : ip < text.size)
    (hc : text.getD ip 0 = 0x5B) : ∃ j < text.size, Matches text ip j := by
  have hh : Holds text 0 text.toList := by
    rw [Holds, List.drop_zero]
  obtain ⟨j, hj, hm⟩ := exists_matches hb hh (Nat.zero_le ip) (by simpa using hip) hc
  exact ⟨j, by simpa using hj, hm⟩

/-- **What an instruction does to the open loops**: they are those of the text up to where it goes
on, and a `]` goes back to its match. -/
theorem Nesting.executed (hn : Nesting text ip inner) (hl : m.loops = inner ++ left)
    (hip : ip < text.size) (hr : Remembers text m) (hleft : left = [] ∨ Balanced text.toList)
    (h : Executed eof text ip m (text.getD ip 0) m' (.ok next)) :
    (∃ inner', m'.loops = inner' ++ left ∧ Nesting text next inner') ∧
      (text.getD ip 0 = 0x5D → Matches text next ip) := by
  -- an instruction that is no bracket goes on behind itself
  have other (h₁ : text.getD ip 0 ≠ 0x5B) (h₂ : text.getD ip 0 ≠ 0x5D)
      (hm : m'.loops = m.loops) (hnext : next = ip + 1) :
      (∃ inner', m'.loops = inner' ++ left ∧ Nesting text next inner') ∧
        (text.getD ip 0 = 0x5D → Matches text next ip) := by
    subst hnext
    exact ⟨⟨inner, hm.trans hl, hn.plain hip h₁ h₂⟩, fun hc => absurd hc h₂⟩
  generalize hc : text.getD ip 0 = c at h other
  cases h with
  | right | left | up | down | write | read | ended =>
      exact other (by decide) (by decide) rfl rfl
  | enter =>
      exact ⟨⟨ip :: inner, congrArg _ hl, hn.enter hip hc⟩, fun h => absurd h (by decide)⟩
  | pass _ hj =>
      obtain ⟨skips, hs, -⟩ := hr.skip_snd ip
      rw [hr.skip, matchFrom_eq_some_iff hip hc] at hj
      rw [hs]
      exact ⟨⟨inner, hl, hn.pass hj⟩, fun h => absurd h (by decide)⟩
  | back htop =>
      cases inner with
      | nil =>
          -- nothing of the text is open, so it closes a loop of an earlier run
          rw [htop, List.nil_append] at hl
          rcases hleft with rfl | hb
          · cases hl
          · exact absurd hc (hn.not_close hb hip)
      | cons top' inner =>
          rw [htop, List.cons_append] at hl
          obtain ⟨rfl, rfl⟩ := List.cons.inj hl
          obtain ⟨ht, hm⟩ := hn.back hip hc
          exact ⟨⟨inner, rfl, ht⟩, fun _ => hm⟩

/-- No instruction of balanced text finds a bracket without a match. -/
theorem Nesting.not_unbalanced (hn : Nesting text ip inner) (hl : m.loops = inner ++ left)
    (hip : ip < text.size) (hr : Remembers text m) (hb : Balanced text.toList)
    (h : Executed eof text ip m (text.getD ip 0) m' (.error stop)) :
    stop.isUnbalanced = false := by
  generalize hc : text.getD ip 0 = c at h
  cases h with
  | overflow | underflow | unwritten | unread | unknown => rfl
  | unclosed _ hj =>
      obtain ⟨j, -, hm⟩ := exists_matches_of_balanced hb hip hc
      rw [← matchFrom_eq_some_iff hip hc, ← hr.skip, hj] at hm
      cases hm
  | unopened h =>
      rw [h] at hl
      obtain ⟨rfl, -⟩ := List.append_eq_nil_iff.mp hl.symm
      exact absurd hc (hn.not_close hb hip)

/-! ### A whole run -/

/-- The loops that are open at a point are those of the text before it, on top of `left`. -/
structure Stacked (text : Array UInt8) (left : List Nat) (p : Point σ) : Prop where
  remembers : Remembers text p.machine
  loops : ∃ inner, p.machine.loops = inner ++ left ∧ Nesting text p.ip inner

namespace Stacked

theorem start (hm : m.Sound) (code : Bytes) (s : σ) :
    Stacked code.toArray m.loops (m.start code s) := by
  obtain ⟨hload, hcode⟩ := hm.load code
  have hr := hload.remembers
  rw [hcode] at hr
  exact ⟨hr, [], loops_load code m, .zero _⟩

theorem turn (h : Stacked text left p) (hleft : left = [] ∨ Balanced text.toList)
    (ht : turn o hook text p = .ok q) :
    Stacked text left q ∧ (text.getD p.ip 0 = 0x5D → Matches text q.ip p.ip) := by
  have hr := (kept_remembers text).turn ht h.remembers
  obtain ⟨inner, hl, hn⟩ := h.loops
  obtain ⟨hip, ⟨hsp, hq, hm⟩ | ⟨u, m, hu, hm, he⟩⟩ := turn_eq_ok ht
  · -- white space is no bracket
    have h₁ : text.getD p.ip 0 ≠ 0x5B := fun h => by rw [h] at hsp; exact absurd hsp (by decide)
    have h₂ : text.getD p.ip 0 ≠ 0x5D := fun h => by rw [h] at hsp; exact absurd hsp (by decide)
    refine ⟨⟨hr, inner, by rw [hm, hl], ?_⟩, fun h => absurd h h₂⟩
    rw [hq]
    exact hn.plain hip h₁ h₂
  · have hru := (kept_remembers text).alike hu h.remembers
    obtain ⟨⟨inner', hl', hn'⟩, hback⟩ :=
      hn.executed (hu.loops.trans hl) hip hru hleft he
    exact ⟨⟨hr, inner', hm.loops.trans hl', hn'⟩, hback⟩

theorem visits (h : Stacked text left p) (hleft : left = [] ∨ Balanced text.toList)
    (hv : Visits o hook text p q) : Stacked text left q := by
  induction hv with
  | refl => exact h
  | more ht _ ih => exact ih (h.turn hleft ht).1

/-- Text that was gone through with no loop open is balanced. -/
theorem balanced (h : Stacked text left p) (hip : ¬ p.ip < text.size)
    (hl : p.machine.loops = []) : Balanced text.toList := by
  obtain ⟨inner, hl', hn⟩ := h.loops
  rw [hl] at hl'
  obtain ⟨rfl, -⟩ := List.append_eq_nil_iff.mp hl'.symm
  obtain ⟨seg, hb, hh, hsize⟩ := hn.balanced
  have hseg : seg = text.toList := by
    rw [Holds, List.drop_zero] at hh
    refine hh.eq_of_length_le ?_
    rw [← hsize, Array.length_toList]
    omega
  exact hseg ▸ hb

/-- At the end of balanced text only the loops from before are open. -/
theorem loops_eq (h : Stacked text left p) (hb : Balanced text.toList)
    (hip : ¬ p.ip < text.size) : p.machine.loops = left := by
  obtain ⟨inner, hl, hn⟩ := h.loops
  cases inner with
  | nil => exact hl
  | cons i inner =>
      obtain ⟨hi, hc, hno⟩ := (hn.lists.mem_iff i).mp List.mem_cons_self
      have hle := hn.le_size
      obtain ⟨j, hj, hm⟩ := exists_matches_of_balanced hb (by omega) hc
      exact absurd hm (hno j (by omega))

/-- **A run of balanced text** ends for an unbalanced loop just when it comes to the end of the
text with loops open from before. -/
theorem isUnbalanced_iff (h : Stacked text left p) (hb : Balanced text.toList)
    (he : TurnEnd o text p e) :
    (∃ stop, e.stop = some stop ∧ stop.isUnbalanced) ↔ left ≠ [] ∧ p.ip = text.size := by
  obtain ⟨inner, hl, hn⟩ := h.loops
  have hle := hn.le_size
  constructor
  · rintro ⟨stop, hs, hu⟩
    cases he with
    | spent | aborted =>
        cases hs
        cases hu
    | halted => cases hs
    | stopped hip ha hx =>
        cases hs
        have hr := (kept_remembers text).alike ha h.remembers
        rw [hn.not_unbalanced (ha.loops.trans hl) hip hr hb hx] at hu
        cases hu
    | leftOpen hip _ hopen => exact ⟨h.loops_eq hb hip ▸ hopen, by omega⟩
  · rintro ⟨hleft, hend⟩
    have hip : ¬ p.ip < text.size := by omega
    cases he with
    | spent hip' | stopped hip' | aborted hip' => exact absurd hip' hip
    | halted _ _ hnone => exact absurd (h.loops_eq hb hip ▸ hnone) hleft
    | leftOpen => exact ⟨_, rfl, rfl⟩

/-- Text without open loops from before is balanced if the run comes to its end. -/
theorem of_halted (h : Stacked text left p) (he : TurnEnd o text p e) (hs : e.stop = none) :
    Balanced text.toList ∧ e.machine.loops = [] := by
  cases he with
  | halted hip hm hl => exact ⟨h.balanced hip hl, hm.loops.trans hl⟩
  | spent | stopped | aborted | leftOpen => cases hs

/-- Loops from before stay open. -/
theorem suffix (h : Stacked text left p) (hleft : left = [] ∨ Balanced text.toList)
    (he : TurnEnd o text p e) : left <:+ e.machine.loops := by
  obtain ⟨inner, hl, hn⟩ := h.loops
  cases he with
  | spent => exact ⟨inner, hl.symm⟩
  | halted _ hm | leftOpen _ hm => exact ⟨inner, by rw [hm.loops, hl]⟩
  | aborted hip hu hx hm =>
      have hr := (kept_remembers text).alike hu h.remembers
      obtain ⟨⟨inner', hl', -⟩, -⟩ := hn.executed (hu.loops.trans hl) hip hr hleft hx
      exact ⟨inner', by rw [hm.loops, hl']⟩
  | stopped hip hu hx =>
      have hr := (kept_remembers text).alike hu h.remembers
      obtain ⟨skips, hs, -⟩ := hr.skip_snd p.ip
      refine ⟨inner, ?_⟩
      rw [← hl, ← hu.loops]
      generalize text.getD p.ip 0 = c at hx
      cases hx with
      | unclosed => rw [hs]
      | _ => rfl

end Stacked

/-- **Brackets match in every run.**  On a machine without open loops the stack of loops is at
every point the list of the brackets that are unclosed so far, so that every `]` goes back to its
match; a run that comes to the end has balanced text and leaves no loop open; and balanced text
never stops a run for its brackets. -/
theorem run_loops (hm : Reachable m) (hl : m.loops = []) (o : Options) (hook : Hook σ)
    (code : Bytes) (s : σ) :
    (∀ p, Visits o hook code.toArray (m.start code s) p →
      ListsUnclosed code.toArray p.ip p.machine.loops ∧
        ∀ q, code.toArray.getD p.ip 0 = 0x5D → turn o hook code.toArray p = .ok q →
          Matches code.toArray q.ip p.ip) ∧
    ∀ fuel e, m.run o hook fuel code s = some e →
      (e.stop = none → Balanced code ∧ e.machine.loops = []) ∧
        (Balanced code → ∀ stop, e.stop = some stop → stop.isUnbalanced = false) := by
  have hstart := Stacked.start hm.sound code s
  rw [hl] at hstart
  constructor
  · intro p hv
    have hp := hstart.visits (.inl rfl) hv
    obtain ⟨inner, hinner, hn⟩ := hp.loops
    rw [List.append_nil] at hinner
    exact ⟨hinner ▸ hn.lists, fun q hc ht => (hp.turn (.inl rfl) ht).2 hc⟩
  · intro fuel e he
    obtain ⟨p, hv, ht⟩ := run_iff_visits.mp ⟨fuel, he⟩
    have hp := hstart.visits (.inl rfl) hv
    have hend := turnEnd_of_turn ht
    refine ⟨hp.of_halted hend, fun hb stop hs => ?_⟩
    rw [← Bool.not_eq_true]
    intro hu
    exact ((hp.isUnbalanced_iff hb hend).mp ⟨stop, hs, hu⟩).1 rfl

/-- A text with a loop that is passed over and one that is gone through. -/
theorem run_loops_twice : ∃ m e, Machine.new? 1 {} {} = some m ∧
    m.run {} Hook.silent 20 (Bytes.ascii "[.]+[-]") () = some e ∧
    Balanced (Bytes.ascii "[.]+[-]") ∧ e.machine.loops = [] := by
  have hm : Machine.new? 1 {} {} = some { capacity := 1 } := rfl
  have hrun : (Machine.run {} Hook.silent 20 (Bytes.ascii "[.]+[-]") ()
      { capacity := 1 }).map (·.stop) = some none := by cbv
  obtain ⟨e, he, hs⟩ := Option.map_eq_some_iff.mp hrun
  exact ⟨_, e, hm, he, ((run_loops (.new hm) rfl {} Hook.silent _ ()).2 20 e he).1 hs⟩

/-- **Balanced text matches its brackets on every machine**, whatever loops an earlier run left
open.  These stay open, and the run stops for them just when it comes to the end of the text. -/
theorem run_balanced (hm : Reachable m) {code : Bytes} (hb : Balanced code) (o : Options)
    (hook : Hook σ) (s : σ) :
    (∀ p q, Visits o hook code.toArray (m.start code s) p →
      code.toArray.getD p.ip 0 = 0x5D → turn o hook code.toArray p = .ok q →
        Matches code.toArray q.ip p.ip) ∧
    ∀ fuel e, m.run o hook fuel code s = some e →
      m.loops <:+ e.machine.loops ∧
        ∃ p, Visits o hook code.toArray (m.start code s) p ∧
          turn o hook code.toArray p = .error e ∧
          ((∃ stop, e.stop = some stop ∧ stop.isUnbalanced) ↔
            m.loops ≠ [] ∧ p.ip = code.length) := by
  have hstart := Stacked.start hm.sound code s
  constructor
  · intro p q hv hc ht
    exact ((hstart.visits (.inr hb) hv).turn (.inr hb) ht).2 hc
  · intro fuel e he
    obtain ⟨p, hv, ht⟩ := run_iff_visits.mp ⟨fuel, he⟩
    have hp := hstart.visits (.inr hb) hv
    have hend := turnEnd_of_turn ht
    exact ⟨hp.suffix (.inr hb) hend, p, hv, ht, hp.isUnbalanced_iff hb hend⟩

/-- A loop that a fault left open stays open through a run that opens and closes another. -/
theorem run_balanced_leftOpen : ∃ m e, Reachable m ∧ m.loops = [1] ∧
    m.run {} Hook.silent 20 (Bytes.ascii "[-]") () = some e ∧ [1] <:+ e.machine.loops ∧
    ∃ p, Visits {} Hook.silent (Bytes.ascii "[-]").toArray (m.start (Bytes.ascii "[-]") ()) p ∧
      p.ip = 3 := by
  have hnew : Reachable { capacity := 1 } := .new (show Machine.new? 1 {} {} = _ from rfl)
  obtain ⟨r, hr, hl⟩ : ∃ r, Machine.run {} Hook.silent 20 (Bytes.ascii "+[>]") ()
      { capacity := 1 } = some r ∧ r.machine.loops = [1] := ⟨_, rfl, rfl⟩
  have hrun : (r.machine.run {} Hook.silent 20 (Bytes.ascii "[-]") ()).map
      (·.stop.map Stop.isUnbalanced) = some (some true) := by
    cases hr
    cbv
  obtain ⟨e, he, hs⟩ := Option.map_eq_some_iff.mp hrun
  obtain ⟨hsuffix, p, hv, -, hiff⟩ :=
    (run_balanced (.run hnew hr) (show Balanced (Bytes.ascii "[-]") by decide) {} Hook.silent
      ()).2 20 e he
  obtain ⟨stop, hstop, hu⟩ := Option.map_eq_some_iff.mp hs
  exact ⟨r.machine, e, .run hnew hr, hl, he, hl ▸ hsuffix, p, hv,
    (hiff.mp ⟨stop, hstop, hu⟩).2⟩

/-- **A fault in a loop spoils the next run**: balanced text, though it has no bracket at all,
stops for an unbalanced loop. -/
theorem run_after_fault : ∃ m r r' stop, Machine.new? 1 {} {} = some m ∧
    m.Ends {} (Bytes.ascii "+[>]") r ∧ r.stop = some (.fault ⟨.pointerOverflow, 2, 0, 0x3E⟩) ∧
    Balanced (Bytes.ascii ".") ∧ r.machine.Ends {} (Bytes.ascii ".") r' ∧
    r'.stop = some stop ∧ stop.isUnbalanced :=
  ⟨_, _, _, _, rfl, ⟨20, rfl⟩, rfl, by decide, ⟨20, rfl⟩, rfl, rfl⟩

end Machine

end StackTape
