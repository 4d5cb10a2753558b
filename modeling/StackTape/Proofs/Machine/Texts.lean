import StackTape.Proofs.Machine.Relocation

/-!
# Texts that run alike

A text run behind another one that came to its end does what the two joined do (`run_append`): the
second part stands in the joined text behind the first, and no scan goes back over the seam.  White
space does nothing (`run_withoutSpace`): a text without its white space does what the text does, and
stops at the same byte.  Both are relocations; the positions are those of the second part plus the
length of the first, and the number of other bytes before (`Bytes.rank`).
-/

namespace StackTape

namespace Bytes

/-- A text without its white space. -/
def withoutSpace (s : Bytes) : Bytes := s.filter fun c => !Machine.isSpace c

/-- How many of the first `i` bytes are no white space. -/
def rank (s : Bytes) (i : Nat) : Nat := (withoutSpace (s.take i)).length

/-- The byte at a position of a text, which is no white space, and the same byte without the white
space; or the ends of both texts. -/
inductive SameByte : Bytes → Nat → Nat → Prop where
  | byte {a b : Bytes} {c : UInt8} (h : Machine.isSpace c = false) :
      SameByte (a ++ c :: b) a.length a.withoutSpace.length
  | finish (s : Bytes) : SameByte s s.length s.withoutSpace.length

theorem withoutSpace_append (a b : Bytes) :
    withoutSpace (a ++ b) = a.withoutSpace ++ b.withoutSpace := List.filter_append ..

theorem withoutSpace_cons (c : UInt8) (b : Bytes) :
    withoutSpace (c :: b) = if Machine.isSpace c then b.withoutSpace else c :: b.withoutSpace := by
  cases h : Machine.isSpace c <;> simp [withoutSpace, h]

theorem rank_length (a b : Bytes) : rank (a ++ b) a.length = a.withoutSpace.length := by
  rw [rank, List.take_left]

/-- Only a byte that is no white space counts. -/
theorem rank_succ (a b : Bytes) (c : UInt8) :
    rank (a ++ c :: b) (a.length + 1) =
      if Machine.isSpace c then a.withoutSpace.length else a.withoutSpace.length + 1 := by
  have h := rank_length (a ++ [c]) b
  rw [List.append_assoc, List.singleton_append, List.length_append, List.length_singleton,
    withoutSpace_append, withoutSpace_cons] at h
  rw [h]
  split_ifs <;> simp [withoutSpace]

theorem rank_of_le {s : Bytes} {i : Nat} (h : s.length ≤ i) : s.rank i = s.withoutSpace.length := by
  rw [rank, List.take_of_length_le h]

end Bytes

namespace Machine

variable {o : Options} {m : Machine} {r r' : Finished Unit} {code c₁ c₂ : Bytes} {i : Nat}

theorem getD_toArray (s : Bytes) (i : Nat) : s.toArray.getD i 0 = s.getD i 0 := by
  simp [Array.getD_eq_getD_getElem?, List.getD_eq_getElem?_getD]

/-- A text taken apart at a position. -/
theorem exists_append_cons (h : i < code.length) :
    ∃ a b, code = a ++ code.toArray.getD i 0 :: b ∧ a.length = i := by
  refine ⟨code.take i, code.drop (i + 1), ?_, List.length_take_of_le (Nat.le_of_lt h)⟩
  rw [getD_toArray, List.getD_eq_getElem _ _ h, ← List.drop_eq_getElem_cons h,
    List.take_append_drop]

/-! ### A text behind another -/

theorem relocates_append (c₁ c₂ : Bytes) :
    Relocates c₁.toArray (c₁ ++ c₂).toArray id := by
  have byte {i : Nat} (hi : i < c₁.length) :
      i < (c₁ ++ c₂).length ∧ (c₁ ++ c₂).toArray.getD i 0 = c₁.toArray.getD i 0 := by
    rw [getD_toArray, getD_toArray, List.getD_append _ _ _ _ hi, List.length_append]
    exact ⟨Nat.lt_add_right _ hi, rfl⟩
  constructor
  · intro i hi hs
    obtain ⟨hlt, hc⟩ := byte hi
    exact ⟨hlt, hc, rfl⟩
  · intro i hi hs
    obtain ⟨hlt, hc⟩ := byte hi
    exact .inr ⟨hlt, by rwa [id, hc], rfl⟩

theorem covers_append (c₁ c₂ : Bytes) :
    Covers c₂.toArray (c₁ ++ c₂).toArray (· + c₁.length) := by
  have byte {i : Nat} (hi : i < c₂.length) :
      i + c₁.length < (c₁ ++ c₂).length ∧
        (c₁ ++ c₂).toArray.getD (i + c₁.length) 0 = c₂.toArray.getD i 0 := by
    rw [getD_toArray, getD_toArray, List.getD_append_right _ _ _ _ (Nat.le_add_left ..),
      Nat.add_sub_cancel, List.length_append]
    exact ⟨by omega, rfl⟩
  refine ⟨⟨?_, ?_⟩, ?_, ?_⟩
  · intro i hi hs
    obtain ⟨hlt, hc⟩ := byte hi
    exact ⟨hlt, hc, Nat.add_right_comm ..⟩
  · intro i hi hs
    obtain ⟨hlt, hc⟩ := byte hi
    exact .inr ⟨hlt, by rwa [hc], Nat.add_right_comm ..⟩
  · simp [Nat.add_comm]
  · intro i hi
    simp only [List.size_toArray, List.length_append] at hi ⊢
    omega

/-- **Where a run that came to its end left off**: at the end of its text without open loops. -/
theorem exists_visits_end (hm : Reachable m) (hl : m.loops = []) (h : m.Ends o code r)
    (hr : r.stop = none) :
    ∃ q, Visits o Hook.silent code.toArray (m.start code ()) q ∧ q.ip = code.length ∧
      q.machine.loops = [] ∧ ∃ trace, r.machine = { q.machine with trace } := by
  obtain ⟨q, hv, ht⟩ := run_iff_visits.mp h
  have hstart := Stacked.start hm.sound code ()
  rw [hl] at hstart
  obtain ⟨inner, -, hn⟩ := (hstart.visits (.inl rfl) hv).loops
  have hsize : q.ip ≤ code.length := by simpa using hn.le_size
  rcases turn_error_iff.mp ht with ⟨-, rfl⟩ | ⟨-, hnone, rfl⟩
  · cases hr
  rcases advance_eq_none hnone with hip | ⟨-, -, _, _, -, hstop⟩
  · obtain ⟨-, trace, hend⟩ := conclude_beyond (o := o) (m := q.machine) hip
    rw [hend] at hr ⊢
    refine ⟨q, hv, Nat.le_antisymm hsize (by simpa using hip), ?_, trace, rfl⟩
    cases hloops : q.machine.loops with
    | nil => rfl
    | cons =>
        rw [hloops] at hr
        cases hr
  · rw [hstop] at hr
    cases hr

/-- **A text in two pieces.**  On a machine without open loops, if the first piece comes to its end,
running the second piece behind it and running both at once end together and in the same way: with
the same cells, pointer, watermark, count of steps, input and output, and with the same stop and the
same open loops, whose positions are larger by the length of the first piece. -/
theorem run_append (hm : Reachable m) (hl : m.loops = []) {r₁ : Finished Unit}
    (h₁ : m.Ends o c₁ r₁) (hs : r₁.stop = none) (c₂ : Bytes) :
    (∀ r₂, r₁.machine.Ends o c₂ r₂ →
      ∃ r, m.Ends o (c₁ ++ c₂) r ∧ Relocated (· + c₁.length) r₂ r) ∧
    ∀ r, m.Ends o (c₁ ++ c₂) r →
      ∃ r₂, r₁.machine.Ends o c₂ r₂ ∧ Relocated (· + c₁.length) r₂ r := by
  obtain ⟨q, hv, hip, hloops, trace, hend⟩ := exists_visits_end hm hl h₁ hs
  obtain ⟨q', hv', hq⟩ := (counterpart_start hm.sound hl c₁ (c₁ ++ c₂) rfl).visits
    (relocates_append c₁ c₂) hv
  obtain ⟨fuel, hrun⟩ := h₁
  have hr₁ : Reachable r₁.machine := .run hm hrun
  -- here the second piece begins in both runs
  have hseam : Counterpart c₂.toArray (c₁ ++ c₂).toArray (· + c₁.length)
      (r₁.machine.start c₂ ()) q' := by
    obtain ⟨hpos, ⟨code, t, skips, hm'⟩, -, hsnd⟩ := hq
    obtain ⟨skips₂, hload⟩ := load_eq c₂ r₁.machine
    refine ⟨?_, ⟨code, t, skips, ?_⟩, hr₁.sound.remembers_load c₂, hsnd⟩
    · rw [hpos, hip]
      exact (Nat.zero_add _).symm
    · show q'.machine = (r₁.machine.load c₂).elsewhere _ code t skips
      rw [hm', hload, hend, elsewhere, elsewhere, hloops]
      rfl
  constructor
  · intro r₂ h₂
    obtain ⟨s, hs, ht⟩ := run_iff_visits.mp h₂
    obtain ⟨s', r, hs', ht', hr⟩ := hseam.ends (covers_append c₁ c₂) hs ht
    exact ⟨r, run_iff_visits.mpr ⟨s', hv'.trans hs', ht'⟩, hr⟩
  · intro r h
    obtain ⟨s', hs', ht'⟩ := run_iff_visits.mp h
    obtain ⟨s, r₂, hs, ht, hr⟩ :=
      hseam.ends_of (covers_append c₁ c₂) (hv'.cancel hs' ht') ht'
    exact ⟨r₂, run_iff_visits.mpr ⟨s, hs, ht⟩, hr⟩

/-- A loop, and behind it a fault in another: the joined text stops seven bytes further on, with the
position of its open loop so much larger. -/
theorem run_append_fault : ∃ m r₁ r₂ r, Machine.new? 2 {} {} = some m ∧
    m.Ends {} (Bytes.ascii "+[>+<-]") r₁ ∧ r₁.stop = none ∧
    r₁.machine.Ends {} (Bytes.ascii "+[>>") r₂ ∧
    r₂.stop = some (.fault ⟨.pointerOverflow, 3, 1, 0x3E⟩) ∧ r₂.machine.loops = [1] ∧
    m.Ends {} (Bytes.ascii "+[>+<-]" ++ Bytes.ascii "+[>>") r ∧
    r.stop = some (.fault ⟨.pointerOverflow, 10, 1, 0x3E⟩) ∧ r.machine.loops = [8] := by
  have hm : Machine.new? 2 {} {} = some { capacity := 2 } := rfl
  have hruns : ((Machine.run {} Hook.silent 40 (Bytes.ascii "+[>+<-]") () { capacity := 2 }).bind
      fun r₁ => (r₁.machine.run {} Hook.silent 40 (Bytes.ascii "+[>>") ()).map
        fun r₂ => (r₁.stop, r₂.stop, r₂.machine.loops)) =
      some (none, some (.fault ⟨.pointerOverflow, 3, 1, 0x3E⟩), [1]) := by cbv
  obtain ⟨r₁, h₁, hr⟩ := Option.bind_eq_some_iff.mp hruns
  obtain ⟨r₂, h₂, he⟩ := Option.map_eq_some_iff.mp hr
  obtain ⟨hs₁, he⟩ := Prod.mk.inj he
  obtain ⟨hs₂, hl₂⟩ := Prod.mk.inj he
  obtain ⟨r, h, hstop, _, _, _, hmachine⟩ :=
    (run_append (.new hm) rfl ⟨40, h₁⟩ hs₁ (Bytes.ascii "+[>>")).1 r₂ ⟨40, h₂⟩
  refine ⟨_, r₁, r₂, r, hm, ⟨40, h₁⟩, hs₁, ⟨40, h₂⟩, hs₂, hl₂, h, ?_, ?_⟩
  · rw [hstop, hs₂]
    rfl
  · rw [hmachine, elsewhere, hl₂]
    rfl

/-! ### White space -/

theorem covers_withoutSpace (code : Bytes) :
    Covers code.toArray code.withoutSpace.toArray code.rank := by
  refine ⟨⟨?_, ?_⟩, ?_, ?_⟩
  · intro i hi hs
    obtain ⟨a, b, hcode, rfl⟩ := exists_append_cons (by simpa using hi)
    generalize code.toArray.getD a.length 0 = c at hcode hs
    subst hcode
    rw [Bytes.rank_length, Bytes.rank_succ, Bytes.withoutSpace_append, Bytes.withoutSpace_cons, hs,
      if_neg Bool.false_ne_true, getD_toArray]
    simp
  · intro i hi hs
    obtain ⟨a, b, hcode, rfl⟩ := exists_append_cons (by simpa using hi)
    generalize code.toArray.getD a.length 0 = c at hcode hs
    subst hcode
    rw [Bytes.rank_length, Bytes.rank_succ, if_pos hs]
    exact .inl rfl
  · simp [Bytes.rank_of_le]
  · intro i hi
    rw [Bytes.rank_of_le (by simpa using hi)]
    simp

/-- **A run stops at an instruction or at the end of its text.** -/
theorem Ends.sameByte (h : m.Ends o code r) {stop : Stop} (hs : r.stop = some stop)
    (hi : stop.position? = some i) : Bytes.SameByte code i (code.rank i) := by
  -- the byte at a position that is no white space
  have solid {j : Nat} (hj : j < code.toArray.size)
      (hc : isSpace (code.toArray.getD j 0) = false) : Bytes.SameByte code j (code.rank j) := by
    obtain ⟨a, b, hcode, rfl⟩ := exists_append_cons (by simpa using hj)
    generalize code.toArray.getD a.length 0 = c at hcode hc
    subst hcode
    rw [Bytes.rank_length]
    exact .byte hc
  obtain ⟨q, -, ht⟩ := run_iff_visits.mp h
  rcases turn_error_iff.mp ht with ⟨hl, rfl⟩ | ⟨-, hnone, rfl⟩
  · cases hs
    cases hi
    exact solid hl.2.1 hl.2.2.1
  · rw [position?_conclude hnone hs] at hi
    cases hi
    rcases advance_eq_none hnone with hip | ⟨hip, hsolid, -⟩
    · rw [Nat.min_eq_right hip, List.size_toArray, Bytes.rank_of_le (Nat.le_refl _)]
      exact .finish code
    · rw [Nat.min_eq_left (Nat.le_of_lt hip)]
      exact solid hip hsolid

/-- **White space does nothing.**  On a machine without open loops a text and the same text without
its white space end together and in the same way, with every budget: with the same cells, pointer,
watermark, count of steps, input and output, with as many open loops, and with the same stop, which
is at the same byte in both. -/
theorem run_withoutSpace (hm : Reachable m) (hl : m.loops = []) (o : Options) (code : Bytes) :
    (∀ r, m.Ends o code r → ∃ r', m.Ends o code.withoutSpace r' ∧ Relocated code.rank r r') ∧
    (∀ r', m.Ends o code.withoutSpace r' → ∃ r, m.Ends o code r ∧ Relocated code.rank r r') ∧
    ∀ r stop i, m.Ends o code r → r.stop = some stop → stop.position? = some i →
      Bytes.SameByte code i (code.rank i) := by
  have hstart := counterpart_start hm.sound hl code code.withoutSpace
    (show code.rank 0 = 0 from rfl)
  have h := covers_withoutSpace code
  refine ⟨fun r hr => ?_, fun r' hr' => ?_, fun r stop i hr hs hi => hr.sameByte hs hi⟩
  · obtain ⟨q, hv, ht⟩ := run_iff_visits.mp hr
    obtain ⟨q', r', hv', ht', hrel⟩ := hstart.ends h hv ht
    exact ⟨r', run_iff_visits.mpr ⟨q', hv', ht'⟩, hrel⟩
  · obtain ⟨q', hv', ht'⟩ := run_iff_visits.mp hr'
    obtain ⟨q, r, hv, ht, hrel⟩ := hstart.ends_of h hv' ht'
    exact ⟨r, run_iff_visits.mpr ⟨q, hv, ht⟩, hrel⟩

/-- A budget of three stops a text in a loop, at the seventh byte; without its white space at the
fourth. -/
theorem run_withoutSpace_limit : ∃ m r r', Machine.new? 2 {} {} = some m ∧
    m.Ends { maxSteps := 3 } (Bytes.ascii "+ [ > > ]") r ∧
    r.stop = some (.stepLimit 3 6) ∧ r.machine.loops = [2] ∧
    Bytes.SameByte (Bytes.ascii "+ [ > > ]") 6 3 ∧
    m.Ends { maxSteps := 3 } (Bytes.ascii "+[>>]") r' ∧
    r'.stop = some (.stepLimit 3 3) ∧ r'.machine.loops = [1] := by
  obtain ⟨m, r, hm, hl, hr, hs, hloops⟩ : ∃ m r, Machine.new? 2 {} {} = some m ∧ m.loops = [] ∧
      m.Ends { maxSteps := 3 } (Bytes.ascii "+ [ > > ]") r ∧ r.stop = some (.stepLimit 3 6) ∧
      r.machine.loops = [2] := ⟨_, _, rfl, rfl, ⟨20, rfl⟩, rfl, rfl⟩
  obtain ⟨hto, -, hsame⟩ :=
    run_withoutSpace (.new hm) hl { maxSteps := 3 } (Bytes.ascii "+ [ > > ]")
  obtain ⟨r', hr', hstop, _, _, _, hmachine⟩ := hto r hr
  refine ⟨m, r, r', hm, hr, hs, hloops, hsame r _ 6 hr hs rfl, hr', ?_, ?_⟩
  · rw [hstop, hs]
    rfl
  · rw [hmachine, elsewhere, hloops]
    rfl

end Machine

end StackTape
