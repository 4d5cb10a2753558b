import StackTape.Proofs.Expansion.Length
import StackTape.Proofs.Expansion.Run
import StackTape.Proofs.Lowering.Step
import StackTape.Proofs.Machine.Silent

/-!
# Conjunctions of any number of sources

The text of a conjunction counts its sources in the work cell, takes one away for every source that
is not zero, and adds 1 to the destination if nothing is left.  The count is a byte, so what is left
is the number of zero sources modulo 256 (`and_ends`): with fewer than 256 zero sources the
destination gets the conjunction, and with 256 it gets 1 although no source is set
(`and_ends_wrapped`).
-/

namespace StackTape

open Machine MacroOp

/-- The value of the cell at an offset from the pointer. -/
def Machine.near (m : Machine) (d : Int64) : UInt8 := m.cell (m.pointer + d.toInt).toNat

/-- A cell is at an offset from another if the word between them says so. -/
theorem Machine.sub_eq_iff {i p : Nat} (hi : i < largestCapacity) (hp : p < largestCapacity)
    {d : Int64} : Int64.ofNat i - Int64.ofNat p = d ↔ (i : Int) = p + d.toInt := by
  refine ⟨fun h => eq_add_toInt hp hi (by grind), fun h => ?_⟩
  have : Int64.ofNat i = Int64.ofNat p + d := by
    rw [← Int64.ofInt_eq_ofNat, h, Int64.ofInt_add, Int64.ofInt_toInt, Int64.ofInt_eq_ofNat]
  rw [this]
  grind

/-- A cell is the one at its offset from the pointer. -/
theorem View.cells_eq_get (u : View) (a : Int64) : u.cells a = u.get (a - u.pointer) := by
  rw [View.get]
  congr 1
  grind

namespace MacroOp

/-! ### Offsets that are written are not far -/

section

variable {dst src work count : Int64} {srcs : List Int64} {n : Node} {nodes : List Node}

open Lowering (bind_eq_ok)

/-- A move that is written is no longer than the longest text. -/
theorem span_of_goNode {delta : Int64} (h : goNode delta = .ok n) : span delta ≤ 2 ^ 48 := by
  obtain ⟨text, ht, -⟩ := bind_eq_ok h
  unfold moveText run at ht
  split_ifs at ht with hneg hlong hlong <;>
    rw [not_or, Int64.lt_iff_toInt_lt, Int64.lt_iff_toInt_lt, longestText_toInt,
      Int64.toInt_zero] at hlong
  · rw [← span_neg]
    unfold span
    omega
  · unfold span
    omega

theorem span_of_addNode (h : addNode dst count = .ok n) : span dst ≤ 2 ^ 48 := by
  obtain ⟨_, hgo, -⟩ := bind_eq_ok h
  exact span_of_goNode hgo

theorem span_of_condAddNode (h : condAddNode src dst count = .ok n) : span src ≤ 2 ^ 48 := by
  unfold condAddNode condNode at h
  split_ifs at h
  obtain ⟨_, hgo, -⟩ := bind_eq_ok h
  exact span_of_goNode hgo

theorem span_of_condAddNodes (h : condAddNodes dst count srcs = .ok nodes) :
    ∀ d ∈ srcs, span d ≤ 2 ^ 48 := by
  induction srcs generalizing nodes with
  | nil => simp
  | cons src rest ih =>
      obtain ⟨_, hsrc, h⟩ := bind_eq_ok h
      obtain ⟨_, hrest, -⟩ := bind_eq_ok h
      exact List.forall_mem_cons.mpr ⟨span_of_condAddNode hsrc, ih hrest⟩

/-- A conjunction that is written goes to its work cell and to every source. -/
theorem span_of_andNode (h : andNode dst srcs work = .ok n) :
    ∀ d ∈ work :: srcs, span d ≤ 2 ^ 48 := by
  unfold andNode at h
  split_ifs at h
  obtain ⟨_, hwork, h⟩ := bind_eq_ok h
  obtain ⟨_, hsrcs, -⟩ := bind_eq_ok h
  exact List.forall_mem_cons.mpr ⟨span_of_addNode hwork, span_of_condAddNodes hsrcs⟩

/-- The view of a machine has the values at such offsets. -/
theorem near_eq_get {m : Machine} (hm : m.Sound) {d : Int64} (hd : span d ≤ 2 ^ 48) :
    m.near d = m.view.get d := by
  have hp : m.pointer < largestCapacity := hm.core_onTape.lt
  unfold largestCapacity at hp
  unfold span at hd
  have hsum : (Int64.ofNat m.pointer + d).toInt = m.pointer + d.toInt := by
    rw [Int64.toInt_add, Int64.toInt_ofNat_of_lt (by omega),
      Int.bmod_eq_of_le (by omega) (by omega)]
  show m.cell _ = m.cell (Int64.ofNat m.pointer + d).toInt.toNat
  rw [hsum]

/-- Every cell of the tape is seen at its offset from the pointer. -/
theorem get_view_sub {m : Machine} (hm : m.Sound) {i : Nat} (hi : i < m.capacity) :
    m.view.get (Int64.ofNat i - Int64.ofNat m.pointer) = m.cell i := by
  have hlt := Nat.lt_of_lt_of_le hi hm.possible
  unfold largestCapacity at hlt
  refine (View.cells_eq_get m.view (Int64.ofNat i)).symm.trans ?_
  show m.cell (Int64.ofNat i).toInt.toNat = m.cell i
  rw [Int64.toInt_ofNat_of_lt (by omega), Int.toNat_natCast]

end

/-! ### Runs -/

theorem expand_and (dst : Int64) (srcs : List Int64) (work : Int64) :
    expand (.and dst srcs work) = andNode dst srcs work := by
  simp [expand, expandAt, shiftCells]

/-- The text of a conjunction reads and writes nothing. -/
theorem silent_andNode {dst work : Int64} {srcs : List Int64} {n : Node}
    (h : andNode dst srcs work = .ok n) : Silent n.flatten := by
  have hy : Yields (fun _ => False) Node.flatten (andNode dst srcs work) :=
    yields_andNode dst srcs work
  rw [h] at hy
  intro c hc
  rcases hy.mem hc with hc | ⟨_, hf, -⟩
  · exact ⟨fun e => by simp [e] at hc, fun e => by simp [e] at hc⟩
  · exact hf.elim

/-- What the text of a conjunction makes of a machine: the destination has 1 more if the number of
zero sources is a multiple of 256, the work cell and the sources are zero, and nothing else is
changed. -/
structure Conjoins (dst work : Int64) (srcs : List Int64) (m m' : Machine) : Prop where
  input : m'.input = m.input
  output : m'.output = m.output
  pointer : m'.pointer = m.pointer
  counted : ∀ i < m.capacity, (i : Int) = m.pointer + dst.toInt →
    m'.cell i = m.cell i + View.bit (256 ∣ srcs.countP fun d => m.near d = 0)
  cleared : ∀ d ∈ work :: srcs, ∀ i < m.capacity, (i : Int) = m.pointer + d.toInt → m'.cell i = 0
  other : ∀ i < m.capacity, (∀ d ∈ dst :: work :: srcs, (i : Int) ≠ m.pointer + d.toInt) →
    m'.cell i = m.cell i

/-- **The text of a conjunction comes to its end**, and has conjoined its sources. -/
theorem ends_andNode {dst work : Int64} {srcs : List Int64} (hs : srcs ≠ [])
    (hd : (dst :: work :: srcs).Nodup) {n : Node} (hn : andNode dst srcs work = .ok n)
    {m : Machine} (hm : m.Sound) (hl : m.loops = []) (hw : m.near work = 0) {o : Options}
    (ho : o.maxSteps = 0) (ht : m.StaysOnTape o n.flatten) :
    ∃ r, m.Ends o n.flatten r ∧ r.stop = none ∧ Conjoins dst work srcs m r.machine := by
  obtain ⟨hwork, hsrcs⟩ := List.forall_mem_cons.mp (span_of_andNode hn)
  have hwrites : Writes o.eof 0 Node.flatten _ (andNode dst srcs work) :=
    writes_andNode_counted hs hd
  rw [hn] at hwrites
  have hz : m.quiet.view.get work = 0 := (near_eq_get hm hwork).symm.trans hw
  obtain ⟨r, hr, hstop, hin, hout, hptr, hlt, hcells⟩ :=
    Performs.ends_silent hwrites (silent_andNode hn) ho hm hl ht (if_pos hz)
  have hp : m.pointer < largestCapacity := hm.core_onTape.lt
  have hbase : Int64.ofNat r.machine.pointer = m.quiet.view.pointer := by simpa using hptr
  have hcount : (srcs.countP fun d => m.near d = 0) =
      srcs.countP fun d => m.quiet.view.get d = 0 :=
    List.countP_congr fun d hd => by rw [near_eq_get hm (hsrcs d hd)]; rfl
  -- every cell of the tape is at one offset, and the action is read there
  have hread : ∀ i < m.capacity, ∃ e, (∀ d, e = d ↔ (i : Int) = m.pointer + d.toInt) ∧
      m.quiet.view.get e = m.cell i ∧
      r.machine.cell i = ((m.quiet.view.clear srcs).plus dst
        (View.bit (256 ∣ srcs.countP fun d => m.near d = 0))).get e := by
    intro i hi
    refine ⟨Int64.ofNat i - Int64.ofNat m.pointer,
      fun d => sub_eq_iff (Nat.lt_of_lt_of_le hi hm.possible) hp, get_view_sub hm hi, ?_⟩
    rw [hcells i hi, View.cells_eq_get, View.pointer_plus, View.pointer_clear, hcount]
    rfl
  obtain ⟨hdst, -⟩ := List.nodup_cons.mp hd
  refine ⟨r, hr, hstop, hin, hout,
    ofNat_inj (Nat.lt_of_lt_of_le hlt hm.possible) hp hbase, fun i hi h => ?_,
    fun d hmem i hi h => ?_, fun i hi h => ?_⟩
  · obtain ⟨e, he, hcell, hval⟩ := hread i hi
    obtain rfl := (he dst).mpr h
    have hsrc : e ∉ srcs := fun hmem => hdst (List.mem_cons_of_mem _ hmem)
    rw [hval, View.get_plus_self, View.get_clear, if_neg hsrc, hcell]
  · obtain ⟨e, he, -, hval⟩ := hread i hi
    obtain rfl := (he d).mpr h
    have hne : e ≠ dst := fun hed => hdst (hed ▸ hmem)
    rw [hval, View.get_plus_of_ne _ hne, View.get_clear]
    split_ifs with hsrc
    · rfl
    · obtain rfl := (List.mem_cons.mp hmem).resolve_right hsrc
      exact hz
  · obtain ⟨e, he, hcell, hval⟩ := hread i hi
    have hnot : ∀ d ∈ dst :: work :: srcs, e ≠ d := fun d hmem hed => h d hmem ((he d).mp hed)
    have hsrc : e ∉ srcs := fun hmem =>
      hnot e (List.mem_cons_of_mem _ (List.mem_cons_of_mem _ hmem)) rfl
    rw [hval, View.get_plus_of_ne _ (hnot dst List.mem_cons_self), View.get_clear, if_neg hsrc,
      hcell]

/-- **A conjunction counts its sources in a byte.**  A conjunction that keeps its contract is
refused for no fault.  On any machine without open loops whose work cell is zero and where the
pointer stays on the tape, its text comes to its end, and of the cells only the destination, the
sources and the work cell are changed (`Conjoins`).  As long as fewer than 256 sources are zero,
their number is a multiple of 256 just when all of them are nonzero. -/
theorem and_ends {dst work : Int64} {srcs : List Int64}
    (hv : validate (.and dst srcs work) = .ok ()) {m : Machine} (hm : Reachable m)
    (hl : m.loops = []) (hw : m.near work = 0) {o : Options} (ho : o.maxSteps = 0) :
    (∀ op fault, expand (.and dst srcs work) ≠ .error (.refused op fault)) ∧
    (∀ n, expand (.and dst srcs work) = .ok n → m.StaysOnTape o n.flatten →
      ∃ r, m.Ends o n.flatten r ∧ r.stop = none ∧ Conjoins dst work srcs m r.machine) ∧
    ((srcs.countP fun d => m.near d = 0) < 256 →
      ((256 ∣ srcs.countP fun d => m.near d = 0) ↔ ∀ d ∈ srcs, m.near d ≠ 0)) := by
  have hp : (MacroOp.and dst srcs work).Proper := by
    unfold validate at hv
    split at hv
    · cases hv
    · next hf => exact proper_of_fault? _ hf rfl
  rw [expand_and]
  refine ⟨fun op fault h => ?_, fun n hn ht => ?_, fun hlt => ?_⟩
  · have hwrites : Writes .unchanged 0 Node.flatten _ (andNode dst srcs work) :=
      writes_andNode_counted hp.1 hp.2
    rw [h] at hwrites
    exact hwrites
  · exact ends_andNode hp.1 hp.2 hn hm.sound hl hw ho ht
  · simpa using dvd_countP_iff hlt

/-- The text of a conjunction whose cells are on the tape stays on the tape. -/
theorem staysOnTape_andNode {dst work : Int64} {srcs : List Int64} {n : Node}
    (hn : andNode dst srcs work = .ok n) {m : Machine} (hm : m.Sound) {o : Options}
    (ho : o.maxSteps = 0)
    (h : ∀ d ∈ dst :: work :: srcs, On m.capacity (m.pointer + d.toInt)) :
    m.StaysOnTape o n.flatten := by
  obtain ⟨hdst, hwork, hsrcs⟩ : _ ∧ _ ∧ _ := by simpa only [List.forall_mem_cons] using h
  have hx : On m.capacity m.pointer := ⟨Int.natCast_nonneg _, by exact_mod_cast hm.onTape⟩
  exact (paces_andNode hm.possible hx hdst hwork hsrcs n hn).staysOnTape hm ho

/-- Two sources that are set. -/
theorem and_ends_set : ∃ m n r, Reachable m ∧ m.near 1 = 2 ∧ m.near 2 = 5 ∧ m.near 3 = 0 ∧
    expand (.and 0 [1, 2] 3) = .ok n ∧ m.Ends {} n.flatten r ∧ r.stop = none ∧
    r.machine.cell 0 = 1 := by
  obtain ⟨m, m₁, h₁, h₂, hcap, hptr, hc₀, hc₁, hc₂, hc₃⟩ : ∃ m m₁ : Machine,
      Machine.poke? { capacity := 4 } 1 2 = some m₁ ∧ m₁.poke? 2 5 = some m ∧ m.capacity = 4 ∧
        m.pointer = 0 ∧ m.cell 0 = 0 ∧ m.near 1 = 2 ∧ m.near 2 = 5 ∧ m.near 3 = 0 :=
    ⟨_, _, rfl, rfl, rfl, rfl, rfl, rfl, rfl, rfl⟩
  have hm : Reachable m :=
    .poke (.poke (.new (show Machine.new? 4 {} {} = some _ from rfl)) h₁) h₂
  have hl : m.loops = [] := by cases h₁; cases h₂; rfl
  have htext : (expand (.and 0 [1, 2] 3)).toOption.map Node.flatten =
      some (Bytes.ascii ">>>++<<<>[>>-<<[-]]<>>[>-<[-]]<<+>>>[<<<->>>[-]]<<<") := by
    decide +kernel
  obtain ⟨n, hn, -⟩ := exists_ok_of_map_eq_some htext
  have hs : m.StaysOnTape {} n.flatten := by
    refine staysOnTape_andNode ((expand_and ..).symm.trans hn) hm.sound rfl ?_
    rw [hcap, hptr]
    simp [On]
  have hv : validate (.and 0 [1, 2] 3) = .ok () := rfl
  obtain ⟨-, hrun, hcount⟩ := and_ends (o := {}) hv hm hl hc₃ rfl
  obtain ⟨r, hr, hstop, hafter⟩ := hrun n hn hs
  have hall := (hcount (by simp [hc₁, hc₂])).mpr (by simp [hc₁, hc₂])
  have hcell := hafter.counted 0 (by rw [hcap]; decide) (by rw [hptr]; rfl)
  rw [decide_eq_true hall, hc₀] at hcell
  exact ⟨m, n, r, hm, hc₁, hc₂, hc₃, hn, hr, hstop, hcell⟩

/-! ### As many sources as a byte can count -/

/-- Cells that are all different repeat nothing. -/
theorem firstRepeat_of_nodup {seen cells : List Int64} (hn : cells.Nodup)
    (hs : ∀ c ∈ cells, c ∉ seen) : firstRepeat seen cells = none := by
  induction cells generalizing seen with
  | nil => rfl
  | cons c rest ih =>
      obtain ⟨hc, hrest⟩ := List.nodup_cons.mp hn
      rw [firstRepeat, if_neg (hs c List.mem_cons_self)]
      refine ih hrest fun d hd hmem => ?_
      rcases List.mem_cons.mp hmem with rfl | hmem
      · exact hc hd
      · exact hs d (List.mem_cons_of_mem _ hd) hmem

/-- Cells that are all different keep the contract of a conjunction. -/
theorem validate_and {dst work : Int64} {srcs : List Int64} (hs : srcs ≠ [])
    (hd : (dst :: work :: srcs).Nodup) : validate (.and dst srcs work) = .ok () := by
  have hdistinct : distinct (dst :: work :: srcs) = none := by
    rw [distinct, firstRepeat_of_nodup hd (by simp)]
    rfl
  simp [validate, fault?, ownFault, hs, hdistinct]

/-- The cells from 1 to 256. -/
def manySources : List Int64 := (List.range' 1 256).map Int64.ofNat

theorem length_manySources : manySources.length = 256 := by simp [manySources]

/-- The destination 0, the work cell 257 and the sources, as numbers. -/
theorem manySources_eq :
    0 :: 257 :: manySources = (0 :: 257 :: List.range' 1 256).map Int64.ofNat := rfl

theorem manySources_lt : ∀ k ∈ 0 :: 257 :: List.range' 1 256, k < 258 := by
  simp only [List.mem_cons, List.mem_range'_1]
  omega

/-- All of these cells fit a short tape. -/
theorem manySources_toInt : ∀ d ∈ 0 :: 257 :: manySources, 0 ≤ d.toInt ∧ d.toInt < 258 := by
  rw [manySources_eq]
  intro d hd
  obtain ⟨k, hk, rfl⟩ := List.mem_map.mp hd
  have hlt := manySources_lt k hk
  rw [Int64.toInt_ofNat_of_lt (by omega)]
  omega

/-- All of them are different. -/
theorem manySources_nodup : (0 :: 257 :: manySources).Nodup := by
  rw [manySources_eq]
  refine List.Nodup.map_on (fun a ha b hb => ofNat_inj ?_ ?_) (by simp [List.nodup_range'])
  · exact (manySources_lt a ha).trans (by decide)
  · exact (manySources_lt b hb).trans (by decide)

/-- A conjunction of 256 sources is short enough to be written. -/
theorem exists_expand_manySources : ∃ n, expand (.and 0 manySources 257) = .ok n := by
  have hformed : ∀ part ∈ parts (.and 0 manySources 257), part.Formed :=
    List.forall_mem_singleton.mpr (List.ne_nil_of_length_pos (by rw [length_manySources]; decide))
  have hnear : ∀ part ∈ parts (.and 0 manySources 257), part.Near 258 := by
    refine List.forall_mem_singleton.mpr fun n hn => ?_
    rw [operands, length_manySources] at hn
    have hcells := manySources_toInt
    have hcount : (Int64.ofNat 256).toInt = 256 := by decide
    simp only [List.mem_cons, forall_eq_or_imp] at hn hcells
    unfold span
    rcases hn with rfl | rfl | rfl | hn
    · omega
    · omega
    · omega
    · have := hcells.2.2 n hn
      omega
  have hlong := lengthAt_le (K := 64 * 259) (d := 0) (D := 258) (by decide) (by decide) hnear
  have hweights : weights (parts (.and 0 manySources 257)) = 260 := by
    simp [parts, weight, operands, length_manySources]
  rw [hweights] at hlong
  exact (measures_expandAt 0 _).exists_ok hformed (hlong.trans (by decide))

/-- **256 zero sources add 1**, as if all of them were set. -/
theorem and_ends_wrapped : ∃ m n r, Machine.new? 258 {} {} = some m ∧
    validate (.and 0 manySources 257) = .ok () ∧ expand (.and 0 manySources 257) = .ok n ∧
    m.StaysOnTape {} n.flatten ∧ m.near 257 = 0 ∧ (∀ d ∈ manySources, m.near d = 0) ∧
    m.Ends {} n.flatten r ∧ r.stop = none ∧ m.cell 0 = 0 ∧ r.machine.cell 0 = 1 := by
  obtain ⟨m, hnew, hcap, hptr, hzero⟩ : ∃ m, Machine.new? 258 {} {} = some m ∧ m.capacity = 258 ∧
      m.pointer = 0 ∧ ∀ i, m.cell i = 0 := ⟨_, rfl, rfl, rfl, fun i => by simp [cell, Tape.get]⟩
  have hm : m.Sound := (Reachable.new hnew).sound
  have hl : m.loops = [] := by cases hnew; rfl
  have hnear : ∀ d, m.near d = 0 := fun d => hzero _
  have hne : manySources ≠ [] := List.ne_nil_of_length_pos (by rw [length_manySources]; decide)
  obtain ⟨n, hn⟩ := exists_expand_manySources
  rw [expand_and] at hn
  have hstays : m.StaysOnTape {} n.flatten := by
    refine staysOnTape_andNode hn hm rfl fun d hd => ?_
    have hd := manySources_toInt d hd
    rw [hcap, hptr]
    exact ⟨by omega, by omega⟩
  obtain ⟨r, hr, hstop, hafter⟩ :=
    ends_andNode hne manySources_nodup hn hm hl (hnear 257) (o := {}) rfl hstays
  have hall : (manySources.countP fun d => m.near d = 0) = 256 := by
    rw [← length_manySources]
    exact List.countP_eq_length.mpr fun d _ => decide_eq_true (hnear d)
  have hcell := hafter.counted 0 (by rw [hcap]; decide) (by rw [hptr]; rfl)
  rw [hall, hzero] at hcell
  exact ⟨m, n, r, hnew, validate_and hne manySources_nodup, (expand_and ..).trans hn, hstays,
    hnear 257, fun d _ => hnear d, hr, hstop, hzero 0, hcell⟩

end MacroOp

end StackTape
