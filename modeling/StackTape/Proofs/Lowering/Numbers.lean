import StackTape.Proofs.Expansion.Run
import StackTape.Proofs.Lowering.Program

/-!
# The numbers of blocks

The dispatcher keeps the number of the next block in one byte, and 0 stands for the end.  A program
is refused if its order is longer than `maxBlocks`, but the blocks that are numbered are the entry
and the rest of the order (`dispatchOrder`), one more if the order leaves the entry out.

`lowerProgram_numbers`: the entry has the number 1, and a byte tells the numbers of a lowered
program apart; it takes one of them for the end just if the order leaves the entry out and has
`maxBlocks` labels, and then it is the last one.  `lowerProgram_crowded` is such a program.
-/

namespace StackTape

open MacroOp

namespace Lowering

variable {p : Program} {label : Bytes} {n : Nat}

theorem dispatchOrder_of_not_mem (h : p.entry ∉ p.order) :
    dispatchOrder p = p.entry :: p.order := by
  have hall : ∀ label ∈ p.order, decide (label ≠ p.entry) = true := by
    intro label hm
    rw [decide_eq_true_eq]
    rintro rfl
    exact h hm
  rw [dispatchOrder, List.filter_eq_self.mpr hall]

theorem length_dispatchOrder_le (p : Program) :
    (dispatchOrder p).length ≤ p.order.length + 1 :=
  Nat.succ_le_succ (List.length_filter_le _ _)

/-- No number is greater than the number of blocks. -/
theorem le_length_of_numberIn {order : List Bytes} (h : numberIn order label = some n) :
    n ≤ order.length := by
  obtain ⟨h₁, h₂⟩ := numberIn_eq_some h
  have := (List.getElem?_eq_some_iff.mp h₂).1
  omega

/-- The last label has the number of labels. -/
theorem numberIn_concat (order : List Bytes) (label : Bytes) :
    numberIn (order ++ [label]) label = some (order.length + 1) := by
  simp [numberIn, List.zipIdx_append, Nat.add_comm]

/-- **The number that a byte takes for the end** is that of the last block, where the order is as
long as it may be and leaves the entry out. -/
theorem numberIn_mod_eq_zero_iff (hb : p.order.length ≤ maxBlocks)
    (hn : numberIn (dispatchOrder p) label = some n) :
    n % 256 = 0 ↔
      p.entry ∉ p.order ∧ p.order.length = maxBlocks ∧ p.order.getLast? = some label := by
  have hmax : maxBlocks = 255 := rfl
  constructor
  · intro h0
    obtain ⟨h₁, h₂⟩ := numberIn_eq_some hn
    have hle := le_length_of_numberIn hn
    have hlen := length_dispatchOrder_le p
    obtain rfl : n = 256 := by omega
    have hentry : p.entry ∉ p.order := fun hm => by
      have := length_dispatchOrder hm
      omega
    have hfull : p.order.length = maxBlocks := by omega
    refine ⟨hentry, hfull, ?_⟩
    rw [dispatchOrder_of_not_mem hentry] at h₂
    rw [List.getLast?_eq_getElem?, hfull]
    exact h₂
  · rintro ⟨hentry, hfull, hlast⟩
    obtain ⟨front, hfront⟩ := List.getLast?_eq_some_iff.mp hlast
    rw [dispatchOrder_of_not_mem hentry, hfront, ← List.cons_append, numberIn_concat] at hn
    rw [hfront, List.length_append, List.length_singleton] at hfull
    obtain rfl := Option.some.inj hn
    rw [List.length_cons]
    omega

/-- **A byte tells the numbers apart**, whichever blocks they are of. -/
theorem numberIn_mod_inj (hb : p.order.length ≤ maxBlocks) {label' : Bytes} {n' : Nat}
    (hn : numberIn (dispatchOrder p) label = some n)
    (hn' : numberIn (dispatchOrder p) label' = some n') (h : n % 256 = n' % 256) :
    label = label' := by
  have hmax : maxBlocks = 255 := rfl
  have hlen := length_dispatchOrder_le p
  have hle := le_length_of_numberIn hn
  have hle' := le_length_of_numberIn hn'
  obtain ⟨h₁, hat⟩ := numberIn_eq_some hn
  obtain ⟨h₁', hat'⟩ := numberIn_eq_some hn'
  obtain rfl : n = n' := by omega
  exact Option.some.inj (hat.symm.trans hat')

/-- **The numbers of a program that is lowered.**  Every block that is dispatched has one, the entry
the number 1, and a byte tells them apart.  It also tells them from the end, but for the last block
where the order leaves the entry out and has as many labels as it may have; so it always does if the
order has the entry, as for a program that is cut from code. -/
theorem lowerProgram_numbers {frame : Option Frame} {ops : List MacroOp} {s : Lowering}
    (h : (Lowering.start frame).lowerProgram p = .ok (ops, s)) :
    (∀ label ∈ dispatchOrder p, ∃ n, numberIn (dispatchOrder p) label = some n) ∧
    numberIn (dispatchOrder p) p.entry = some 1 ∧
    (∀ label label' n n', numberIn (dispatchOrder p) label = some n →
      numberIn (dispatchOrder p) label' = some n' → label ≠ label' → n % 256 ≠ n' % 256) ∧
    (∀ label n, numberIn (dispatchOrder p) label = some n → (n % 256 = 0 ↔
      p.entry ∉ p.order ∧ p.order.length = maxBlocks ∧ p.order.getLast? = some label)) ∧
    ((p.entry ∈ p.order ∨ ∃ code l, Program.build code l = .ok p) →
      ∀ label n, numberIn (dispatchOrder p) label = some n → n % 256 ≠ 0) := by
  have hb := (lowerProgram_eq_ok h).1
  refine ⟨fun label hm => Option.isSome_iff_exists.mp (numberIn_isSome.mpr hm), numberIn_entry p,
    fun label label' n n' hn hn' hne he => hne (numberIn_mod_inj hb hn hn' he),
    fun label n hn => numberIn_mod_eq_zero_iff hb hn, fun hp label n hn h0 => ?_⟩
  have hentry : p.entry ∈ p.order := by
    rcases hp with hp | ⟨code, l, hp⟩
    · exact hp
    · exact (Program.partitioned_of_build hp).entry_mem
  exact ((numberIn_mod_eq_zero_iff hb hn).mp h0).1 hentry

/-- A program by hand whose entry comes last in its order. -/
theorem lowerProgram_numbers_back :
    ∃ p ops s, (Lowering.start none).lowerProgram p = .ok (ops, s) ∧
      p.order.getLast? = some p.entry ∧ numberIn (dispatchOrder p) p.entry = some 1 ∧
      numberIn (dispatchOrder p) [0x61] = some 2 ∧ 2 % 256 ≠ 1 % 256 ∧ 2 % 256 ≠ 0 := by
  obtain ⟨p, hp⟩ : ∃ p : Program, p = ⟨[0x62], [[0x61], [0x62]],
    [⟨[0x61], [.label [0x61]], [], []⟩, ⟨[0x62], [.label [0x62], .jump [0x61]], [0x61], []⟩]⟩ :=
    ⟨_, rfl⟩
  have hext : ((Lowering.start none).lowerProgram p).toOption.map (·.2.extent) = some 3 := by
    rw [hp]
    decide +kernel
  obtain ⟨⟨ops, s⟩, hl, -⟩ := exists_ok_of_map_eq_some hext
  have hnum : numberIn (dispatchOrder p) [0x61] = some 2 := by
    rw [hp]
    decide
  obtain ⟨-, hentry, hapart, -, hnonzero⟩ := lowerProgram_numbers hl
  refine ⟨p, ops, s, hl, by rw [hp]; rfl, hentry, hnum, hapart _ _ _ _ hnum hentry ?_,
    hnonzero (.inl ?_) _ _ hnum⟩
  · rw [hp]
    decide
  · rw [hp]
    decide

/-! ### One block too many -/

/-- A block that does nothing and ends the program. -/
def blank (label : Bytes) : Block := ⟨label, [.label label], [], []⟩

/-- A block without instructions only clears the number of the next block. -/
theorem lowerBlock_blank (numbers : Numbers) {s : Lowering} {height : Int64}
    (hs : s.depth = height) (label : Bytes) :
    lowerBlock numbers height s (blank label) = .ok ([.zero (nextDepth - height)], s) := by
  have hi : lowerInstrs numbers label s false 0 [.label label] = .ok ([], s, false) := rfl
  have hfall : fallThrough numbers s [] = .ok [.zero (nextDepth - s.depth)] := rfl
  simp only [lowerBlock, blank, hi, hfall, hs, ne_eq, not_true_eq_false, if_false, List.nil_append,
    Bool.false_eq_true]

/-- So do the rounds of all of them, in which nothing moves and every contract is kept. -/
theorem dispatch_blank (numbers : Numbers) {s : Lowering} (hs : s.depth = 0) {labels : List Bytes}
    (hp : ∀ label ∈ labels, p.block? label = some (blank label)) :
    ∃ body, dispatch p numbers 0 s labels = .ok (body, s) ∧ displacement body = 0 ∧
      firstFault? body = none := by
  induction labels with
  | nil => exact ⟨[], rfl, rfl, rfl⟩
  | cons label rest ih =>
      obtain ⟨hl, hr⟩ := List.forall_mem_cons.mp hp
      obtain ⟨more, hd, hm, hf⟩ := ih hr
      refine ⟨select 0 (Int64.ofNat ((numbers label).getD 0)) [.zero (nextDepth - 0)] ++ more,
        ?_, ?_, hf⟩
      · simp only [dispatch, hl, lowerBlock_blank numbers hs, hd]
      · rw [displacement_append, hm]
        rfl

section

variable (hp : p.blocks = (p.entry :: p.order).map blank) (hn : (p.entry :: p.order).Nodup)

include hp hn

theorem block?_blank : ∀ label ∈ p.entry :: p.order, p.block? label = some (blank label) := by
  have hnames : (p.blocks.map (·.label)).Nodup := by
    rw [hp, List.map_map]
    exact (List.map_id _).symm ▸ hn
  intro label hm
  exact Program.block?_of_mem hnames (b := blank label) (hp ▸ List.mem_map_of_mem hm)

/-- A program of blank blocks is valid. -/
theorem validate_blank : p.validate = .ok () := by
  obtain ⟨hentry, horder⟩ := List.forall_mem_cons.mp (block?_blank hp hn)
  have hself : ∀ b ∈ p.order.map blank, p.block? b.label = some b := List.forall_mem_map.mpr horder
  have hcheck : p.checkBlocks p.order = .ok () := by
    rcases Program.checkBlocks_cases hself with ⟨hok, -⟩ | ⟨b, hb, e, he, -⟩
    · rw [List.map_map] at hok
      exact (List.map_id p.order) ▸ hok
    · obtain ⟨label, -, rfl⟩ := List.mem_map.mp hb
      cases he
  rw [Program.validate, hentry]
  exact hcheck

theorem frameFor_blank : (Lowering.start none).frameFor p = .ok {} := by
  obtain ⟨-, horder⟩ := List.forall_mem_cons.mp (block?_blank hp hn)
  have hinstrs : instrsOf p p.order = p.order.flatMap fun label => [.label label] :=
    List.flatMap_congr fun label hm => by rw [horder label hm]; rfl
  have hslots : (instrsOf p p.order).filterMap Frame.slotOf? = [] := by
    rw [hinstrs, List.filterMap_eq_nil_iff]
    intro i hi
    obtain ⟨label, -, hi⟩ := List.mem_flatMap.mp hi
    obtain rfl := List.mem_singleton.mp hi
    rfl
  show Frame.ofSlots _ = _
  rw [hslots]
  rfl

/-- Blocks that do nothing are lowered, if the order does not name too many. -/
theorem exists_lowerProgram_blank (hb : p.order.length ≤ maxBlocks) :
    ∃ ops s, (Lowering.start none).lowerProgram p = .ok (ops, s) := by
  have hlabels : ∀ label ∈ dispatchOrder p, p.block? label = some (blank label) := fun label hm =>
    block?_blank hp hn label ((List.filter_sublist.cons_cons _).subset hm)
  have hlow : ({ frame := some {}, base := controlSize } : Lowering).lower (Frame.reserves {}) =
      .ok ([], { frame := some {}, base := controlSize }) := rfl
  obtain ⟨body, hd, hm, hf⟩ := dispatch_blank (numberIn (dispatchOrder p))
    (s := { frame := some {}, base := controlSize, framed := true }) rfl hlabels
  have hclose : validateAll (close 0 body) = .ok () := by
    simp [validateAll, close, firstFault?, fault?, ownFault, bodyFault?, hm, hf]
  refine ⟨.go controlSize :: close 0 body,
    { frame := some {}, base := controlSize, framed := true }, ?_⟩
  simp only [lowerProgram, validate_blank hp hn, frameFor_blank hp hn, if_neg (Nat.not_lt.mpr hb)]
  simp only [Lowering.start, hlow, hd, hclose, List.nil_append]

end

/-- Names for as many blocks as an order may name. -/
def manyLabels : List Bytes := (List.range maxBlocks).map (Labeler.candidate (Bytes.ascii "b"))

/-- **A number that does not fit.**  The order names as many blocks as it may and leaves the entry
out; the last block has the number 256, which a byte takes for the end. -/
theorem lowerProgram_crowded :
    ∃ p ops s, p.entry ∉ p.order ∧ p.order.Nodup ∧ p.validate = .ok () ∧
      (Lowering.start none).lowerProgram p = .ok (ops, s) ∧
      numberIn (dispatchOrder p) (Bytes.ascii "b_254") = some 256 := by
  have hnd : manyLabels.Nodup := List.nodup_range.map (Labeler.candidate_injective _)
  have hmain : Bytes.ascii "main" ∉ manyLabels := by
    intro hm
    obtain ⟨i, -, hi⟩ := List.mem_map.mp hm
    cases hi
  have hn : (Bytes.ascii "main" :: manyLabels).Nodup := List.nodup_cons.mpr ⟨hmain, hnd⟩
  have hlen : manyLabels.length = maxBlocks := by
    rw [manyLabels, List.length_map, List.length_range]
  have hlast : manyLabels = (List.range 254).map (Labeler.candidate (Bytes.ascii "b")) ++
      [Bytes.ascii "b_254"] := by
    rw [manyLabels, show maxBlocks = 254 + 1 from rfl, List.range_succ, List.map_append]
    rfl
  obtain ⟨ops, s, h⟩ := exists_lowerProgram_blank (p := ⟨Bytes.ascii "main", manyLabels,
    (Bytes.ascii "main" :: manyLabels).map blank⟩) rfl hn hlen.le
  refine ⟨_, ops, s, hmain, hnd, validate_blank rfl hn, h, ?_⟩
  rw [dispatchOrder_of_not_mem hmain]
  dsimp only
  rw [hlast, ← List.cons_append, numberIn_concat, List.length_cons, List.length_map,
    List.length_range]

end Lowering

end StackTape
