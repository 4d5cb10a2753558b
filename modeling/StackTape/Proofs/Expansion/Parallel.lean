import StackTape.Proofs.Expansion.Text
import StackTape.Proofs.Machine.Evaluation

/-!
# One operation expanded at two places

The expansions of an operation at two offsets differ in their moves only.  `Parallel x y s t x' y'`
says so of two texts: `s` starts with the pointer at `x` and ends at `x'`, `t` starts at `y` and
ends at `y'`; either may move alone, and both count, enter a loop or run a raw piece at one and the
same cell.  A loop starts and ends its rounds at the cell it tests, and if `strict` holds a round
that comes back has cleared this cell or counted it down (`Wanes`).

`Pairs` is the same for two parts of an expansion: they are refused for the same fault, or what they
write is parallel, unless one is too long.  There is one theorem for each kind of node, and
`pairs_expandAt` puts them together.  With both offsets the same it says of one text that every
loop comes back to where it starts.
-/

namespace StackTape

open Machine (Core Evaluates pace)

/-! ### Parallel texts -/

/-- A round of a loop that comes back to its cell has cleared it or counted it down. -/
def Wanes (body : Bytes) : Prop :=
  ∀ {eof : EofMode} {u v : Core}, u.OnTape → Evaluates eof body u v none →
    v.pointer = u.pointer → v.current = 0 ∨ v.current = u.current - 1

/-- Two texts that do the same at the same cells, from `x` to `x'` and from `y` to `y'`. -/
inductive Parallel (strict : Prop) (raw : Bytes → Prop) :
    Int64 → Int64 → Bytes → Bytes → Int64 → Int64 → Prop where
  | nil (x y : Int64) : Parallel strict raw x y [] [] x y
  | fst {x y x' y' : Int64} {c : UInt8} {s t : Bytes} (hc : c ∈ [0x3E, 0x3C])
      (h : Parallel strict raw (x + pace c) y s t x' y') : Parallel strict raw x y (c :: s) t x' y'
  | snd {x y x' y' : Int64} {c : UInt8} {s t : Bytes} (hc : c ∈ [0x3E, 0x3C])
      (h : Parallel strict raw x (y + pace c) s t x' y') : Parallel strict raw x y s (c :: t) x' y'
  | both {x x' y' : Int64} {c : UInt8} {s t : Bytes} (hc : c ∈ [0x2B, 0x2D])
      (h : Parallel strict raw x x s t x' y') : Parallel strict raw x x (c :: s) (c :: t) x' y'
  | piece {x x' y' : Int64} {text s t : Bytes} (ht : raw text)
      (h : Parallel strict raw (x + MacroOp.textDisplacement text)
        (x + MacroOp.textDisplacement text) s t x' y') :
      Parallel strict raw x x (text ++ s) (text ++ t) x' y'
  | loop {x x' y' : Int64} {body body' s t : Bytes} (hw : strict → Wanes body)
      (hb : Parallel strict raw x x body body' x x) (h : Parallel strict raw x x s t x' y') :
      Parallel strict raw x x (0x5B :: (body ++ 0x5D :: s)) (0x5B :: (body' ++ 0x5D :: t)) x' y'

namespace Parallel

variable {strict : Prop} {raw : Bytes → Prop} {x y x' y' x₁ y₁ : Int64} {s t s' t' : Bytes}

/-- Parallel texts in a row are parallel. -/
theorem append (h : Parallel strict raw x y s t x₁ y₁)
    (h' : Parallel strict raw x₁ y₁ s' t' x' y') :
    Parallel strict raw x y (s ++ s') (t ++ t') x' y' := by
  induction h with
  | nil => exact h'
  | fst hc _ ih => exact .fst hc (ih h')
  | snd hc _ ih => exact .snd hc (ih h')
  | both hc _ ih => exact .both hc (ih h')
  | piece ht _ ih =>
      rw [List.append_assoc, List.append_assoc]
      exact .piece ht (ih h')
  | loop hw hb _ _ ih =>
      rw [Evaluates.loop_append, Evaluates.loop_append]
      exact .loop hw hb (ih h')

/-- Both texts have balanced brackets, since they open and close loops together. -/
theorem balanced (h : Parallel strict raw x y s t x' y')
    (hraw : ∀ text, raw text → Balanced text) : Balanced s ∧ Balanced t := by
  induction h with
  | nil => exact ⟨.nil, .nil⟩
  | fst hc _ ih =>
      obtain ⟨h₁, h₂⟩ := Machine.ne_bracket hc (by decide) (by decide)
      exact ⟨.instr h₁ h₂ ih.1, ih.2⟩
  | snd hc _ ih =>
      obtain ⟨h₁, h₂⟩ := Machine.ne_bracket hc (by decide) (by decide)
      exact ⟨ih.1, .instr h₁ h₂ ih.2⟩
  | both hc _ ih =>
      obtain ⟨h₁, h₂⟩ := Machine.ne_bracket hc (by decide) (by decide)
      exact ⟨.instr h₁ h₂ ih.1, .instr h₁ h₂ ih.2⟩
  | piece ht _ ih => exact ⟨(hraw _ ht).append ih.1, (hraw _ ht).append ih.2⟩
  | loop _ _ _ ihb ih => exact ⟨.loop ihb.1 ih.1, .loop ihb.2 ih.2⟩

/-- One side may move alone. -/
theorem moves_fst {c : UInt8} (hc : c ∈ [0x3E, 0x3C]) (n : Nat) :
    Parallel strict raw x y (List.replicate n c) [] (x + Int64.ofNat n * pace c) y := by
  induction n generalizing x with
  | zero => simpa using Parallel.nil x y
  | succ n ih =>
      have e : x + Int64.ofNat (n + 1) * pace c = x + pace c + Int64.ofNat n * pace c := by
        rw [Int64.ofNat_add]
        grind
      rw [e]
      exact .fst hc ih

/-- So may the other. -/
theorem moves_snd {c : UInt8} (hc : c ∈ [0x3E, 0x3C]) (n : Nat) :
    Parallel strict raw x y [] (List.replicate n c) x (y + Int64.ofNat n * pace c) := by
  induction n generalizing y with
  | zero => simpa using Parallel.nil x y
  | succ n ih =>
      have e : y + Int64.ofNat (n + 1) * pace c = y + pace c + Int64.ofNat n * pace c := by
        rw [Int64.ofNat_add]
        grind
      rw [e]
      exact .snd hc ih

/-- Both sides count alike, and at one cell. -/
theorem counts {c : UInt8} (hc : c ∈ [0x2B, 0x2D]) (n : Nat) :
    Parallel strict raw x x (List.replicate n c) (List.replicate n c) x x := by
  induction n with
  | zero => exact .nil x x
  | succ n ih => exact .both hc ih

section

variable {n n' : Node} {ns ns' ms ms' : List Node}

theorem nodes_cons (h : Parallel strict raw x y n.flatten n'.flatten x₁ y₁)
    (t : Parallel strict raw x₁ y₁ (Node.flattenAll ns) (Node.flattenAll ns') x' y') :
    Parallel strict raw x y (Node.flattenAll (n :: ns)) (Node.flattenAll (n' :: ns')) x' y' :=
  h.append t

theorem nodes_append
    (h : Parallel strict raw x y (Node.flattenAll ns) (Node.flattenAll ns') x₁ y₁)
    (t : Parallel strict raw x₁ y₁ (Node.flattenAll ms) (Node.flattenAll ms') x' y') :
    Parallel strict raw x y (Node.flattenAll (ns ++ ms)) (Node.flattenAll (ns' ++ ms')) x' y' := by
  rw [Node.flattenAll_append, Node.flattenAll_append]
  exact h.append t

/-- A loop around nodes. -/
theorem nodes_loop (hw : strict → Wanes (Node.flattenAll ns))
    (h : Parallel strict raw x x (Node.flattenAll ns) (Node.flattenAll ns') x x)
    (t : Parallel strict raw x x (Node.flattenAll ms) (Node.flattenAll ms') x' y') :
    Parallel strict raw x x
      (Node.flattenAll (.raw (Bytes.ascii "[") :: (ns ++ .raw (Bytes.ascii "]") :: ms)))
      (Node.flattenAll (.raw (Bytes.ascii "[") :: (ns' ++ .raw (Bytes.ascii "]") :: ms')))
      x' y' := by
  rw [Node.flattenAll_loop, Node.flattenAll_loop]
  exact .loop hw h t

end

end Parallel

namespace MacroOp

/-! ### Parts of an expansion -/

/-- Two parts of an expansion are refused for the same fault, or what they write is parallel,
unless one is too long. -/
def Pairs {α : Type} (strict : Prop) (raw : Bytes → Prop) (text : α → Bytes) (x y x' y' : Int64) :
    Except ExpandError α → Except ExpandError α → Prop
  | .error (.overlong _), _ => True
  | _, .error (.overlong _) => True
  | .error (.refused _ f), .error (.refused _ g) => f = g
  | .ok a, .ok b => Parallel strict raw x y (text a) (text b) x' y'
  | .ok _, .error (.refused ..) => False
  | .error (.refused ..), .ok _ => False

section

variable {α β : Type} {strict : Prop} {raw : Bytes → Prop} {text : α → Bytes} {text' : β → Bytes}
  {x y x' y' x₁ y₁ x₂ y₂ : Int64}

/-- A part that is too long is paired with anything. -/
theorem pairs_overlong (e : Except ExpandError α) (count : Int64) :
    Pairs strict raw text x y x' y' e (.error (.overlong count)) := by
  match e with
  | .ok _ | .error (.overlong _) | .error (.refused ..) => trivial

/-- What comes after two parts starts where their texts lead. -/
theorem Pairs.bind {e e' : Except ExpandError α} {k k' : α → Except ExpandError β}
    (h : Pairs strict raw text x y x₁ y₁ e e')
    (hk : ∀ a b, e = .ok a → Parallel strict raw x y (text a) (text b) x₁ y₁ →
      Pairs strict raw text' x₂ y₂ x' y' (k a) (k' b)) :
    Pairs strict raw text' x₂ y₂ x' y' (e >>= k) (e' >>= k') := by
  match e, e' with
  | .ok a, .ok b => exact hk a b rfl h
  | .ok a, .error (.overlong c) => exact pairs_overlong _ c
  | .error (.overlong _), .ok _ | .error (.overlong _), .error _ => trivial
  | .error (.refused ..), .error (.overlong _) => trivial
  | .error (.refused ..), .error (.refused ..) => exact h
  | .ok _, .error (.refused ..) | .error (.refused ..), .ok _ => exact h.elim

end

section

variable {strict : Prop} {raw : Bytes → Prop} {x y x' y' : Int64}

/-! ### Runs of one instruction -/

/-- A text of moves goes as far as it should, or is too long. -/
theorem moveText_paces (delta : Int64) :
    (∃ (n : Nat) (c : UInt8), c ∈ [0x3E, 0x3C] ∧ Int64.ofNat n * pace c = delta ∧
      moveText delta = .ok (List.replicate n c)) ∨
      ∃ count, moveText delta = .error (.overlong count) := by
  have hl : pace 0x3C = -1 := by decide
  have hr : pace 0x3E = 1 := by decide
  unfold moveText
  split_ifs
  · rcases run_cases 0x3C (-delta) with ⟨n, hn, h⟩ | h
    · refine .inl ⟨n, 0x3C, by simp, ?_, h⟩
      rw [ofNat_of_toInt hn, hl]
      grind
    · exact .inr ⟨_, h⟩
  · rcases run_cases 0x3E delta with ⟨n, hn, h⟩ | h
    · refine .inl ⟨n, 0x3E, by simp, ?_, h⟩
      rw [ofNat_of_toInt hn, hr]
      grind
    · exact .inr ⟨_, h⟩

/-- Moves from two cells lead to two cells, whatever is between. -/
theorem pairs_moveText {a b : Int64} (hx : x + a = x') (hy : y + b = y') :
    Pairs strict raw id x y x' y' (moveText a) (moveText b) := by
  rcases moveText_paces a with ⟨n, c, hc, hn, h⟩ | ⟨_, h⟩ <;> rw [h]
  swap
  · trivial
  rcases moveText_paces b with ⟨n', c', hc', hn', h'⟩ | ⟨_, h'⟩ <;> rw [h']
  swap
  · trivial
  have hp : Parallel strict raw x y (List.replicate n c ++ []) ([] ++ List.replicate n' c')
      (x + Int64.ofNat n * pace c) (y + Int64.ofNat n' * pace c') :=
    (Parallel.moves_fst hc n).append (Parallel.moves_snd hc' n')
  rw [hn, hx, hn', hy, List.append_nil, List.nil_append] at hp
  exact hp

/-- A count is written alike on both sides. -/
theorem pairs_countText (count : Int64) :
    Pairs strict raw id x x x x (countText count) (countText count) := by
  unfold countText
  split_ifs
  · rcases run_cases 0x2D (-count) with ⟨n, -, h⟩ | h <;> rw [h]
    · exact .counts (by simp) n
    · trivial
  · rcases run_cases 0x2B count with ⟨n, -, h⟩ | h <;> rw [h]
    · exact .counts (by simp) n
    · trivial

/-! ### Straight-line operations -/

theorem pairs_goNode {a b : Int64} (hx : x + a = x') (hy : y + b = y') :
    Pairs strict raw Node.flatten x y x' y' (goNode a) (goNode b) :=
  (pairs_moveText hx hy).bind fun _ _ _ h => h

/-- The ways to one cell from both sides. -/
theorem pairs_out {a b : Int64} (h : x + a = y + b) :
    Pairs strict raw Node.flatten x y (x + a) (x + a) (goNode a) (goNode b) :=
  pairs_goNode rfl h.symm

/-- The ways back from it. -/
theorem pairs_back {a b : Int64} (h : x + a = y + b) :
    Pairs strict raw Node.flatten (x + a) (x + a) x y (goNode (-a)) (goNode (-b)) :=
  pairs_goNode (by grind) (by grind)

/-- Raw text is run at one and the same cell, with different ways there and back. -/
theorem pairs_literalNode {text : Bytes} (ht : raw text) {a b : Int64} (h : x + a = y + b) :
    Pairs strict raw Node.flatten x y (x + textDisplacement text) (y + textDisplacement text)
      (literalNode text a) (literalNode text b) := by
  have hout : Pairs strict raw id x y (x + a) (x + a) (moveText a) (moveText b) :=
    pairs_moveText rfl h.symm
  have hback : Pairs strict raw id (x + a + textDisplacement text) (x + a + textDisplacement text)
      (x + textDisplacement text) (y + textDisplacement text) (moveText (-a)) (moveText (-b)) :=
    pairs_moveText (by grind) (by grind)
  rcases literalNode_cases text a with ⟨there, back, h₁, h₂, hl⟩ | ⟨count, hl⟩ <;> rw [hl]
  swap
  · trivial
  rcases literalNode_cases text b with ⟨there', back', h₁', h₂', hl'⟩ | ⟨count, hl'⟩ <;> rw [hl']
  swap
  · exact pairs_overlong _ count
  rw [h₁, h₁'] at hout
  rw [h₂, h₂'] at hback
  show Parallel strict raw x y (there ++ text ++ back) (there' ++ text ++ back') _ _
  rw [List.append_assoc, List.append_assoc]
  exact Parallel.append hout (.piece ht hback)

/-- A text written at another cell. -/
theorem pairs_there (op op' : MacroOp) {a b : Int64} (h : x + a = y + b)
    {e e' : Except ExpandError Bytes}
    (he : Pairs strict raw id (x + a) (x + a) (x + a) (x + a) e e') :
    Pairs strict raw Node.flatten x y x y
      (do
        let there ← goNode a
        let text ← e
        let back ← goNode (-a)
        return Node.tree op [there, .raw text, back])
      (do
        let there ← goNode b
        let text ← e'
        let back ← goNode (-b)
        return Node.tree op' [there, .raw text, back]) :=
  (pairs_out h).bind fun _ _ _ h₁ => he.bind fun _ _ _ h₂ =>
    (pairs_back h).bind fun _ _ _ h₃ =>
      h₁.nodes_cons (Parallel.nodes_cons h₂ (h₃.nodes_cons (.nil x y)))

/-- A count is made at one and the same cell. -/
theorem pairs_addNode {dst dst' : Int64} (h : x + dst = y + dst') (count : Int64) :
    Pairs strict raw Node.flatten x y x y (addNode dst count) (addNode dst' count) :=
  pairs_there _ _ h (pairs_countText count)

/-! ### Drains -/

/-- A move changes only the pointer. -/
theorem goNode_evaluates {delta : Int64} {node : Node} (h : goNode delta = .ok node) :
    Balanced node.flatten ∧ ∀ {eof : EofMode} {u v : Core},
      Evaluates eof node.flatten u v none →
        v = { u with pointer := v.pointer } ∧
          Int64.ofNat v.pointer = Int64.ofNat u.pointer + delta := by
  unfold goNode at h
  rcases moveText_paces delta with ⟨n, c, hc, hn, ht⟩ | ⟨_, ht⟩ <;> rw [ht] at h <;> cases h
  refine ⟨.of_plain fun b hb => ?_, fun he => ?_⟩
  · rw [List.eq_of_mem_replicate hb]
    exact Machine.ne_bracket hc (by decide) (by decide)
  · rw [← hn]
    exact he.moves hc

/-- A round that counts its cell down and then leaves it alone wanes. -/
theorem wanes_down {rest : Bytes} (h : ∀ {eof : EofMode} {u v : Core}, u.OnTape →
    Evaluates eof rest u v none → v.tape.get u.pointer = u.tape.get u.pointer) :
    Wanes (0x2D :: rest) := by
  intro eof u v hu he hp
  have hb := Core.byte_count (c := 0x2D) (by decide) eof u
  obtain ⟨u₁, h₁, ht⟩ | ⟨_, hs, -⟩ := he.cons_cases (by decide)
  swap
  · cases hs
  have hu₁ := hu.byte h₁
  rw [hb] at h₁
  cases h₁
  have hkept := h hu₁ ht
  refine .inr ?_
  rw [Core.current, hp]
  exact hkept.trans (by simp [Core.put, Tape.get_set])

theorem visits_nil_eq_ok {src pos : Int64} {nodes : List Node}
    (h : visits src pos [] = .ok nodes) :
    ∃ back, goNode (src - pos) = .ok back ∧ nodes = [back] := by
  rw [visits] at h
  cases hg : goNode (src - pos) with
  | error _ => rw [hg] at h; cases h
  | ok back => rw [hg] at h; cases h; exact ⟨back, rfl, rfl⟩

/-- A round that is written starts with its first visit. -/
theorem visits_cons_eq_ok {src pos : Int64} {t : Target} {rest : List Target} {nodes : List Node}
    (h : visits src pos (t :: rest) = .ok nodes) :
    ∃ there more, goNode (t.cell - pos) = .ok there ∧ visits src t.cell rest = .ok more ∧
      nodes = there :: .raw [t.change] :: more := by
  rw [visits] at h
  cases hg : goNode (t.cell - pos) with
  | error _ => rw [hg] at h; cases h
  | ok there =>
      cases hv : visits src t.cell rest with
      | error _ => rw [hg, hv] at h; cases h
      | ok more => rw [hg, hv] at h; cases h; exact ⟨there, more, rfl, rfl, rfl⟩

/-- The rounds of a drain count away from its source, which is the cell `q`. -/
theorem visits_keeps {src pos : Int64} {targets : List Target} (hc : Target.Counting targets)
    (hn : ∀ t ∈ targets, t.cell ≠ src) {nodes : List Node} (h : visits src pos targets = .ok nodes)
    {eof : EofMode} {u v : Core} (he : Evaluates eof (Node.flattenAll nodes) u v none)
    {q : Nat} (hq : Int64.ofNat u.pointer = Int64.ofNat q + (pos - src)) :
    v.tape.get q = u.tape.get q := by
  induction targets generalizing pos nodes u with
  | nil =>
      obtain ⟨back, hg, rfl⟩ := visits_nil_eq_ok h
      rw [Node.flattenAll, Node.flattenAll, List.append_nil] at he
      rw [((goNode_evaluates hg).2 he).1]
  | cons t rest ih =>
      obtain ⟨there, more, hg, hv, rfl⟩ := visits_cons_eq_ok h
      obtain ⟨hbal, hgo⟩ := goNode_evaluates hg
      have hcount : t.change ∈ [0x2B, 0x2D] := by
        rcases hc t List.mem_cons_self with h | h <;> simp [h]
      obtain ⟨hopen, -⟩ := Machine.ne_bracket hcount (by decide) (by decide)
      obtain ⟨u₁, h₁, he₁⟩ | ⟨_, hs, -⟩ := Evaluates.split hbal he
      swap
      · cases hs
      obtain ⟨u₂, h₂, he₂⟩ | ⟨_, hs, -⟩ := Evaluates.cons_cases hopen he₁
      swap
      · cases hs
      obtain ⟨hu₁, hp₁⟩ := hgo h₁
      rw [Core.byte_count hcount] at h₂
      cases h₂
      -- the target is another cell than the source, however the offsets wrap
      have hne : q ≠ u₁.pointer := by
        rintro rfl
        have := hn t List.mem_cons_self
        grind
      have hq₁ : Int64.ofNat u₁.pointer = Int64.ofNat q + (t.cell - src) := by
        rw [hp₁, hq]
        grind
      have hkept := ih (fun w hw => hc w (List.mem_cons_of_mem _ hw))
        (fun w hw => hn w (List.mem_cons_of_mem _ hw)) hv he₂ hq₁
      rw [hkept, Core.put, Tape.get_set, if_neg hne, hu₁]

/-- Two targets at one cell that change it alike. -/
def Target.Same (x y : Int64) (t t' : Target) : Prop :=
  x + t.cell = y + t'.cell ∧ t.change = t'.change

/-- Rounds visit the same cells in the same order. -/
theorem pairs_visits {src src' pos pos' : Int64} (hs : x + src = y + src')
    (hp : x + pos = y + pos') {targets targets' : List Target} (hc : Target.Counting targets)
    (ht : List.Forall₂ (Target.Same x y) targets targets') :
    Pairs strict raw Node.flattenAll (x + pos) (x + pos) (x + src) (x + src)
      (visits src pos targets) (visits src' pos' targets') := by
  induction ht generalizing pos pos' with
  | nil =>
      have hback : Pairs strict raw Node.flatten (x + pos) (x + pos) (x + src) (x + src)
          (goNode (src - pos)) (goNode (src' - pos')) := pairs_goNode (by grind) (by grind)
      exact hback.bind fun _ _ _ h => h.nodes_cons (.nil _ _)
  | @cons t t' rest rest' hcell _ ih =>
      obtain ⟨hcell, hchange⟩ := hcell
      have hcount : t.change ∈ [0x2B, 0x2D] := by
        rcases hc t List.mem_cons_self with h | h <;> simp [h]
      have hout : Pairs strict raw Node.flatten (x + pos) (x + pos) (x + t.cell) (x + t.cell)
          (goNode (t.cell - pos)) (goNode (t'.cell - pos')) := pairs_goNode (by grind) (by grind)
      refine hout.bind fun _ _ _ h₁ =>
        (ih hcell fun w hw => hc w (List.mem_cons_of_mem _ hw)).bind fun _ _ _ h₂ => ?_
      refine h₁.nodes_cons ?_
      show Parallel strict raw _ _ (t.change :: _) (t'.change :: _) _ _
      rw [← hchange]
      exact .both hcount h₂

/-- A drain counts its source down, so that a round that comes back has made it less. -/
theorem pairs_drain {src src' : Int64} (hs : x + src = y + src') {targets targets' : List Target}
    (hc : Target.Counting targets) (ht : List.Forall₂ (Target.Same x y) targets targets')
    (hn : strict → ∀ t ∈ targets, t.cell ≠ src) :
    Pairs strict raw Node.flattenAll x y (x + src) (x + src) (drain src targets)
      (drain src' targets') := by
  refine (pairs_out hs).bind fun there there' _ h₁ =>
    (pairs_visits hs hs hc ht).bind fun round round' hround h₂ => ?_
  have hw : strict → Wanes (0x2D :: Node.flattenAll round) := fun hst =>
    wanes_down fun _ he => visits_keeps hc (hn hst) hround he (by grind)
  show Parallel strict raw _ _ (Node.flattenAll _) (Node.flattenAll _) _ _
  rw [Node.flattenAll_drain, Node.flattenAll_drain]
  exact h₁.append (.loop hw (.both (by decide) h₂) (.nil _ _))

theorem pairs_drain_back (op op' : MacroOp) {src src' : Int64} (hs : x + src = y + src')
    {targets targets' : List Target} (hc : Target.Counting targets)
    (ht : List.Forall₂ (Target.Same x y) targets targets')
    (hn : strict → ∀ t ∈ targets, t.cell ≠ src) :
    Pairs strict raw Node.flatten x y x y
      (do
        let loop ← drain src targets
        let back ← goNode (-src)
        return Node.tree op (loop ++ [back]))
      (do
        let loop ← drain src' targets'
        let back ← goNode (-src')
        return Node.tree op' (loop ++ [back])) :=
  (pairs_drain hs hc ht hn).bind fun _ _ _ h₁ => (pairs_back hs).bind fun _ _ _ h₂ =>
    h₁.nodes_append (h₂.nodes_cons (.nil x y))

section

variable {dst dst' src src' work work' : Int64} (hd : x + dst = y + dst')
  (hs : x + src = y + src') (hw : x + work = y + work')

include hd hs

theorem pairs_moveNode (hn : strict → dst ≠ src) :
    Pairs strict raw Node.flatten x y x y (moveNode dst src) (moveNode dst' src') :=
  pairs_drain_back _ _ hs (by simp [Target.Counting]) (.cons ⟨hd, rfl⟩ .nil) (by simpa using hn)

theorem pairs_unmoveNode (hn : strict → dst ≠ src) :
    Pairs strict raw Node.flatten x y x y (unmoveNode dst src) (unmoveNode dst' src') :=
  pairs_drain_back _ _ hs (by simp [Target.Counting]) (.cons ⟨hd, rfl⟩ .nil) (by simpa using hn)

include hw

/-- The second drain of a copy counts from the source, and is at one cell all the same. -/
theorem pairs_copyNode (hn : strict → dst ≠ src ∧ work ≠ src) :
    Pairs strict raw Node.flatten x y x y (copyNode dst src work) (copyNode dst' src' work') := by
  have hrestore : Pairs strict raw Node.flatten (x + src) (x + src) (x + src) (x + src)
      (moveNode 0 (work - src)) (moveNode 0 (work' - src')) :=
    pairs_moveNode rfl (by grind) fun hst => by grind
  have hloop : Pairs strict raw Node.flattenAll x y (x + src) (x + src)
      (drain src [⟨work, 0x2B⟩, ⟨dst, 0x2B⟩]) (drain src' [⟨work', 0x2B⟩, ⟨dst', 0x2B⟩]) :=
    pairs_drain hs (by simp [Target.Counting]) (.cons ⟨hw, rfl⟩ (.cons ⟨hd, rfl⟩ .nil))
      fun hst => by simp [hn hst]
  exact hloop.bind fun _ _ _ h₁ => hrestore.bind fun _ _ _ h₂ =>
    (pairs_back hs).bind fun _ _ _ h₃ =>
      h₁.nodes_append (h₂.nodes_cons (h₃.nodes_cons (.nil x y)))

end

/-- The loop that clears a cell counts it down. -/
theorem pairs_zeroNode {dst dst' : Int64} (h : x + dst = y + dst') :
    Pairs strict raw Node.flatten x y x y (zeroNode dst) (zeroNode dst') := by
  have hclear : Parallel strict raw (x + dst) (x + dst) (Bytes.ascii "[-]") (Bytes.ascii "[-]")
      (x + dst) (x + dst) :=
    .loop (fun _ => wanes_down fun _ h => by cases h; rfl) (.both (by decide) (.nil _ _)) (.nil _ _)
  exact pairs_there _ _ h (show Pairs strict raw id _ _ _ _ (.ok _) (.ok _) from hclear)

/-! ### Conditions -/

/-- A round that ends by clearing its cell wanes. -/
theorem wanes_clear {inner : Bytes} (hb : Balanced inner) :
    Wanes (inner ++ [0x5B, 0x2D, 0x5D]) := by
  intro eof u v _ he _
  obtain ⟨u₁, -, h⟩ | ⟨_, hs, -⟩ := Evaluates.split hb he
  · have hdown : Balanced [0x2D] := .instr (by decide) (by decide) .nil
    exact .inl (Evaluates.current_eq_zero hdown h)
  · cases hs

/-- At the cell itself, nothing but the loop is written. -/
theorem zeroNode_zero : ∃ clear, zeroNode 0 = .ok clear ∧ clear.flatten = [0x5B, 0x2D, 0x5D] :=
  ⟨_, rfl, rfl⟩

section

variable (hraw : strict → ∀ text, raw text → Balanced text) {src src' : Int64}
  (hs : x + src = y + src') {body body' : List MacroOp}
  (hb : displacement body = displacement body')
  {inner inner' : Unit → Except ExpandError (List Node)}
  (hi : displacement body = 0 →
    Pairs strict raw Node.flattenAll (x + src) (x + src) (x + src) (x + src) (inner ()) (inner' ()))

include hs hb hi

include hraw in
/-- A condition clears the cell it tests at the end of its round. -/
theorem pairs_condNode :
    Pairs strict raw Node.flatten x y x y (condNode src body inner)
      (condNode src' body' inner') := by
  unfold condNode
  by_cases hz : displacement body = 0
  swap
  · rw [if_pos hz, if_pos (hb ▸ hz)]
    rfl
  rw [if_neg (not_not.mpr hz), if_neg (not_not.mpr (hb ▸ hz))]
  have hzero : Pairs strict raw Node.flatten (x + src) (x + src) (x + src) (x + src) (zeroNode 0)
      (zeroNode 0) := pairs_zeroNode rfl
  refine (pairs_out hs).bind fun there there' _ h₁ => (hi hz).bind fun nodes nodes' _ h₂ =>
    hzero.bind fun clear clear' hclear h₃ => (pairs_back hs).bind fun back back' _ h₄ => ?_
  have hflat : Node.flattenAll (nodes ++ [clear]) =
      Node.flattenAll nodes ++ [0x5B, 0x2D, 0x5D] := by
    obtain ⟨_, hc, hf⟩ := zeroNode_zero
    rw [hclear] at hc
    cases hc
    rw [Node.flattenAll_concat, hf]
  have hw : strict → Wanes (Node.flattenAll (nodes ++ [clear])) := fun hst =>
    hflat ▸ wanes_clear (h₂.balanced (hraw hst)).1
  have hround : Parallel strict raw (x + src) (x + src) (Node.flattenAll (nodes ++ [clear]))
      (Node.flattenAll (nodes' ++ [clear'])) (x + src) (x + src) :=
    h₂.nodes_append (h₃.nodes_cons (.nil _ _))
  have hback : Parallel strict raw (x + src) (x + src) (Node.flattenAll [back])
      (Node.flattenAll [back']) x y := h₄.nodes_cons (.nil _ _)
  have hloop := hround.nodes_loop hw hback
  rw [List.append_assoc, List.append_assoc] at hloop
  exact h₁.nodes_cons hloop

/-- A loop may do anything with the cell it tests. -/
theorem pairs_loopNode (hl : ¬ strict) :
    Pairs strict raw Node.flatten x y x y (loopNode src body inner)
      (loopNode src' body' inner') := by
  unfold loopNode
  by_cases hz : displacement body = 0
  swap
  · rw [if_pos hz, if_pos (hb ▸ hz)]
    rfl
  rw [if_neg (not_not.mpr hz), if_neg (not_not.mpr (hb ▸ hz))]
  exact (pairs_out hs).bind fun _ _ _ h₁ => (hi hz).bind fun _ _ _ h₂ =>
    (pairs_back hs).bind fun _ _ _ h₃ =>
      h₁.nodes_cons (h₂.nodes_loop (fun hst => absurd hst hl) (h₃.nodes_cons (.nil x y)))

end

section

variable (hraw : strict → ∀ text, raw text → Balanced text) {dst dst' src src' work work' : Int64}
  (hd : x + dst = y + dst') (hs : x + src = y + src') (hw : x + work = y + work')
  {srcs srcs' : List Int64} (hss : List.Forall₂ (fun a b => x + a = y + b) srcs srcs')

include hraw hd

include hs in
theorem pairs_condAddNode (count : Int64) :
    Pairs strict raw Node.flatten x y x y (condAddNode src dst count)
      (condAddNode src' dst' count) := by
  have hb : displacement [.add dst count] = displacement [.add dst' count] := rfl
  refine pairs_condNode hraw hs hb fun _ => ?_
  have hadd : Pairs strict raw Node.flatten (x + src) (x + src) (x + src) (x + src)
      (addNode (dst - src) count) (addNode (dst' - src') count) := pairs_addNode (by grind) count
  exact hadd.bind fun _ _ _ h => h.nodes_cons (.nil _ _)

include hss in
/-- One condition after another. -/
theorem pairs_condAddNodes (count : Int64) :
    Pairs strict raw Node.flattenAll x y x y (condAddNodes dst count srcs)
      (condAddNodes dst' count srcs') := by
  induction hss with
  | nil => exact .nil x y
  | cons hs _ ih =>
      exact (pairs_condAddNode hraw hd hs count).bind fun _ _ _ h₁ => ih.bind fun _ _ _ h₂ =>
        h₁.nodes_cons h₂

include hs in
theorem pairs_isZeroNode (negated : Bool) :
    Pairs strict raw Node.flatten x y x y (isZeroNode dst src negated)
      (isZeroNode dst' src' negated) := by
  have hchildren : Pairs strict raw Node.flattenAll x y x y (isZeroChildren dst src negated)
      (isZeroChildren dst' src' negated) := by
    unfold isZeroChildren
    split_ifs
    · exact (pairs_condAddNode hraw hd hs 1).bind fun _ _ _ h => h.nodes_cons (.nil x y)
    · exact (pairs_addNode hd 1).bind fun _ _ _ h₁ =>
        (pairs_condAddNode hraw hd hs (-1)).bind fun _ _ _ h₂ =>
          h₁.nodes_cons (h₂.nodes_cons (.nil x y))
  exact hchildren.bind fun _ _ _ h => h

include hs in
/-- Tests of both sides are refused alike, for the number of their work cells. -/
theorem pairs_testNode (negated : Bool) {preserve preserve' : List Int64}
    (hp : List.Forall₂ (fun a b => x + a = y + b) preserve preserve')
    (hn : strict → (src :: preserve).Nodup) :
    Pairs strict raw Node.flatten x y x y (testNode dst src negated preserve)
      (testNode dst' src' negated preserve') := by
  match hp with
  | .nil => exact pairs_isZeroNode hraw hd hs negated
  | .cons hspare (.cons hwork .nil) =>
      exact (pairs_copyNode hspare hs hwork fun hst => by grind).bind fun _ _ _ h₁ =>
        (pairs_isZeroNode hraw hd hspare negated).bind fun _ _ _ h₂ =>
          h₁.nodes_cons (h₂.nodes_cons (.nil x y))
  | .cons _ .nil | .cons _ (.cons _ (.cons _ _)) => rfl

include hw hss in
/-- Conjunctions of both sides have as many sources. -/
theorem pairs_andNode :
    Pairs strict raw Node.flatten x y x y (andNode dst srcs work) (andNode dst' srcs' work') := by
  have hempty : srcs.isEmpty = srcs'.isEmpty := by cases hss <;> rfl
  unfold andNode
  rw [← hempty, ← hss.length_eq]
  split_ifs
  · rfl
  · exact (pairs_addNode hw _).bind fun _ _ _ h₁ =>
      (pairs_condAddNodes hraw hw hss (-1)).bind fun _ _ _ h₂ =>
        (pairs_isZeroNode hraw hd hw false).bind fun _ _ _ h₃ =>
          h₁.nodes_cons (h₂.nodes_append (h₃.nodes_cons (.nil x y)))

include hss in
theorem pairs_orNode :
    Pairs strict raw Node.flatten x y x y (orNode dst srcs) (orNode dst' srcs') := by
  have hempty : srcs.isEmpty = srcs'.isEmpty := by cases hss <;> rfl
  unfold orNode
  rw [← hempty]
  split_ifs
  · rfl
  · exact (pairs_condAddNodes hraw hd hss 1).bind fun _ _ _ h => h

include hw hss in
/-- One toggle after another. -/
theorem pairs_toggleNodes (hn : strict → dst ≠ work) :
    Pairs strict raw Node.flattenAll x y x y (toggleNodes dst work srcs)
      (toggleNodes dst' work' srcs') := by
  induction hss with
  | nil => exact .nil x y
  | @cons src src' rest rest' hs _ ih =>
      have hpark : Pairs strict raw Node.flatten (x + src) (x + src) (x + src) (x + src)
          (moveNode (work - src) (dst - src)) (moveNode (work' - src') (dst' - src')) :=
        pairs_moveNode (by grind) (by grind) fun hst => by grind
      have htest : Pairs strict raw Node.flatten (x + src) (x + src) (x + src) (x + src)
          (isZeroNode (dst - src) (work - src) false)
          (isZeroNode (dst' - src') (work' - src') false) :=
        pairs_isZeroNode hraw (by grind) (by grind) false
      have hb : displacement (toggle dst work) = displacement (toggle dst' work') := rfl
      refine (pairs_condNode hraw hs hb fun _ => ?_).bind fun _ _ _ h₁ => ih.bind fun _ _ _ h₂ =>
        h₁.nodes_cons h₂
      exact hpark.bind fun _ _ _ h₁ => htest.bind fun _ _ _ h₂ =>
        h₁.nodes_cons (h₂.nodes_cons (.nil _ _))

include hw hss in
theorem pairs_xorNode (hn : strict → dst ≠ work) :
    Pairs strict raw Node.flatten x y x y (xorNode dst srcs work) (xorNode dst' srcs' work') := by
  unfold xorNode
  rw [← hss.length_eq]
  split_ifs
  · rfl
  · exact (pairs_toggleNodes hraw hd hw hss hn).bind fun _ _ _ h => h

/-- Comparisons of both sides are refused alike. -/
theorem pairs_isEqNode {first first' second second' : Int64} (hf : x + first = y + first')
    (hsec : x + second = y + second') {works works' : List Int64}
    (hws : List.Forall₂ (fun a b => x + a = y + b) works works')
    (hn : strict → (first :: second :: works).Nodup) :
    Pairs strict raw Node.flatten x y x y (isEqNode dst first second works)
      (isEqNode dst' first' second' works') := by
  match hws with
  | .nil =>
      exact (pairs_unmoveNode hf hsec fun hst => by grind).bind fun _ _ _ h₁ =>
        (pairs_isZeroNode hraw hd hf false).bind fun _ _ _ h₂ =>
          h₁.nodes_cons (h₂.nodes_cons (.nil x y))
  | @List.Forall₂.cons _ _ _ spare spare' _ _ hspare
      (@List.Forall₂.cons _ _ _ work work' _ _ hwork .nil) =>
      have hdrain : Pairs strict raw Node.flattenAll x y (x + second) (x + second)
          (drain second [⟨spare, 0x2D⟩, ⟨work, 0x2B⟩])
          (drain second' [⟨spare', 0x2D⟩, ⟨work', 0x2B⟩]) :=
        pairs_drain hsec (by simp [Target.Counting])
          (.cons ⟨hspare, rfl⟩ (.cons ⟨hwork, rfl⟩ .nil)) fun hst => by grind
      exact (pairs_copyNode hspare hf hwork fun hst => by grind).bind fun _ _ _ h₁ =>
        hdrain.bind fun _ _ _ h₂ => (pairs_back hsec).bind fun _ _ _ h₃ =>
          (pairs_moveNode hsec hwork fun hst => by grind).bind fun _ _ _ h₄ =>
            (pairs_isZeroNode hraw hd hspare false).bind fun _ _ _ h₅ =>
              h₁.nodes_cons (h₂.nodes_append
                (h₃.nodes_cons (h₄.nodes_cons (h₅.nodes_cons (.nil x y)))))
  | .cons _ .nil | .cons _ (.cons _ (.cons _ _)) => rfl

end

/-! ### All operations -/

/-- Among these operations raw text has the property `raw`, and there is no loop if `strict`
holds. -/
structure Held (strict : Prop) (raw : Bytes → Prop) (parts : List MacroOp) : Prop where
  text : ∀ text shifted, .literal text shifted ∈ parts → raw text
  loopless : strict → ∀ src body, .loop src body ∉ parts

/-- What holds of all parts holds of some. -/
theorem Held.mono {parts parts' : List MacroOp} (h : Held strict raw parts)
    (hs : parts' ⊆ parts) : Held strict raw parts' :=
  ⟨fun text shifted hm => h.text text shifted (hs hm),
    fun hst src body hm => h.loopless hst src body (hs hm)⟩

/-- Cells shifted to two places are the same, seen from there. -/
theorem same_shiftCells {d e : Int64} (h : x + d = y + e) (cells : List Int64) :
    List.Forall₂ (fun a b => x + a = y + b) (shiftCells d cells) (shiftCells e cells) := by
  induction cells with
  | nil => exact .nil
  | cons c rest ih => exact .cons (by grind) ih

/-- An operation without net movement. -/
theorem Pairs.still {op : MacroOp} {a b : Except ExpandError Node}
    (h : Pairs strict raw Node.flatten x y x y a b) (hm : op.moved = 0) :
    Pairs strict raw Node.flatten x y (x + op.moved) (y + op.moved) a b := by
  rwa [hm, Int64.add_zero, Int64.add_zero]

mutual

/-- **An operation expanded at two offsets** is refused for the same fault, or written as parallel
texts that move the pointer by its net movement. -/
theorem pairs_expandAt (hraw : strict → ∀ text, raw text → Balanced text) {d e : Int64} :
    ∀ {x y : Int64} {op : MacroOp}, x + d = y + e → Held strict raw op.parts →
      (strict → op.Proper) →
      Pairs strict raw Node.flatten x y (x + op.moved) (y + op.moved) (expandAt d op)
        (expandAt e op)
  | x, y, .go delta, _, _, _ => pairs_goNode rfl rfl
  | x, y, .add dst count, h, _, _ => (pairs_addNode (by grind) count).still rfl
  | x, y, .move dst src, h, _, hp =>
      (pairs_moveNode (by grind) (by grind) fun hst => proper_shift d (hp hst)).still rfl
  | x, y, .unmove dst src, h, _, hp =>
      (pairs_unmoveNode (by grind) (by grind) fun hst => proper_shift d (hp hst)).still rfl
  | x, y, .zero dst, h, _, _ => (pairs_zeroNode (by grind)).still rfl
  | x, y, .copy dst src work, h, _, hp => by
      refine (pairs_copyNode (by grind) (by grind) (by grind) fun hst => ?_).still rfl
      have := proper_shift d (hp hst)
      simp only [shift, Proper] at this
      grind
  | x, y, .isZero dst src negated preserve, h, _, hp =>
      (pairs_testNode hraw (by grind) (by grind) negated (same_shiftCells h preserve) fun hst =>
        (List.nodup_cons.mp (proper_shift d (hp hst)).2).2).still rfl
  | x, y, .and dst srcs work, h, _, _ =>
      (pairs_andNode hraw (by grind) (by grind) (same_shiftCells h srcs)).still rfl
  | x, y, .or dst srcs, h, _, _ =>
      (pairs_orNode hraw (by grind) (same_shiftCells h srcs)).still rfl
  | x, y, .xor dst srcs work, h, _, hp => by
      refine (pairs_xorNode hraw (by grind) (by grind) (same_shiftCells h srcs) fun hst => ?_).still
        rfl
      have := (List.nodup_cons.mp (proper_shift d (hp hst)).2).1
      exact fun he => this (he ▸ List.mem_cons_self)
  | x, y, .isEq dst first second works, h, _, hp =>
      (pairs_isEqNode hraw (by grind) (by grind) (by grind) (same_shiftCells h works) fun hst =>
        (List.nodup_cons.mp (proper_shift d (hp hst)).2).2).still rfl
  | x, y, .cond src body, h, hh, hp => by
      rw [expandAt, expandAt]
      refine (pairs_condNode hraw (by grind) (by simp only [displacement_shiftAll])
        fun hz => ?_).still rfl
      rw [displacement_shiftAll] at hz
      simpa [hz] using pairs_expandAllAt hraw rfl (hh.mono (List.subset_cons_self ..)) fun hst =>
        (hp hst).2
  | x, y, .loop src body, h, hh, hp => by
      rw [expandAt, expandAt]
      refine (pairs_loopNode (by grind) (by simp only [displacement_shiftAll]) (fun hz => ?_)
        fun hst => hh.loopless hst src body List.mem_cons_self).still rfl
      rw [displacement_shiftAll] at hz
      simpa [hz] using pairs_expandAllAt hraw rfl (hh.mono (List.subset_cons_self ..)) fun hst =>
        (hp hst).2
  | x, y, .branch src work whenTrue whenFalse, h, hh, hp => by
      rw [expandAt, expandAt]
      have hbodies := hh.mono (List.subset_cons_self ..)
      have hinner : ∀ (z c : Int64), displacement whenTrue = 0 →
          Pairs strict raw Node.flattenAll z z z z (expandAllAt c whenTrue)
            (expandAllAt c whenTrue) := fun z c hz => by
        simpa [hz] using pairs_expandAllAt hraw rfl (hbodies.mono (List.subset_append_left ..))
          fun hst => (hp hst).2.1.2
      have hother : ∀ (z c : Int64), displacement whenFalse = 0 →
          Pairs strict raw Node.flattenAll z z z z (expandAllAt c whenFalse)
            (expandAllAt c whenFalse) := fun z c hz => by
        simpa [hz] using pairs_expandAllAt hraw rfl (hbodies.mono (List.subset_append_right ..))
          fun hst => (hp hst).2.2.2
      refine Pairs.still ?_ rfl
      refine (pairs_addNode (by grind) 1).bind fun _ _ _ h₁ =>
        (pairs_condNode hraw (by grind) (by simp only [displacement_taken]) fun hz => ?_).bind
          fun _ _ _ h₂ => (pairs_condNode hraw (by grind) (by simp only [displacement_shiftAll])
            fun hz => hother _ _ ((displacement_shiftAll ..).symm.trans hz)).bind fun _ _ _ h₃ =>
              h₁.nodes_cons (h₂.nodes_cons (h₃.nodes_cons (.nil x y)))
      exact (hinner _ _ ((displacement_taken ..).symm.trans hz)).bind fun _ _ _ h₁ =>
        (pairs_addNode rfl (-1)).bind fun _ _ _ h₂ =>
          h₁.nodes_append (h₂.nodes_cons (.nil _ _))
  | x, y, .literal text shifted, h, hh, _ =>
      pairs_literalNode (hh.text text shifted List.mem_cons_self) (by grind)
  | x, y, .control instr, _, _, _ => rfl

/-- So it is with operations in sequence, each from where the one before has led. -/
theorem pairs_expandAllAt (hraw : strict → ∀ text, raw text → Balanced text) {d e : Int64} :
    ∀ {x y : Int64} {ops : List MacroOp}, x + d = y + e → Held strict raw (partsAll ops) →
      (strict → ProperAll ops) →
      Pairs strict raw Node.flattenAll x y (x + displacement ops) (y + displacement ops)
        (expandAllAt d ops) (expandAllAt e ops)
  | x, y, [], _, _, _ => by
      rw [displacement, Int64.add_zero, Int64.add_zero]
      exact .nil x y
  | x, y, op :: rest, h, hh, hp => by
      have hop := pairs_expandAt hraw h (hh.mono (List.subset_append_left ..)) fun hst => (hp hst).1
      have hrest : Pairs strict raw Node.flattenAll (x + op.moved) (y + op.moved)
          (x + displacement (op :: rest)) (y + displacement (op :: rest)) (expandAllAt d rest)
          (expandAllAt e rest) := by
        rw [displacement, ← Int64.add_assoc, ← Int64.add_assoc]
        exact pairs_expandAllAt hraw (by grind) (hh.mono (List.subset_append_right ..))
          fun hst => (hp hst).2
      exact hop.bind fun _ _ _ h₁ => hrest.bind fun _ _ _ h₂ => h₁.nodes_cons h₂

end

/-- **The text of operations is parallel to itself**: every loop in it comes back to where it
starts. -/
theorem parallel_expandAll (hraw : strict → ∀ text, raw text → Balanced text)
    {ops : List MacroOp} (hh : Held strict raw (partsAll ops)) (hp : strict → ProperAll ops)
    {nodes : List Node} (h : expandAll ops = .ok nodes) (x : Int64) :
    Parallel strict raw x x (Node.flattenAll nodes) (Node.flattenAll nodes)
      (x + displacement ops) (x + displacement ops) := by
  have hself : Pairs strict raw Node.flattenAll x x (x + displacement ops) (x + displacement ops)
      (expandAll ops) (expandAll ops) := pairs_expandAllAt hraw rfl hh hp
  rw [h] at hself
  exact hself

end

end MacroOp

end StackTape
