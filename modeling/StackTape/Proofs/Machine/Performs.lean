import StackTape.Proofs.Machine.Shows

/-!
# Pieces of text that perform an action

`Performs eof fuel seg act`: wherever the balanced piece `seg` stands in a text, a machine at its
start that shows a view `v` goes on to its end and shows what `act v` says, unless the pointer
leaves the tape on the way.  Where the action runs out of fuel the machine has taken at least as
many steps and has read and written what the action has.

The rules follow the text: a sequence (`Performs.append`), text without brackets
(`Performs.bytes`), and a pair of brackets as a loop (`Performs.loop`), as a condition
(`Performs.once`) or as a loop that is known to end (`Performs.total`).  `Performs.meets` replaces
an action by one that promises less.
-/

namespace StackTape

/-- What `y` promises, `x` keeps: nothing where `y` is stuck, and only what was read and written
where the fuel ran out. -/
def Ending.Meets : Ending → Ending → Prop
  | _, .stuck => True
  | .done v, .done w => v = w
  | .more v, .more w => v.input = w.input ∧ v.output = w.output
  | _, _ => False

theorem Ending.Meets.of_eq {x y : Ending} (h : x = y) : x.Meets y := by
  subst h
  cases x with
  | done v => exact rfl
  | more v => exact ⟨rfl, rfl⟩
  | stuck => trivial

theorem Ending.meets_stuck (x : Ending) : x.Meets .stuck := by
  cases x <;> trivial

namespace Machine

/-- The machine goes on from `ip` to `target` as an outcome says. -/
def Reaches (s : Setting) (fuel ip : Nat) (m : Machine) (target : Nat) : Ending → Prop
  | .done v =>
    ∃ n m', Steps s.options s.text n ip m target m' ∧ Shows s m' v ∧ m'.loops = m.loops
  | .more v =>
    ∃ n ip' m', fuel ≤ n ∧ Steps s.options s.text n ip m ip' m' ∧
      m'.input.remaining = v.input ∧ m'.output = s.sink.after v.output
  | .stuck => True

theorem Reaches.meets {s : Setting} {fuel ip target : Nat} {m : Machine} {x y : Ending}
    (h : Reaches s fuel ip m target x) (hm : x.Meets y) : Reaches s fuel ip m target y := by
  match x, y with
  | _, .stuck => trivial
  | .done v, .done w => cases hm; exact h
  | .more v, .more w =>
      obtain ⟨n, ip', m', hn, hs, hi, ho⟩ := h
      exact ⟨n, ip', m', hn, hs, hi.trans hm.1, ho.trans (congrArg _ hm.2)⟩
  | .done _, .more _ | .more _, .done _ | .stuck, .done _ | .stuck, .more _ => exact hm.elim

/-- Steps before the machine goes on. -/
theorem Reaches.prepend {s : Setting} {a b k ip ip₁ target : Nat} {m m₁ : Machine} {x : Ending}
    (hs : Steps s.options s.text k ip m ip₁ m₁) (hl : m₁.loops = m.loops)
    (h : Reaches s a ip₁ m₁ target x) (hab : b ≤ k + a) : Reaches s b ip m target x := by
  match x with
  | .done v =>
      obtain ⟨n, m', ht, hm, hl'⟩ := h
      exact ⟨k + n, m', hs.trans ht, hm, hl'.trans hl⟩
  | .more v =>
      obtain ⟨n, ip', m', hn, ht, hi, ho⟩ := h
      exact ⟨k + n, ip', m', by omega, hs.trans ht, hi, ho⟩
  | .stuck => trivial

/-- A piece of text performs an action. -/
structure Performs (eof : EofMode) (fuel : Nat) (seg : Bytes) (act : View → Ending) : Prop where
  balanced : Balanced seg
  reaches {s : Setting} {ip : Nat} {m : Machine} {v : View} (he : s.options.eof = eof)
    (hh : Holds s.text ip seg) (hm : Shows s m v) (hsafe : Safe s.options s.text ip m) :
    Reaches s fuel ip m (ip + seg.length) (act v)

namespace Performs

variable {eof : EofMode} {fuel : Nat} {seg seg' body : Bytes} {f g : View → Ending}

/-! ### Sequences -/

theorem meets (h : Performs eof fuel seg f) (hfg : ∀ v, (f v).Meets (g v)) :
    Performs eof fuel seg g :=
  ⟨h.balanced, fun he hh hm hsafe => (h.reaches he hh hm hsafe).meets (hfg _)⟩

theorem congr (h : Performs eof fuel seg f) (hfg : ∀ v, f v = g v) : Performs eof fuel seg g :=
  h.meets fun v => .of_eq (hfg v)

theorem nil : Performs eof fuel [] .done :=
  ⟨.nil, fun {_ ip m _} _ _ hm _ => ⟨0, m, .refl ip m, hm, rfl⟩⟩

theorem append (h : Performs eof fuel seg f) (h' : Performs eof fuel seg' g) :
    Performs eof fuel (seg ++ seg') fun v => (f v).bind g := by
  refine ⟨h.balanced.append h'.balanced, fun {s ip m v} he hh hm hsafe => ?_⟩
  obtain ⟨hh₁, hh₂⟩ := holds_append_iff.mp hh
  have h₁ := h.reaches he hh₁ hm hsafe
  rw [List.length_append, ← Nat.add_assoc]
  cases hf : f v with
  | done u =>
      rw [hf] at h₁
      obtain ⟨n, m₁, hs, hm₁, hl⟩ := h₁
      exact (h'.reaches he hh₂ hm₁ (hsafe.steps hs)).prepend hs hl (Nat.le_add_left _ _)
  | more u => rw [hf] at h₁; exact h₁
  | stuck => trivial

/-- Text without brackets. -/
theorem bytes (ht : seg.all MacroOp.isTapeByte) (hb : seg.any MacroOp.isBracket = false) :
    Performs eof fuel seg fun v => .done (v.bytes eof seg) := by
  simp only [List.all_eq_true] at ht
  simp only [List.any_eq_false, Bool.not_eq_true] at hb
  refine ⟨.of_plain fun c hc => ?_, fun {s ip m v} he hh hm hsafe => ?_⟩
  · have := hb c hc
    simpa [MacroOp.isBracket] using this
  · induction seg generalizing ip m v with
    | nil => exact ⟨0, m, .refl ip m, hm, rfl⟩
    | cons c rest ih =>
        obtain ⟨⟨hip, hc⟩, hrest⟩ := holds_cons_iff.mp hh
        obtain ⟨m₁, ha, hm₁, hl⟩ :=
          hm.advance_byte hip hc (ht c (by simp)) (hb c (by simp)) hsafe.here
        have hr := ih (fun d hd => ht d (by simp [hd])) (fun d hd => hb d (by simp [hd])) hrest hm₁
          (hsafe.steps (.one ha))
        rw [List.length_cons, Nat.add_comm rest.length, ← Nat.add_assoc]
        rw [he] at hr
        exact hr.prepend (.one ha) hl (Nat.le_add_left _ _)

/-! ### Brackets -/

section

variable {s : Setting} {ip : Nat} {m : Machine} {v : View}

/-- One round of a loop comes back to its `[`. -/
theorem round (h : Performs eof fuel body f) (he : s.options.eof = eof)
    (hh : Holds s.text ip (0x5B :: (body ++ [0x5D]))) (hm : Shows s m v)
    (hsafe : Safe s.options s.text ip m) (hv : v.get 0 ≠ 0) :
    (∀ u, f v = .done u → ∃ n m', Steps s.options s.text (n + 1) ip m ip m' ∧ Shows s m' u ∧
      m'.loops = m.loops) ∧
    ∀ u target, f v = .more u → Reaches s fuel ip m target (.more u) := by
  obtain ⟨⟨hip, hc⟩, hh⟩ := holds_cons_iff.mp hh
  obtain ⟨hbody, hh⟩ := holds_append_iff.mp hh
  obtain ⟨⟨hj, hd⟩, -⟩ := holds_cons_iff.mp hh
  obtain ⟨m₁, ha, hm₁, hl₁⟩ := hm.enter hip hc hv
  have hr := h.reaches he hbody hm₁ (hsafe.steps (.one ha))
  constructor
  · intro u hu
    rw [hu] at hr
    obtain ⟨n, m₂, hs, hm₂, hl₂⟩ := hr
    obtain ⟨m₃, hb, hm₃, hl₃⟩ := hm₂.back hj hd (hl₂.trans hl₁)
    exact ⟨n + 1, m₃, .more ha (hs.trans (.one hb)), hm₃, hl₃⟩
  · intro u target hu
    rw [hu] at hr
    obtain ⟨n, ip', m', hn, hs, hi, ho⟩ := hr
    exact ⟨n + 1, ip', m', by omega, .more ha hs, hi, ho⟩

theorem skipped (hb : Balanced body) (hh : Holds s.text ip (0x5B :: (body ++ [0x5D])))
    (hm : Shows s m v) (hv : v.get 0 = 0) :
    Reaches s fuel ip m (ip + (0x5B :: (body ++ [0x5D])).length) (.done v) := by
  obtain ⟨m', ha, hm', hl⟩ := hm.pass hb hh hv
  have e : ip + (0x5B :: (body ++ [0x5D])).length = ip + 1 + body.length + 1 := by
    simp only [List.length_cons, List.length_append, List.length_nil]
    omega
  rw [e]
  exact ⟨1, m', .one ha, hm', hl⟩

/-- A loop for a number of rounds. -/
theorem rounds (h : Performs eof fuel body f) (he : s.options.eof = eof)
    (hh : Holds s.text ip (0x5B :: (body ++ [0x5D]))) (hm : Shows s m v)
    (hsafe : Safe s.options s.text ip m) (n : Nat) :
    Reaches s (min n fuel) ip m (ip + (0x5B :: (body ++ [0x5D])).length)
      (View.repeats 0 f n v) := by
  induction n generalizing m v with
  | zero => exact ⟨0, ip, m, by omega, .refl ip m, hm.input, hm.output⟩
  | succ n ih =>
      rw [View.repeats]
      by_cases hv : v.get 0 = 0
      · rw [if_pos hv]
        exact skipped h.balanced hh hm hv
      rw [if_neg hv]
      obtain ⟨hdone, hmore⟩ := h.round he hh hm hsafe hv
      cases hf : f v with
      | done u =>
          obtain ⟨k, m', hs, hm', hl⟩ := hdone u hf
          exact (ih hm' (hsafe.steps hs)).prepend hs hl (by omega)
      | more u =>
          obtain ⟨k, ip', m', hk, hs, hi, ho⟩ := hmore u ip hf
          exact ⟨k, ip', m', by omega, hs, hi, ho⟩
      | stuck => trivial

end

/-- A loop. -/
theorem loop (h : Performs eof fuel body f) :
    Performs eof fuel (0x5B :: (body ++ [0x5D])) (View.repeats 0 f fuel) := by
  refine ⟨h.balanced.enclose, fun he hh hm hsafe => ?_⟩
  have := h.rounds he hh hm hsafe fuel
  rwa [min_self] at this

/-- A loop that ends. -/
theorem total (h : Performs eof fuel body f) {k : View → View}
    (hk : ∀ v, ∃ n, View.repeats 0 f n v = .done (k v)) :
    Performs eof fuel (0x5B :: (body ++ [0x5D])) fun v => .done (k v) := by
  refine ⟨h.balanced.enclose, fun {s ip m v} he hh hm hsafe => ?_⟩
  obtain ⟨n, hn⟩ := hk v
  have := h.rounds he hh hm hsafe n
  rw [hn] at this
  exact this

/-- A loop whose body leaves a zero runs it at most once. -/
theorem once (h : Performs eof fuel body f) (hz : ∀ v u, f v = .done u → u.get 0 = 0) :
    Performs eof fuel (0x5B :: (body ++ [0x5D])) fun v =>
      if v.get 0 = 0 then .done v else f v := by
  refine ⟨h.balanced.enclose, fun {s ip m v} he hh hm hsafe => ?_⟩
  by_cases hv : v.get 0 = 0
  · rw [if_pos hv]
    exact skipped h.balanced hh hm hv
  rw [if_neg hv]
  obtain ⟨hdone, hmore⟩ := h.round he hh hm hsafe hv
  cases hf : f v with
  | done u =>
      obtain ⟨k, m', hs, hm', hl⟩ := hdone u hf
      exact (skipped h.balanced hh hm' (hz v u hf)).prepend hs hl (Nat.le_add_left fuel _)
  | more u => exact hmore u _ hf
  | stuck => trivial

end Performs

end Machine

end StackTape
