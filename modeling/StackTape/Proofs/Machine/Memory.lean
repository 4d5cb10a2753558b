import StackTape.Command.Prompt
import StackTape.Proofs.Machine.Loops

/-!
# What a machine remembers

A machine remembers where the loops end that it has passed over, from one run to the next as long
as the text is the same.  `Coherent` memory has an entry for brackets that match only; every
instruction of the text keeps it (`keptIn_coherent`), and so does every call of a history
(`Reachable.coherent`).  `Matches.returns` says in terms of the depth of nesting what such an entry
is.

`rescan` is a run that has no memory: it looks for the end of a loop each time it passes over one
(`execRescan`).  On a machine with a coherent memory the two do the same, one instruction
(`execRescan_forget`) and a whole run (`rescan_forget`); so they stay together through a history of
calls (`Twins`), and `memory_coherent` puts this together.
-/

namespace StackTape

/-! ### The depth of nesting -/

namespace Bytes

/-- How many more loops a text opens than it closes. -/
def rise (s : Bytes) : Int := s.count 0x5B - s.count 0x5D

/-- The depth of nesting behind position `j`, counted from position `i` on. -/
def depth (code : Bytes) (i j : Nat) : Int := rise ((code.take (j + 1)).drop i)

theorem rise_open (s : Bytes) : rise (0x5B :: s) = rise s + 1 := by
  rw [rise, rise, List.count_cons_self, List.count_cons_of_ne (by decide)]
  omega

theorem rise_close (s : Bytes) : rise (0x5D :: s) = rise s - 1 := by
  rw [rise, rise, List.count_cons_self, List.count_cons_of_ne (by decide)]
  omega

theorem rise_instr {c : UInt8} (h₁ : c ≠ 0x5B) (h₂ : c ≠ 0x5D) (s : Bytes) :
    rise (c :: s) = rise s := by
  rw [rise, rise, List.count_cons_of_ne h₁, List.count_cons_of_ne h₂]

/-- Rises add up. -/
theorem rise_append (s t : Bytes) : rise (s ++ t) = rise s + rise t := by
  simp only [rise, List.count_append]
  omega

/-- The number of open loops behind the beginning of a text is what it was before, and the rise of
the beginning. -/
theorem level_rise {n k : Nat} {s t : Bytes} (h : level n (s ++ t) = some k) :
    ∃ l : Nat, n + rise s = l ∧ level l t = some k := by
  induction s generalizing n with
  | nil => exact ⟨n, Int.add_zero _, h⟩
  | cons c rest ih =>
      rw [List.cons_append] at h
      by_cases h₁ : c = 0x5B
      · subst h₁
        rw [level_open] at h
        obtain ⟨l, hl, ht⟩ := ih h
        refine ⟨l, ?_, ht⟩
        rw [rise_open]
        omega
      by_cases h₂ : c = 0x5D
      · subst h₂
        cases n with
        | zero => cases h
        | succ n =>
            rw [level_close] at h
            obtain ⟨l, hl, ht⟩ := ih h
            refine ⟨l, ?_, ht⟩
            rw [rise_close]
            omega
      · rw [level_instr h₁ h₂] at h
        rw [rise_instr h₁ h₂]
        exact ih h

end Bytes

/-- Balanced text does not rise, -/
theorem Balanced.rise_eq {s : Bytes} (hs : Balanced s) : s.rise = 0 := by
  have hl := hs.level_eq 0
  rw [← List.append_nil s] at hl
  obtain ⟨l, hrise, hl⟩ := Bytes.level_rise hl
  cases hl
  omega

/-- and nowhere closes a loop from before. -/
theorem Balanced.rise_take {s : Bytes} (hs : Balanced s) (k : Nat) :
    0 ≤ Bytes.rise (s.take k) := by
  have hl := hs.level_eq 0
  rw [← List.take_append_drop k s] at hl
  obtain ⟨l, hrise, -⟩ := Bytes.level_rise hl
  omega

namespace Machine

variable {text : Array UInt8} {i j ip : Nat} {m : Machine} {code : Bytes}

/-- There is a `[` at `i`, and `j` is the first position behind it where the depth of nesting is
zero again. -/
structure Returns (code : Bytes) (i j : Nat) : Prop where
  opens : code[i]? = some 0x5B
  lt : i < j
  lt_length : j < code.length
  depth_eq : code.depth i j = 0
  first {k : Nat} (hi : i ≤ k) (hj : k < j) : 0 < code.depth i k

/-- **Where a loop ends** the depth of nesting is zero again for the first time. -/
theorem Matches.returns (h : Matches code.toArray i j) : Returns code i j := by
  obtain ⟨body, hb, ⟨rest, hrest⟩, rfl⟩ := h
  rw [List.toList_toArray] at hrest
  -- what stands between `i` and a later place
  have hdepth (k : Nat) (hk : i ≤ k) (hle : k ≤ i + 1 + body.length) :
      code.depth i k = Bytes.rise ((body ++ [0x5D]).take (k - i)) + 1 := by
    rw [Bytes.depth, List.drop_take, ← hrest, ← Bytes.rise_open]
    have hsize : k + 1 - i = k - i + 1 := by omega
    rw [hsize, List.cons_append, List.take_succ_cons, List.take_append_of_le_length]
    simp only [List.length_append, List.length_singleton]
    omega
  refine ⟨?_, by omega, ?_, ?_, fun {k} hi hj => ?_⟩
  · rw [← Nat.add_zero i, ← List.getElem?_drop, ← hrest]
    rfl
  · have := congrArg List.length hrest
    simp only [List.length_append, List.length_cons, List.length_drop, List.length_nil] at this
    omega
  · have hsize : i + 1 + body.length - i = (body ++ [0x5D]).length := by
      rw [List.length_append, List.length_singleton]
      omega
    rw [hdepth _ (by omega) (Nat.le_refl _), hsize, List.take_length, Bytes.rise_append,
      hb.rise_eq]
    rfl
  · rw [hdepth k hi (by omega), List.take_append_of_le_length (by omega)]
    have := hb.rise_take (k - i)
    omega

/-! ### The memory of a history -/

/-- What is remembered of a text are brackets that match. -/
def Coherent (text : Array UInt8) (m : Machine) : Prop :=
  ∀ i j, m.skips[i]? = some j → Matches text i j

/-- A machine that remembers nothing remembers nothing false. -/
theorem Coherent.fresh (h : m.skips = {}) : Coherent text m := by
  intro i j hij
  rw [h] at hij
  simp at hij

/-- What is remembered is a match, as the runs need it. -/
theorem Coherent.remembers (h : Coherent text m) : Remembers text m := by
  intro i j hij
  obtain ⟨body, hb, hh, rfl⟩ := h i j hij
  exact matchFrom_loop hb hh

/-- What is added to the memory is a bracket with its match. -/
theorem Coherent.skip (h : Coherent text m) (hip : ip < text.size)
    (hc : text.getD ip 0 = 0x5B) : Coherent text (m.skip text ip).2 := by
  unfold Machine.skip
  split
  · exact h
  split
  · next j hj =>
      intro i k hk
      rw [Std.HashMap.getElem?_insert] at hk
      split_ifs at hk with hi
      · cases hk
        exact eq_of_beq hi ▸ (matchFrom_eq_some_iff hip hc).mp hj
      · exact h i k hk
  · exact h

/-- **The instructions of a text keep its memory right.** -/
theorem keptIn_coherent (code : Bytes) :
    KeptIn code.toArray fun m => m.code = code ∧ Coherent code.toArray m where
  executed {_ ip m m' _} hip h hm := by
    refine ⟨h.keeps.1.trans hm.1, ?_⟩
    generalize hc : code.toArray.getD ip 0 = c at h
    cases h with
    | pass | unclosed => exact hm.2.skip hip hc
    | _ => exact hm.2
  alike {m m'} h hm := by
    obtain ⟨_, _, _, _, rfl⟩ := h
    exact hm

/-- Another text starts with nothing remembered. -/
theorem Coherent.load (h : Coherent m.code.toArray m) (code : Bytes) :
    (m.load code).code = code ∧ Coherent code.toArray (m.load code) := by
  unfold Machine.load
  split_ifs with hc
  · exact ⟨hc, hc ▸ h⟩
  · exact ⟨rfl, .fresh rfl⟩

theorem skips_new {capacity : Int64} {input : Source} {output : Sink}
    (h : new? capacity input output = some m) : m.skips = {} := by
  unfold new? at h
  dsimp only at h
  split_ifs at h <;> cases h <;> rfl

/-- **The memory is right after any calls.** -/
theorem Reachable.coherent (h : Reachable m) : Coherent m.code.toArray m := by
  induction h with
  | new h => exact .fresh (skips_new h)
  | @run m σ o hook fuel code s r _ h ih =>
      obtain ⟨hcode, hr⟩ := (keptIn_coherent code).run h (ih.load code)
      exact hcode ▸ hr
  | @seek m m' p _ h ih =>
      unfold Machine.seek at h
      split at h <;> cases h
      exact ih
  | @poke m m' i v _ h ih =>
      obtain ⟨j, -, rfl⟩ := Option.map_eq_some_iff.mp h
      exact ih
  | reset => exact .fresh rfl

/-! ### A machine without memory -/

/-- The same machine with nothing remembered. -/
def forget (m : Machine) : Machine := { m with skips := {} }

/-- The instruction `c` at `ip` without memory: it looks for the end of a loop each time. -/
def execRescan (eof : EofMode) (text : Array UInt8) (ip : Nat) (c : UInt8) (m : Machine) :
    Machine × Except Stop Nat :=
  if c = 0x5B ∧ m.current = 0 then
    match matchFrom text 0 (ip + 1) with
    | some j => (m, .ok (j + 1))
    | none => (m, .error (m.faultAt .unbalancedLoop ip c))
  else exec eof text ip c m

/-- A run without memory from a point on. -/
def rescanFrom {σ : Type} (o : Options) (hook : Hook σ) (text : Array UInt8) :
    (fuel ip : Nat) → σ → Machine → Option (Finished σ)
  | 0, _, _, _ => none
  | fuel + 1, ip, h, m =>
    if ip < text.size then
      if isSpace (text.getD ip 0) then rescanFrom o hook text fuel (ip + 1) h m
      else if m.spent o then some ⟨m, h, some (.stepLimit m.steps ip)⟩
      else
        match execRescan o.eof text ip (text.getD ip 0) (m.traceAt o m.code ip) with
        | (m, .error stop) => some ⟨m, h, some stop⟩
        | (m, .ok next) =>
          let r := hook.react h m.tick ip
          if r.aborts then some ⟨m.tick.heed r, r.state, some .aborted⟩
          else rescanFrom o hook text fuel next r.state (m.tick.heed r)
    else some ⟨(m.finish o text).1, h, (m.finish o text).2⟩

/-- Runs a text without memory. -/
def rescan {σ : Type} (o : Options) (hook : Hook σ) (fuel : Nat) (code : Bytes) (s : σ)
    (m : Machine) : Option (Finished σ) :=
  rescanFrom o hook code.toArray fuel 0 s { m with code }

end Machine

/-- The same end with nothing remembered. -/
def Finished.forget {σ : Type} (e : Finished σ) : Finished σ :=
  { e with machine := e.machine.forget }

/-- The hook does not look at the memory. -/
def Hook.Blind {σ : Type} (hook : Hook σ) : Prop :=
  ∀ s m ip, hook.react s m.forget ip = hook.react s m ip

theorem Hook.silent_blind : Hook.silent.Blind := fun _ _ _ => rfl

theorem Recorder.hook_blind (abortAt : Option UInt64) : (Recorder.hook abortAt).Blind :=
  fun _ _ _ => rfl

theorem Prompt.hook_blind : Prompt.hook.Blind := fun _ _ _ => rfl

namespace Machine

variable {σ : Type} {o : Options} {hook : Hook σ} {text : Array UInt8} {eof : EofMode}
  {ip : Nat} {c : UInt8} {m m' u : Machine} {x : Except Stop Nat}

/-- After a search there is the same to forget. -/
theorem forget_skip (m : Machine) (text : Array UInt8) (ip : Nat) :
    (m.skip text ip).2.forget = m.forget := by
  obtain ⟨_, h⟩ := skip_snd m text ip
  rw [h]
  rfl

theorem forget_traceAt (o : Options) (code : Bytes) (ip : Nat) (m : Machine) :
    (m.traceAt o code ip).forget = m.forget.traceAt o code ip := by
  unfold traceAt
  split_ifs <;> rfl

/-- A run ends alike for a machine that has forgotten. -/
theorem finish_forget (o : Options) (text : Array UInt8) (m : Machine) :
    m.forget.finish o text = ((m.finish o text).1.forget, (m.finish o text).2) := by
  have h : m.forget.traceAt o m.forget.code text.size = _ :=
    (forget_traceAt o m.code text.size m).symm
  unfold finish
  rw [h]
  generalize m.traceAt o m.code text.size = u
  obtain ⟨_, _, _, _ | _, _, _, _, _, _, _, _⟩ := u <;> rfl

/-- Where no loop is passed over, the memory does not matter. -/
theorem Executed.forget (h : Executed eof text ip m c m' x) (hc : ¬ (c = 0x5B ∧ m.current = 0)) :
    Executed eof text ip m.forget c m'.forget x := by
  cases h with
  | pass h | unclosed h => exact absurd ⟨rfl, h⟩ hc
  | right h => exact .right h
  | overflow h => exact .overflow h
  | left h => exact .left h
  | underflow h => exact .underflow h
  | up => exact .up
  | down => exact .down
  | enter h => exact .enter h
  | back h => exact .back h
  | unopened h => exact .unopened h
  | write h => exact .write h
  | unwritten h => exact .unwritten h
  | read h => exact .read h
  | ended h => exact .ended h
  | unread h => exact .unread h
  | unknown h => exact .unknown h

/-- **An instruction without memory** does what one with a right memory does. -/
theorem Executed.rescan_eq (h : Executed eof text ip m c m' x) (hr : Remembers text m) :
    execRescan eof text ip c m.forget = (m'.forget, x) := by
  by_cases hc : c = 0x5B ∧ m.current = 0
  · rw [execRescan, if_pos (show c = 0x5B ∧ m.forget.current = 0 from hc), ← hr.skip]
    cases h with
    | pass _ hj => rw [hj, forget_skip]
    | unclosed _ hj =>
        obtain ⟨_, hs⟩ := skip_snd m text ip
        rw [hj, hs]
        rfl
    | enter h => exact absurd hc.2 h
    | unknown h => exact absurd (by simp [hc.1]) h
    | _ => exact absurd hc.1 (by decide)
  · rw [execRescan, if_neg (show ¬ (c = 0x5B ∧ m.forget.current = 0) from hc),
      (h.forget hc).exec_eq]

/-- **A run without memory** does what one with a right memory does. -/
theorem rescanFrom_forget (hb : hook.Blind) (hr : Remembers text m) (fuel ip : Nat) (s : σ) :
    rescanFrom o hook text fuel ip s m.forget =
      (runFrom o hook text fuel ip s m).map Finished.forget := by
  induction fuel generalizing ip s m with
  | zero => rfl
  | succ fuel ih =>
      rw [rescanFrom, runFrom]
      by_cases hip : ip < text.size
      swap
      · rw [if_neg hip, if_neg hip, finish_forget]
        rfl
      rw [if_pos hip, if_pos hip]
      dsimp only
      by_cases hsp : isSpace (text.getD ip 0)
      · rw [if_pos hsp, if_pos hsp]
        exact ih hr ..
      rw [if_neg hsp, if_neg hsp]
      have hspent : m.forget.spent o = m.spent o := rfl
      by_cases hs : m.spent o
      · rw [if_pos (hspent ▸ hs), if_pos hs]
        rfl
      rw [if_neg (hspent ▸ hs), if_neg hs]
      have k := kept_remembers text
      have hrt := k.alike (.traceAt o m.code ip m) hr
      have he := executed_exec o.eof text ip (text.getD ip 0) (m.traceAt o m.code ip)
      generalize exec o.eof text ip _ (m.traceAt o m.code ip) = e at he
      obtain ⟨u, x⟩ := e
      have hf := he.rescan_eq hrt
      rw [forget_traceAt] at hf
      rw [show m.forget.code = m.code from rfl, hf]
      cases x with
      | error stop => rfl
      | ok next =>
          have hreact : hook.react s u.forget.tick ip = hook.react s u.tick ip := hb s u.tick ip
          dsimp only
          rw [hreact]
          split_ifs
          · rfl
          · exact ih (k.alike (.heed ..) (k.executed he hrt)) ..

theorem load_forget (code : Bytes) (m : Machine) :
    (m.load code).forget = { m.forget with code } := by
  unfold load
  split_ifs with h
  · exact h ▸ rfl
  · rfl

/-- **On every machine with a right memory** a run without memory does the same. -/
theorem rescan_forget (hb : hook.Blind) (hm : Coherent m.code.toArray m) (o : Options)
    (fuel : Nat) (code : Bytes) (s : σ) :
    m.forget.rescan o hook fuel code s = (m.run o hook fuel code s).map Finished.forget := by
  have h := rescanFrom_forget (o := o) hb (hm.load code).2.remembers fuel 0 s
  rw [load_forget] at h
  exact h

theorem seek_forget (m : Machine) (p : Int64) : m.forget.seek p = (m.seek p).map forget := by
  have hi : m.forget.index? p = m.index? p := rfl
  unfold Machine.seek
  rw [hi]
  cases m.index? p <;> rfl

theorem poke_forget (m : Machine) (i : Int64) (v : UInt8) :
    m.forget.poke? i v = (m.poke? i v).map forget := by
  have hi : m.forget.index? i = m.index? i := rfl
  unfold Machine.poke?
  rw [hi]
  cases m.index? i <;> rfl

/-! ### Histories -/

/-- Two machines after the same calls, the second one without memory. -/
inductive Twins : Machine → Machine → Prop where
  | new {capacity : Int64} {input : Source} {output : Sink} {m : Machine}
      (h : new? capacity input output = some m) : Twins m m
  | run {m u : Machine} {σ : Type} {o : Options} {hook : Hook σ} {fuel : Nat} {code : Bytes} {s : σ}
      {e e' : Finished σ} (t : Twins m u) (hb : hook.Blind)
      (h : m.run o hook fuel code s = some e) (h' : u.rescan o hook fuel code s = some e') :
      Twins e.machine e'.machine
  | seek {m u m' u' : Machine} {p : Int64} (t : Twins m u) (h : m.seek p = .ok m')
      (h' : u.seek p = .ok u') : Twins m' u'
  | poke {m u m' u' : Machine} {i : Int64} {v : UInt8} (t : Twins m u)
      (h : m.poke? i v = some m') (h' : u.poke? i v = some u') : Twins m' u'
  | reset {m u : Machine} (t : Twins m u) : Twins m.reset u.reset

/-- Of twins, the one that remembers is reachable. -/
theorem Twins.reachable (t : Twins m u) : Reachable m := by
  induction t with
  | new h => exact .new h
  | run _ _ h _ ih => exact .run ih h
  | seek _ h _ ih => exact .seek ih h
  | poke _ h _ ih => exact .poke ih h
  | reset _ ih => exact .reset ih

/-- The machine without memory is the other one with its memory forgotten. -/
theorem Twins.eq_forget (t : Twins m u) : u = m.forget := by
  induction t with
  | new h => rw [forget, ← skips_new h]
  | run t hb h h' ih =>
      rw [ih, rescan_forget hb t.reachable.coherent, h] at h'
      cases h'
      rfl
  | seek _ h h' ih =>
      rw [ih, seek_forget, h] at h'
      cases h'
      rfl
  | poke _ h h' ih =>
      rw [ih, poke_forget, h] at h'
      cases h'
      rfl
  | reset _ ih =>
      rw [ih]
      rfl

/-- **The memory of a machine is right after any calls.**  Every entry of it is a `[` of the text
that was taken up last, with the first position behind it where the depth of nesting is zero again.
So a machine without memory that gets the same calls is always in the same state, and every run of
it ends in the same way. -/
theorem memory_coherent (hm : Reachable m) :
    (∀ i j, m.skips[i]? = some j → Returns m.code i j) ∧
    ∀ u, Twins m u → u = m.forget ∧
      ∀ {σ : Type} (o : Options) (hook : Hook σ) (fuel : Nat) (code : Bytes) (s : σ), hook.Blind →
        u.rescan o hook fuel code s = (m.run o hook fuel code s).map Finished.forget := by
  refine ⟨fun i j h => (hm.coherent i j h).returns, fun u t => ⟨t.eq_forget, ?_⟩⟩
  intro σ o hook fuel code s hb
  rw [t.eq_forget]
  exact rescan_forget hb hm.coherent o fuel code s

/-- A run is aborted when it has passed over a loop, and the same text is run again with and without
what was remembered of it. -/
theorem memory_coherent_aborted : ∃ m e u, Machine.new? 1 {} {} = some m ∧
    m.run {} (Recorder.hook (some 1)) 9 (Bytes.ascii "[[-]]+") {} = some e ∧
    e.stop = some .aborted ∧ e.machine.skips[0]? = some 4 ∧ Returns e.machine.code 0 4 ∧
    Twins e.machine u ∧ u = e.machine.forget ∧
    u.rescan {} Hook.silent 9 (Bytes.ascii "[[-]]+") () =
      (e.machine.run {} Hook.silent 9 (Bytes.ascii "[[-]]+") ()).map Finished.forget := by
  have hnew : Machine.new? 1 {} {} = some { capacity := 1 } := rfl
  have hrun : (Machine.run {} (Recorder.hook (some 1)) 9 (Bytes.ascii "[[-]]+") {}
      { capacity := 1 }).map (fun e => (e.stop, e.machine.skips[0]?)) =
      some (some .aborted, some 4) := by cbv
  obtain ⟨e, he, hs⟩ := Option.map_eq_some_iff.mp hrun
  obtain ⟨hstop, hskip⟩ := Prod.mk.inj hs
  have hagain := ((memory_coherent (.new hnew)).2 _ (.new hnew)).2 {}
    (Recorder.hook (some 1)) 9 (Bytes.ascii "[[-]]+") {} (Recorder.hook_blind _)
  rw [he, Option.map_some] at hagain
  have t := Twins.run (.new hnew) (Recorder.hook_blind _) he hagain
  obtain ⟨hreturns, htwins⟩ := memory_coherent t.reachable
  obtain ⟨hu, hrescan⟩ := htwins _ t
  exact ⟨_, e, _, hnew, he, hstop, hskip, hreturns 0 4 hskip, t, hu,
    hrescan {} Hook.silent 9 _ () Hook.silent_blind⟩

end Machine

end StackTape
