import Mathlib
import StackTape.Text.Decimal
import StackTape.Proofs.Text.Words

/-!
# Decimal words read back

A signed word is read back from its digits (`Decimal.parse_ofWord`), and no text of it is shorter
than the digits it is written with (`Decimal.length_ofWord_le`).
-/

namespace StackTape

namespace Decimal

/-! ### Digits -/

theorem ofNat_of_lt {n : Nat} (h : n < 10) : ofNat n = [n.digitChar.toNat.toUInt8] := by
  rw [ofNat, Nat.toDigits_of_lt_base h]
  rfl

/-- The last digit of a number is what ten leaves of it. -/
theorem ofNat_of_le {n : Nat} (h : 10 ≤ n) :
    ofNat n = ofNat (n / 10) ++ [(n % 10).digitChar.toNat.toUInt8] := by
  rw [ofNat, Nat.toDigits_of_base_le (by decide) h, List.map_append]
  rfl

/-- A digit that is written is read back. -/
theorem digit?_digitChar {d : Nat} (h : d < 10) : digit? d.digitChar.toNat.toUInt8 = some d := by
  interval_cases d <;> rfl

theorem length_ofNat (n : Nat) : (ofNat n).length = (Nat.toDigits 10 n).length := by
  rw [ofNat, List.length_map]

/-- What is read as a digit is one of ten bytes. -/
theorem of_digit?_eq_some {b : UInt8} {d : Nat} (h : digit? b = some d) :
    0x30 ≤ b ∧ b ≤ 0x39 ∧ d < 10 := by
  unfold digit? at h
  split_ifs at h with hb
  simp only [Bool.and_eq_true, decide_eq_true_eq] at hb
  have hhigh := UInt8.le_iff_toNat_le.mp hb.2
  simp only [UInt8.reduceToNat] at hhigh
  have := Option.some.inj h
  exact ⟨hb.1, hb.2, by omega⟩

/-- A number is written with digits only. -/
theorem digit_of_mem_ofNat {n : Nat} {b : UInt8} (h : b ∈ ofNat n) : 0x30 ≤ b ∧ b ≤ 0x39 := by
  have hdigit : ∀ d < 10, 0x30 ≤ d.digitChar.toNat.toUInt8 ∧ d.digitChar.toNat.toUInt8 ≤ 0x39 :=
    fun d hd =>
      have hread := of_digit?_eq_some (digit?_digitChar hd)
      ⟨hread.1, hread.2.1⟩
  induction n using Nat.strong_induction_on with
  | _ n ih =>
      by_cases hn : n < 10
      · rw [ofNat_of_lt hn, List.mem_singleton] at h
        exact h ▸ hdigit n hn
      · rw [ofNat_of_le (by omega), List.mem_append, List.mem_singleton] at h
        rcases h with h | h
        · exact ih (n / 10) (by omega) h
        · exact h ▸ hdigit (n % 10) (Nat.mod_lt _ (by decide))

theorem ofNat_ne_nil (n : Nat) : ofNat n ≠ [] :=
  List.length_pos_iff.mp (length_ofNat n ▸ Nat.length_toDigits_pos)

/-! ### Magnitudes -/

/-- Digits are read from the left, and the value is carried on. -/
theorem magnitude_append (base : Nat) (digit : UInt8 → Option Nat) (acc : Nat) (b b' : Bytes) :
    magnitude base digit acc (b ++ b') =
      (magnitude base digit acc b).bind fun n => magnitude base digit n b' := by
  induction b generalizing acc with
  | nil => rfl
  | cons c b ih =>
      rw [List.cons_append, magnitude, magnitude]
      cases digit c with
      | none => rfl
      | some d =>
          dsimp only
          split_ifs
          · exact ih _
          · rfl

/-- **A number that is written is read back.** -/
theorem magnitude_ofNat {n : Nat} (h : n < 0x10000000000000000) :
    magnitude 10 digit? 0 (ofNat n) = .ok n := by
  induction n using Nat.strong_induction_on with
  | _ n ih =>
      by_cases hn : n < 10
      · rw [ofNat_of_lt hn, magnitude, digit?_digitChar hn]
        dsimp only
        rw [if_pos (by omega), magnitude, Nat.zero_mul, Nat.zero_add]
      · have hlast : n % 10 < 10 := Nat.mod_lt _ (by decide)
        rw [ofNat_of_le (by omega), magnitude_append, ih (n / 10) (by omega) (by omega)]
        show magnitude 10 digit? (n / 10) [_] = _
        rw [magnitude, digit?_digitChar hlast]
        dsimp only
        rw [Nat.div_add_mod', if_pos h, magnitude]

/-- A number read from some digits has no more digits than that. -/
theorem magnitude_lt {acc n : Nat} {b : Bytes} (h : magnitude 10 digit? acc b = .ok n) :
    n < (acc + 1) * 10 ^ b.length := by
  induction b generalizing acc with
  | nil =>
      rw [magnitude] at h
      cases h
      simp
  | cons c b ih =>
      rw [magnitude] at h
      cases hc : digit? c with
      | none => simp [hc] at h
      | some d =>
          rw [hc] at h
          dsimp only at h
          split_ifs at h
          have hd : d < 10 := (of_digit?_eq_some hc).2.2
          calc n < (acc * 10 + d + 1) * 10 ^ b.length := ih h
            _ ≤ (acc + 1) * 10 * 10 ^ b.length := Nat.mul_le_mul_right _ (by omega)
            _ = (acc + 1) * 10 ^ (c :: b).length := by
              rw [List.length_cons, pow_succ, Nat.mul_assoc, Nat.mul_comm 10]

/-! ### Signed words -/

theorem isToken_ofWord (n : Int64) : IsToken (ofWord n) := by
  have hdigits : ∀ c ∈ ofNat n.toInt.natAbs, (0x24 : UInt8) ≤ c ∧ c ≤ 0x7F := fun c hc =>
    have h := digit_of_mem_ofNat hc
    ⟨UInt8.le_trans (by decide) h.1, UInt8.le_trans h.2 (by decide)⟩
  rw [ofWord, ofInt]
  split_ifs
  · exact isToken_of_ascii (by simp) (List.forall_mem_cons.mpr ⟨by decide, hdigits⟩)
  · exact isToken_of_ascii (ofNat_ne_nil _) hdigits

/-- A number has no sign. -/
theorem sign_ofNat (n : Nat) : sign (ofNat n) = (false, ofNat n) := by
  unfold sign
  split
  · rename_i rest h
    exact absurd (digit_of_mem_ofNat (h ▸ List.mem_cons_self)) (by decide)
  · rename_i rest h
    exact absurd (digit_of_mem_ofNat (h ▸ List.mem_cons_self)) (by decide)
  · rfl

/-- A magnitude and its sign are the word of that value. -/
theorem signed_eq_ok {negative : Bool} {m : Nat} {n : Int64} :
    signed negative m = .ok n ↔ n.toInt = if negative then -(m : Int) else m := by
  have hlow := n.le_toInt
  have hhigh := n.toInt_lt
  cases negative with
  | false =>
      simp only [signed, Bool.false_eq_true, if_false]
      constructor
      · intro h
        split_ifs at h with hm
        rw [← Except.ok.inj h, Int64.toInt_ofNat_of_lt hm]
      · intro h
        rw [if_pos (by omega), ← Int64.ofInt_eq_ofNat, ← h, Int64.ofInt_toInt]
  | true =>
      simp only [signed, if_true]
      constructor
      · intro h
        split_ifs at h with hm
        rw [← Except.ok.inj h, Int64.toInt_ofInt_of_le (by omega) (by omega)]
      · intro h
        rw [if_pos (by omega), ← h, Int64.ofInt_toInt]

/-- A text is read as a word just if it is a sign, or none, and digits of that value. -/
theorem parse_eq_ok {b : Bytes} {n : Int64} :
    parse b = .ok n ↔ (sign b).2 ≠ [] ∧ ∃ m, magnitude 10 digit? 0 (sign b).2 = .ok m ∧
      n.toInt = if (sign b).1 then -(m : Int) else m := by
  simp only [parse, ← signed_eq_ok]
  cases hrest : (sign b).2 with
  | nil => simp
  | cons c rest =>
      cases magnitude 10 digit? 0 (c :: rest) with
      | error fault => simp
      | ok m => simp

/-- **A word is read back from its digits.** -/
theorem parse_ofWord (n : Int64) : parse (ofWord n) = .ok n := by
  have hlow := n.le_toInt
  have hhigh := n.toInt_lt
  have hm := magnitude_ofNat (show n.toInt.natAbs < 0x10000000000000000 by omega)
  rw [ofWord, ofInt]
  split_ifs with hneg <;> rw [parse_eq_ok]
  · exact ⟨ofNat_ne_nil _, _, hm, show n.toInt = -(n.toInt.natAbs : Int) by omega⟩
  · rw [sign_ofNat]
    exact ⟨ofNat_ne_nil _, _, hm, show n.toInt = (n.toInt.natAbs : Int) by omega⟩

/-- A number is not longer after it is read and written again. -/
theorem length_ofNat_le {b : Bytes} {m : Nat} (hb : b ≠ [])
    (h : magnitude 10 digit? 0 b = .ok m) : (ofNat m).length ≤ b.length := by
  have hlt := magnitude_lt h
  rw [Nat.zero_add, Nat.one_mul] at hlt
  rw [length_ofNat]
  exact (Nat.length_toDigits_le_iff (by decide) (List.length_pos_iff.mpr hb)).mpr hlt

/-- A text that is read as a word is at least as long as the word's digits. -/
theorem length_ofWord_le {b : Bytes} {n : Int64} (h : parse b = .ok n) :
    (ofWord n).length ≤ b.length := by
  obtain ⟨hne, m, hm, hn⟩ := parse_eq_ok.mp h
  have hdigits := length_ofNat_le hne hm
  have hsign : (sign b).2.length + (if (sign b).1 then 1 else 0) ≤ b.length := by
    unfold sign
    split <;> simp
  -- a minus sign that is written was read
  have habs : n.toInt.natAbs = m ∧ (n.toInt < 0 → (sign b).1 = true) := by
    split_ifs at hn with hs
    · exact ⟨by omega, fun _ => hs⟩
    · exact ⟨by omega, by omega⟩
  rw [ofWord, ofInt, habs.1]
  split_ifs with hneg
  · rw [habs.2 hneg, if_pos rfl] at hsign
    rw [List.length_cons]
    omega
  · omega

end Decimal

end StackTape
