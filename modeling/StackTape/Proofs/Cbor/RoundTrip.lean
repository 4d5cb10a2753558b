import Mathlib
import StackTape.Cbor.Field

/-!
# Reading back what was written

`Fits d item`: the item has strings of definite length, numbers and lengths within a word of
sixty-four bits, and at nesting depth `d` neither too many levels nor too many elements.  Such an
item is read back from its encoding whatever follows (`readItem_encode`), so that decoding undoes
encoding (`decode_encode`).  The last section is about records, whose fields may be left out.

The reader's fuel goes down with every level and every element.  Each of them has a byte of its
own, so that `2 * length ≤ fuel + 1` is enough for an item and `2 * length ≤ fuel` for a list of
items.
-/

namespace StackTape

namespace Cbor

/-! ### Numbers -/

@[simp] theorem length_bigEndian (width n : Nat) : (bigEndian width n).length = width := by
  induction width generalizing n with
  | zero => rfl
  | succ width ih => rw [bigEndian, List.length_append, ih, List.length_singleton]

theorem value_append_singleton (b : Bytes) (c : UInt8) :
    value (b ++ [c]) = value b * 256 + c.toNat := by
  simp [value]

/-- The bytes of a number that fits have its value. -/
theorem value_bigEndian {width n : Nat} (h : n < 256 ^ width) : value (bigEndian width n) = n := by
  induction width generalizing n with
  | zero =>
      obtain rfl : n = 0 := Nat.lt_one_iff.mp h
      rfl
  | succ width ih =>
      have hdiv : n / 256 < 256 ^ width :=
        Nat.div_lt_of_lt_mul (by rwa [Nat.mul_comm, ← Nat.pow_succ])
      have hmod : n.toUInt8.toNat = n % 256 := rfl
      rw [bigEndian, value_append_singleton, ih hdiv, hmod, Nat.mul_comm, Nat.div_add_mod]

theorem splitAt?_append {n : Nat} {a : Bytes} (h : a.length = n) (b : Bytes) :
    splitAt? n (a ++ b) = some (a, b) := by
  subst h
  simp [splitAt?]

/-! ### Heads -/

theorem head_ne_nil (major n : Nat) : head major n ≠ [] := by
  unfold head
  dsimp only
  split_ifs <;> exact List.cons_ne_nil _ _

theorem length_head_pos (major n : Nat) : 0 < (head major n).length :=
  List.length_pos_iff.mpr (head_ne_nil major n)

/-- The first byte of a head. -/
theorem toNat_lead {major info : Nat} (hm : major < 8) (hi : info < 32) :
    (major * 32 + info).toUInt8.toNat / 32 = major ∧
      (major * 32 + info).toUInt8.toNat % 32 = info := by
  have h : (major * 32 + info).toUInt8.toNat = major * 32 + info := by
    show (major * 32 + info) % 256 = major * 32 + info
    omega
  omega

/-- A head with its argument in the bytes behind the first one. -/
theorem readHead_long {major info width n : Nat} (hm : major < 7)
    (hw : (info, width) ∈ [(24, 1), (25, 2), (26, 4), (27, 8)]) (hn : n < 256 ^ width)
    (rest : Bytes) :
    readHead ((major * 32 + info).toUInt8 :: (bigEndian width n ++ rest)) =
      some (⟨major, info, .given n⟩, rest) := by
  have hi : info < 32 := by
    simp only [List.mem_cons, Prod.mk.injEq, List.not_mem_nil, or_false] at hw
    omega
  obtain ⟨hmajor, hinfo⟩ := toNat_lead (Nat.lt_succ_of_lt hm) hi
  have hsplit := splitAt?_append (length_bigEndian width n) rest
  rw [readHead]
  simp only [hmajor, hinfo]
  simp only [List.mem_cons, Prod.mk.injEq, List.not_mem_nil, or_false] at hw
  rcases hw with ⟨rfl, rfl⟩ | ⟨rfl, rfl⟩ | ⟨rfl, rfl⟩ | ⟨rfl, rfl⟩
  · simp only [hsplit, Option.map_some, value_bigEndian hn, Nat.lt_irrefl, if_false, if_true]
    -- the bound on short simple values is about major type seven alone
    split
    · next h =>
        cases h
        omega
    · rfl
  · simp [hsplit, value_bigEndian hn]
  · simp [hsplit, value_bigEndian hn]
  · simp [hsplit, value_bigEndian hn]

/-- **A head is read back.** -/
theorem readHead_head {major n : Nat} (hm : major < 7) (hn : n < 2 ^ 64) (rest : Bytes) :
    ∃ info, readHead (head major n ++ rest) = some (⟨major, info, .given n⟩, rest) := by
  unfold head
  dsimp only
  split_ifs with h₁ h₂ h₃ h₄
  · obtain ⟨hmajor, hinfo⟩ := toNat_lead (Nat.lt_succ_of_lt hm) (show n < 32 by omega)
    refine ⟨n, ?_⟩
    rw [List.singleton_append, readHead]
    simp only [hmajor, hinfo, if_pos h₁]
  · exact ⟨24, readHead_long hm (by simp) (by omega) rest⟩
  · exact ⟨25, readHead_long hm (by simp) (by omega) rest⟩
  · exact ⟨26, readHead_long hm (by simp) (by omega) rest⟩
  · exact ⟨27, readHead_long hm (by simp) (by omega) rest⟩

/-! ### Items -/

/-- The item can be read back at a nesting depth. -/
inductive Fits : Nat → Item → Prop where
  | uint {d n : Nat} (h : n < 2 ^ 64) : Fits d (.uint n)
  | nint {d n : Nat} (h : n < 2 ^ 64) : Fits d (.nint n)
  | bytes {d : Nat} {b : Bytes} (h : b.length < 2 ^ 64) : Fits d (.bytes [b])
  | text {d : Nat} {b : Bytes} (h : b.length < 2 ^ 64) : Fits d (.text [b])
  | array {d : Nat} {items : List Item} (hd : d < maxDepth) (hc : items.length ≤ maxCount)
      (h : ∀ item ∈ items, Fits (d + 1) item) : Fits d (.array items)
  | map {d : Nat} {flat : List Item} (hd : d < maxDepth) (he : flat.length % 2 = 0)
      (hc : flat.length / 2 ≤ maxCount) (h : ∀ item ∈ flat, Fits (d + 1) item) :
      Fits d (.map flat)

/-- Every item takes a byte at least. -/
theorem length_encode_pos {d : Nat} {item : Item} (h : Fits d item) :
    0 < (encode item).length := by
  cases h with
  | @uint _ n => exact length_head_pos 0 n
  | @nint _ n => exact length_head_pos 1 n
  | @bytes _ b =>
      rw [encode, pieces, piece, List.length_append]
      exact Nat.add_pos_left (length_head_pos 2 b.length) _
  | @text _ b =>
      rw [encode, pieces, piece, List.length_append]
      exact Nat.add_pos_left (length_head_pos 3 b.length) _
  | @array _ items =>
      rw [encode, List.length_append]
      exact Nat.add_pos_left (length_head_pos 4 items.length) _
  | @map _ flat =>
      rw [encode, List.length_append]
      exact Nat.add_pos_left (length_head_pos 5 (flat.length / 2)) _

/-- Items that can be read back one by one can be read back in order. -/
theorem readItems_encodeAll {d : Nat} {items : List Item} (hfits : ∀ item ∈ items, Fits d item)
    (hread : ∀ item ∈ items, ∀ fuel rest, 2 * (encode item).length ≤ fuel + 2 →
      readItem (fuel + 1) d false (encode item ++ rest) = some (item, rest))
    (fuel : Nat) (hf : 2 * (encodeAll items).length ≤ fuel) (rest : Bytes) :
    readItems fuel d items.length (encodeAll items ++ rest) = some (items, rest) := by
  induction items generalizing fuel with
  | nil => rw [encodeAll, List.nil_append, List.length_nil, readItems]
  | cons item items ih =>
      have hpos := length_encode_pos (hfits item List.mem_cons_self)
      rw [encodeAll, List.length_append] at hf
      -- the item has a byte at least, which pays for its own call and for the next one
      obtain ⟨f, rfl⟩ : ∃ f, fuel = f + 2 := ⟨fuel - 2, by omega⟩
      have hitem := hread item List.mem_cons_self f (encodeAll items ++ rest) (by omega)
      have hmore := ih (fun i hi => hfits i (List.mem_cons_of_mem _ hi))
        (fun i hi => hread i (List.mem_cons_of_mem _ hi)) (f + 1) (by omega)
      rw [List.length_cons, encodeAll, List.append_assoc, readItems, hitem]
      simp only [hmore, Option.map_some]

/-- **An item is read back**, whatever follows. -/
theorem readItem_encode {d : Nat} {item : Item} (h : Fits d item) (tagged : Bool) (fuel : Nat)
    (rest : Bytes) (hf : 2 * (encode item).length ≤ fuel + 2) :
    readItem (fuel + 1) d tagged (encode item ++ rest) = some (item, rest) := by
  induction h generalizing tagged fuel rest with
  | uint hn =>
      obtain ⟨info, hr⟩ := readHead_head (show 0 < 7 by decide) hn rest
      simp only [encode, readItem, hr]
  | nint hn =>
      obtain ⟨info, hr⟩ := readHead_head (show 1 < 7 by decide) hn rest
      simp only [encode, readItem, hr]
  | @bytes d b hn =>
      obtain ⟨info, hr⟩ := readHead_head (show 2 < 7 by decide) hn (b ++ rest)
      simp only [encode, pieces, piece, List.append_assoc, readItem, hr, splitAt?_append rfl,
        Option.map_some]
  | @text d b hn =>
      obtain ⟨info, hr⟩ := readHead_head (show 3 < 7 by decide) hn (b ++ rest)
      simp only [encode, pieces, piece, List.append_assoc, readItem, hr, splitAt?_append rfl,
        Option.map_some]
  | @array d items hd hc h ih =>
      have hn : items.length < 2 ^ 64 := Nat.lt_of_le_of_lt hc (by decide)
      obtain ⟨info, hr⟩ := readHead_head (show 4 < 7 by decide) hn (encodeAll items ++ rest)
      have hlimits : ¬ (maxDepth < d + 1 ∨ maxCount < items.length) := by omega
      have hpos := length_head_pos 4 items.length
      rw [encode, List.length_append] at hf
      have hitems := readItems_encodeAll h (fun i hi => ih i hi false) fuel (by omega) rest
      simp only [encode, List.append_assoc, readItem, hr, if_neg hlimits, hitems, Option.map_some]
  | @map d flat hd he hc h ih =>
      have hn : flat.length / 2 < 2 ^ 64 := Nat.lt_of_le_of_lt hc (by decide)
      obtain ⟨info, hr⟩ := readHead_head (show 5 < 7 by decide) hn (encodeAll flat ++ rest)
      have hlimits : ¬ (maxDepth < d + 1 ∨ maxCount < flat.length / 2) := by omega
      have hpos := length_head_pos 5 (flat.length / 2)
      -- the head counts pairs, the reader items
      have htwice : 2 * (flat.length / 2) = flat.length :=
        Nat.mul_div_cancel' (Nat.dvd_of_mod_eq_zero he)
      rw [encode, List.length_append] at hf
      have hitems := readItems_encodeAll h (fun i hi => ih i hi false) fuel (by omega) rest
      simp only [encode, List.append_assoc, readItem, hr, if_neg hlimits, htwice, hitems,
        Option.map_some]

/-- **Decoding undoes encoding.** -/
theorem decode_encode {item : Item} (h : Fits 0 item) : decode (encode item) = some item := by
  have hr := readItem_encode h false (2 * (encode item).length + 1) [] (by omega)
  rw [List.append_nil] at hr
  rw [decode, hr]

/-! ### Typed fields -/

theorem toText_single (b : Bytes) :
    toText (.text [b]) = if Utf8.isValid b then some b else none := by
  simp [toText, plain]

/-- Bytes of the right number are left as they are. -/
theorem toFixed_single {n : Nat} {b : Bytes} (h : b.length = n) :
    toFixed n (.bytes [b]) = some b := by
  subst h
  simp [toFixed, plain, fit, Bytes.repeated]

/-- Elements that are each read back or refused. -/
theorem mapM_map_guarded {α : Type} {write : α → Item} {read : Item → Option α} {valid : α → Bool}
    (h : ∀ a, read (write a) = if valid a then some a else none) (l : List α) :
    (l.map write).mapM read = if l.all valid then some l else none := by
  induction l with
  | nil => rfl
  | cons a l ih =>
      rw [List.map_cons, List.mapM_cons, h, ih]
      cases ha : valid a
      · simp [ha]
      · cases hl : l.all valid <;> simp [ha, hl]

theorem toList_map_guarded {α : Type} {write : α → Item} {read : Item → Option α} {valid : α → Bool}
    (h : ∀ a, read (write a) = if valid a then some a else none) (l : List α) :
    toList read (.array (l.map write)) = if l.all valid then some l else none := by
  rw [← mapM_map_guarded h]
  rfl

/-- A key that is a small number is that field. -/
theorem fields_cons {n : Nat} (h : n < 2 ^ 63) (v : Item) {flat : List Item} {fs : Fields}
    (hf : fields flat = some fs) : fields (.uint n :: v :: flat) = some ((↑n, v) :: fs) := by
  have hn : (Int64.ofNat n).toInt = n := Int64.toInt_ofNat_of_lt h
  simp [fields, keyNumber, hf, hn]

/-- A pair that may be left out fits when it fits. -/
theorem fits_optional {d n : Nat} {c : Prop} [Decidable c] {v : Item} (hn : n < 2 ^ 64)
    (hv : Fits d v) : ∀ item ∈ (if c then [] else [.uint n, v]), Fits d item := by
  intro item hi
  by_cases hc : c
  · rw [if_pos hc] at hi
    cases hi
  · rw [if_neg hc] at hi
    simp only [List.mem_cons, List.not_mem_nil, or_false] at hi
    rcases hi with rfl | rfl
    · exact .uint hn
    · exact hv

theorem length_optional (c : Prop) [Decidable c] (k v : Item) :
    (if c then [] else [k, v]).length = 0 ∨ (if c then [] else [k, v]).length = 2 := by
  by_cases hc : c
  · left
    rw [if_pos hc, List.length_nil]
  · right
    rw [if_neg hc]
    simp

/-- A pair that may be left out is a field that may be left out. -/
theorem fields_optional {n : Nat} (h : n < 2 ^ 63) (c : Prop) [Decidable c] (v : Item)
    {flat : List Item} {fs : Fields} (hf : fields flat = some fs) :
    fields ((if c then [] else [.uint n, v]) ++ flat) =
      some ((if c then [] else [((n : Int), v)]) ++ fs) := by
  by_cases hc : c
  · rw [if_pos hc, if_pos hc]
    exact hf
  · rw [if_neg hc, if_neg hc]
    exact fields_cons h v hf

section Field

variable {α : Type} {zero : α} {read : Item → Option α} {k j : Int} {v : Item} {fs : Fields}

theorem field_nil : field [] k zero read = some zero := rfl

theorem field_here : field ((k, v) :: fs) k zero read = read v := by
  simp [field]

theorem field_there (h : k ≠ j) : field ((j, v) :: fs) k zero read = field fs k zero read := by
  simp [field, List.lookup_cons, beq_false_of_ne h]

theorem field_optional_here {c : Prop} [Decidable c] :
    field ((if c then [] else [(k, v)]) ++ fs) k zero read =
      if c then field fs k zero read else read v := by
  by_cases hc : c
  · simp [hc]
  · simp [hc, field_here]

theorem field_optional_there {c : Prop} [Decidable c] (h : k ≠ j) :
    field ((if c then [] else [(j, v)]) ++ fs) k zero read = field fs k zero read := by
  by_cases hc : c
  · simp [hc]
  · simp [hc, field_there h]

end Field

end Cbor

end StackTape
