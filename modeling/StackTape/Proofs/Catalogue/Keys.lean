import Mathlib
import StackTape.Catalogue.Basic
import StackTape.Proofs.Bytecode.Labels
import StackTape.Proofs.Text.Decimal

/-!
# Keys and builds

What is hashed for a key determines the parts (`Catalogue.keyStream_injective`): the digits of a
length end at the first colon, and the length says where the part ends.  So equal keys of different
parts are a collision of the digest, and keys tell a family of lists apart exactly if the digest has
none on what is hashed for the family (`Catalogue.key_injOn_iff`).  A catalogue answers with an
image that was decoded from one of its builds, and after `put` with what was put.
-/

namespace StackTape

/-! ### Codes that show where they end -/

section

variable {α β : Type} {f : α → List β}

/-- What is written for a value can be told from whatever follows it. -/
def SelfDelimiting (f : α → List β) : Prop :=
  ∀ ⦃a b : α⦄ ⦃x y : List β⦄, f a ++ x = f b ++ y → a = b ∧ x = y

/-- Different texts of one length. -/
theorem selfDelimiting_of_length_eq (hlen : ∀ a b, (f a).length = (f b).length)
    (hf : Function.Injective f) : SelfDelimiting f := by
  intro a b x y h
  obtain ⟨hab, hrest⟩ := List.append_inj h (hlen a b)
  exact ⟨hf hab, hrest⟩

/-- Texts in a row determine the values, if none of them is empty. -/
theorem SelfDelimiting.flatMap_injective (h : SelfDelimiting f) (hne : ∀ a, f a ≠ []) :
    Function.Injective (List.flatMap f) := by
  have hcons : ∀ a l, List.flatMap f (a :: l) ≠ [] := fun a l hnil =>
    hne a (List.append_eq_nil_iff.mp hnil).1
  intro l
  induction l with
  | nil =>
      rintro (_ | ⟨b, m⟩) heq
      · rfl
      · exact absurd heq.symm (hcons b m)
  | cons a l ih =>
      rintro (_ | ⟨b, m⟩) heq
      · exact absurd heq (hcons a l)
      · obtain ⟨hab, hrest⟩ := h heq
        rw [hab, ih hrest]

end

/-! ### Digits -/

namespace Decimal

/-- Digits are no colons. -/
theorem colon_not_mem_ofNat (n : Nat) : (0x3A : UInt8) ∉ ofNat n := fun h =>
  absurd (digit_of_mem_ofNat h) (by decide)

end Decimal

namespace Hex

theorem value?_digit {n : Nat} (h : n < 16) : value? (digit n) = some n := by
  interval_cases n <;> rfl

theorem ofByte_injective : Function.Injective ofByte := by
  intro a b h
  obtain ⟨hhigh, hlow, -⟩ := List.cons.inj h |>.imp_right List.cons.inj
  have hvalue : ∀ {m n : Nat}, m < 16 → n < 16 → digit m = digit n → m = n := by
    intro m n hm hn hd
    exact Option.some.inj (by rw [← value?_digit hm, hd, value?_digit hn])
  have ha := a.toNat_lt
  have hb := b.toNat_lt
  have h₁ := hvalue (by omega) (by omega) hhigh
  have h₂ := hvalue (by omega) (by omega) hlow
  exact UInt8.toNat_inj.mp (by omega)

theorem selfDelimiting_ofByte : SelfDelimiting ofByte :=
  selfDelimiting_of_length_eq (fun _ _ => rfl) ofByte_injective

theorem ofBytes_injective : Function.Injective ofBytes :=
  selfDelimiting_ofByte.flatMap_injective fun _ => List.cons_ne_nil _ _

end Hex

namespace Sha256

/-- The digest tells two texts apart. -/
def Separates (a b : Bytes) : Prop := digest a = digest b → a = b

end Sha256

namespace Catalogue

/-! ### Keys -/

/-- The text up to the first colon and the text behind it. -/
theorem append_colon_inj {a b x y : Bytes} (ha : 0x3A ∉ a) (hb : 0x3A ∉ b)
    (h : a ++ 0x3A :: x = b ++ 0x3A :: y) : a = b ∧ x = y := by
  have hfront : ∀ {l r : Bytes}, 0x3A ∉ l → (l ++ 0x3A :: r).takeWhile (· ≠ 0x3A) = l := by
    intro l r hl
    rw [List.takeWhile_append_of_pos (fun c hc => by simpa using ne_of_mem_of_not_mem hc hl)]
    simp
  have hab : a = b := by rw [← hfront ha (r := x), h, hfront hb]
  subst hab
  exact ⟨rfl, (List.cons.inj (List.append_cancel_left h)).2⟩

theorem selfDelimiting_measured : SelfDelimiting measured := by
  intro p q x y h
  simp only [measured, List.append_assoc, List.cons_append] at h
  obtain ⟨hdigits, hrest⟩ := append_colon_inj (Decimal.colon_not_mem_ofNat _)
    (Decimal.colon_not_mem_ofNat _) h
  exact List.append_inj hrest (Decimal.ofNat_injective hdigits)

/-- **What is hashed determines the parts.** -/
theorem keyStream_injective : Function.Injective keyStream :=
  selfDelimiting_measured.flatMap_injective fun p => by simp [measured]

/-- A part may be empty, and it may look like a part with its length. -/
example : keyStream [Bytes.ascii "1:a", []] = Bytes.ascii "3:1:a0:" := by decide

/-- Equal keys stand for equal parts if the digest tells what is hashed for them apart. -/
theorem parts_eq_of_key_eq {ps qs : List Bytes}
    (hd : Sha256.Separates (keyStream ps) (keyStream qs)) (h : key ps = key qs) : ps = qs :=
  keyStream_injective (hd (Hex.ofBytes_injective h))

/-- **Keys separate their inputs.**  Nothing is lost before the digest, and on any family of inputs
the keys are different exactly if the digest has no collision on what is hashed for the family.  The
family stands for the inputs at hand, since no digest is free of collisions on all texts. -/
theorem key_injOn_iff : Function.Injective keyStream ∧ ∀ family : Set (List Bytes),
    Set.InjOn key family ↔ Set.InjOn Sha256.digest (keyStream '' family) := by
  refine ⟨keyStream_injective, fun family => ⟨fun hkey => ?_, fun hdigest => ?_⟩⟩
  · rintro _ ⟨ps, hps, rfl⟩ _ ⟨qs, hqs, rfl⟩ hcollide
    rw [hkey hps hqs (congrArg Hex.ofBytes hcollide)]
  · intro ps hps qs hqs hkey
    have hseparates : Sha256.Separates (keyStream ps) (keyStream qs) := fun hcollide =>
      hdigest (Set.mem_image_of_mem keyStream hps) (Set.mem_image_of_mem keyStream hqs) hcollide
    exact parts_eq_of_key_eq hseparates hkey

/-! ### Builds -/

theorem mem_of_mem_insert {b c : Build} {l : List Build} (h : c ∈ insert b l) : c = b ∨ c ∈ l := by
  induction l with
  | nil => exact .inl (List.mem_singleton.mp h)
  | cons d l ih =>
      rw [insert] at h
      split_ifs at h
      · exact (List.mem_cons.mp h).imp_right (List.mem_cons_of_mem d)
      · exact List.mem_cons.mp h
      · rcases List.mem_cons.mp h with rfl | h
        · exact .inr List.mem_cons_self
        · exact (ih h).imp_right (List.mem_cons_of_mem d)

theorem find?_insert (b : Build) (l : List Build) :
    (insert b l).find? (·.key = b.key) = some b := by
  induction l with
  | nil => simp [insert]
  | cons d l ih =>
      rw [insert]
      split_ifs with hkey
      · simp
      · simp
      · simp [Ne.symm hkey, ih]

/-- An answer is the image of a build. -/
theorem exists_build_of_get {c : Catalogue} {key : Bytes} {img : Image} (h : c.get key = .ok img) :
    ∃ b ∈ c.builds, b.key = key ∧ Image.decode b.data = .ok img := by
  unfold get at h
  split at h
  · cases h
  · next b hb =>
      have hkey : b.key = key := by simpa using List.find?_some hb
      split at h
      · next i hi => exact ⟨b, List.mem_of_find?_eq_some hb, hkey, by rw [hi, Except.ok.inj h]⟩
      · cases h

/-- What was put is found, as far as it can be read. -/
theorem get_put {c : Catalogue} {key : Bytes} {img img' : Image}
    (h : Image.decode img.encode = .ok img') : (c.put key img).get key = .ok img' := by
  have hfind : (c.put key img).find? key = some ⟨key, img.name, img.encode⟩ :=
    find?_insert ⟨key, img.name, img.encode⟩ c.builds
  simp only [get, hfind, h]

end Catalogue

end StackTape
