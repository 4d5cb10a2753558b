import Mathlib
import StackTape.Image.Basic
import StackTape.Proofs.Cbor.RoundTrip

/-!
# Images read back

An image that fits (`Image.Fits`) is read back from its encoding as it was, or refused: as
malformed when one of its texts is not UTF-8, as broken when its code is not what was sealed
(`Image.decode_encode`).  So reading never makes up an image (`Image.eq_of_decode_encode`).

An image that can be kept (`Image.Storable`) is in its encoding whether its seal holds or not
(`Image.held?_encode`), so no two of them share one (`Image.encode_faithful`).
-/

namespace StackTape

namespace Sha256

theorem length_wordBytes (w : UInt32) : (wordBytes w).length = 4 := rfl

/-- A digest has thirty-two bytes. -/
theorem length_digest (message : Bytes) : (digest message).length = 32 := by
  simp [digest, length_wordBytes]

end Sha256

namespace Image

open Cbor (fields field)

/-! ### Words and slots -/

/-- A word fits an item, of either sign. -/
theorem fits_wordItem (d : Nat) (n : Int64) : Cbor.Fits d (wordItem n) := by
  have hlow := n.le_toInt
  have hhigh := n.toInt_lt
  unfold wordItem
  split_ifs
  · exact .nint (by omega)
  · exact .uint (by omega)

/-- It is read back as the integer it was. -/
theorem toInteger_wordItem (n : Int64) : Cbor.toInteger (wordItem n) = some n.toInt := by
  unfold wordItem
  split_ifs with h
  · have hn : n.toInt < 0 := Int64.lt_iff_toInt_lt.mp h
    simp only [Cbor.toInteger, Cbor.plain, Option.some.injEq]
    omega
  · have hn : ¬ n.toInt < 0 := fun hlt => h (Int64.lt_iff_toInt_lt.mpr hlt)
    simp only [Cbor.toInteger, Cbor.plain, Option.some.injEq]
    omega

/-- So it is as a word. -/
theorem toWord_wordItem (n : Int64) : Cbor.toWord (wordItem n) = some n := by
  have hrange : -0x8000000000000000 ≤ n.toInt ∧ n.toInt < 0x8000000000000000 :=
    ⟨n.le_toInt, n.toInt_lt⟩
  rw [Cbor.toWord, toInteger_wordItem]
  simp only [if_pos hrange, Int64.ofInt_toInt]

/-- A slot is read back if its name is text. -/
theorem toRecord_slotItem (s : Slot) :
    Cbor.toRecord readSlot (slotItem s) = if Utf8.isValid s.name then some s else none := by
  have hf : fields [.uint 1, .text [s.name], .uint 2, wordItem s.size] =
      some [(1, .text [s.name]), (2, wordItem s.size)] :=
    Cbor.fields_cons (by decide) _ (Cbor.fields_cons (by decide) _ rfl)
  simp only [Cbor.toRecord, slotItem, Cbor.plain, hf, Option.bind_some, readSlot, Cbor.field_here,
    Cbor.field_there (show (2 : Int) ≠ 1 by decide), Cbor.toText_single, toWord_wordItem]
  cases h : Utf8.isValid s.name <;> rfl

/-! ### Records -/

/-- The fields that the record of an image has. -/
def entries (img : Image) : Cbor.Fields :=
  (1, .text [img.name]) :: (2, .text [img.code]) :: (3, .bytes [img.hash]) ::
    ((if img.ops.isEmpty then [] else [(4, .array (img.ops.map fun op => .text [op]))]) ++
    ((if img.frame.isEmpty then [] else [(5, .array (img.frame.map slotItem))]) ++
    ((if img.extent = 0 then [] else [(6, wordItem img.extent)]) ++
    ((if img.capacity = 0 then [] else [(7, wordItem img.capacity)]) ++ []))))

theorem toRecord_toItem (img : Image) :
    Cbor.toRecord readImage img.toItem = readImage img.entries := by
  have hoptional := Cbor.fields_optional (show 4 < 2 ^ 63 by decide) (img.ops.isEmpty = true)
      (.array (img.ops.map fun op => .text [op])) <|
    Cbor.fields_optional (show 5 < 2 ^ 63 by decide) (img.frame.isEmpty = true)
      (.array (img.frame.map slotItem)) <|
    Cbor.fields_optional (show 6 < 2 ^ 63 by decide) (img.extent = 0) (wordItem img.extent) <|
    Cbor.fields_optional (show 7 < 2 ^ 63 by decide) (img.capacity = 0) (wordItem img.capacity) <|
    (rfl : fields [] = some [])
  have hf := Cbor.fields_cons (show 1 < 2 ^ 63 by decide) (.text [img.name]) <|
    Cbor.fields_cons (show 2 < 2 ^ 63 by decide) (.text [img.code]) <|
    Cbor.fields_cons (show 3 < 2 ^ 63 by decide) (.bytes [img.hash]) hoptional
  simp only [Cbor.toRecord, toItem, Cbor.plain, List.append_assoc, List.cons_append,
    List.nil_append]
  rw [List.append_nil] at hf
  rw [hf]
  rfl

/-- The texts of an image. -/
def texts (img : Image) : List Bytes := img.name :: img.code :: (img.ops ++ img.frame.map (·.name))

/-- The entries of an image are read back if all of its texts are text. -/
theorem readImage_entries {img : Image} (hh : img.hash.length = hashSize) :
    readImage img.entries = if img.texts.all Utf8.isValid then some img else none := by
  -- a field that was left out is read as zero, which it was
  have hops : field img.entries 4 [] (Cbor.toList Cbor.toText) =
      if img.ops.all Utf8.isValid then some img.ops else none := by
    simp (disch := decide) only [entries, Cbor.field_there, Cbor.field_optional_here,
      Cbor.field_optional_there, Cbor.field_nil, Cbor.toList_map_guarded Cbor.toText_single]
    cases img.ops <;> rfl
  have hframe : field img.entries 5 [] (Cbor.toList (Cbor.toRecord readSlot)) =
      if img.frame.all (Utf8.isValid ·.name) then some img.frame else none := by
    simp (disch := decide) only [entries, Cbor.field_there, Cbor.field_optional_here,
      Cbor.field_optional_there, Cbor.field_nil, Cbor.toList_map_guarded toRecord_slotItem]
    cases img.frame <;> rfl
  have hextent : field img.entries 6 0 Cbor.toWord = some img.extent := by
    simp (disch := decide) only [entries, Cbor.field_there, Cbor.field_optional_here,
      Cbor.field_optional_there, Cbor.field_nil, toWord_wordItem]
    split_ifs with h
    · rw [h]
    · rfl
  have hcapacity : field img.entries 7 0 Cbor.toWord = some img.capacity := by
    simp (disch := decide) only [entries, Cbor.field_there, Cbor.field_optional_here,
      Cbor.field_optional_there, Cbor.field_nil, toWord_wordItem]
    split_ifs with h
    · rw [h]
    · rfl
  have hname : field img.entries 1 [] Cbor.toText =
      if Utf8.isValid img.name then some img.name else none := by
    rw [entries, Cbor.field_here, Cbor.toText_single]
  have hcode : field img.entries 2 [] Cbor.toText =
      if Utf8.isValid img.code then some img.code else none := by
    rw [entries, Cbor.field_there (by decide), Cbor.field_here, Cbor.toText_single]
  have hhash : field img.entries 3 (Cbor.fit hashSize []) (Cbor.toFixed hashSize) =
      some img.hash := by
    rw [entries, Cbor.field_there (by decide), Cbor.field_there (by decide), Cbor.field_here,
      Cbor.toFixed_single hh]
  have htexts : img.texts.all Utf8.isValid = (Utf8.isValid img.name && (Utf8.isValid img.code &&
      (img.ops.all Utf8.isValid && img.frame.all (Utf8.isValid ·.name)))) := by
    simp [texts, Function.comp_def]
  rw [readImage, hname, hcode, hhash, hops, hframe, hextent, hcapacity, htexts]
  -- the first text that is not UTF-8 ends the reading
  cases Utf8.isValid img.name
  · rfl
  cases Utf8.isValid img.code
  · rfl
  cases img.ops.all Utf8.isValid
  · rfl
  cases img.frame.all (Utf8.isValid ·.name) <;> rfl

/-! ### Images -/

/-- The image fits into an encoding that can be read. -/
structure Fits (img : Image) : Prop where
  texts : ∀ text ∈ img.texts, text.length < 2 ^ 64
  ops : img.ops.length ≤ Cbor.maxCount
  frame : img.frame.length ≤ Cbor.maxCount

/-- A slot fits an item if its name is not too long. -/
theorem fits_slotItem {s : Slot} (h : s.name.length < 2 ^ 64) : Cbor.Fits 2 (slotItem s) := by
  have hlength : [.uint 1, .text [s.name], .uint 2, wordItem s.size].length = 4 := by simp
  refine .map (by decide) (by rw [hlength]) (by rw [hlength]; decide) fun item hi => ?_
  simp only [List.mem_cons, List.not_mem_nil, or_false] at hi
  rcases hi with rfl | rfl | rfl | rfl
  · exact .uint (by decide)
  · exact .text h
  · exact .uint (by decide)
  · exact fits_wordItem 3 s.size

/-- An image that fits fits an item. -/
theorem Fits.toItem {img : Image} (h : img.Fits) (hh : img.hash.length = hashSize) :
    Cbor.Fits 0 img.toItem := by
  have hops : Cbor.Fits 1 (.array (img.ops.map fun op => .text [op])) := by
    refine .array (by decide) (by rw [List.length_map]; exact h.ops) fun item hi => ?_
    obtain ⟨op, hop, rfl⟩ := List.mem_map.mp hi
    exact .text (h.texts op (by simp [Image.texts, hop]))
  have hframe : Cbor.Fits 1 (.array (img.frame.map slotItem)) := by
    refine .array (by decide) (by rw [List.length_map]; exact h.frame) fun item hi => ?_
    obtain ⟨s, hs, rfl⟩ := List.mem_map.mp hi
    have hname : s.name ∈ img.texts := by
      simp only [Image.texts, List.mem_cons, List.mem_append, List.mem_map]
      exact .inr (.inr (.inr ⟨s, hs, rfl⟩))
    exact fits_slotItem (h.texts _ hname)
  have hhash : img.hash.length < 2 ^ 64 := by
    rw [hh]
    decide
  have hfront : ∀ item ∈ [.uint 1, .text [img.name], .uint 2, .text [img.code], .uint 3,
      .bytes [img.hash]], Cbor.Fits 1 item := by
    intro item hi
    simp only [List.mem_cons, List.not_mem_nil, or_false] at hi
    rcases hi with rfl | rfl | rfl | rfl | rfl | rfl
    · exact .uint (by decide)
    · exact .text (h.texts _ (by simp [Image.texts]))
    · exact .uint (by decide)
    · exact .text (h.texts _ (by simp [Image.texts]))
    · exact .uint (by decide)
    · exact .bytes hhash
  have h₄ := Cbor.length_optional (img.ops.isEmpty = true) (.uint 4)
    (.array (img.ops.map fun op => .text [op]))
  have h₅ := Cbor.length_optional (img.frame.isEmpty = true) (.uint 5)
    (.array (img.frame.map slotItem))
  have h₆ := Cbor.length_optional (img.extent = 0) (.uint 6) (wordItem img.extent)
  have h₇ := Cbor.length_optional (img.capacity = 0) (.uint 7) (wordItem img.capacity)
  refine .map (by decide) ?_ ?_ fun item hi => ?_
  · simp only [List.length_append, List.length_cons, List.length_nil]
    omega
  · simp only [List.length_append, List.length_cons, List.length_nil, Cbor.maxCount]
    omega
  · simp only [List.mem_append, or_assoc] at hi
    rcases hi with hi | hi | hi | hi | hi
    · exact hfront item hi
    · exact Cbor.fits_optional (by decide) hops item hi
    · exact Cbor.fits_optional (by decide) hframe item hi
    · exact Cbor.fits_optional (by decide) (fits_wordItem 1 _) item hi
    · exact Cbor.fits_optional (by decide) (fits_wordItem 1 _) item hi

/-- **An image is read back or refused.** -/
theorem decode_encode {img : Image} (h : img.Fits) (hh : img.hash.length = hashSize) :
    decode img.encode =
      if img.texts.all Utf8.isValid then
        if img.verifies then .ok img else .error (.broken img.name)
      else .error .malformed := by
  have himage : isImage img.encode = true := by
    simp [isImage, encode, headerSize, magic, versionBytes, Bytes.ascii]
  have hversion : Cbor.value ((img.encode.drop 4).take 4).reverse = version := rfl
  have hrest : img.encode.drop headerSize = Cbor.encode img.toItem := rfl
  simp only [decode, himage, hversion, hrest, Cbor.decode_encode (h.toItem hh), Option.bind_some,
    toRecord_toItem, readImage_entries hh]
  cases img.texts.all Utf8.isValid <;> rfl

/-- What is read back is what was written. -/
theorem eq_of_decode_encode {img img' : Image} (h : img.Fits) (hh : img.hash.length = hashSize)
    (hd : decode img.encode = .ok img') : img' = img := by
  rw [decode_encode h hh] at hd
  split_ifs at hd
  exact (Except.ok.inj hd).symm

/-! ### What an encoding holds -/

/-- The image is one that an encoding can hold. -/
structure Storable (img : Image) : Prop extends Fits img where
  utf8 : ∀ text ∈ img.texts, Utf8.isValid text = true
  hash : img.hash.length = hashSize

theorem Storable.all {img : Image} (h : img.Storable) : img.texts.all Utf8.isValid = true :=
  List.all_eq_true.mpr h.utf8

/-- The image that bytes hold behind the header, sealed or not. -/
def held? (data : Bytes) : Option Image :=
  (Cbor.decode (data.drop headerSize)).bind (Cbor.toRecord readImage)

/-- What is stored is held in its encoding. -/
theorem held?_encode {img : Image} (h : img.Storable) : held? img.encode = some img := by
  have hrest : img.encode.drop headerSize = Cbor.encode img.toItem := rfl
  rw [held?, hrest, Cbor.decode_encode (h.toFits.toItem h.hash), Option.bind_some, toRecord_toItem,
    readImage_entries h.hash, if_pos h.all]

/-- Images that are stored have different encodings if they are different. -/
theorem encode_injOn : Set.InjOn encode {img | img.Storable} := by
  intro img h img' h' he
  have hheld := held?_encode h
  rw [he, held?_encode h'] at hheld
  exact (Option.some.inj hheld).symm

/-- An image verifies just if its hash is that of its code. -/
theorem verifies_iff {img : Image} : img.verifies = true ↔ Sha256.digest img.code = img.hash :=
  decide_eq_true_iff

/-- **An image goes through its encoding whole.**  It is read back as it was when its seal is the
digest of its code, and refused as broken when it is not; and whatever the seals, an encoding is
that of one image only. -/
theorem encode_faithful {img : Image} (h : img.Storable) :
    (Sha256.digest img.code = img.hash → decode img.encode = .ok img) ∧
    (Sha256.digest img.code ≠ img.hash → decode img.encode = .error (.broken img.name)) ∧
    ∀ img' : Image, img'.Storable → img'.encode = img.encode → img' = img := by
  have hdecode := decode_encode h.toFits h.hash
  rw [if_pos h.all] at hdecode
  refine ⟨fun hseal => ?_, fun hseal => ?_, fun img' h' he => encode_injOn h' h he⟩
  · rw [hdecode, if_pos (verifies_iff.mpr hseal)]
  · rw [hdecode, if_neg (mt verifies_iff.mp hseal)]

/-- A program under the given seal, with something in every field. -/
def sealedBy (hash : Bytes) : Image where
  name := [0xC3, 0xA9]
  code := Bytes.ascii "+[-]"
  hash := hash
  ops := [Bytes.ascii "add(0, 1)", Bytes.ascii "zero(0)"]
  frame := [⟨Bytes.ascii "x", -1⟩]
  extent := Int64.minValue
  capacity := 30000

theorem storable_sealedBy {hash : Bytes} (h : hash.length = hashSize) :
    (sealedBy hash).Storable where
  texts := show ∀ text ∈ (sealedBy []).texts, text.length < 2 ^ 64 by decide
  ops := show (sealedBy []).ops.length ≤ Cbor.maxCount by decide
  frame := show (sealedBy []).frame.length ≤ Cbor.maxCount by decide
  utf8 := List.all_eq_true.mp (by cbv)
  hash := h

/-- With the right seal the program is read back, with every byte of it one higher it is refused,
and the two encodings differ. -/
theorem encode_faithful_sealedBy :
    decode (sealedBy (Sha256.digest (Bytes.ascii "+[-]"))).encode =
      .ok (sealedBy (Sha256.digest (Bytes.ascii "+[-]"))) ∧
    decode (sealedBy ((Sha256.digest (Bytes.ascii "+[-]")).map (· + 1))).encode =
      .error (.broken [0xC3, 0xA9]) ∧
    (sealedBy (Sha256.digest (Bytes.ascii "+[-]"))).encode ≠
      (sealedBy ((Sha256.digest (Bytes.ascii "+[-]")).map (· + 1))).encode := by
  have hlength := Sha256.length_digest (Bytes.ascii "+[-]")
  generalize hd : Sha256.digest (Bytes.ascii "+[-]") = digest at hlength ⊢
  have hright := storable_sealedBy hlength
  have hwrong : (sealedBy (digest.map (· + 1))).Storable :=
    storable_sealedBy ((List.length_map _).trans hlength)
  have hne : digest ≠ digest.map (· + 1) := by
    intro he
    obtain ⟨b, rest, rfl⟩ := List.exists_cons_of_length_eq_add_one hlength
    have hb : b = b + 1 := (List.cons.inj he).1
    exact absurd hb (by grind)
  refine ⟨(encode_faithful hright).1 hd, (encode_faithful hwrong).2.1 (hd ▸ hne), fun he => ?_⟩
  exact hne (congrArg hash ((encode_faithful hwrong).2.2 _ hright he))

end Image

end StackTape
