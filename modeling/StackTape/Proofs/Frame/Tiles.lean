import StackTape.Proofs.Frame.Tables

/-!
# How slots tile a frame

The cells of the slots, in order, tile the frame: each slot starts where the one before it ends
(`Tiles`), so every cell of the frame is in just one slot (`Formed.existsUnique_slot`).  The list of
slots with their offsets has the sizes and the offsets that are asked for by name
(`Formed.map_placed`), and the reserve instructions of a frame say all of it (`Formed.ofCode`).

`after_layout` puts together what holds of a frame after any calls.
-/

namespace StackTape

namespace Frame

variable {f g : Frame} {t : Slot} {slots : List Slot} {o : Int64} {d e x : Int}

/-! ### Offsets -/

theorem map_fst_placeFrom (d : Int64) (slots : List Slot) :
    (placeFrom d slots).map (·.1) = slots := by
  induction slots generalizing d with
  | nil => rfl
  | cons t slots ih => rw [placeFrom, List.map_cons, ih]

theorem map_fst_placed (f : Frame) : f.placed.map (·.1) = f.slots := map_fst_placeFrom 0 f.slots

theorem mem_slots_of_placed {p : Slot × Int64} (hp : p ∈ f.placed) : p.1 ∈ f.slots := by
  rw [← map_fst_placed f]
  exact List.mem_map_of_mem hp

/-- A slot is found at the offset that it is placed at. -/
theorem offset?_of_mem (hn : f.names.Nodup) (hp : (t, o) ∈ f.placed) :
    f.offset? t.name = some o := by
  have hname : t.name ∈ f.slots.map (·.name) := List.mem_map_of_mem (mem_slots_of_placed hp)
  -- both are what is placed under the name
  obtain ⟨p, hp', hpn, hpd⟩ := mem_placedAt hname 0
  have hq : ⟨t.name, o, t.size⟩ ∈ placedAt 0 f.slots := List.mem_map_of_mem hp
  have hnd : ((placedAt 0 f.slots).map (·.name)).Nodup := by
    rw [names_placedAt]
    exact hn
  obtain rfl := List.inj_on_of_nodup_map hnd hp' hq hpn
  rw [Int64.zero_add] at hpd
  rw [offset?, if_pos (has_iff.mpr hname), ← hpd]

/-- What is asked for by name belongs to a placed slot. -/
theorem exists_placed {name : Bytes} {size : Int64} (hn : f.names.Nodup)
    (ho : f.offset? name = some o) (hs : f.size? name = some size) :
    ∃ t, (t, o) ∈ f.placed ∧ t.name = name ∧ t.size = size := by
  obtain ⟨t, ht, rfl⟩ := Option.map_eq_some_iff.mp hs
  obtain rfl : t.name = name := by simpa using List.find?_some ht
  have hin : t ∈ f.placed.map (·.1) := by
    rw [map_fst_placed]
    exact List.mem_of_find?_eq_some ht
  obtain ⟨⟨u, o'⟩, hp, rfl⟩ := List.mem_map.mp hin
  rw [offset?_of_mem hn hp] at ho
  cases ho
  exact ⟨u, hp, rfl, rfl⟩

/-- **The placed slots**, in order, have the sizes and the offsets of their names. -/
theorem Formed.map_placed (hf : f.Formed) :
    f.placed.map (fun p => (p.1.name, some p.1.size, some p.2)) =
      f.names.map fun name => (name, f.size? name, f.offset? name) := by
  have hnames : f.names = f.placed.map fun p => p.1.name := by
    rw [Frame.names, ← map_fst_placed f, List.map_map]
    rfl
  rw [hnames, List.map_map]
  refine List.map_congr_left fun p hp => ?_
  have hsize := size?_of_mem hf.names (mem_slots_of_placed hp)
  have hoffset : f.offset? p.1.name = some p.2 := offset?_of_mem hf.names hp
  show _ = (p.1.name, f.size? p.1.name, f.offset? p.1.name)
  rw [hsize, hoffset]

/-! ### Tiles -/

/-- Slots that are not empty, the first at one cell, each next where the one before it ends, and the
last with its end before another cell. -/
inductive Tiles : Int → List (Slot × Int64) → Int → Prop where
  | nil (d : Int) : Tiles d [] d
  | cons {t : Slot} {o : Int64} {rest : List (Slot × Int64)} {e : Int} (ht : 0 < t.size.toInt)
      (h : Tiles (o.toInt + t.size.toInt) rest e) : Tiles o.toInt ((t, o) :: rest) e

/-- A slot covers a cell. -/
def Covers (p : Slot × Int64) (x : Int) : Prop := p.2.toInt ≤ x ∧ x < p.2.toInt + p.1.size.toInt

variable {placed : List (Slot × Int64)} {p q : Slot × Int64}

theorem Tiles.le_offset (h : Tiles d placed e) (hp : p ∈ placed) : d ≤ p.2.toInt := by
  induction h with
  | nil => cases hp
  | cons ht _ ih =>
      rcases List.mem_cons.mp hp with rfl | hp
      · exact le_rfl
      · exact (le_add_of_nonneg_right ht.le).trans (ih hp)

/-- There is no gap. -/
theorem Tiles.exists_covers (h : Tiles d placed e) (hd : d ≤ x) (he : x < e) :
    ∃ p ∈ placed, Covers p x := by
  induction h with
  | nil => exact absurd he (not_lt.mpr hd)
  | @cons t o _ _ _ _ ih =>
      rcases lt_or_ge x (o.toInt + t.size.toInt) with hx | hx
      · exact ⟨_, List.mem_cons_self, hd, hx⟩
      · obtain ⟨p, hp, hc⟩ := ih hx he
        exact ⟨p, List.mem_cons_of_mem _ hp, hc⟩

/-- There is no overlap. -/
theorem Tiles.eq_of_covers (h : Tiles d placed e) (hp : p ∈ placed) (hq : q ∈ placed)
    (hpx : Covers p x) (hqx : Covers q x) : p = q := by
  induction h with
  | nil => cases hp
  | cons _ h ih =>
      rcases List.mem_cons.mp hp with rfl | hp
      · rcases List.mem_cons.mp hq with rfl | hq
        · rfl
        · exact absurd ((h.le_offset hq).trans hqx.1) (not_le.mpr hpx.2)
      · rcases List.mem_cons.mp hq with rfl | hq
        · exact absurd ((h.le_offset hp).trans hpx.1) (not_le.mpr hqx.2)
        · exact ih hp hq

theorem tiles_placeFrom (hp : ∀ t ∈ slots, 0 < t.size.toInt) (ho : 0 ≤ o.toInt)
    (hs : o.toInt + cells slots < 2 ^ 63) :
    Tiles o.toInt (placeFrom o slots) (o.toInt + cells slots) := by
  induction slots generalizing o with
  | nil =>
      rw [cells_nil, Int.add_zero]
      exact .nil _
  | cons t slots ih =>
      obtain ⟨ht, hr⟩ := List.forall_mem_cons.mp hp
      have hc := cells_nonneg hr
      rw [cells_cons] at hs ⊢
      have he : (o + t.size).toInt = o.toInt + t.size.toInt :=
        toInt_add_of_bounds (by omega) (by omega)
      have hrest := ih (o := o + t.size) hr (by omega) (by omega)
      rw [he, Int.add_assoc] at hrest
      exact .cons ht hrest

/-- **The slots tile the frame**, if their sizes are summed without wrapping. -/
theorem Formed.tiles (hf : f.Formed) (hs : cells f.slots < 2 ^ 63) :
    Tiles 0 f.placed f.totalSize.toInt := by
  have h : Tiles _ (placeFrom 0 f.slots) _ :=
    tiles_placeFrom hf.positive le_rfl (by rwa [Int64.toInt_zero, Int.zero_add])
  rw [Int64.toInt_zero, Int.zero_add] at h
  rwa [totalSize, toInt_extent hf.positive hs]

/-- **Every cell of the frame is in just one slot.** -/
theorem Formed.existsUnique_slot (hf : f.Formed) (hs : cells f.slots < 2 ^ 63) (h₀ : 0 ≤ x)
    (hx : x < f.totalSize.toInt) :
    ∃! name, ∃ o size, f.offset? name = some o ∧ f.size? name = some size ∧ o.toInt ≤ x ∧
      x < o.toInt + size.toInt := by
  have htiles := hf.tiles hs
  obtain ⟨⟨t, o⟩, hp, hc⟩ := htiles.exists_covers h₀ hx
  refine ⟨t.name, ⟨o, t.size, offset?_of_mem hf.names hp,
    size?_of_mem hf.names (mem_slots_of_placed hp), hc⟩, ?_⟩
  rintro name ⟨o', size, ho, hsize, hc'⟩
  obtain ⟨u, hq, rfl, rfl⟩ := exists_placed hf.names ho hsize
  cases htiles.eq_of_covers hq hp hc' hc
  rfl

/-! ### Reserve instructions -/

theorem addAll_of_fresh (hp : ∀ t ∈ slots, 0 < t.size.toInt)
    (hn : (f.names ++ slots.map (·.name)).Nodup) : f.addAll slots = .ok ⟨f.slots ++ slots⟩ := by
  induction slots generalizing f with
  | nil => rw [addAll, List.append_nil]
  | cons t slots ih =>
      obtain ⟨ht, hr⟩ := List.forall_mem_cons.mp hp
      have hnew : ¬ f.has t.name := fun hh =>
        (List.nodup_append.mp hn).2.2 _ (has_iff.mp hh) _ List.mem_cons_self rfl
      have hpos : ¬ t.size ≤ 0 := by
        rw [Int64.le_iff_toInt_le, Int64.toInt_zero, not_le]
        exact ht
      have hadd : f.add t.name t.size = .ok ⟨f.slots ++ [t]⟩ := by
        rw [add, if_neg hpos, if_neg hnew]
      have hnames : ((⟨f.slots ++ [t]⟩ : Frame).names ++ slots.map (·.name)).Nodup := by
        rw [Frame.names, List.map_append, List.append_assoc]
        exact hn
      rw [addAll, hadd]
      simp only [ih hr hnames, List.append_assoc, List.singleton_append]

/-- **A frame's reserve instructions rebuild it.** -/
theorem Formed.ofCode (hf : f.Formed) : Frame.ofCode f.reserves = .ok f := by
  have hslots : f.reserves.filterMap slotOf? = f.slots := by
    rw [reserves, List.filterMap_map]
    exact List.filterMap_some
  rw [Frame.ofCode, hslots]
  exact addAll_of_fresh (f := {}) hf.positive hf.names

/-! ### After any calls -/

/-- **The layout of frames after any calls.**  Frames are empty at first, and calls may fail, and
may read the frame that they change.  The two tables of a frame agree, and they are those of the
frame; a call that fails changes nothing, and frames merge just if they share no name.  The slots,
each with its offset, have the sizes and offsets that are asked for by name, and if the sizes are
not too large to be summed, they tile the frame without a gap or an overlap.  The reserve
instructions of the frame rebuild it. -/
theorem after_layout (calls : List Call) (k : Nat) :
    let f := after calls k
    let t := tabled calls k
    (t.names.Nodup ∧ (∀ name, name ∈ t.names ↔ (t.sizes name).isSome) ∧
      ∀ name size, t.sizes name = some size → 0 < size.toInt) ∧
    (f.names = t.names ∧ ∀ name, f.size? name = t.sizes name) ∧
    (∀ c : Call, (c.onTables (tabled calls)).2 = (c.onFrames (after calls)).2 ∧
      ((c.onTables (tabled calls)).2.isSome →
        (c.onTables (tabled calls)).1 = tabled calls ∧
          (c.onFrames (after calls)).1 = after calls)) ∧
    (∀ j, ((Call.merge k j).onTables (tabled calls)).2.isSome ↔
      ∃ name, name ∈ f.names ∧ name ∈ (after calls j).names) ∧
    f.placed.map (fun p => (p.1.name, some p.1.size, some p.2)) =
      f.names.map (fun name => (name, f.size? name, f.offset? name)) ∧
    (cells f.slots < 2 ^ 63 → Tiles 0 f.placed f.totalSize.toInt ∧
      ∀ x : Int, 0 ≤ x → x < f.totalSize.toInt → ∃! name, ∃ o size, f.offset? name = some o ∧
        f.size? name = some size ∧ o.toInt ≤ x ∧ x < o.toInt + size.toInt) ∧
    Frame.ofCode f.reserves = .ok f := by
  intro f t
  have hall := formed_after calls
  have hf : f.Formed := hall k
  have ht : t = f.tables := congrFun (tabled_eq calls) k
  have hc : t.Consistent := ht ▸ hf.consistent
  refine ⟨⟨hc.nodup, hc.keys, hc.positive⟩, ?_, fun c => ?_, fun j => ?_, hf.map_placed,
    fun hs => ⟨hf.tiles hs, fun x h₀ hx => hf.existsUnique_slot hs h₀ hx⟩, hf.ofCode⟩
  · rw [ht]
    exact ⟨rfl, fun _ => rfl⟩
  · rw [tabled_eq, c.onTables_eq hall]
    refine ⟨rfl, fun he => ?_⟩
    rw [Call.onFrames_of_fails he]
    exact ⟨rfl, rfl⟩
  · rw [tabled_eq, Call.onTables_eq _ hall, ← merge_eq_error_iff]
    exact Call.store_fails_iff ..

end Frame

end StackTape
