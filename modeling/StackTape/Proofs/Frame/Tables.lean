import StackTape.Proofs.Lowering.Frame

/-!
# Frames in two tables

A frame may be kept in two tables, the order of its names and the size of each name (`Tables`).
Calls then enter one name after another, and a call that reads another frame reads its tables as
they are at that moment, which may be the tables it changes.

`Call.onTables_eq` says that the calls do to the tables what they do to frames, and report the same
errors, as long as names are different and sizes positive (`Frame.Formed`); and every call keeps
this (`Call.formed`).  So after any calls the two tables agree with each other
(`Frame.Formed.consistent`, `tabled_eq`).
-/

namespace StackTape

namespace Frame

variable {f g : Frame} {s : Slot} {slots : List Slot}

/-- Different names and positive sizes. -/
structure Formed (f : Frame) : Prop where
  names : f.names.Nodup
  positive : ∀ t ∈ f.slots, 0 < t.size.toInt

theorem formed_empty : Formed {} := ⟨List.nodup_nil, nofun⟩

/-! ### Slots set one by one -/

theorem not_has_iff {name : Bytes} : ¬ f.has name ↔ f.find? name = none := by
  rw [has, Option.not_isSome_iff_eq_none]

theorem size?_isSome (f : Frame) (name : Bytes) : (f.size? name).isSome = f.has name :=
  Option.isSome_map ..

/-- A slot that is added at the end is found if none before it has the name. -/
theorem find?_append (slots : List Slot) (s : Slot) (name : Bytes) :
    find? ⟨slots ++ [s]⟩ name =
      (find? ⟨slots⟩ name).or (if s.name = name then some s else none) := by
  rw [find?, List.find?_append, List.find?_singleton]
  simp only [decide_eq_true_eq]
  rfl

theorem set_of_has (h : f.has s.name) :
    f.set s = ⟨f.slots.map fun t => if t.name = s.name then s else t⟩ := if_pos h

theorem set_of_not_has (h : ¬ f.has s.name) : f.set s = ⟨f.slots ++ [s]⟩ := if_neg h

/-- A slot that is set where it stands leaves the names as they are. -/
theorem names_set_of_has (h : f.has s.name) : (f.set s).names = f.names := by
  rw [set_of_has h, names, names, List.map_map]
  refine List.map_congr_left fun t _ => ?_
  by_cases ht : t.name = s.name
  · simp [ht]
  · simp [ht]

theorem names_set_of_not_has (h : ¬ f.has s.name) : (f.set s).names = f.names ++ [s.name] := by
  rw [set_of_not_has h, names, List.map_append]
  rfl

/-- A slot that is replaced is found in its place. -/
theorem find?_map_set (slots : List Slot) (s : Slot) (name : Bytes) :
    (slots.map fun t => if t.name = s.name then s else t).find? (fun t => t.name = name) =
      if name = s.name then (slots.find? fun t => t.name = name).map fun _ => s
      else slots.find? fun t => t.name = name := by
  induction slots with
  | nil => simp
  | cons t slots ih =>
      rw [List.map_cons, List.find?_cons, List.find?_cons, ih]
      by_cases ht : t.name = s.name
      · by_cases hn : name = s.name
        · simp [ht, hn]
        · simp [ht, hn, Ne.symm hn]
      · by_cases hn : t.name = name
        · have hne : name ≠ s.name := hn ▸ ht
          simp [hn, hne]
        · simp [ht, hn]

/-- What is set is the size of its name, and no other size changes. -/
theorem size?_set (f : Frame) (s : Slot) :
    (f.set s).size? = Function.update f.size? s.name (some s.size) := by
  funext name
  rw [Function.update_apply]
  by_cases h : f.has s.name
  · rw [set_of_has h, size?, find?, find?_map_set]
    split_ifs with hn
    · obtain ⟨u, hu⟩ := Option.isSome_iff_exists.mp h
      have hu : f.slots.find? (fun t => t.name = name) = some u := hn ▸ hu
      rw [hu]
      rfl
    · rfl
  · rw [set_of_not_has h, size?, find?_append]
    split_ifs with hs hn hn
    · rw [← hs, show find? ⟨f.slots⟩ s.name = none from not_has_iff.mp h]
      rfl
    · exact absurd hs.symm hn
    · exact absurd hn.symm hs
    · rw [Option.or_none]
      rfl

/-- A slot of the frame is set already. -/
theorem set_of_mem (hn : f.names.Nodup) (hs : s ∈ f.slots) : f.set s = f := by
  rw [set_of_has (has_iff.mpr (List.mem_map_of_mem hs))]
  have hmap : (f.slots.map fun t => if t.name = s.name then s else t) = f.slots := by
    refine (List.map_congr_left fun t ht => ?_).trans (List.map_id _)
    split_ifs with h
    · exact (List.inj_on_of_nodup_map hn ht hs h).symm
    · rfl
  rw [hmap]

/-- Setting a slot of positive size keeps a frame well formed, whether the name was there or not. -/
theorem Formed.set (hf : f.Formed) (hs : 0 < s.size.toInt) : (f.set s).Formed := by
  by_cases h : f.has s.name
  · refine ⟨by rw [names_set_of_has h]; exact hf.names, fun t ht => ?_⟩
    rw [set_of_has h] at ht
    obtain ⟨u, hu, rfl⟩ := List.mem_map.mp ht
    split_ifs
    · exact hs
    · exact hf.positive u hu
  · refine ⟨?_, fun t ht => ?_⟩
    · rw [names_set_of_not_has h]
      exact List.nodup_append_comm.mp (List.nodup_cons.mpr ⟨fun hm => h (has_iff.mpr hm), hf.names⟩)
    · rw [set_of_not_has h] at ht
      rcases List.mem_append.mp ht with ht | ht
      · exact hf.positive t ht
      · obtain rfl := List.mem_singleton.mp ht
        exact hs

theorem Formed.setAll (hf : f.Formed) (hs : ∀ s ∈ slots, 0 < s.size.toInt) :
    (slots.foldl Frame.set f).Formed := by
  induction slots generalizing f with
  | nil => exact hf
  | cons s slots ih =>
      obtain ⟨h, hr⟩ := List.forall_mem_cons.mp hs
      exact ih (hf.set h) hr

/-- Slots with new names come behind the others. -/
theorem setAll_of_fresh (hn : (slots.map (·.name)).Nodup) (hs : ∀ s ∈ slots, ¬ f.has s.name) :
    slots.foldl set f = ⟨f.slots ++ slots⟩ := by
  induction slots generalizing f with
  | nil => rw [List.foldl_nil, List.append_nil]
  | cons s slots ih =>
      obtain ⟨hnew, hnr⟩ := List.nodup_cons.mp hn
      obtain ⟨h, hr⟩ := List.forall_mem_cons.mp hs
      have hrest : ∀ u ∈ slots, ¬ (f.set s).has u.name := by
        intro u hu hhas
        rw [has_iff, names_set_of_not_has h, List.mem_append, List.mem_singleton] at hhas
        rcases hhas with hm | hm
        · exact hr u hu (has_iff.mpr hm)
        · have hmem : u.name ∈ slots.map (·.name) := List.mem_map_of_mem hu
          rw [hm] at hmem
          exact hnew hmem
      rw [List.foldl_cons, ih hnr hrest, set_of_not_has h, List.append_assoc]
      rfl

/-! ### Merging -/

/-- A slot is added only under a new name, and with a positive size. -/
theorem add_eq_ok {name : Bytes} {size : Int64} (h : f.add name size = .ok g) :
    0 < size.toInt ∧ ¬ f.has name ∧ g = f.set ⟨name, size⟩ := by
  unfold add at h
  split_ifs at h with hs hh
  cases h
  rw [Int64.le_iff_toInt_le, Int64.toInt_zero, not_le] at hs
  exact ⟨hs, hh, (set_of_not_has hh).symm⟩

/-- A merge that succeeds has set the slots of the other frame one by one, all of them new. -/
theorem merge_eq_ok (hg : g.names.Nodup) {u : Frame} (h : f.merge g = .ok u) :
    (∀ s ∈ g.slots, ¬ f.has s.name) ∧ u = g.slots.foldl set f := by
  unfold merge at h
  split at h
  · cases h
  · next hnone =>
      cases h
      have hs : ∀ s ∈ g.slots, ¬ f.has s.name := fun s hs => by
        simpa using List.find?_eq_none.mp hnone s hs
      exact ⟨hs, (setAll_of_fresh hg hs).symm⟩

/-- **Frames that share a name** are just those that do not merge. -/
theorem merge_eq_error_iff :
    (∃ e, f.merge g = .error e) ↔ ∃ name, name ∈ f.names ∧ name ∈ g.names := by
  unfold merge
  cases h : g.slots.find? fun s => f.has s.name with
  | some s =>
      have hhas : f.has s.name := by simpa using List.find?_some h
      exact iff_of_true ⟨_, rfl⟩
        ⟨s.name, has_iff.mp hhas, List.mem_map_of_mem (List.mem_of_find?_eq_some h)⟩
  | none =>
      refine iff_of_false nofun ?_
      rintro ⟨name, hf, hg⟩
      obtain ⟨s, hs, rfl⟩ := List.mem_map.mp hg
      exact List.find?_eq_none.mp h s hs (has_iff.mpr hf)

/-! ### Two tables -/

/-- A frame kept in two tables: the names in order, and the size of each name. -/
structure Tables where
  names : List Bytes := []
  sizes : Bytes → Option Int64 := fun _ => none

/-- The tables of a frame. -/
def tables (f : Frame) : Tables := ⟨f.names, f.size?⟩

namespace Tables

/-- The size of a name, and 0 if it has none. -/
def sizeAt (t : Tables) (name : Bytes) : Int64 := (t.sizes name).getD 0

/-- Enters a name behind the others, with its size. -/
def push (t : Tables) (name : Bytes) (size : Int64) : Tables :=
  ⟨t.names ++ [name], Function.update t.sizes name (some size)⟩

/-- Enters the size of a name, which comes behind the others if it had no size. -/
def put (t : Tables) (name : Bytes) (size : Int64) : Tables :=
  if (t.sizes name).isSome then ⟨t.names, Function.update t.sizes name (some size)⟩
  else t.push name size

/-- Names are entered into the tables `i`, one after another, each with the size that it has in the
tables `j` at that moment. -/
def enter (entry : Tables → Bytes → Int64 → Tables) (i j : Nat) (pool : Nat → Tables)
    (names : List Bytes) : Nat → Tables :=
  names.foldl (fun pool name =>
    Function.update pool i (entry (pool i) name ((pool j).sizeAt name))) pool

/-- The names are different, they are just those with a size, and sizes are positive. -/
structure Consistent (t : Tables) : Prop where
  nodup : t.names.Nodup
  keys : ∀ name, name ∈ t.names ↔ (t.sizes name).isSome
  positive : ∀ name size, t.sizes name = some size → 0 < size.toInt

end Tables

/-- **The two tables of a frame agree.** -/
theorem Formed.consistent (hf : f.Formed) : f.tables.Consistent where
  nodup := hf.names
  keys name := by
    show name ∈ f.names ↔ (f.size? name).isSome
    rw [size?_isSome, has_iff]
  positive name size h := by
    obtain ⟨u, hu, rfl⟩ := Option.map_eq_some_iff.mp h
    exact hf.positive u (List.mem_of_find?_eq_some hu)

theorem sizeAt_tables (hf : f.names.Nodup) (hs : s ∈ f.slots) :
    f.tables.sizeAt s.name = s.size := by
  have hsize : f.tables.sizes s.name = some s.size := size?_of_mem hf hs
  rw [Tables.sizeAt, hsize, Option.getD_some]

/-- Setting a slot is putting its size into the tables. -/
theorem tables_set (f : Frame) (s : Slot) : (f.set s).tables = f.tables.put s.name s.size := by
  have hsome : (f.tables.sizes s.name).isSome = f.has s.name := size?_isSome f s.name
  rw [Tables.put, hsome, tables, size?_set]
  split_ifs with h
  · rw [names_set_of_has h]
    rfl
  · rw [names_set_of_not_has h]
    rfl

theorem update_tables (pool : Nat → Frame) (i : Nat) (f : Frame) :
    Function.update (fun k => (pool k).tables) i f.tables =
      fun k => (Function.update pool i f k).tables :=
  (Function.comp_update tables pool i f).symm

/-- The slots of the frame `j` are set in the frame `i`, which may be the same. -/
theorem enter_put {pool : Nat → Frame} {i j : Nat} (hj : (pool j).names.Nodup)
    (hs : slots ⊆ (pool j).slots) :
    Tables.enter .put i j (fun k => (pool k).tables) (slots.map (·.name)) =
      fun k => (Function.update pool i (slots.foldl set (pool i)) k).tables := by
  induction slots generalizing pool with
  | nil =>
      rw [List.foldl_nil, Function.update_eq_self]
      rfl
  | cons s slots ih =>
      obtain ⟨hm, hr⟩ := List.cons_subset.mp hs
      -- a slot that is set in its own frame changes nothing, so `j` stays as it was
      have hstay : Function.update pool i ((pool i).set s) j = pool j := by
        by_cases he : j = i
        · subst he
          rw [Function.update_self, set_of_mem hj hm]
        · exact Function.update_of_ne he ..
      have hstep : Function.update (fun k => (pool k).tables) i
          ((pool i).tables.put s.name ((pool j).tables.sizeAt s.name)) =
          fun k => (Function.update pool i ((pool i).set s) k).tables := by
        rw [sizeAt_tables hj hm, ← tables_set, update_tables]
      have hrest := @ih (Function.update pool i ((pool i).set s)) (by rwa [hstay])
        (by rwa [hstay])
      rw [← hstep, Function.update_self, Function.update_idem] at hrest
      exact hrest

/-- A name without a size is put behind the others. -/
theorem enter_push {pool : Nat → Tables} {i j : Nat} {names : List Bytes} (hn : names.Nodup)
    (hs : ∀ name ∈ names, (pool i).sizes name = none) :
    Tables.enter .push i j pool names = Tables.enter .put i j pool names := by
  induction names generalizing pool with
  | nil => rfl
  | cons name names ih =>
      obtain ⟨hnew, hnr⟩ := List.nodup_cons.mp hn
      obtain ⟨h, hr⟩ := List.forall_mem_cons.mp hs
      have hput : ∀ size, (pool i).put name size = (pool i).push name size := fun size => by
        rw [Tables.put, if_neg (by simp [h])]
      have hrest := @ih (Function.update pool i
        ((pool i).push name ((pool j).sizeAt name))) hnr fun name' hm => by
          have hne : name' ≠ name := fun he => hnew (he ▸ hm)
          rw [Function.update_self]
          exact (Function.update_of_ne hne ..).trans (hr name' hm)
      unfold Tables.enter at hrest ⊢
      rw [List.foldl_cons, List.foldl_cons, hput, hrest]

/-! ### Calls -/

/-- A call on numbered frames: `i` is the one that it changes, and `j` the one that it reads. -/
inductive Call where
  | add (i : Nat) (name : Bytes) (size : Int64)
  | merge (i j : Nat)
  | overwrite (i j : Nat)
deriving DecidableEq, Repr

/-- The result of a call takes the place of the frame `i`; an error leaves every frame as it is. -/
def store (pool : Nat → Frame) (i : Nat) : Except SlotError Frame → (Nat → Frame) × Option SlotError
  | .ok f => (Function.update pool i f, none)
  | .error e => (pool, some e)

namespace Call

/-- The frames after a call, and the error that it reports. -/
def onFrames (pool : Nat → Frame) : Call → (Nat → Frame) × Option SlotError
  | .add i name size => store pool i ((pool i).add name size)
  | .merge i j => store pool i ((pool i).merge (pool j))
  | .overwrite i j => (Function.update pool i ((pool i).mergeOverwrite (pool j)), none)

/-- The same on tables. -/
def onTables (pool : Nat → Tables) : Call → (Nat → Tables) × Option SlotError
  | .add i name size =>
    if size ≤ 0 then (pool, some ⟨⟨name, size⟩, .invalidSize⟩)
    else if ((pool i).sizes name).isSome then (pool, some ⟨⟨name, size⟩, .duplicate⟩)
    else (Function.update pool i ((pool i).push name size), none)
  | .merge i j =>
    match (pool j).names.find? fun name => ((pool i).sizes name).isSome with
    | some name => (pool, some ⟨⟨name, (pool j).sizeAt name⟩, .duplicate⟩)
    | none => (Tables.enter .push i j pool (pool j).names, none)
  | .overwrite i j => (Tables.enter .put i j pool (pool j).names, none)

variable {pool : Nat → Frame}

theorem formed_store (h : ∀ k, (pool k).Formed) (i : Nat) {r : Except SlotError Frame}
    (hr : ∀ f, r = .ok f → f.Formed) (k : Nat) : ((store pool i r).1 k).Formed := by
  cases r with
  | error e => exact h k
  | ok f =>
      show (Function.update pool i f k).Formed
      rw [Function.update_apply]
      split_ifs
      · exact hr f rfl
      · exact h k

theorem store_fails_iff (i : Nat) (r : Except SlotError Frame) :
    (store pool i r).2.isSome ↔ ∃ e, r = .error e := by
  cases r with
  | error e => exact iff_of_true rfl ⟨e, rfl⟩
  | ok f => exact iff_of_false Bool.false_ne_true nofun

/-- A call that fails leaves the pool as it was. -/
theorem store_of_fails {i : Nat} {r : Except SlotError Frame}
    (h : (store pool i r).2.isSome) : (store pool i r).1 = pool := by
  obtain ⟨e, rfl⟩ := (store_fails_iff i r).mp h
  rfl

/-- **A call that fails** leaves every frame as it was. -/
theorem onFrames_of_fails {c : Call} (h : (c.onFrames pool).2.isSome) :
    (c.onFrames pool).1 = pool := by
  cases c with
  | add | merge => exact store_of_fails h
  | overwrite => cases h

/-- **Every call keeps the frames formed.** -/
theorem formed (c : Call) (h : ∀ k, (pool k).Formed) (k : Nat) :
    ((c.onFrames pool).1 k).Formed := by
  cases c with
  | add i name size =>
      refine formed_store h i (fun f hf => ?_) k
      obtain ⟨hs, -, rfl⟩ := add_eq_ok hf
      exact (h i).set hs
  | merge i j =>
      refine formed_store h i (fun f hf => ?_) k
      obtain ⟨-, rfl⟩ := merge_eq_ok (h j).names hf
      exact (h i).setAll (h j).positive
  | overwrite i j =>
      have hset : ((pool i).mergeOverwrite (pool j)).Formed := (h i).setAll (h j).positive
      exact formed_store (r := .ok _) h i (fun f hf => by cases hf; exact hset) k

/-- **Calls do to the tables what they do to frames**, and report the same errors. -/
theorem onTables_eq (c : Call) (h : ∀ k, (pool k).Formed) :
    c.onTables (fun k => (pool k).tables) =
      (fun k => ((c.onFrames pool).1 k).tables, (c.onFrames pool).2) := by
  have hsome : ∀ i name, ((pool i).tables.sizes name).isSome = (pool i).has name :=
    fun i name => size?_isSome (pool i) name
  cases c with
  | add i name size =>
      unfold onTables onFrames Frame.add
      simp only [hsome]
      split_ifs with hs hh
      · rfl
      · rfl
      · have hpush : (pool i).tables.push name size = ((pool i).set ⟨name, size⟩).tables := by
          rw [tables_set, Tables.put, hsome, if_neg hh]
        rw [hpush, set_of_not_has hh, update_tables]
        rfl
  | merge i j =>
      unfold onTables onFrames
      simp only [hsome]
      have hfind : ((pool j).tables.names.find? fun name => (pool i).has name) =
          ((pool j).slots.find? fun s => (pool i).has s.name).map (·.name) := List.find?_map ..
      rw [hfind, Frame.merge]
      cases hs : (pool j).slots.find? fun s => (pool i).has s.name with
      | some s =>
          have hsize := sizeAt_tables (h j).names (List.mem_of_find?_eq_some hs)
          simp only [Option.map_some, hsize]
          rfl
      | none =>
          have hfresh : ∀ s ∈ (pool j).slots, ¬ (pool i).has s.name := fun s hm => by
            simpa using List.find?_eq_none.mp hs s hm
          have hnone : ∀ name ∈ (pool j).names, (pool i).tables.sizes name = none := by
            intro name hm
            obtain ⟨s, hs, rfl⟩ := List.mem_map.mp hm
            rw [← Option.not_isSome_iff_eq_none, hsome]
            exact hfresh s hs
          have henter := enter_put (i := i) (h j).names (List.Subset.refl _)
          rw [setAll_of_fresh (h j).names hfresh, ← names, ← enter_push (h j).names hnone] at henter
          exact Prod.ext henter rfl
  | overwrite i j => exact Prod.ext (enter_put (h j).names (List.Subset.refl _)) rfl

end Call

/-- Frames that are empty at first, after calls. -/
def after (calls : List Call) : Nat → Frame :=
  calls.foldl (fun pool c => (c.onFrames pool).1) fun _ => {}

/-- Tables that are empty at first, after calls. -/
def tabled (calls : List Call) : Nat → Tables :=
  calls.foldl (fun pool c => (c.onTables pool).1) fun _ => {}

theorem after_concat (calls : List Call) (c : Call) :
    after (calls ++ [c]) = (c.onFrames (after calls)).1 := by
  rw [after, List.foldl_append]
  rfl

theorem tabled_concat (calls : List Call) (c : Call) :
    tabled (calls ++ [c]) = (c.onTables (tabled calls)).1 := by
  rw [tabled, List.foldl_append]
  rfl

/-- **Every frame of every history is well formed.** -/
theorem formed_after (calls : List Call) (k : Nat) : (after calls k).Formed := by
  induction calls using List.reverseRecOn generalizing k with
  | nil => exact formed_empty
  | append_singleton calls c ih =>
      rw [after_concat]
      exact c.formed ih k

/-- **After any calls** the tables are those of the frames. -/
theorem tabled_eq (calls : List Call) : tabled calls = fun k => (after calls k).tables := by
  induction calls using List.reverseRecOn with
  | nil => rfl
  | append_singleton calls c ih =>
      rw [tabled_concat, ih, c.onTables_eq (formed_after calls), after_concat]

end Frame

end StackTape
