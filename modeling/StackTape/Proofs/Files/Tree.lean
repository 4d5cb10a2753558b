import Mathlib
import StackTape.Files.Access

/-!
# What operations leave in a tree

A path that can be written to names one place, whatever is in the tree (`FileTree.placeOf`).
Making directories adds directories and changes nothing else (`FileTree.Extends`).  `Keeps l b`
says that there is a build `b` in the catalogue at `l`, or in a file there that is one: opening a
catalogue keeps no build that was not there, and saving one only those of that catalogue.
-/

namespace StackTape

namespace FileTree

variable {t t' t'' : FileTree} {l k : Location} {p : Bytes}

/-! ### Entries -/

theorem lookup_cons_eq (j k : Location) (e : Entry) (entries : List (Location × Entry)) :
    ((j, e) :: entries).lookup k = if k = j then some e else entries.lookup k := by
  by_cases h : k = j
  · subst h
    simp
  · rw [List.lookup_cons, beq_eq_false_iff_ne.mpr h, if_neg h]

/-- Only the location that is placed is changed. -/
theorem lookup_place (l k : Location) (e : Entry) (entries : List (Location × Entry)) :
    (place l e entries).lookup k = if k = l then some e else entries.lookup k := by
  induction entries with
  | nil => rw [place, lookup_cons_eq]
  | cons entry entries ih =>
      obtain ⟨j, f⟩ := entry
      rw [place]
      by_cases hj : j = l
      · subst hj
        rw [if_pos rfl, lookup_cons_eq, lookup_cons_eq]
        split_ifs <;> rfl
      · rw [if_neg hj, lookup_cons_eq, ih, lookup_cons_eq]
        by_cases hk : k = j
        · subst hk
          rw [if_pos rfl, if_neg hj, if_pos rfl]
        · rw [if_neg hk, if_neg hk]

/-- An entry below the root is found where it was put, and all others where they were. -/
theorem entry?_insert (hl : l ≠ []) (e : Entry) (k : Location) :
    entry? (t.insert l e) k = if k = l then some e else t.entry? k := by
  unfold entry? insert
  by_cases hk : k.isEmpty
  · rw [List.isEmpty_iff] at hk
    subst hk
    simp [Ne.symm hl]
  · rw [if_neg hk, if_neg hk, lookup_place]

/-! ### Places -/

/-- One part of a path, followed on the names alone. -/
def follow (l : Location) (part : Bytes) : Location :=
  if part = Path.dot then l else if part = Path.dotDot then l.dropLast else l ++ [part]

/-- The place that a path names, whether there is something or not. -/
def placeOf (t : FileTree) (p : Bytes) : Location := (steps p).foldl follow (t.origin p)

/-- A walk that ends comes to where its parts lead. -/
theorem walk_eq {parts : List Bytes} (h : t.walk l parts = .ok k) : k = parts.foldl follow l := by
  induction parts generalizing l with
  | nil => exact (Except.ok.inj h).symm
  | cons part parts ih =>
      rw [walk] at h
      rw [List.foldl_cons, follow]
      split_ifs at h ⊢
      · exact ih h
      · exact ih h
      · exact ih h

theorem origin_congr (h : t'.current = t.current) (p : Bytes) : t'.origin p = t.origin p := by
  rw [origin, origin, h]

theorem placeOf_congr (h : t'.current = t.current) (p : Bytes) : t'.placeOf p = t.placeOf p := by
  rw [placeOf, placeOf, origin_congr h]

/-- The place for something new is its directory and the last part. -/
theorem locateNew_eq {last : Bytes} (h : t.locateNew p = .ok (l, last)) :
    l = (steps p).dropLast.foldl follow (t.origin p) ∧ last = (steps p).getLast?.getD Path.dot := by
  unfold locateNew at h
  cases hc : check p with
  | error e =>
      rw [hc] at h
      cases h
  | ok u =>
      cases hw : t.walk (t.origin p) (steps p).dropLast with
      | error e =>
          rw [hc] at h
          simp only [hw] at h
          cases h
      | ok k =>
          rw [hc] at h
          simp only [hw] at h
          by_cases hdir : t.entry? k = some .directory
          · have hk : (k, (steps p).getLast?.getD Path.dot) = (l, last) := by
              simpa [hdir, bind, Except.bind, pure, Except.pure] using h
            obtain ⟨rfl, rfl⟩ := Prod.mk.inj hk
            exact ⟨walk_eq hw, rfl⟩
          · simp [hdir, bind, Except.bind, throw, throwThe, MonadExceptOf.throw] at h

/-- A path that can be written to leads to its place, which is below the root and no directory. -/
theorem target_eq (h : t.target p = .ok l) :
    l = t.placeOf p ∧ l ≠ [] ∧ t.entry? l ≠ some .directory := by
  unfold target at h
  cases hn : t.locateNew p with
  | error e =>
      rw [hn] at h
      cases h
  | ok place =>
      obtain ⟨dir, last⟩ := place
      obtain ⟨hdir, hlast⟩ := locateNew_eq hn
      rw [hn] at h
      simp only [bind, Except.bind, pure, Except.pure, throw, throwThe, MonadExceptOf.throw] at h
      split_ifs at h with hdots hlong hthere
      obtain rfl := Except.ok.inj h
      rw [not_or] at hdots
      refine ⟨?_, List.append_ne_nil_of_right_ne_nil _ (List.cons_ne_nil _ _), hthere⟩
      -- a last part that is no dot is the last step
      cases hsteps : (steps p).getLast? with
      | none =>
          rw [hsteps] at hlast
          exact absurd hlast hdots.1
      | some part =>
          rw [hsteps, Option.getD_some] at hlast
          have hall : (steps p).dropLast ++ [part] = steps p := by
            obtain ⟨front, hfront⟩ := List.getLast?_eq_some_iff.mp hsteps
            rw [hfront, List.dropLast_concat]
          rw [placeOf, ← hall, List.foldl_append, ← hdir, List.foldl_cons, List.foldl_nil, follow,
            ← hlast, if_neg hdots.1, if_neg hdots.2]

/-! ### Directories -/

/-- Nothing but directories was added. -/
structure Extends (t t' : FileTree) : Prop where
  current : t'.current = t.current
  added : ∀ k, t'.entry? k = t.entry? k ∨ t.entry? k = none ∧ t'.entry? k = some .directory

theorem Extends.refl (t : FileTree) : Extends t t := ⟨rfl, fun _ => .inl rfl⟩

/-- Trees only grow. -/
theorem Extends.trans (h : Extends t t') (h' : Extends t' t'') : Extends t t'' := by
  refine ⟨h'.current.trans h.current, fun k => ?_⟩
  rcases h'.added k with he' | ⟨hnone, hdir⟩
  · rw [he']
    exact h.added k
  · rcases h.added k with he | ⟨-, he⟩
    · exact .inr ⟨he ▸ hnone, hdir⟩
    · rw [he] at hnone
      cases hnone

/-- A directory is made where nothing was. -/
theorem extends_of_makeDir (h : t.makeDir p = .ok t') : Extends t t' := by
  unfold makeDir at h
  split at h
  · cases h
  · next dir last hn =>
      split_ifs at h
      split at h
      · cases h
        exact .refl t
      · cases h
      · next hnone =>
          cases h
          have hne : dir ++ [last] ≠ [] :=
            List.append_ne_nil_of_right_ne_nil _ (List.cons_ne_nil _ _)
          refine ⟨rfl, fun k => ?_⟩
          rw [entry?_insert hne]
          by_cases hk : k = dir ++ [last]
          · rw [if_pos hk, hk]
            exact .inr ⟨hnone, rfl⟩
          · rw [if_neg hk]
            exact .inl rfl

/-- So are a directory and those above it. -/
theorem extends_of_makeDirsFrom {fuel : Nat} (h : makeDirsFrom fuel t p = .ok t') :
    Extends t t' := by
  induction fuel generalizing t p t' with
  | zero =>
      cases h
      exact .refl t
  | succ fuel ih =>
      rw [makeDirsFrom] at h
      split at h
      · cases h
        exact .refl t
      · cases h
      · dsimp only at h
        split_ifs at h
        · exact extends_of_makeDir h
        · split at h
          · cases h
          · next habove => exact (ih habove).trans (extends_of_makeDir h)

/-! ### Catalogues -/

/-- The catalogue that can be opened at a place. -/
def catalogue? (t : FileTree) (l : Location) : Option Catalogue :=
  match t.entry? l with
  | some (.catalogue c) => some c
  | some (.file data) => Catalogue.decode data
  | some .directory => none
  | none => some {}

/-- There is a build in the catalogue at a place. -/
def Keeps (t : FileTree) (l : Location) (b : Build) : Prop :=
  ∃ c, t.catalogue? l = some c ∧ b ∈ c.builds

theorem keeps_congr (h : t'.entry? l = t.entry? l) {b : Build} : t'.Keeps l b ↔ t.Keeps l b := by
  rw [Keeps, Keeps, catalogue?, catalogue?, h]

/-- A tree that grows keeps its catalogues. -/
theorem Extends.keeps (h : Extends t t') {b : Build} (hb : t'.Keeps l b) : t.Keeps l b := by
  rcases h.added l with he | ⟨-, he⟩
  · exact (keeps_congr he).mp hb
  · obtain ⟨c, hc, -⟩ := hb
    rw [catalogue?, he] at hc
    cases hc

/-- A catalogue that is inserted is found at its location only. -/
theorem catalogue?_insert (hl : l ≠ []) (c : Catalogue) (k : Location) :
    (t.insert l (.catalogue c)).catalogue? k = if k = l then some c else t.catalogue? k := by
  rw [catalogue?, entry?_insert hl]
  by_cases hk : k = l
  · rw [if_pos hk, if_pos hk]
  · rw [if_neg hk, if_neg hk, catalogue?]

/-- What opening a catalogue does: it fails, with directories made at most, or gives the catalogue
at the place of the path, which is then an entry of its own. -/
inductive Opened (t : FileTree) (p : Bytes) :
    Except CatalogueFault Catalogue → FileTree → Prop where
  | failed {e : CatalogueFault} {t' : FileTree} (ht : Extends t t') : Opened t p (.error e) t'
  | found {c : Catalogue} {t' t'' : FileTree} (ht : Extends t t')
      (hc : t'.catalogue? (t.placeOf p) = some c)
      (hsame : ∀ k, t''.catalogue? k = t'.catalogue? k) : Opened t p (.ok c) t''

/-- **Opening a catalogue** finds the one that is there or makes one, and keeps every other. -/
theorem opened_openCatalogue (t : FileTree) (p : Bytes) :
    Opened t p (t.openCatalogue p).1 (t.openCatalogue p).2 := by
  unfold openCatalogue
  cases hm : t.makeDirs (Path.parent p) with
  | error e => exact .failed (.refl t)
  | ok t' =>
      have hx : Extends t t' := extends_of_makeDirsFrom hm
      cases ht : t'.target p with
      | error e => simp only [ht]; exact .failed hx
      | ok l =>
          obtain ⟨hplace, hne, hdir⟩ := target_eq ht
          rw [placeOf_congr hx.current] at hplace
          simp only [ht]
          -- the entry that is put there is the catalogue that was found there
          have hinsert : ∀ c, t'.catalogue? l = some c →
              Opened t p (.ok c) (t'.insert l (.catalogue c)) := by
            intro c hc
            refine .found hx (hplace ▸ hc) fun k => ?_
            rw [catalogue?_insert hne]
            split_ifs with hk
            · rw [hk, hc]
            · rfl
          cases he : t'.entry? l with
          | none => exact hinsert {} (by rw [catalogue?, he])
          | some entry =>
              cases entry with
              | directory => exact absurd he hdir
              | catalogue c =>
                  exact .found hx (by rw [← hplace, catalogue?, he]) fun _ => rfl
              | file data =>
                  simp only
                  cases hd : Catalogue.decode data with
                  | none => exact .failed hx
                  | some c => exact hinsert c (by rw [catalogue?, he]; exact hd)

/-- Opening a catalogue adds no build. -/
theorem Opened.keeps {r : Except CatalogueFault Catalogue} (h : Opened t p r t') {b : Build}
    (hb : t'.Keeps l b) : t.Keeps l b := by
  cases h with
  | failed ht => exact ht.keeps hb
  | found ht hc hsame =>
      obtain ⟨c, hl, hmem⟩ := hb
      exact ht.keeps ⟨c, hsame l ▸ hl, hmem⟩

/-- The builds of an open catalogue were in the tree. -/
theorem Opened.keeps_of_mem {c : Catalogue} (h : Opened t p (.ok c) t') {b : Build}
    (hb : b ∈ c.builds) : t.Keeps (t.placeOf p) b := by
  cases h with
  | found ht hc hsame => exact ht.keeps ⟨c, hc, hb⟩

/-- A build that is there after a catalogue was saved was there, or is one of the catalogue. -/
theorem keeps_saveCatalogue {c : Catalogue} {b : Build} (h : (t.saveCatalogue p c).Keeps l b) :
    t.Keeps l b ∨ b ∈ c.builds := by
  unfold saveCatalogue at h
  split at h
  · exact .inl h
  · next k hk =>
      obtain ⟨-, hne, -⟩ := target_eq hk
      obtain ⟨c', hc', hmem⟩ := h
      rw [catalogue?_insert hne] at hc'
      split_ifs at hc'
      · obtain rfl := Option.some.inj hc'
        exact .inr hmem
      · exact .inl ⟨c', hc', hmem⟩

end FileTree

end StackTape
