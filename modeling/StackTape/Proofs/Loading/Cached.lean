import Mathlib
import StackTape.Loading
import StackTape.Proofs.Catalogue.Keys
import StackTape.Proofs.Files.Tree
import StackTape.Proofs.Image.RoundTrip

/-!
# Loading with a catalogue

`History cache t log`: the tree `t` comes from one without builds at `cache` by any number of
loads, whose projects keep their catalogue there, and any other changes to other places; `log`
lists what was asked for with the catalogue.  Every build at `cache` is then one that a request of
the log made (`History.honest`), and so loading with the catalogue gives what compiling gives, but
for the name and the capacity of the image (`FileTree.load_cached`).

These two are not part of the key.  They come from the request that made the build, so that a
second file of the same bytes is loaded under the name of the first (`FileTree.load_renamed`).
-/

namespace StackTape

/-! ### Requests -/

/-- Bytecode that is to be loaded. -/
structure Request where
  manifest : Manifest
  path : Bytes
  data : Bytes
  isBytecode : Loaded.isBytecode path data = true

namespace Request

/-- What compiling gives for a request. -/
def compiled (r : Request) : Except LoadError Loaded :=
  match Loaded.read r.data with
  | .error e => .error (.content r.path e)
  | .ok (code, frame) => Loaded.compile r.manifest r.path code frame

/-- The request makes a build. -/
def Makes (r : Request) (b : Build) : Prop :=
  b.key = Loaded.buildKey r.data ∧ ∃ p, r.compiled = .ok p ∧ b.data = p.image.encode

/-- The request names its image and sets its capacity as another one does. -/
def Agrees (r s : Request) : Prop :=
  Path.stem r.path = Path.stem s.path ∧ r.manifest.capacity = s.manifest.capacity

end Request

/-- Builds of one key are builds of the same bytes. -/
theorem Loaded.data_eq_of_buildKey_eq {a b : Bytes}
    (hd : Sha256.Separates (Catalogue.keyStream [salt, a]) (Catalogue.keyStream [salt, b]))
    (h : buildKey a = buildKey b) : a = b := by
  have hparts := Catalogue.parts_eq_of_key_eq hd h
  simpa using hparts

theorem Loaded.compile_eq_ok {manifest : Manifest} {path : Bytes} {code : List Instr}
    {frame : Frame} {p : Loaded} (h : Loaded.compile manifest path code frame = .ok p) :
    ∃ o, Output.compile code (some frame) = .ok o ∧
      p.image = Loaded.imageOf (Path.stem path) manifest.capacity frame o := by
  unfold Loaded.compile at h
  split at h
  · cases h
  · next o ho =>
      cases h
      exact ⟨o, ho, rfl⟩

namespace Request

variable {r s : Request} {p q : Loaded}

theorem compiled_eq_ok (h : r.compiled = .ok p) : ∃ code frame o,
    Loaded.read r.data = .ok (code, frame) ∧ Output.compile code (some frame) = .ok o ∧
      p.image = Loaded.imageOf (Path.stem r.path) r.manifest.capacity frame o := by
  unfold compiled at h
  split at h
  · cases h
  · next code frame hread =>
      obtain ⟨o, ho, hp⟩ := Loaded.compile_eq_ok h
      exact ⟨code, frame, o, hread, ho, hp⟩

/-- The digest of a compiled image has the right size. -/
theorem length_hash (h : r.compiled = .ok p) : p.image.hash.length = Image.hashSize := by
  obtain ⟨code, frame, o, -, -, hp⟩ := compiled_eq_ok h
  rw [hp]
  exact Sha256.length_digest o.code

/-- What is read from a build is what the request gives. -/
theorem Makes.image_eq {b : Build} {img : Image} (h : r.Makes b)
    (hfits : ∀ q, r.compiled = .ok q → q.image.Fits) (hdecode : Image.decode b.data = .ok img) :
    ∃ p, r.compiled = .ok p ∧ img = p.image := by
  obtain ⟨-, p, hp, hdata⟩ := h
  rw [hdata] at hdecode
  exact ⟨p, hp, Image.eq_of_decode_encode (hfits p hp) (length_hash hp) hdecode⟩

/-- Requests for the same bytes differ in the name and the capacity of their images at most. -/
theorem compiled_of_data_eq (hdata : r.data = s.data) (h : r.compiled = .ok p) :
    ∃ q, s.compiled = .ok q ∧
      p.image = { q.image with name := p.image.name, capacity := p.image.capacity } ∧
      (r.Agrees s → p.image = q.image) := by
  obtain ⟨code, frame, o, hread, ho, hp⟩ := compiled_eq_ok h
  have hs : s.compiled = Loaded.compile s.manifest s.path code frame := by
    rw [compiled, ← hdata, hread]
  have hc : ∃ q, Loaded.compile s.manifest s.path code frame = .ok q := by
    rw [Loaded.compile, ho]
    exact ⟨_, rfl⟩
  obtain ⟨q, hq⟩ := hc
  obtain ⟨o', ho', himage⟩ := Loaded.compile_eq_ok hq
  obtain rfl : o = o' := Except.ok.inj (ho.symm.trans ho')
  refine ⟨q, hs.trans hq, by rw [hp, himage]; rfl, ?_⟩
  rintro ⟨hstem, hcapacity⟩
  rw [hp, himage, hstem, hcapacity]

end Request

/-! ### Loading in a tree of files -/

/-- The path that is loaded; an empty one stands for the entry of the project. -/
def Manifest.pathFor (m : Manifest) (path : Bytes) : Bytes :=
  if path.isEmpty then m.entryPath else path

namespace FileTree

/-- Loads a program from a tree of files. -/
def load (t : FileTree) (manifest : Manifest) (path : Bytes) (useCache : Bool) :
    Except LoadError Loaded × FileTree :=
  (Loaded.load manifest path useCache : StateM FileTree (Except LoadError Loaded)) t

/-- The project keeps its catalogue at a place, if it has one. -/
def Shares (t : FileTree) (manifest : Manifest) (cache : Location) : Prop :=
  ∀ p, manifest.cachePath? = some p → t.placeOf p = cache

/-- What a load asks of the catalogue: nothing, or the build of some bytecode. -/
def request? (t : FileTree) (manifest : Manifest) (path : Bytes) : Option Request :=
  match t.read (manifest.pathFor path) with
  | .error _ => none
  | .ok data =>
    if h : Loaded.isBytecode (manifest.pathFor path) data = true then
      some ⟨manifest, manifest.pathFor path, data, h⟩
    else none

variable {t t' : FileTree} {manifest : Manifest} {path : Bytes} {r : Request}

theorem bind_apply {α β : Type} {x : StateM FileTree α} {k : α → StateM FileTree β} {a : α}
    (h : x t = (a, t')) : (x >>= k) t = k a t' := by
  show (match x t with | (a, s) => k a s) = k a t'
  rw [h]

theorem manifest_of_request? (h : t.request? manifest path = some r) : r.manifest = manifest := by
  unfold request? at h
  split at h
  · cases h
  · split_ifs at h
    cases h
    rfl

/-- Loading, one step after the other. -/
theorem load_eq (t : FileTree) (manifest : Manifest) (path : Bytes) (useCache : Bool) :
    t.load manifest path useCache =
      match t.read (manifest.pathFor path) with
      | .error e => (.error (.file e), t)
      | .ok data =>
        if Loaded.isBytecode (manifest.pathFor path) data then
          match Loaded.read data with
          | .error e => (.error (.content (manifest.pathFor path) e), t)
          | .ok (code, frame) =>
            match if useCache then manifest.cachePath? else none with
            | none => (Loaded.compile manifest (manifest.pathFor path) code frame, t)
            | some cache =>
              (Loaded.build manifest cache (manifest.pathFor path) data code frame :
                StateM FileTree (Except LoadError Loaded)) t
        else (Loaded.direct manifest (manifest.pathFor path) data, t) := by
  have hfile : (Files.readFile (manifest.pathFor path) : StateM FileTree _) t =
      (t.read (manifest.pathFor path), t) := rfl
  refine (bind_apply hfile).trans ?_
  unfold Manifest.pathFor
  generalize (if path.isEmpty then manifest.entryPath else path) = file
  cases t.read file with
  | error e => rfl
  | ok data =>
      dsimp only
      cases Loaded.isBytecode file data
      · rfl
      · cases Loaded.read data with
        | error e => rfl
        | ok content =>
            generalize (if useCache then manifest.cachePath? else none) = cache?
            cases cache? <;> rfl

/-- What is no bytecode is loaded without a catalogue. -/
theorem load_of_request?_eq_none (h : t.request? manifest path = none) (useCache : Bool) :
    t.load manifest path useCache = ((t.load manifest path false).1, t) := by
  rw [load_eq, load_eq]
  unfold request? at h
  cases hread : t.read (manifest.pathFor path) with
  | error e => rfl
  | ok data =>
      rw [hread] at h
      dsimp only at h ⊢
      split_ifs at h with hb
      rw [if_neg hb, if_neg hb]

/-- Bytecode is read, and compiled or taken from the catalogue. -/
theorem load_of_request (h : t.request? manifest path = some r) (useCache : Bool) :
    t.load manifest path useCache =
      match Loaded.read r.data with
      | .error e => (.error (.content r.path e), t)
      | .ok (code, frame) =>
        match if useCache then r.manifest.cachePath? else none with
        | none => (Loaded.compile r.manifest r.path code frame, t)
        | some cache =>
          (Loaded.build r.manifest cache r.path r.data code frame :
            StateM FileTree (Except LoadError Loaded)) t := by
  rw [load_eq]
  unfold request? at h
  cases hread : t.read (manifest.pathFor path) with
  | error e =>
      rw [hread] at h
      cases h
  | ok data =>
      rw [hread] at h
      dsimp only at h ⊢
      split_ifs at h with hb
      cases h
      rw [if_pos hb]

/-- Without the catalogue a request is compiled, and the tree stays as it is. -/
theorem load_uncached (h : t.request? manifest path = some r) :
    t.load manifest path false = (r.compiled, t) := by
  rw [load_of_request h, Request.compiled]
  cases Loaded.read r.data <;> rfl

/-- With a catalogue the build is looked up, and kept if there is none that can be read. -/
theorem load_catalogue {code : List Instr} {frame : Frame} {cache : Bytes}
    {opened : Except CatalogueFault Catalogue} (h : t.request? manifest path = some r)
    (hread : Loaded.read r.data = .ok (code, frame))
    (hcache : r.manifest.cachePath? = some cache) (ho : t.openCatalogue cache = (opened, t')) :
    t.load manifest path true =
      match opened with
      | .error _ => (r.compiled, t')
      | .ok c =>
        match c.get (Loaded.buildKey r.data) with
        | .ok image =>
          (.ok { path := r.path, code, frame := some frame, image, cached := true }, t')
        | .error _ =>
          match r.compiled with
          | .error e => (.error e, t')
          | .ok p => (.ok p, t'.saveCatalogue cache (c.put (Loaded.buildKey r.data) p.image)) := by
  have hcompiled : r.compiled = Loaded.compile r.manifest r.path code frame := by
    rw [Request.compiled, hread]
  rw [load_of_request h, hread]
  dsimp only
  rw [if_pos rfl, hcache, hcompiled]
  refine (bind_apply ho).trans ?_
  cases opened with
  | error e => rfl
  | ok c =>
      dsimp only
      cases c.get (Loaded.buildKey r.data) with
      | ok image => rfl
      | error e => cases Loaded.compile r.manifest r.path code frame <;> rfl

/-- What becomes of a request: it is compiled and no build is kept, its build is found in the
catalogue, or it is compiled and its build is kept. -/
inductive Fetched (t : FileTree) (r : Request) : Except LoadError Loaded → FileTree → Prop where
  | compiled {t' : FileTree} (hk : ∀ l b, t'.Keeps l b → t.Keeps l b) : Fetched t r r.compiled t'
  | hit {cache : Bytes} {c : Catalogue} {t' : FileTree} {p : Loaded}
      (hcache : r.manifest.cachePath? = some cache) (ho : Opened t cache (.ok c) t')
      (hget : c.get (Loaded.buildKey r.data) = .ok p.image) : Fetched t r (.ok p) t'
  | kept {cache : Bytes} {c : Catalogue} {t' : FileTree} {p : Loaded}
      (hcache : r.manifest.cachePath? = some cache) (ho : Opened t cache (.ok c) t')
      (hp : r.compiled = .ok p) :
      Fetched t r (.ok p) (t'.saveCatalogue cache (c.put (Loaded.buildKey r.data) p.image))

theorem fetched_load (h : t.request? manifest path = some r) :
    Fetched t r (t.load manifest path true).1 (t.load manifest path true).2 := by
  have hsame : ∀ l b, t.Keeps l b → t.Keeps l b := fun _ _ hb => hb
  cases hread : Loaded.read r.data with
  | error e =>
      have hr : t.load manifest path true = (r.compiled, t) := by
        rw [load_of_request h, Request.compiled, hread]
      rw [hr]
      exact .compiled hsame
  | ok content =>
      obtain ⟨code, frame⟩ := content
      have hcompiled : r.compiled = Loaded.compile r.manifest r.path code frame := by
        rw [Request.compiled, hread]
      cases hcache : r.manifest.cachePath? with
      | none =>
          have hr : t.load manifest path true = (r.compiled, t) := by
            rw [load_of_request h, hcompiled, hread]
            dsimp only
            rw [if_pos rfl, hcache]
          rw [hr]
          exact .compiled hsame
      | some cache =>
          have hopened := opened_openCatalogue t cache
          cases ho : t.openCatalogue cache with
          | mk opened t' =>
              rw [ho] at hopened
              rw [load_catalogue h hread hcache ho]
              cases opened with
              | error e => exact .compiled fun l b => hopened.keeps
              | ok c =>
                  dsimp only
                  cases hget : c.get (Loaded.buildKey r.data) with
                  | ok image => exact .hit hcache hopened hget
                  | error e =>
                      dsimp only
                      cases hp : r.compiled with
                      | error e =>
                          have hr := Fetched.compiled (r := r) fun l b => hopened.keeps (l := l)
                          rwa [hp] at hr
                      | ok p => exact .kept hcache hopened hp

/-- A build that is there after a request was there, or was made by it. -/
theorem Fetched.keeps {result : Except LoadError Loaded} {cache : Location} {b : Build}
    (h : Fetched t r result t') (hm : t.Shares r.manifest cache) (hb : t'.Keeps cache b) :
    t.Keeps cache b ∨ r.Makes b := by
  cases h with
  | compiled hk => exact .inl (hk cache b hb)
  | hit hcache ho hget => exact .inl (ho.keeps hb)
  | kept hcache ho hp =>
      rcases keeps_saveCatalogue hb with hb | hb
      · exact .inl (ho.keeps hb)
      · -- of the builds that were saved one is new, the others came from the same place
        rcases Catalogue.mem_of_mem_insert hb with rfl | hb
        · exact .inr ⟨rfl, _, hp, rfl⟩
        · left
          rw [← hm _ hcache]
          exact ho.keeps_of_mem hb

/-- A build that is there after a load was there, or was made by its request. -/
theorem keeps_load {cache : Location} {useCache : Bool} {b : Build}
    (hm : t.Shares manifest cache) (hb : (t.load manifest path useCache).2.Keeps cache b) :
    t.Keeps cache b ∨
      ∃ r ∈ (if useCache then t.request? manifest path else none), r.Makes b := by
  cases hrequest : t.request? manifest path with
  | none =>
      rw [load_of_request?_eq_none hrequest] at hb
      exact .inl hb
  | some r =>
      cases useCache with
      | false =>
          rw [load_uncached hrequest] at hb
          exact .inl hb
      | true =>
          have hmanifest : r.manifest = manifest := manifest_of_request? hrequest
          rcases (fetched_load hrequest).keeps (hmanifest ▸ hm) hb with hb | hmakes
          · exact .inl hb
          · exact .inr ⟨r, rfl, hmakes⟩

end FileTree

/-! ### Histories -/

/-- A tree that was used by loads with one catalogue, and what was asked of it, the last first. -/
inductive History (cache : Location) : FileTree → List Request → Prop where
  /-- There are no builds. -/
  | start {t : FileTree} (h : ∀ b, ¬ t.Keeps cache b) : History cache t []
  | load {t : FileTree} {log : List Request} (h : History cache t log) {manifest : Manifest}
      (hm : t.Shares manifest cache) (path : Bytes) (useCache : Bool) :
      History cache (t.load manifest path useCache).2
        ((if useCache then t.request? manifest path else none).toList ++ log)
  /-- Anything is done to other places. -/
  | edit {t t' : FileTree} {log : List Request} (h : History cache t log)
      (he : t'.entry? cache = t.entry? cache) : History cache t' log

namespace History

variable {cache : Location} {t : FileTree} {log : List Request}

/-- **Every build was asked for.** -/
theorem honest (h : History cache t log) {b : Build} (hb : t.Keeps cache b) :
    ∃ r ∈ log, r.Makes b := by
  induction h with
  | start h => exact absurd hb (h b)
  | edit h he ih => exact ih ((FileTree.keeps_congr he).mp hb)
  | load h hm path useCache ih =>
      rcases FileTree.keeps_load hm hb with hb | ⟨r, hr, hmakes⟩
      · obtain ⟨r, hr, hmakes⟩ := ih hb
        exact ⟨r, List.mem_append_right _ hr, hmakes⟩
      · exact ⟨r, List.mem_append_left _ (Option.mem_toList.mpr hr), hmakes⟩

end History

namespace FileTree

/-- **A catalogue changes no more than name and capacity.**  Whenever a load with a catalogue that
was empty at first succeeds, the load without it would succeed.  The images differ in name and
capacity at most, and not at all if every earlier request for the same bytes agrees on these two.
Texts must be shorter than `2 ^ 64` bytes, operations and slots no more than fit into an image,
and the digest must tell the bytes apart from those of the requests. -/
theorem load_cached {cache : Location} {t : FileTree} {log : List Request}
    (h : History cache t log) (hfits : ∀ r ∈ log, ∀ q, r.compiled = .ok q → q.image.Fits)
    {manifest : Manifest} (hm : t.Shares manifest cache) (path : Bytes)
    (hd : ∀ r ∈ log, ∀ s ∈ t.request? manifest path,
      Sha256.Separates (Catalogue.keyStream [Loaded.salt, r.data])
        (Catalogue.keyStream [Loaded.salt, s.data]))
    {p : Loaded} (hp : (t.load manifest path true).1 = .ok p) :
    ∃ q, t.load manifest path false = (.ok q, t) ∧
      p.image = { q.image with name := p.image.name, capacity := p.image.capacity } ∧
      ((∀ r ∈ log, ∀ s ∈ t.request? manifest path, r.data = s.data → r.Agrees s) →
        p.image = q.image) := by
  cases hrequest : t.request? manifest path with
  | none =>
      rw [load_of_request?_eq_none hrequest] at hp
      refine ⟨p, ?_, rfl, fun _ => rfl⟩
      rw [load_of_request?_eq_none hrequest, hp]
  | some s =>
      have hmanifest : s.manifest = manifest := manifest_of_request? hrequest
      have hfetched := fetched_load hrequest
      rw [hp] at hfetched
      rw [load_uncached hrequest]
      have hfresh : s.compiled = .ok p → ∃ q, (s.compiled, t) = (.ok q, t) ∧
          p.image = { q.image with name := p.image.name, capacity := p.image.capacity } ∧
          ((∀ r ∈ log, ∀ s' ∈ some s, r.data = s'.data → r.Agrees s') → p.image = q.image) :=
        fun hs => ⟨p, by rw [hs], rfl, fun _ => rfl⟩
      generalize (t.load manifest path true).2 = t' at hfetched
      generalize hresult : Except.ok p = result at hfetched
      cases hfetched with
      | compiled hk => exact hfresh hresult.symm
      | kept hcache ho hs =>
          cases hresult
          exact hfresh hs
      | hit hcache ho hget =>
          cases hresult
          -- the build was made by a request for the same bytes, and is read as it was written
          obtain ⟨b, hb, hkey, hdecode⟩ := Catalogue.exists_build_of_get hget
          have hkept := ho.keeps_of_mem hb
          rw [hm _ (hmanifest ▸ hcache)] at hkept
          obtain ⟨r, hr, hmakes⟩ := h.honest hkept
          obtain ⟨p', hp', himage⟩ := hmakes.image_eq (hfits r hr) hdecode
          have hsame : r.data = s.data :=
            Loaded.data_eq_of_buildKey_eq (hd r hr s hrequest) (hmakes.1.symm.trans hkey)
          obtain ⟨q, hq, hfields, hagrees⟩ := Request.compiled_of_data_eq hsame hp'
          rw [himage]
          exact ⟨q, by rw [hq], hfields, fun hall => hagrees (hall r hr s rfl hsame)⟩

end FileTree

/-! ### Two files of the same bytes -/

namespace Twins

/-- Bytecode of one instruction. -/
def program : Bytes := Bytes.ascii "push 5c\n"

/-- A project that keeps its builds next to its files. -/
def manifest : Manifest := { Manifest.standard [] with cache := Bytes.ascii "builds" }

/-- The place of the builds. -/
def cache : Location := [Bytes.ascii "builds"]

def first : Request := ⟨manifest, Bytes.ascii "a.tbc", program, rfl⟩

def second : Request := ⟨manifest, Bytes.ascii "b.tbc", program, rfl⟩

/-- The program in two files. -/
def tree : FileTree where
  entries := [([first.path], .file program), ([second.path], .file program)]

/-- The two files and a catalogue. -/
def holding (c : Catalogue) : FileTree := tree.insert cache (.catalogue c)

/-- The image of the program. -/
def image (name : Bytes) : Image :=
  { Image.ofCode name (Bytes.ascii "+++++>") with
    ops := [Bytes.ascii "add(0, 5)", Bytes.ascii "go(1)"]
    extent := 1
    capacity := Manifest.standardCapacity }

/-- The catalogue with the build of the first file. -/
def builds : Catalogue := Catalogue.put {} (Loaded.buildKey program) (image (Bytes.ascii "a"))

theorem read_program : Loaded.read program = .ok ([.push (Bytes.ascii "5c")], {}) := by cbv

theorem compile_program : ∃ o, Output.compile [.push (Bytes.ascii "5c")] (some {}) = .ok o ∧
    ∀ name, Loaded.imageOf name manifest.capacity {} o = image name := by
  have hops : MacroOp.texts [.add 0 5, .go 1] = [Bytes.ascii "add(0, 5)", Bytes.ascii "go(1)"] := by
    cbv
  refine ⟨_, rfl, fun name => ?_⟩
  rw [image, ← hops]
  rfl

theorem compiled_program {r : Request} (hm : r.manifest = manifest) (hd : r.data = program) :
    ∃ p, r.compiled = .ok p ∧ p.image = image (Path.stem r.path) := by
  obtain ⟨o, ho, himage⟩ := compile_program
  rw [Request.compiled, hd, read_program, hm]
  dsimp only
  rw [Loaded.compile, ho]
  exact ⟨_, rfl, himage _⟩

theorem texts_image (name : Bytes) : (image name).texts =
    [name, Bytes.ascii "+++++>", Bytes.ascii "add(0, 5)", Bytes.ascii "go(1)"] := rfl

theorem fits_image {name : Bytes} (h : name.length < 2 ^ 64) : (image name).Fits := by
  have hops : (image name).ops.length = 2 := rfl
  have hframe : (image name).frame.length = 0 := rfl
  refine ⟨fun text ht => ?_, by rw [hops]; decide, by rw [hframe]; decide⟩
  rw [texts_image] at ht
  simp only [List.mem_cons, List.not_mem_nil, or_false] at ht
  rcases ht with rfl | rfl | rfl | rfl
  · exact h
  · decide
  · decide
  · decide

theorem get_builds : builds.get (Loaded.buildKey program) = .ok (image (Bytes.ascii "a")) := by
  have htexts : (image (Bytes.ascii "a")).texts.all Utf8.isValid = true := by
    rw [texts_image]
    cbv
  have hverifies : (image (Bytes.ascii "a")).verifies = true := decide_eq_true rfl
  apply Catalogue.get_put
  rw [Image.decode_encode (fits_image (by decide)) (Sha256.length_digest _), if_pos htexts,
    if_pos hverifies]

/-- Loading the first file keeps its build. -/
theorem load_first : (tree.load manifest first.path true).2 = holding builds := by
  have hr : tree.request? manifest first.path = some first := rfl
  have ho : tree.openCatalogue (Bytes.ascii "builds") = (.ok {}, holding {}) := rfl
  have hmiss : Catalogue.get {} (Loaded.buildKey first.data) = .error .notFound := rfl
  obtain ⟨p, hp, himage⟩ := compiled_program (show first.manifest = manifest from rfl) rfl
  rw [FileTree.load_catalogue hr read_program rfl ho]
  dsimp only
  rw [hmiss, hp]
  dsimp only
  rw [himage]
  rfl

/-- Either file is loaded from a catalogue that has a build of the program. -/
theorem load_holding {c : Catalogue} {img : Image} {path : Bytes} {r : Request}
    (hget : c.get (Loaded.buildKey program) = .ok img) (hm : r.manifest = manifest)
    (hd : r.data = program) (hr : (holding c).request? manifest path = some r) :
    ∃ p, ((holding c).load manifest path true).1 = .ok p ∧ p.cached = true ∧ p.image = img := by
  have ho : (holding c).openCatalogue (Bytes.ascii "builds") = (.ok c, holding c) := rfl
  have hcache : r.manifest.cachePath? = some (Bytes.ascii "builds") := hm ▸ rfl
  have hread : Loaded.read r.data = .ok ([.push (Bytes.ascii "5c")], {}) := hd ▸ read_program
  rw [FileTree.load_catalogue hr hread hcache ho]
  dsimp only
  rw [hd, hget]
  exact ⟨_, rfl, rfl, rfl⟩

theorem shares {t : FileTree} (h : t.current = []) : t.Shares manifest cache := by
  intro p hp
  cases hp
  exact FileTree.placeOf_congr (t := tree) h (Bytes.ascii "builds")

theorem history : History cache (holding builds) [first] := by
  -- nothing is at the place yet, which counts as an empty catalogue
  have hempty : tree.catalogue? cache = some {} := rfl
  have hstart : History cache tree [] := by
    refine .start fun b hb => ?_
    obtain ⟨c, hc, hmem⟩ := hb
    rw [hempty] at hc
    cases hc
    cases hmem
  rw [← load_first]
  exact hstart.load (shares rfl) first.path true

end Twins

namespace FileTree

open Twins (first second holding builds)

/-- The first file is loaded again: the image of the catalogue is the one that compiling gives. -/
theorem load_cached_again : ∃ t log p q, History Twins.cache t log ∧ log ≠ [] ∧
    (t.load Twins.manifest first.path true).1 = .ok p ∧ p.cached = true ∧
    t.load Twins.manifest first.path false = (.ok q, t) ∧ p.image = q.image := by
  have hr : (holding builds).request? Twins.manifest first.path = some first := rfl
  obtain ⟨p, hp, hcached, -⟩ := Twins.load_holding Twins.get_builds rfl rfl hr
  have hfits : ∀ r ∈ [first], ∀ q, r.compiled = .ok q → q.image.Fits := by
    intro r hmem q hq
    obtain rfl := List.mem_singleton.mp hmem
    obtain ⟨q', hq', himage⟩ := Twins.compiled_program (show first.manifest = _ from rfl) rfl
    obtain rfl : q = q' := Except.ok.inj (hq.symm.trans hq')
    rw [himage]
    exact Twins.fits_image (by decide)
  have hall : ∀ r ∈ [first], ∀ s ∈ (holding builds).request? Twins.manifest first.path, r = s := by
    intro r hmem s hs
    rw [List.mem_singleton.mp hmem]
    exact Option.some.inj (hr.symm.trans hs)
  obtain ⟨q, hq, -, hsame⟩ := load_cached Twins.history hfits (Twins.shares rfl) first.path
    (fun r hmem s hs _ => by rw [hall r hmem s hs]) hp
  refine ⟨_, _, p, q, Twins.history, List.cons_ne_nil _ _, hp, hcached, hq, hsame ?_⟩
  intro r hmem s hs _
  rw [hall r hmem s hs]
  exact ⟨rfl, rfl⟩

/-- **A second file of the same bytes is loaded under the name of the first.** -/
theorem load_renamed : ∃ t log p q, History Twins.cache t log ∧
    t.Shares Twins.manifest Twins.cache ∧
    (t.load Twins.manifest (Bytes.ascii "b.tbc") true).1 = .ok p ∧
    t.load Twins.manifest (Bytes.ascii "b.tbc") false = (.ok q, t) ∧
    p.image.name = Bytes.ascii "a" ∧ q.image.name = Bytes.ascii "b" := by
  have hr : (holding builds).request? Twins.manifest (Bytes.ascii "b.tbc") = some second := rfl
  obtain ⟨p, hp, -, himage⟩ := Twins.load_holding Twins.get_builds rfl rfl hr
  obtain ⟨q, hq, himage'⟩ := Twins.compiled_program (show second.manifest = _ from rfl) rfl
  refine ⟨_, _, p, q, Twins.history, Twins.shares rfl, hp, ?_, by rw [himage]; rfl,
    by rw [himage']; rfl⟩
  rw [load_uncached hr, hq]

end FileTree

end StackTape
