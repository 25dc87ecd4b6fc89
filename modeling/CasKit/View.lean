import CasKit.Naming

/-!
# What a store directory shows

A view gives the node under each path below `objects/`. The notions by which the store is
understood are stated over views: which packs there are, which of them have an index, what
an index lists, what a record decodes to, which hashes are present. The functions that only
look at the disk are then described in these terms.
-/
namespace CasKit
open Effects Files Codec

abbrev Nodes := Path → Option Node

def bytesAt (v : Nodes) (p : Path) : Option Bytes :=
  match v p with
  | some (.file b) => some b
  | _ => none

theorem bytesAt_eq_some {v : Nodes} {p : Path} {b : Bytes} :
    bytesAt v p = some b ↔ v p = some (.file b) := by
  unfold bytesAt
  cases h : v p with
  | none => simp
  | some n => cases n <;> simp

theorem bytesAt_congr {v u : Nodes} {p : Path} (h : v p = u p) : bytesAt v p = bytesAt u p := by
  simp only [bytesAt, h]

theorem bytesAt_node (t : Tree) (p : Path) : bytesAt t.node p = t.file p := rfl

/-- The index that belongs to a pack. -/
def idxOf (p : Path) : Path := withExtension p idxExt

/-- A name that `list_packs` takes for a pack. -/
def IsPackName (dir p : Path) : Prop :=
  ∃ name, p = dir ++ [name] ∧ isUtf8 name = true ∧ endsWith name (dot :: packExt) = true

/-- The parsed index of a pack, where its file is there and loads. -/
def indexAt (v : Nodes) (p : Path) : Option PackIndex :=
  (bytesAt v (idxOf p)).bind fun b => (PackIndex.parse b).toOption

/-- What reading a hash out of a pack through its own index gives. -/
def recordAt (c : Crates) (v : Nodes) (p : Path) (h : Hash) : Option Bytes := do
  let index ← indexAt v p
  let offset ← index.find h
  let bs ← bytesAt v p
  (decodeRecord c (bs.drop offset) h).toOption

namespace BlobStore
variable (c : Crates) (s : BlobStore)

/-- The part of the disk that belongs to the store proper. -/
def view (t : Tree) : Nodes := fun p => if s.objectsDir <+: p then t.node p else none

theorem view_of_prefix {t : Tree} {p : Path} (h : s.objectsDir <+: p) : s.view t p = t.node p :=
  if_pos h

@[simp] theorem view_blobPath (t : Tree) (h : Hash) :
    s.view t (s.blobPath h) = t.node (s.blobPath h) := s.view_of_prefix s.objectsDir_prefix_blobPath

@[simp] theorem view_packDir (t : Tree) : s.view t s.packDir = t.node s.packDir :=
  s.view_of_prefix s.objectsDir_prefix_packDir

@[simp] theorem view_packDir_append (t : Tree) (p : Path) :
    s.view t (s.packDir ++ p) = t.node (s.packDir ++ p) :=
  s.view_of_prefix (s.objectsDir_prefix_of_packDir p)

@[simp] theorem view_objectsDir_append (t : Tree) (p : Path) :
    s.view t (s.objectsDir ++ p) = t.node (s.objectsDir ++ p) :=
  s.view_of_prefix (List.prefix_append _ _)

section Notions
variable (v : Nodes)

/-- An entry of the pack directory that counts as a pack. -/
def PackEntry (p : Path) : Prop := IsPackName s.packDir p ∧ (v p).isSome

/-- A pack next to which there is an index. -/
def Indexed (p : Path) : Prop := s.PackEntry v p ∧ (v (idxOf p)).isSome

/-- Every index that belongs to a pack loads. -/
structure Loadable : Prop where
  dir : bytesAt v s.packDir = none
  index : ∀ p, s.Indexed v p → ∃ i, indexAt v p = some i

/-- The pack is there and its index has the hash. -/
def Lists (p : Path) (h : Hash) : Prop :=
  s.PackEntry v p ∧ ∃ i, indexAt v p = some i ∧ h ∈ i.hashes

/-- Some file two levels down has a name that `list_blobs` takes for the hash. -/
def NamedLoose (h : Hash) : Prop :=
  ∃ bucket name b, bucket ≠ packDirName ∧ v (s.objectsDir ++ [bucket]) = some .dir ∧
    v (s.objectsDir ++ [bucket, name]) = some (.file b) ∧
    Hash.fromHex (fromUtf8Lossy bucket ++ fromUtf8Lossy name) = .ok h

/-- The hash is loose or in a pack. -/
def Present (h : Hash) : Prop := s.NamedLoose v h ∨ ∃ p, s.Lists v p h

/-- The loose file reads back, or there is none and every pack that lists the hash does. -/
def ReadsBack (h : Hash) (d : Bytes) : Prop :=
  (∃ raw, bytesAt v (s.blobPath h) = some raw ∧ s.decodeLoose c raw h = .ok d) ∨
  (v (s.blobPath h) = none ∧ s.Loadable v ∧ (∃ p, s.Lists v p h) ∧
    ∀ p, s.Lists v p h → recordAt c v p h = some d)

end Notions

/-- A freshly opened store returns `d` for `h`, in whatever order its hash map iterates. -/
def Reads (t : Tree) (h : Hash) (d : Bytes) : Prop :=
  ∀ order, (run (s.getBlob c order h) ⟨t, .empty⟩).1 = .ok d

end BlobStore

/-! ## Looking at packs -/

section Convert
variable {α : Type} {t : Tree}

theorem ioPack_reads {p : Action ErrorKind α} (hp : p.Uses Request.Reads) :
    (ioPack p).Uses Request.Reads := hp.mapErr

theorem ioCas_reads {p : Action ErrorKind α} (hp : p.Uses Request.Reads) :
    (ioCas p).Uses Request.Reads := hp.mapErr

theorem packCas_reads {p : Action PackError α} (hp : p.Uses Request.Reads) :
    (packCas p).Uses Request.Reads := hp.mapErr

@[simp] theorem peek_ioPack (p : Action ErrorKind α) :
    peek (ioPack p) t = (peek p t).mapError PackError.io := peek_mapErr _ _

@[simp] theorem peek_ioCas (p : Action ErrorKind α) :
    peek (ioCas p) t = (peek p t).mapError CasError.io := peek_mapErr _ _

@[simp] theorem peek_packCas (p : Action PackError α) :
    peek (packCas p) t = (peek p t).mapError CasError.pack := peek_mapErr _ _

end Convert

section Packs
variable {c : Crates} {t : Tree} {dir p : Path} {h : Hash}

theorem idxOf_of_isPackName (hp : IsPackName dir p) : ∃ name, idxOf p = dir ++ [name] := by
  obtain ⟨name, rfl, -, -⟩ := hp
  simp [idxOf, withExtension]

/-- The index of a pack is no pack. -/
theorem idxOf_ne_of_isPackName (hp : IsPackName dir p) {q : Path} (hq : IsPackName dir q) :
    idxOf p ≠ q := by
  obtain ⟨name, rfl, -, -⟩ := hp
  obtain ⟨name', rfl, -, hext⟩ := hq
  obtain ⟨stem, rfl⟩ := endsWith_iff.mp hext
  have hidx : idxOf (dir ++ [name]) = dir ++ [fileStem name ++ dot :: idxExt] := by
    simp [idxOf, withExtension]
  rw [hidx]
  intro heq
  exact packFile_ne_idxFile _ _ (List.singleton_injective (List.append_cancel_left heq)).symm

theorem load_reads (q : Path) : (PackIndex.load q).Uses Request.Reads :=
  (ioPack_reads (readFile_reads q)).bind fun _ => Prog.Uses.ofExcept _

@[simp] theorem peek_load (q : Path) : peek (PackIndex.load q) t =
    (t.read q).mapError PackError.io >>= PackIndex.parse := by
  rw [PackIndex.load, peek_bind (ioPack_reads (readFile_reads q)), peek_ioPack, peek_readFile]
  simp only [peek_ofExcept]

theorem read_eq_ok {q : Path} {b : Bytes} : t.read q = .ok b ↔ t.file q = some b := by
  unfold Tree.read
  cases hf : t.file q with
  | some b' => simp
  | none => by_cases hd : t.IsDir q <;> simp [hd]

/-- Loading succeeds exactly where the view has a parsed index. -/
theorem peek_load_eq_ok {q : Path} {i : PackIndex} :
    peek (PackIndex.load q) t = .ok i ↔
      ((t.file q).bind fun b => (PackIndex.parse b).toOption) = some i := by
  rw [peek_load]
  cases hr : t.read q with
  | error e =>
    have hf : t.file q = none := by
      cases hf : t.file q with
      | none => rfl
      | some b => rw [read_eq_ok.mpr hf] at hr; cases hr
    simp [hf, Except.mapError, bind, Except.bind]
  | ok b =>
    rw [read_eq_ok.mp hr]
    show PackIndex.parse b = .ok i ↔ (PackIndex.parse b).toOption = some i
    cases PackIndex.parse b <;> simp [Except.toOption]

theorem listPacks_reads (dir : Path) : (PackFile.listPacks dir).Uses Request.Reads := by
  refine (pathExists_reads dir).bind fun there => ?_
  cases there with
  | false => trivial
  | true => exact (readDirectory_reads dir).bind fun _ => trivial

theorem isDir_iff_node {t : Tree} (hdir : dir ≠ []) : t.IsDir dir ↔ t.node dir = some .dir := by
  simp [Tree.IsDir, hdir]

theorem peek_listPacks (dir : Path) : peek (PackFile.listPacks dir) t =
    if t.exists dir then (t.readDir dir).map fun entries =>
      ((entries.filter fun e => isUtf8 e.name && endsWith e.name (dot :: packExt)).map
        fun e => dir ++ [e.name]).insertionSort (· ≤ ·)
    else .ok [] := by
  rw [PackFile.listPacks, peek_bind (pathExists_reads dir), peek_pathExists]
  show peek (if _ then _ else _) t = _
  cases t.exists dir with
  | false => rfl
  | true =>
    show peek (readDirectory dir >>= _) t = _
    rw [peek_bind (readDirectory_reads dir), peek_readDirectory]
    cases t.readDir dir <;> rfl

/-- Without its directory there is no file. -/
theorem node_append_eq_none {name : Name} (hdir : dir ≠ []) (hd : t.node dir ≠ some .dir) :
    t.node (dir ++ [name]) = none := by
  by_contra hne
  have hparent := Tree.isDir_parent (Option.isSome_iff_ne_none.mpr hne)
  rw [List.dropLast_concat, isDir_iff_node hdir] at hparent
  exact hd hparent

/-- The packs of a directory, each once. -/
theorem mem_listPacks (hdir : dir ≠ []) {ps : List Path}
    (h : peek (PackFile.listPacks dir) t = .ok ps) (p : Path) :
    p ∈ ps ↔ IsPackName dir p ∧ (t.node p).isSome := by
  rw [peek_listPacks] at h
  cases hex : t.exists dir with
  | false =>
    rw [hex] at h
    obtain rfl := Except.ok.inj h
    have hnode := (Tree.exists_eq_false hdir).mp hex
    constructor
    · intro hp
      cases hp
    · rintro ⟨⟨name, rfl, -, -⟩, hp⟩
      rw [node_append_eq_none hdir (by rw [hnode]; simp)] at hp
      cases hp
  | true =>
    rw [hex, if_pos rfl] at h
    cases hr : t.readDir dir with
    | error e => rw [hr] at h; cases h
    | ok es =>
      rw [hr] at h
      obtain rfl := Except.ok.inj h
      simp only [List.mem_insertionSort, List.mem_map, List.mem_filter, Tree.mem_readDir hr,
        Bool.and_eq_true]
      constructor
      · rintro ⟨e, ⟨⟨n, hn, -⟩, hname⟩, rfl⟩
        exact ⟨⟨e.name, rfl, hname⟩, by rw [hn]; rfl⟩
      · rintro ⟨⟨name, rfl, hname⟩, hp⟩
        obtain ⟨n, hn⟩ := Option.isSome_iff_exists.mp hp
        exact ⟨⟨name, n == .dir⟩, ⟨⟨n, hn, rfl⟩, hname⟩, rfl⟩

theorem nodup_listPacks {ps : List Path} (h : peek (PackFile.listPacks dir) t = .ok ps) :
    ps.Nodup := by
  rw [peek_listPacks] at h
  cases hex : t.exists dir with
  | false => rw [hex] at h; obtain rfl := Except.ok.inj h; exact List.nodup_nil
  | true =>
    rw [hex, if_pos rfl] at h
    cases hr : t.readDir dir with
    | error e => rw [hr] at h; cases h
    | ok es =>
      rw [hr] at h
      obtain rfl := Except.ok.inj h
      refine (List.perm_insertionSort _ _).nodup_iff.mpr ?_
      have hnames := ((Tree.nodup_readDir hr).of_map).filter
        fun e => isUtf8 e.name && endsWith e.name (dot :: packExt)
      refine hnames.map_on ?_
      intro a ha b hb hab
      have hname : a.name = b.name := by simpa using hab
      exact List.inj_on_of_nodup_map (Tree.nodup_readDir hr) (List.mem_filter.mp ha).1
        (List.mem_filter.mp hb).1 hname

theorem sorted_listPacks {ps : List Path} (h : peek (PackFile.listPacks dir) t = .ok ps) :
    ps.Pairwise (· ≤ ·) := by
  rw [peek_listPacks] at h
  cases hex : t.exists dir with
  | false => rw [hex] at h; obtain rfl := Except.ok.inj h; exact List.Pairwise.nil
  | true =>
    rw [hex, if_pos rfl] at h
    cases hr : t.readDir dir with
    | error e => rw [hr] at h; cases h
    | ok es =>
      rw [hr] at h
      obtain rfl := Except.ok.inj h
      exact List.pairwise_insertionSort _ _

/-- Listing fails only where something that is no directory is in the way. -/
theorem listPacks_ok_iff (hdir : dir ≠ []) :
    (∃ ps, peek (PackFile.listPacks dir) t = .ok ps) ↔ t.file dir = none := by
  rw [peek_listPacks]
  cases hn : t.node dir with
  | none =>
    have hex : t.exists dir = false := (Tree.exists_eq_false hdir).mpr hn
    simp [hex, Tree.file_eq_none_of_node hn]
  | some n =>
    have hex : t.exists dir = true := by simp [Tree.exists, hn]
    cases n with
    | dir =>
      obtain ⟨es, hes⟩ := Tree.readDir_ok (.inr hn)
      simp [hex, hes, Tree.file, hn, Except.map]
    | file b =>
      have hd : ¬ t.IsDir dir := by simp [Tree.IsDir, hdir, hn]
      simp [hex, Tree.readDir, hd, hn, Tree.file, Except.map]

end Packs

/-! ## The view of the packs -/

namespace BlobStore
variable (s : BlobStore) {t : Tree} {p : Path}

theorem view_packName (hp : IsPackName s.packDir p) : s.view t p = t.node p := by
  obtain ⟨name, rfl, -, -⟩ := hp
  exact s.view_packDir_append t [name]

theorem view_idxOf (hp : IsPackName s.packDir p) : s.view t (idxOf p) = t.node (idxOf p) := by
  obtain ⟨name, hname⟩ := idxOf_of_isPackName hp
  rw [hname]
  exact s.view_packDir_append t [name]

theorem indexAt_view (hp : IsPackName s.packDir p) :
    indexAt (s.view t) p = indexAt t.node p := by
  simp only [indexAt, bytesAt_congr (s.view_idxOf hp)]

theorem recordAt_view (c : Crates) (hp : IsPackName s.packDir p) (h : Hash) :
    recordAt c (s.view t) p h = recordAt c t.node p h := by
  simp only [recordAt, s.indexAt_view hp, bytesAt_congr (s.view_packName hp)]

theorem packEntry_view : s.PackEntry (s.view t) p ↔ IsPackName s.packDir p ∧ (t.node p).isSome := by
  constructor
  · rintro ⟨hp, hv⟩
    exact ⟨hp, by rwa [s.view_packName hp] at hv⟩
  · rintro ⟨hp, hv⟩
    exact ⟨hp, by rwa [s.view_packName hp]⟩

theorem mem_listPacks_view {ps : List Path} (h : peek (PackFile.listPacks s.packDir) t = .ok ps)
    (p : Path) : p ∈ ps ↔ s.PackEntry (s.view t) p := by
  rw [mem_listPacks s.packDir_ne_nil h, packEntry_view]

/-- The entries of the pack directory that count as packs. -/
def packsOn (t : Tree) : List Path := (peek (PackFile.listPacks s.packDir) t).toOption.getD []

theorem mem_packsOn (hdir : t.file s.packDir = none) (p : Path) :
    p ∈ s.packsOn t ↔ s.PackEntry (s.view t) p := by
  obtain ⟨ps, hps⟩ := (listPacks_ok_iff s.packDir_ne_nil).mpr hdir
  rw [packsOn, hps]
  exact s.mem_listPacks_view hps p

/-- Going through the packs finds a hash that reads back. -/
theorem packed_of_packsOn {s : BlobStore} {c : Crates} {h : Hash} {d : Bytes} (hdir : t.file s.packDir = none)
    (hsome : ∃ p ∈ s.packsOn t, ∃ i ∈ indexAt (s.view t) p, h ∈ i.hashes)
    (hall : ∀ p ∈ s.packsOn t, ∀ i ∈ indexAt (s.view t) p, h ∈ i.hashes →
      recordAt c (s.view t) p h = some d) :
    (∃ p, s.Lists (s.view t) p h) ∧
      ∀ p, s.Lists (s.view t) p h → recordAt c (s.view t) p h = some d := by
  constructor
  · obtain ⟨p, hp, i, hi, hh⟩ := hsome
    exact ⟨p, (s.mem_packsOn hdir p).mp hp, i, hi, hh⟩
  · intro p hlists
    obtain ⟨hp, i, hi, hh⟩ := hlists
    exact hall p ((s.mem_packsOn hdir p).mpr hp) i hi hh

/-- A pack that an index speaks for has one on disk. -/
theorem lists_of_packsOn {s : BlobStore} {h : Hash} (hdir : t.file s.packDir = none)
    (hp : p ∈ s.packsOn t) (hi : (indexAt (s.view t) p).any (fun i => decide (h ∈ i.hashes)) = true) :
    s.Lists (s.view t) p h := by
  obtain ⟨i, hindex, hh⟩ := Option.any_eq_true _ _ |>.mp hi
  exact ⟨(s.mem_packsOn hdir p).mp hp, i, hindex, of_decide_eq_true hh⟩

/-- Two views of the same pack directory. -/
structure SamePacks (v u : Nodes) : Prop where
  dir : u s.packDir = v s.packDir
  files : ∀ name, u (s.packDir ++ [name]) = v (s.packDir ++ [name])

section SamePacks
variable {s} {c : Crates} {v u : Nodes} {h : Hash} {d : Bytes} (hu : s.SamePacks v u)
include hu

theorem SamePacks.same (hp : IsPackName s.packDir p) : u p = v p ∧ u (idxOf p) = v (idxOf p) := by
  obtain ⟨idx, hidx⟩ := idxOf_of_isPackName hp
  obtain ⟨name, rfl, -, -⟩ := hp
  rw [hidx]
  exact ⟨hu.files name, hu.files idx⟩

theorem SamePacks.indexAt_eq (hp : IsPackName s.packDir p) : indexAt u p = indexAt v p := by
  simp only [indexAt, bytesAt_congr (hu.same hp).2]

theorem SamePacks.recordAt_eq (hp : IsPackName s.packDir p) :
    recordAt c u p h = recordAt c v p h := by
  simp only [recordAt, hu.indexAt_eq hp, bytesAt_congr (hu.same hp).1]

theorem SamePacks.packEntry_iff : s.PackEntry u p ↔ s.PackEntry v p := by
  unfold PackEntry
  refine and_congr_right fun hp => ?_
  rw [(hu.same hp).1]

theorem SamePacks.lists_iff : s.Lists u p h ↔ s.Lists v p h := by
  unfold Lists
  rw [hu.packEntry_iff]
  refine and_congr_right fun hp => ?_
  rw [hu.indexAt_eq hp.1]

theorem SamePacks.loadable_iff : s.Loadable u ↔ s.Loadable v := by
  have hindexed : ∀ p, s.Indexed u p ↔ s.Indexed v p := by
    intro p
    unfold Indexed
    rw [hu.packEntry_iff]
    refine and_congr_right fun hp => ?_
    rw [(hu.same hp.1).2]
  have hdir : bytesAt u s.packDir = none ↔ bytesAt v s.packDir = none := by
    rw [bytesAt_congr hu.dir]
  constructor
  · intro hload
    refine ⟨hdir.mp hload.dir, fun p hp => ?_⟩
    rw [← hu.indexAt_eq hp.1.1]
    exact hload.index p ((hindexed p).mpr hp)
  · intro hload
    refine ⟨hdir.mpr hload.dir, fun p hp => ?_⟩
    rw [hu.indexAt_eq hp.1.1]
    exact hload.index p ((hindexed p).mp hp)

end SamePacks

theorem Lists.indexed {v : Nodes} {h : Hash} (hl : s.Lists v p h) : s.Indexed v p := by
  obtain ⟨hp, i, hi, -⟩ := hl
  refine ⟨hp, ?_⟩
  obtain ⟨b, hb, -⟩ := Option.bind_eq_some_iff.mp hi
  rw [bytesAt_eq_some.mp hb]
  rfl

end BlobStore

end CasKit
