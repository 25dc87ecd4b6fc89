import CasKit.Change

/-!
# The pack pair that `create` writes

Which changes `PackFile::create` makes, what the index it wrote says, and when the records it
wrote read back.
-/
namespace CasKit
open Effects Files Codec

section Names
variable (c : Crates) (s : BlobStore) (indexData : Bytes)

theorem packName_ne_nil : PackFile.packName c indexData ≠ [] := by
  have hne : text "pack-" ≠ [] := by decide +kernel
  simp [PackFile.packName, hne]

theorem packName_ascii : ∀ b ∈ PackFile.packName c indexData, b < 0x80 := by
  have hstart : ∀ b ∈ text "pack-", b < 0x80 := by decide +kernel
  intro b hb
  rcases List.mem_append.mp hb with hb | hb
  · exact hstart b hb
  · exact Hash.toHex_ascii _ b hb

theorem isPackName_packPath : IsPackName s.packDir (PackFile.packPath c s.packDir indexData) := by
  refine ⟨_, rfl, isUtf8_ascii fun b hb => ?_, endsWith_iff.mpr ⟨_, rfl⟩⟩
  have hext : ∀ b ∈ dot :: packExt, b < 0x80 := by decide +kernel
  rcases List.mem_append.mp hb with hb | hb
  · exact packName_ascii c indexData b hb
  · exact hext b hb

/-- The name of an index is one that the search for orphans looks at. -/
theorem isIdxName_idxPath : ∃ name, PackFile.idxPath c s.packDir indexData = s.packDir ++ [name] ∧
    endsWith (fromUtf8Lossy name) (dot :: idxExt) = true := by
  refine ⟨_, rfl, ?_⟩
  have hext : ∀ b ∈ dot :: idxExt, b < 0x80 := by decide +kernel
  rw [fromUtf8Lossy_ascii fun b hb => ?_]
  · exact endsWith_iff.mpr ⟨_, rfl⟩
  · rcases List.mem_append.mp hb with hb | hb
    · exact packName_ascii c indexData b hb
    · exact hext b hb

theorem idxOf_packPath : idxOf (PackFile.packPath c s.packDir indexData) =
    PackFile.idxPath c s.packDir indexData :=
  withExtension_append (packName_ne_nil c indexData) packExt_ne_nil dot_not_mem_packExt

theorem packPath_ne_idxPath_in (dir : Path) (indexData' : Bytes) :
    PackFile.packPath c dir indexData ≠ PackFile.idxPath c dir indexData' := by
  intro h
  have hlast := List.append_cancel_left h
  exact packFile_ne_idxFile _ _ (List.singleton_injective hlast)

theorem packPath_ne_idxPath (indexData' : Bytes) :
    PackFile.packPath c s.packDir indexData ≠ PackFile.idxPath c s.packDir indexData' :=
  packPath_ne_idxPath_in c indexData s.packDir indexData'

theorem packName_injective {a b : Bytes} (h : PackFile.packName c a = PackFile.packName c b) :
    hashBytes c a = hashBytes c b := Hash.toHex_injective (List.append_cancel_left h)

theorem packPath_injective {a b : Bytes}
    (h : PackFile.packPath c s.packDir a = PackFile.packPath c s.packDir b) :
    hashBytes c a = hashBytes c b :=
  packName_injective c (List.append_cancel_right
    (List.singleton_injective (List.append_cancel_left h)))

theorem idxPath_injective {a b : Bytes}
    (h : PackFile.idxPath c s.packDir a = PackFile.idxPath c s.packDir b) :
    hashBytes c a = hashBytes c b :=
  packName_injective c (List.append_cancel_right
    (List.singleton_injective (List.append_cancel_left h)))

theorem packPath_congr {a b : Bytes} (h : hashBytes c a = hashBytes c b) :
    PackFile.packPath c s.packDir a = PackFile.packPath c s.packDir b := by
  simp only [PackFile.packPath, PackFile.packName, h]

theorem idxPath_congr {a b : Bytes} (h : hashBytes c a = hashBytes c b) :
    PackFile.idxPath c s.packDir a = PackFile.idxPath c s.packDir b := by
  simp only [PackFile.idxPath, PackFile.packName, h]

end Names

section Contents
variable {c : Crates} {objects : List (Hash × Bytes)} {packData : Bytes}
  {entries : List PackIndexEntry} {h : Hash} {d : Bytes}

theorem length_packObjects (hp : packObjects c objects = .ok (packData, entries)) :
    entries.length = objects.length := (packObjects_spec hp).length_eq.symm

theorem hashes_packObjects (hp : packObjects c objects = .ok (packData, entries)) :
    entries.map PackIndexEntry.hash = objects.map Prod.fst := by
  have hspec := packObjects_spec hp
  clear hp
  induction hspec with
  | nil => rfl
  | cons hhead _ ih => rw [List.map_cons, List.map_cons, hhead.hash, ih]

/-- Each entry of the new index stands for an object. -/
theorem packed_of_mem (hp : packObjects c objects = .ok (packData, entries)) {e : PackIndexEntry}
    (he : e ∈ entries) : ∃ o ∈ objects, Packed c packData o e := by
  obtain ⟨i, hi, rfl⟩ := List.getElem_of_mem he
  have hi' : i < objects.length := by rw [← length_packObjects hp]; exact hi
  have hpacked := (List.forall₂_iff_get.mp (packObjects_spec hp)).2 i hi' hi
  exact ⟨objects[i], List.getElem_mem hi', hpacked⟩

theorem offset_packObjects (hp : packObjects c objects = .ok (packData, entries)) :
    ∀ e ∈ entries, e.offset < 2 ^ 64 := by
  intro e he
  obtain ⟨o, -, hpacked⟩ := packed_of_mem hp he
  exact hpacked.offset

/-- The record that an index entry of a new pack points at, for an object whose data has the
digest it is filed under: it reads back exactly as long as the data fits the cap. -/
theorem decodeRecord_packed (hz : ZstdSound c) {o : Hash × Bytes} {e : PackIndexEntry}
    (hpacked : Packed c packData o e) (hhash : hashBytes c o.2 = o.1) :
    decodeRecord c (packData.drop e.offset) o.1 = .ok o.2 ↔ o.2.length ≤ maxDecompressedSize := by
  constructor
  · intro hd
    exact (decodeRecord_hash hd).2
  · intro hlen
    obtain ⟨compressed, tail, hcomp, hdrop⟩ := hpacked.record
    rw [hdrop]
    exact decodeRecord_objectRecord hz tail hcomp hlen hhash

/-- Looking a hash up in the index of a new pack leads to the record of an object with it. -/
theorem find_packObjects {n : ℕ} {offset : ℕ}
    (hp : packObjects c objects = .ok (packData, entries))
    (hf : (PackIndex.ofEntries (entries.take n)).find h = some offset) :
    ∃ o ∈ objects, o.1 = h ∧ ∃ e, e.offset = offset ∧ Packed c packData o e := by
  obtain ⟨e, he, heh, heo⟩ := PackIndex.find_eq_some hf
  obtain ⟨o, ho, hpacked⟩ := packed_of_mem hp
    (List.mem_of_mem_take (PackIndex.mem_ofEntries.mp he))
  exact ⟨o, ho, hpacked.hash.symm.trans heh, e, heo, hpacked⟩

end Contents

/-! ## The pair on disk -/

section Pair
variable {c : Crates} {s : BlobStore} {objects : List (Hash × Bytes)} {packData : Bytes}
  {entries : List PackIndexEntry} {h : Hash} {d : Bytes} {v : Nodes} {w : World}

/-- The two files that `create` writes for the objects; none if it fails before. -/
def createChanges (c : Crates) (s : BlobStore) (objects : List (Hash × Bytes)) : List Change :=
  match packObjects c objects with
  | .error _ => []
  | .ok (packData, entries) =>
    [.put (PackFile.packPath c s.packDir (serializeIndex entries)) packData,
      .put (PackFile.idxPath c s.packDir (serializeIndex entries)) (serializeIndex entries)]

/-- What a successful `create` returns. -/
def Created (c : Crates) (s : BlobStore) (objects : List (Hash × Bytes)) (r : Path × Path) :
    Prop :=
  ∃ packData entries, packObjects c objects = .ok (packData, entries) ∧
    r = (PackFile.packPath c s.packDir (serializeIndex entries),
      PackFile.idxPath c s.packDir (serializeIndex entries))

theorem createChanges_ok (hp : packObjects c objects = .ok (packData, entries)) :
    createChanges c s objects =
      [.put (PackFile.packPath c s.packDir (serializeIndex entries)) packData,
        .put (PackFile.idxPath c s.packDir (serializeIndex entries)) (serializeIndex entries)] := by
  simp only [createChanges, hp]

theorem path_of_mem_createChanges {ch : Change} (hch : ch ∈ createChanges c s objects) :
    ∃ name, ch.path = s.packDir ++ [name] := by
  unfold createChanges at hch
  cases hp : packObjects c objects with
  | error e => rw [hp] at hch; cases hch
  | ok packed =>
    rw [hp] at hch
    rcases List.mem_cons.mp hch with rfl | hch
    · exact ⟨_, rfl⟩
    · rw [List.mem_singleton.mp hch]
      exact ⟨_, rfl⟩

/-- The part of `create` after the directory is there. -/
theorem performs_create_files : s.Performs (createChanges c s objects) (Created c s objects)
    (do
      let packed ← (Prog.ofExcept (packObjects c objects) :
        Action PackError (Bytes × List PackIndexEntry))
      let indexData := serializeIndex packed.2
      ioPack (writeFile (PackFile.packPath c s.packDir indexData) packed.1)
      ioPack (writeFile (PackFile.idxPath c s.packDir indexData) indexData)
      return (PackFile.packPath c s.packDir indexData,
        PackFile.idxPath c s.packDir indexData)) w := by
  cases hp : packObjects c objects with
  | error e => exact .throw _ e
  | ok packed =>
    obtain ⟨packData, entries⟩ := packed
    rw [createChanges_ok hp]
    have hunder : ∀ name, s.objectsDir <+: s.packDir ++ [name] :=
      fun name => s.objectsDir_prefix_of_packDir [name]
    have hpack : ∀ w, s.Performs [.put (PackFile.packPath c s.packDir (serializeIndex entries))
        packData] (fun _ => True) (ioPack (writeFile _ packData)) w :=
      fun w => (BlobStore.performs_writeFile (hunder _) packData).mapErr
    have hidx : ∀ w, s.Performs [.put (PackFile.idxPath c s.packDir (serializeIndex entries))
        (serializeIndex entries)] (fun _ => True) (ioPack (writeFile _ (serializeIndex entries))) w :=
      fun w => (BlobStore.performs_writeFile (hunder _) _).mapErr
    show s.Performs _ _ (ioPack (writeFile (PackFile.packPath c s.packDir (serializeIndex entries))
      packData) >>= _) w
    refine (hpack w).bind fun _ t _ _ => ?_
    refine (hidx t).bind_nothing fun _ t' _ _ => ?_
    exact .ret ⟨packData, entries, hp, rfl⟩

/-- Creating a pack where the pack directory may have to be made. -/
theorem performs_create : s.Performs
    ([.mkdir s.objectsDir, .mkdir s.packDir] ++ createChanges c s objects) (Created c s objects)
    (PackFile.create c s.packDir objects) w := by
  unfold PackFile.create
  split_ifs with hempty
  · exact .throw _ _
  · have hmk := BlobStore.performs_createDirAll (s := s) (w := w) packDirName
    rw [← s.packDir_eq] at hmk
    exact hmk.mapErr.bind fun _ t _ _ => performs_create_files

/-- Creating a pack where the pack directory is there. -/
theorem performs_create_existing (hdir : w.disk.node s.packDir = some .dir) :
    s.Performs (createChanges c s objects) (Created c s objects)
      (PackFile.create c s.packDir objects) w := by
  have hobj : w.disk.node s.objectsDir = some .dir := by
    have htop : w.disk.IsDir s.objectsDir :=
      Tree.isDir_of_prefix (.inr hdir) s.objectsDir_prefix_packDir
    exact (isDir_iff_node s.objectsDir_ne_nil).mp htop
  unfold PackFile.create
  split_ifs with hempty
  · exact .throw _ _
  · have hmk : s.Performs [] (fun _ => True) (createDirAll s.packDir) w := by
      refine BlobStore.performs_update (r := fun w => w.disk.createDirAll s.packDir) rfl fun t ht => ?_
      funext q
      show s.view t q = s.view w.disk q
      by_cases hq : s.objectsDir <+: q
      · rw [s.view_of_prefix hq, s.view_of_prefix hq]
        rcases Tree.node_createDirAll ht q with h | ⟨hnone, -, hpre⟩
        · exact h
        · have hd := Tree.isDir_of_prefix (t := w.disk) (.inr hdir) hpre
          have hqne : q ≠ [] := by
            rintro rfl
            exact s.objectsDir_ne_nil (List.prefix_nil.mp hq)
          rw [(isDir_iff_node hqne).mp hd] at hnone
          cases hnone
      · simp [BlobStore.view, hq]
    exact hmk.mapErr.bind fun _ t _ _ => performs_create_files

/-- Both files of the pair for the objects are in the view. -/
structure Written (c : Crates) (s : BlobStore) (objects : List (Hash × Bytes)) (packData : Bytes)
    (entries : List PackIndexEntry) (v : Nodes) : Prop where
  created : packObjects c objects = .ok (packData, entries)
  pack : bytesAt v (PackFile.packPath c s.packDir (serializeIndex entries)) = some packData
  idx : bytesAt v (PackFile.idxPath c s.packDir (serializeIndex entries)) =
    some (serializeIndex entries)

/-- Any index of the first entries of a pack leads to the bytes that went into it. -/
theorem recordAt_take {p : Path} {n : ℕ} (hz : ZstdSound c)
    (hcreated : packObjects c objects = .ok (packData, entries))
    (hindex : CasKit.indexAt v p = some (PackIndex.ofEntries (entries.take n)))
    (hpack : bytesAt v p = some packData)
    (hdata : ∀ o ∈ objects, hashBytes c o.2 = o.1) (hone : ∀ o ∈ objects, o.1 = h → o.2 = d)
    (hh : h ∈ (PackIndex.ofEntries (entries.take n)).hashes) :
    recordAt c v p h = some d ↔ d.length ≤ maxDecompressedSize := by
  obtain ⟨offset, hfind⟩ := Option.isSome_iff_exists.mp (PackIndex.find_isSome.mpr hh)
  obtain ⟨o, ho, rfl, e, rfl, hpacked⟩ := find_packObjects hcreated hfind
  have hd : o.2 = d := hone o ho rfl
  have hrecord : recordAt c v p o.1 = (decodeRecord c (packData.drop e.offset) o.1).toOption := by
    rw [CasKit.recordAt, hindex, hpack]
    simp only [Option.bind_eq_bind, Option.bind_some, hfind]
  have hok : ∀ x : Except PackError Bytes, x.toOption = some d ↔ x = .ok d := by
    intro x
    cases x <;> simp [Except.toOption]
  rw [hrecord, hok, ← hd]
  exact decodeRecord_packed hz hpacked (hdata o ho)

/-- The index of a pair, whatever is in the pack. -/
theorem indexAt_of_idx (hcreated : packObjects c objects = .ok (packData, entries))
    (hidx : bytesAt v (PackFile.idxPath c s.packDir (serializeIndex entries)) =
      some (serializeIndex entries)) :
    CasKit.indexAt v (PackFile.packPath c s.packDir (serializeIndex entries)) =
      some (PackIndex.ofEntries (entries.take (objects.length % 2 ^ 32))) := by
  have hparse := parse_serializeIndex [] (offset_packObjects hcreated)
  rw [List.append_nil, length_packObjects hcreated] at hparse
  rw [CasKit.indexAt, idxOf_packPath, hidx]
  show (PackIndex.parse (serializeIndex entries)).toOption = _
  rw [hparse]
  rfl

/-- That index lists what the 32-bit count lets it list. -/
theorem mem_hashes_take {n : ℕ} (hcreated : packObjects c objects = .ok (packData, entries)) :
    h ∈ (PackIndex.ofEntries (entries.take n)).hashes ↔ h ∈ (objects.map Prod.fst).take n := by
  rw [PackIndex.mem_hashes_ofEntries, List.map_take, hashes_packObjects hcreated]

section Written
variable (hw : Written c s objects packData entries v)
include hw

theorem Written.indexAt : indexAt v (PackFile.packPath c s.packDir (serializeIndex entries)) =
    some (PackIndex.ofEntries (entries.take (objects.length % 2 ^ 32))) :=
  indexAt_of_idx hw.created hw.idx

theorem Written.packEntry :
    s.PackEntry v (PackFile.packPath c s.packDir (serializeIndex entries)) := by
  refine ⟨isPackName_packPath c s _, ?_⟩
  rw [bytesAt_eq_some.mp hw.pack]
  rfl

/-- The index lists what the 32-bit count lets it list. -/
theorem Written.lists_iff :
    s.Lists v (PackFile.packPath c s.packDir (serializeIndex entries)) h ↔
      h ∈ (objects.map Prod.fst).take (objects.length % 2 ^ 32) := by
  constructor
  · rintro ⟨-, i, hi, hh⟩
    rw [hw.indexAt] at hi
    obtain rfl := Option.some.inj hi
    exact (mem_hashes_take hw.created).mp hh
  · intro hh
    exact ⟨hw.packEntry, _, hw.indexAt, (mem_hashes_take hw.created).mpr hh⟩

/-- A listed object reads back from the pair exactly if its data fits the cap. -/
theorem Written.recordAt_iff (hz : ZstdSound c)
    (hdata : ∀ o ∈ objects, hashBytes c o.2 = o.1) (hone : ∀ o ∈ objects, o.1 = h → o.2 = d)
    (hl : s.Lists v (PackFile.packPath c s.packDir (serializeIndex entries)) h) :
    recordAt c v (PackFile.packPath c s.packDir (serializeIndex entries)) h = some d ↔
      d.length ≤ maxDecompressedSize := by
  obtain ⟨-, i, hi, hh⟩ := hl
  rw [hw.indexAt] at hi
  obtain rfl := Option.some.inj hi
  exact recordAt_take hz hw.created hw.indexAt hw.pack hdata hone hh

end Written

/-- Where there is a pack there is a pack directory. -/
theorem Written.no_file {t : Tree} (hw : Written c s objects packData entries (s.view t)) :
    bytesAt (s.view t) s.packDir = none := by
  have hpack := bytesAt_eq_some.mp hw.pack
  rw [PackFile.packPath, BlobStore.view_packDir_append] at hpack
  have hparent := Tree.isDir_parent (t := t) (by rw [hpack]; rfl)
  rw [List.dropLast_concat, isDir_iff_node s.packDir_ne_nil] at hparent
  rw [bytesAt, BlobStore.view_packDir, hparent]

end Pair

end CasKit
