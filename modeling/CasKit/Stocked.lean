import CasKit.Addressable
import CasKit.Canonical

/-!
# What the files of a store can hold

The name of a file decides its contents. A loose file is the stored form of the data with its
hash; a pack and its index are made of objects that loose files read as. In such a store a write
never changes what a file holds, so it does not matter which calls were cut off before.
-/
namespace CasKit
open Effects Files Codec

theorem IsPackName.length {s : BlobStore} {p : Path} (hp : IsPackName s.packDir p) :
    p.length = s.objectsDir.length + 2 := by
  obtain ⟨name, rfl, -, -⟩ := hp
  simp [s.packDir_eq]

theorem IsPackName.length_idxOf {s : BlobStore} {p : Path} (hp : IsPackName s.packDir p) :
    (idxOf p).length = s.objectsDir.length + 2 := by
  obtain ⟨name, hname⟩ := idxOf_of_isPackName hp
  simp [hname, s.packDir_eq]

section Contents
variable (c : Crates) (s : BlobStore) (B : Set Bytes)

/-- What the loose file of the hash reads as, whoever of `B` is stored there. -/
def Filed (h : Hash) (d : Bytes) : Prop :=
  ∃ data ∈ B, hashBytes c data = h ∧
    ∃ raw, s.storedForm c data = .ok raw ∧ s.decodeLoose c raw h = .ok d

/-- A pack and its index, made of objects that fit the format. -/
structure Bundle (objects : List (Hash × Bytes)) (packData : Bytes)
    (entries : List PackIndexEntry) : Prop where
  packed : packObjects c objects = .ok (packData, entries)
  count : objects.length < 2 ^ 32
  fits : ∀ o ∈ objects, ∀ frame, compressDefault c o.2 = .ok frame → frame.length < 2 ^ 32
  filed : ∀ o ∈ objects, Filed c s B o.1 o.2
  mem : serializeIndex entries ∈ B

/-- What the file of a path can hold. -/
inductive Legal : Path → Bytes → Prop
  | loose {data raw : Bytes} (hdata : data ∈ B) (hraw : s.storedForm c data = .ok raw) :
      Legal (s.blobPath (hashBytes c data)) raw
  | pack {objects : List (Hash × Bytes)} {packData : Bytes} {entries : List PackIndexEntry}
      (hb : Bundle c s B objects packData entries) :
      Legal (PackFile.packPath c s.packDir (serializeIndex entries)) packData
  | idx {objects : List (Hash × Bytes)} {packData : Bytes} {entries : List PackIndexEntry}
      (hb : Bundle c s B objects packData entries) :
      Legal (PackFile.idxPath c s.packDir (serializeIndex entries)) (serializeIndex entries)

end Contents

variable {c : Crates} {s : BlobStore} {B : Set Bytes} {h : Hash} {d d' b b' : Bytes} {p : Path}
  {objects objects' : List (Hash × Bytes)} {packData packData' : Bytes}
  {entries entries' : List PackIndexEntry} {v u : Nodes}

/-- A verifying handle files data under its own hash only. -/
theorem Filed.hash (hv : s.verifyOnRead = true) (hd : Filed c s B h d) : hashBytes c d = h := by
  obtain ⟨data, -, -, raw, -, hdec⟩ := hd
  exact s.decodeLoose_verified hv hdec

theorem Legal.exists_two (hp : Legal c s B p b) :
    ∃ bucket name, p = s.objectsDir ++ [bucket, name] := by
  cases hp with
  | loose => exact ⟨_, _, s.blobPath_eq⟩
  | pack => exact ⟨packDirName, _, by simp [PackFile.packPath, s.packDir_eq]; rfl⟩
  | idx => exact ⟨packDirName, _, by simp [PackFile.idxPath, s.packDir_eq]; rfl⟩

theorem Legal.length (hp : Legal c s B p b) : p.length = s.objectsDir.length + 2 := by
  obtain ⟨bucket, name, rfl⟩ := hp.exists_two
  simp

/-- The file of a hash is the stored form of data that has it. -/
theorem Legal.at_blobPath (hp : Legal c s B (s.blobPath h) b) :
    ∃ data ∈ B, hashBytes c data = h ∧ s.storedForm c data = .ok b := by
  generalize hq : s.blobPath h = q at hp
  cases hp with
  | loose hdata hraw => exact ⟨_, hdata, (s.blobPath_injective hq).symm, hraw⟩
  | pack => exact absurd hq (s.blobPath_ne_packFile h _)
  | idx => exact absurd hq (s.blobPath_ne_packFile h _)

/-- A file that counts as a pack is one. -/
theorem Legal.at_packName (hname : IsPackName s.packDir p) (hp : Legal c s B p b) :
    ∃ objects entries, Bundle c s B objects b entries ∧
      p = PackFile.packPath c s.packDir (serializeIndex entries) := by
  cases hp with
  | loose =>
    obtain ⟨name, heq, -⟩ := hname
    exact absurd heq (s.blobPath_ne_packFile _ _)
  | pack hb => exact ⟨_, _, hb, rfl⟩
  | idx hb =>
    obtain ⟨name, heq, -, hends⟩ := hname
    obtain ⟨stem, rfl⟩ := endsWith_iff.mp hends
    simp only [PackFile.idxPath, List.append_cancel_left_eq, List.cons.injEq, and_true] at heq
    exact absurd heq.symm (packFile_ne_idxFile _ _)

section Unique
variable (hinj : Set.InjOn (hashBytes c) B)
include hinj

theorem Filed.unique (hd : Filed c s B h d) (hd' : Filed c s B h d') : d = d' := by
  obtain ⟨data, hmem, hhash, raw, hraw, hdec⟩ := hd
  obtain ⟨data', hmem', hhash', raw', hraw', hdec'⟩ := hd'
  obtain rfl := hinj hmem hmem' (hhash.trans hhash'.symm)
  obtain rfl := Except.ok.inj (hraw.symm.trans hraw')
  exact Except.ok.inj (hdec.symm.trans hdec')

/-- Objects are determined by their hashes. -/
theorem objects_unique (hkeys : objects.map Prod.fst = objects'.map Prod.fst)
    (hd : ∀ o ∈ objects, Filed c s B o.1 o.2) (hd' : ∀ o ∈ objects', Filed c s B o.1 o.2) :
    objects = objects' := by
  induction objects generalizing objects' with
  | nil => simpa using hkeys.symm
  | cons o objects ih =>
    cases objects' with
    | nil => simp at hkeys
    | cons o' objects' =>
      simp only [List.map_cons, List.cons.injEq, List.forall_mem_cons] at hkeys hd hd'
      obtain ⟨h1, d1⟩ := o
      obtain ⟨h2, d2⟩ := o'
      obtain ⟨rfl, hkeys⟩ := hkeys
      have hdata : d1 = d2 := hd.1.unique hinj hd'.1
      rw [hdata, ih hkeys hd.2 hd'.2]

/-- Bundles with one name are one bundle. -/
theorem Bundle.unique (hb : Bundle c s B objects packData entries)
    (hb' : Bundle c s B objects' packData' entries')
    (hname : hashBytes c (serializeIndex entries) = hashBytes c (serializeIndex entries')) :
    objects = objects' ∧ packData = packData' ∧ entries = entries' := by
  have heq : entries = entries' := serializeIndex_injective (offset_packObjects hb.packed)
    (offset_packObjects hb'.packed) (hinj hb.mem hb'.mem hname)
  have hobjects : objects = objects' := by
    apply objects_unique hinj _ hb.filed hb'.filed
    rw [← hashes_packObjects hb.packed, ← hashes_packObjects hb'.packed, heq]
  have hpacked := hb.packed.symm.trans (hobjects ▸ hb'.packed)
  simp only [Except.ok.injEq, Prod.mk.injEq] at hpacked
  exact ⟨hobjects, hpacked⟩

/-- The name of a file decides its contents. -/
theorem Legal.unique (hp : Legal c s B p b) (hp' : Legal c s B p b') : b = b' := by
  cases hp with
  | loose hdata hraw =>
    obtain ⟨data', hdata', hhash, hraw'⟩ := hp'.at_blobPath
    obtain rfl := hinj hdata hdata' hhash.symm
    exact Except.ok.inj (hraw.symm.trans hraw')
  | pack hb =>
    obtain ⟨objects', entries', hb', hq⟩ := hp'.at_packName (isPackName_packPath c s _)
    exact (hb.unique hinj hb' (packPath_injective c s hq)).2.1
  | idx hb =>
    generalize hq : PackFile.idxPath c s.packDir _ = q at hp'
    cases hp' with
    | loose => exact absurd hq.symm (s.blobPath_ne_packFile _ _)
    | pack => exact absurd hq.symm (packPath_ne_idxPath c s _ _)
    | idx hb' => rw [(hb.unique hinj hb' (idxPath_injective c s hq)).2.2]

end Unique

/-- A record of a bundle decodes to the data of its object, if to anything. -/
theorem Bundle.decode_eq (hz : ZstdSound c) (hb : Bundle c s B objects packData entries)
    {o : Hash × Bytes} {e : PackIndexEntry} (ho : o ∈ objects) (hpacked : Packed c packData o e)
    (hd : decodeRecord c (packData.drop e.offset) o.1 = .ok d) : o.2 = d := by
  obtain ⟨compressed, tail, hcomp, hdrop⟩ := hpacked.record
  have hback := decompress_compress hz hcomp
  rw [hdrop, decodeRecord, readPayload_objectRecord tail (hb.fits o ho _ hcomp)] at hd
  simp only [bind, Except.bind, hback] at hd
  by_cases hlen : o.2.length ≤ maxDecompressedSize
  · by_cases hhash : hashBytes c o.2 = o.1
    · simpa [hlen, Except.mapError, hhash, pure, Except.pure] using hd
    · simp [hlen, Except.mapError, hhash] at hd
  · simp [hlen, Except.mapError] at hd

/-- A store whose files hold what their names say, with no directories but the buckets. -/
structure Stocked (c : Crates) (s : BlobStore) (B : Set Bytes) (v : Nodes) : Prop where
  files : ∀ p b, v p = some (.file b) → Legal c s B p b
  dirs : ∀ p, v p = some .dir → p.length ≤ s.objectsDir.length + 1

/-- The blob is loose or listed by a pack, and its loose file reads as `d`. -/
def Stored (c : Crates) (s : BlobStore) (B : Set Bytes) (v : Nodes) (h : Hash) (d : Bytes) : Prop :=
  Filed c s B h d ∧ (s.IsLoose v h ∨ ∃ p, s.Lists v p h)

namespace Stocked
variable (hv : Stocked c s B v)
include hv

/-- Two levels below the objects directory there are files only. -/
theorem file_of_isSome (hlen : s.objectsDir.length + 2 ≤ p.length) (hp : (v p).isSome) :
    ∃ b, v p = some (.file b) := by
  obtain ⟨n, hn⟩ := Option.isSome_iff_exists.mp hp
  cases n with
  | file b => exact ⟨b, hn⟩
  | dir => have := hv.dirs p hn; omega

theorem layout : s.Layout v where
  loose bucket name b h hbucket hfile hparse := by
    have hlegal := hv.files _ b hfile
    generalize hq : s.objectsDir ++ [bucket, name] = q at hlegal
    have hpack : ∀ file : Name, s.objectsDir ++ [bucket, name] ≠ s.packDir ++ [file] := by
      intro file heq
      simp only [s.packDir_eq, List.append_assoc, List.append_cancel_left_eq] at heq
      exact hbucket (List.cons.inj heq).1
    cases hlegal with
    | @loose data raw hdata hraw =>
      have heq : [bucket, name] = [(hashBytes c data).toHex.take 2, (hashBytes c data).toHex.drop 2] :=
        List.append_cancel_left (hq.trans s.blobPath_eq)
      have hown : glued (bucket, name) = some (hashBytes c data) := by
        simp only [List.cons.injEq, and_true] at heq
        rw [heq.1, heq.2, BlobStore.glued_toHex]
      have hname : glued (bucket, name) = some h := glued_eq_some.mpr hparse
      rw [hown] at hname
      rw [Option.some.inj hname]
    | pack => exact absurd hq (hpack _)
    | idx => exact absurd hq (hpack _)
  stem := by
    by_contra hne
    have hlen : s.objectsDir.length + 2 ≤ (s.packDir ++ [dot :: packExt]).length := by
      simp [s.packDir_eq]
    obtain ⟨b, hb⟩ := hv.file_of_isSome hlen (Option.isSome_iff_ne_none.mpr hne)
    have hname : IsPackName s.packDir (s.packDir ++ [dot :: packExt]) :=
      ⟨_, rfl, by decide +kernel, by decide +kernel⟩
    obtain ⟨objects, entries, -, heq⟩ := (hv.files _ b hb).at_packName hname
    simp only [PackFile.packPath, List.append_cancel_left_eq, List.cons.injEq, and_true] at heq
    exact packName_ne_nil c (serializeIndex entries) (List.append_cancel_right (heq.symm.trans
      (List.nil_append _).symm))

theorem packDir_no_file : bytesAt v s.packDir = none := by
  by_contra hne
  obtain ⟨b, hb⟩ := Option.ne_none_iff_exists'.mp hne
  have hlen := (hv.files _ b (bytesAt_eq_some.mp hb)).length
  simp [s.packDir_eq] at hlen

/-- What is in the file of a pack name and in the file of its index belongs together. -/
theorem written (hinj : Set.InjOn (hashBytes c) B) (hname : IsPackName s.packDir p)
    (hp : v p = some (.file b)) (hi : v (idxOf p) = some (.file b')) :
    ∃ objects entries, Bundle c s B objects b entries ∧ Written c s objects b entries v ∧
      p = PackFile.packPath c s.packDir (serializeIndex entries) := by
  obtain ⟨objects, entries, hb, rfl⟩ := (hv.files _ _ hp).at_packName hname
  rw [idxOf_packPath] at hi
  obtain rfl := (Legal.idx hb).unique hinj (hv.files _ _ hi)
  exact ⟨objects, entries, hb, ⟨hb.packed, bytesAt_eq_some.mpr hp, bytesAt_eq_some.mpr hi⟩, rfl⟩

/-- What is in the pack directory loads. -/
theorem loadable (hinj : Set.InjOn (hashBytes c) B) : s.Loadable v where
  dir := hv.packDir_no_file
  index p hp := by
    obtain ⟨⟨hname, hsome⟩, hidx⟩ := hp
    obtain ⟨b, hb⟩ := hv.file_of_isSome hname.length.ge hsome
    obtain ⟨b', hb'⟩ := hv.file_of_isSome hname.length_idxOf.ge hidx
    obtain ⟨objects, entries, -, hw, rfl⟩ := hv.written hinj hname hb hb'
    exact ⟨_, hw.indexAt⟩

/-- A pack that lists a hash is one of the store, index and all. -/
theorem written_of_lists (hinj : Set.InjOn (hashBytes c) B) (hl : s.Lists v p h) :
    ∃ objects packData entries, Bundle c s B objects packData entries ∧
      Written c s objects packData entries v ∧ h ∈ objects.map Prod.fst ∧
      p = PackFile.packPath c s.packDir (serializeIndex entries) := by
  obtain ⟨⟨hname, hsome⟩, hidx⟩ := hl.indexed
  obtain ⟨b, hb⟩ := hv.file_of_isSome hname.length.ge hsome
  obtain ⟨b', hb'⟩ := hv.file_of_isSome hname.length_idxOf.ge hidx
  obtain ⟨objects, entries, hbundle, hw, rfl⟩ := hv.written hinj hname hb hb'
  refine ⟨objects, b, entries, hbundle, hw, ?_, rfl⟩
  have hmem := hw.lists_iff.mp hl
  rwa [Nat.mod_eq_of_lt hbundle.count, List.take_of_length_le (by simp)] at hmem

/-- Reading through any pack gives what is filed under the hash. -/
theorem filed_of_recordAt (hz : ZstdSound c) (hinj : Set.InjOn (hashBytes c) B)
    (hname : IsPackName s.packDir p) (hd : recordAt c v p h = some d) : Filed c s B h d := by
  simp only [recordAt, Option.bind_eq_bind, Option.bind_eq_some_iff] at hd
  obtain ⟨index, hindex, offset, hfind, bs, hbs, hd⟩ := hd
  obtain ⟨bi, hbi, -⟩ := Option.bind_eq_some_iff.mp hindex
  obtain ⟨objects, entries, hb, hw, rfl⟩ :=
    hv.written hinj hname (bytesAt_eq_some.mp hbs) (bytesAt_eq_some.mp hbi)
  obtain rfl := Option.some.inj (hw.indexAt.symm.trans hindex)
  obtain ⟨o, ho, rfl, e, rfl, hpacked⟩ := find_packObjects hb.packed hfind
  have hdec : decodeRecord c (bs.drop e.offset) o.1 = .ok d := by
    cases hres : decodeRecord c (bs.drop e.offset) o.1 with
    | error err => simp [hres, Except.toOption] at hd
    | ok d' => simpa [hres, Except.toOption] using hd
  rw [← hb.decode_eq hz ho hpacked hdec]
  exact hb.filed o ho

/-- A pack that lists a hash leads to what is filed under it, within the cap. -/
theorem recordAt_of_lists (hz : ZstdSound c) (hinj : Set.InjOn (hashBytes c) B)
    (hl : s.Lists v p h) (hd : Filed c s B h d) (hhash : hashBytes c d = h)
    (hlen : d.length ≤ maxDecompressedSize) : recordAt c v p h = some d := by
  obtain ⟨objects, packData, entries, hb, hw, -, rfl⟩ := hv.written_of_lists hinj hl
  obtain ⟨-, i, hi, hmem⟩ := hl
  obtain rfl := Option.some.inj (hw.indexAt.symm.trans hi)
  obtain ⟨offset, hfind⟩ := Option.isSome_iff_exists.mp (PackIndex.find_isSome.mpr hmem)
  obtain ⟨o, ho, rfl, e, rfl, hpacked⟩ := find_packObjects hb.packed hfind
  have hdata : o.2 = d := (hb.filed o ho).unique hinj hd
  have hdec := (decodeRecord_packed hz hpacked (hdata ▸ hhash)).mpr (hdata ▸ hlen)
  simp only [recordAt, hi, hfind, hw.pack, hdec, hdata, Option.bind_eq_bind, Option.bind_some]
  rfl

/-- What a freshly opened handle returns is filed and still there. -/
theorem stored_of_readsBack (hz : ZstdSound c) (hinj : Set.InjOn (hashBytes c) B)
    (hr : s.ReadsBack c v h d) : Stored c s B v h d := by
  rcases hr with ⟨raw, hraw, hdec⟩ | ⟨-, -, ⟨p, hl⟩, hall⟩
  · have hfile := bytesAt_eq_some.mp hraw
    obtain ⟨data, hmem, hhash, hform⟩ := (hv.files _ raw hfile).at_blobPath
    exact ⟨⟨data, hmem, hhash, raw, hform, hdec⟩, .inl ⟨raw, hfile⟩⟩
  · exact ⟨hv.filed_of_recordAt hz hinj hl.1.1 (hall p hl), .inr ⟨p, hl⟩⟩

/-- What is filed and there a freshly opened handle returns, if it has the hash and is within the
cap. -/
theorem readsBack_of_stored (hz : ZstdSound c) (hinj : Set.InjOn (hashBytes c) B)
    (hd : Stored c s B v h d) (hhash : hashBytes c d = h) (hlen : d.length ≤ maxDecompressedSize) :
    s.ReadsBack c v h d := by
  obtain ⟨hfiled, hplace⟩ := hd
  by_cases hloose : s.IsLoose v h
  · obtain ⟨raw, hraw⟩ := hloose
    obtain ⟨data, hmem, hhash', raw', hform', hdec⟩ := hfiled
    obtain ⟨data', hmem', hhash'', hform⟩ := (hv.files _ raw hraw).at_blobPath
    obtain rfl := hinj hmem hmem' (hhash'.trans hhash''.symm)
    obtain rfl := Except.ok.inj (hform.symm.trans hform')
    exact .inl ⟨raw, bytesAt_eq_some.mpr hraw, hdec⟩
  · have hnone : v (s.blobPath h) = none := by
      by_contra hsome
      exact hloose (hv.file_of_isSome (by simp [s.blobPath_eq]) (Option.isSome_iff_ne_none.mpr hsome))
    exact .inr ⟨hnone, hv.loadable hinj, hplace.resolve_left hloose,
      fun p hl => hv.recordAt_of_lists hz hinj hl hfiled hhash hlen⟩

end Stocked

end CasKit
