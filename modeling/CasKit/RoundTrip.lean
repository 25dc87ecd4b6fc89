import CasKit.Concrete
import CasKit.Created

/-!
# Round trips of the pack formats

What `serialize_index` writes, `PackIndex::load` reads back in stable order, and no part of it is
taken for a shorter index. What `PackFile::create` writes, `read_blob` returns hash by hash.
-/
namespace CasKit
open Effects Files Codec

/-! ## The index file -/

/-- Sorting keeps the order among elements that are all in relation. -/
theorem filter_insertionSort {α : Type} (r : α → α → Prop) [DecidableRel r] [Std.Total r]
    [IsTrans α r] (q : α → Bool) (hq : ∀ a b, q a = true → q b = true → r a b) (l : List α) :
    (l.insertionSort r).filter q = l.filter q := by
  have hordered : (l.filter q).Pairwise r := by
    refine List.pairwise_of_forall_mem_list fun a ha b hb => ?_
    exact hq a b (List.of_mem_filter ha) (List.of_mem_filter hb)
  have hsub : (l.filter q).Sublist (l.insertionSort r) :=
    List.sublist_insertionSort hordered List.filter_sublist
  have hfilter := hsub.filter q
  rw [List.filter_filter] at hfilter
  simp only [Bool.and_self] at hfilter
  have hlen : (l.filter q).length = ((l.insertionSort r).filter q).length :=
    ((List.perm_insertionSort r l).filter q).length_eq.symm
  exact (hfilter.eq_of_length hlen).symm

/-- The entries by digest, those of one digest in the order they had. -/
structure StablySorted (entries sorted : List PackIndexEntry) : Prop where
  perm : sorted.Perm entries
  ordered : sorted.Pairwise ByHash
  stable : ∀ h, sorted.filter (fun e => e.hash = h) = entries.filter fun e => e.hash = h

theorem stablySorted_ofEntries (entries : List PackIndexEntry) :
    StablySorted entries (PackIndex.ofEntries entries).entries := by
  refine ⟨List.perm_insertionSort _ _, (PackIndex.ofEntries entries).sorted, fun h => ?_⟩
  apply filter_insertionSort
  intro a b ha hb
  have heq : a.hash = b.hash := (of_decide_eq_true ha).trans (of_decide_eq_true hb).symm
  exact le_of_eq heq

section Load
variable {p : Path} {w : World} {bytes : Bytes}

/-- Loading parses what the file holds. -/
theorem run_load (hfile : w.disk.file p = some bytes) : run (PackIndex.load p) w =
    (PackIndex.parse bytes, w) := by
  rw [run_of_reads (load_reads p), peek_load, read_eq_ok.mpr hfile]
  rfl

end Load

/-- The index codec: what is loaded from a serialized index, whatever follows it, and that no
strict prefix of one loads. -/
theorem index_codec {entries : List PackIndexEntry} (hcount : entries.length < 2 ^ 32)
    (hoff : ∀ e ∈ entries, e.offset < 2 ^ 64) :
    (∀ p w extra, w.disk.file p = some (serializeIndex entries ++ extra) →
      ∃ index, run (PackIndex.load p) w = (.ok index, w) ∧ StablySorted entries index.entries ∧
        ∀ h, (∀ offset, index.find h = some offset →
            ∃ e ∈ entries, e.hash = h ∧ e.offset = offset) ∧
          (index.find h = none ↔ ∀ e ∈ entries, e.hash ≠ h)) ∧
    ∀ p w bytes, bytes <+: serializeIndex entries → bytes ≠ serializeIndex entries →
      w.disk.file p = some bytes → ∃ e, run (PackIndex.load p) w = (.error e, w) := by
  have hmod : entries.length % 2 ^ 32 = entries.length := Nat.mod_eq_of_lt hcount
  constructor
  · intro p w extra hfile
    have hparse := parse_serializeIndex extra hoff
    rw [hmod, List.take_length] at hparse
    refine ⟨PackIndex.ofEntries entries, ?_, stablySorted_ofEntries entries, fun h => ⟨?_, ?_⟩⟩
    · rw [run_load hfile, hparse]
    · intro offset hfind
      obtain ⟨e, he, hhash, hoffset⟩ := PackIndex.find_eq_some hfind
      exact ⟨e, PackIndex.mem_ofEntries.mp he, hhash, hoffset⟩
    · rw [PackIndex.find_eq_none, PackIndex.mem_hashes_ofEntries]
      simp
  · intro p w bytes hpre hne hfile
    have hshort : bytes.length < (serializeIndex entries).length :=
      lt_of_le_of_ne hpre.length_le fun heq => hne (hpre.eq_of_length heq)
    have htake := List.prefix_iff_eq_take.mp hpre
    rw [length_serializeIndex] at hshort
    have htorn := (parse_take_serializeIndex bytes.length hoff).2
    rw [hmod, ← htake] at htorn
    obtain ⟨e, he⟩ := htorn hshort
    exact ⟨e, by rw [run_load hfile, he]⟩

/-- A file system whose one file is the index of two entries for the same digest. -/
def twiceDisk : Tree :=
  Concrete.after (ioCas (writeFile [text "i"] (serializeIndex [⟨.zero, 12⟩, ⟨.zero, 57⟩])))
    Tree.empty

/-- Its index lists the digest. -/
theorem index_codec_twice : ∃ index,
    run (PackIndex.load [text "i"]) ⟨twiceDisk, .empty⟩ = (.ok index, ⟨twiceDisk, .empty⟩) ∧
      index.find .zero ≠ none := by
  have hcodec := @index_codec [⟨.zero, 12⟩, ⟨.zero, 57⟩] (by decide) (by decide)
  have hfile : twiceDisk.file [text "i"] =
      some (serializeIndex [⟨.zero, 12⟩, ⟨.zero, 57⟩] ++ []) := by
    decide +kernel
  obtain ⟨index, hload, -, hfind⟩ := hcodec.1 [text "i"] ⟨twiceDisk, .empty⟩ [] hfile
  refine ⟨index, hload, fun hnone => ?_⟩
  have hother := (hfind .zero).2.mp hnone ⟨.zero, 12⟩ List.mem_cons_self
  exact hother rfl

/-! ## The pack file -/

/-- Decompression undoes compression. -/
def RoundTrips (c : Crates) : Prop :=
  ∀ data level frame, c.zstdEncode data level = .ok frame →
    ∃ d, c.zstdDecoder frame = .ok d ∧ d.Delivers data

section Create
variable {c : Crates} {objects : List (Hash × Bytes)} {dir p i : Path} {w w' : World}
  {packData : Bytes} {entries : List PackIndexEntry}

theorem decompress_of_roundTrips (hround : RoundTrips c) {data frame : Bytes}
    (hcomp : compressDefault c data = .ok frame) (hcap : data.length ≤ maxDecompressedSize) :
    decompress c frame = .ok data := by
  obtain ⟨d, hopen, hdelivers⟩ := hround data defaultCompressionLevel frame (compress_ok.mp hcomp)
  have hempty : ([] : Bytes).length ≤ maxDecompressedSize := Nat.zero_le _
  have hloop := decompressLoop_of_delivers hdelivers hempty
  simpa [decompress, hopen, hcap] using hloop

/-- What a file write that returns has done. -/
theorem file_of_write {b : Bytes} (hrun : run (ioPack (writeFile p b)) w = (.ok (), w')) (q : Path) :
    w'.disk.file q = if q = p then some b else w.disk.file q := by
  have hwrite := run_mapErr_eq_ok hrun
  rw [run_writeFile] at hwrite
  cases hdisk : w.disk.write p b with
  | error e =>
    rw [hdisk] at hwrite
    cases hwrite
  | ok t =>
    rw [hdisk] at hwrite
    obtain rfl := (Prod.mk.inj hwrite).2
    exact Tree.file_write hdisk q

/-- The two files that a `create` that returns has left in its directory. -/
theorem create_files (hrun : run (PackFile.create c dir objects) w = (.ok (p, i), w')) :
    ∃ packData entries, packObjects c objects = .ok (packData, entries) ∧
      p = PackFile.packPath c dir (serializeIndex entries) ∧
      i = PackFile.idxPath c dir (serializeIndex entries) ∧
      w'.disk.file p = some packData ∧ w'.disk.file i = some (serializeIndex entries) := by
  unfold PackFile.create at hrun
  split_ifs at hrun with hempty
  · cases hrun
  · obtain ⟨_, u, -, hrest⟩ := run_bind_eq_ok hrun
    obtain ⟨⟨packData, entries⟩, u', hpacked, hwrites⟩ := run_bind_eq_ok hrest
    obtain ⟨_, u₁, hpack, hrest⟩ := run_bind_eq_ok hwrites
    obtain ⟨_, u₂, hidx, hret⟩ := run_bind_eq_ok hrest
    have hobjects : packObjects c objects = .ok (packData, entries) := by
      rw [run, Prog.exec_ofExcept] at hpacked
      exact (Prod.mk.inj hpacked).1
    obtain ⟨hpaths, rfl⟩ := Prod.mk.inj hret
    obtain ⟨rfl, rfl⟩ := Prod.mk.inj (Except.ok.inj hpaths)
    refine ⟨packData, entries, hobjects, rfl, rfl, ?_, ?_⟩
    · -- the index is another file, so the pack is still as it was written
      rw [file_of_write hidx, if_neg (packPath_ne_idxPath_in c _ dir _), file_of_write hpack,
        if_pos rfl]
    · rw [file_of_write hidx, if_pos rfl]

/-- The index entry that a digest is found at belongs to an object with that digest, and its
record reads back. -/
theorem decodeRecord_created (hround : RoundTrips c)
    (hcap : ∀ o ∈ objects, o.2.length ≤ maxDecompressedSize)
    (hpayload : ∀ o ∈ objects, ∀ frame, compressDefault c o.2 = .ok frame → frame.length < 2 ^ 32)
    (hhash : ∀ o ∈ objects, hashBytes c o.2 = o.1)
    (hp : packObjects c objects = .ok (packData, entries)) {h : Hash} {offset : ℕ}
    (hfind : (PackIndex.ofEntries entries).find h = some offset) :
    ∃ o ∈ objects, o.1 = h ∧ decodeRecord c (packData.drop offset) h = .ok o.2 := by
  rw [← List.take_length (l := entries)] at hfind
  obtain ⟨o, ho, rfl, e, rfl, hpacked⟩ := find_packObjects hp hfind
  obtain ⟨compressed, tail, hcomp, hdrop⟩ := hpacked.record
  have hdec := decompress_of_roundTrips hround hcomp (hcap o ho)
  refine ⟨o, ho, rfl, ?_⟩
  rw [hdrop]
  exact decodeRecord_payload _ tail (hpayload o ho compressed hcomp) hdec (hhash o ho)

end Create

/-- Pack files round-trip: every listed digest gives its data back, and no other digest gives
anything. -/
theorem pack_round_trip {c : Crates} {objects : List (Hash × Bytes)} {dir p i : Path}
    {w w' : World} (hround : RoundTrips c) (hcount : objects.length < 2 ^ 32)
    (hcap : ∀ o ∈ objects, o.2.length ≤ maxDecompressedSize)
    (hpayload : ∀ o ∈ objects, ∀ frame, compressDefault c o.2 = .ok frame → frame.length < 2 ^ 32)
    (hhash : ∀ o ∈ objects, hashBytes c o.2 = o.1)
    (hinj : Set.InjOn (hashBytes c) {d | d ∈ objects.map Prod.snd})
    (hrun : run (PackFile.create c dir objects) w = (.ok (p, i), w')) :
    ∃ index, run (PackIndex.load i) w' = (.ok index, w') ∧
      (∀ o ∈ objects, run (PackFile.readBlob c p index o.1) w' = (.ok o.2, w')) ∧
      ∀ h, h ∉ objects.map Prod.fst →
        run (PackFile.readBlob c p index h) w' = (.error (.blobNotFound h.toHex), w') := by
  obtain ⟨packData, entries, hp, rfl, rfl, hpack, hidx⟩ := create_files hrun
  have hlen := length_packObjects hp
  have hload := run_load hidx
  have hparse := parse_serializeIndex [] (offset_packObjects hp)
  rw [List.append_nil, hlen, Nat.mod_eq_of_lt hcount, ← hlen, List.take_length] at hparse
  rw [hparse] at hload
  refine ⟨_, hload, ?_, ?_⟩
  · intro o ho
    have hlisted : o.1 ∈ (PackIndex.ofEntries entries).hashes := by
      rw [PackIndex.mem_hashes_ofEntries, hashes_packObjects hp]
      exact List.mem_map_of_mem ho
    obtain ⟨offset, hfind⟩ := Option.isSome_iff_exists.mp (PackIndex.find_isSome.mpr hlisted)
    obtain ⟨o', ho', heq, hdecode⟩ :=
      decodeRecord_created hround hcap hpayload hhash hp hfind
    -- the object found has the digest of `o`, hence its data
    have hdata : o'.2 = o.2 := by
      apply hinj (List.mem_map_of_mem ho') (List.mem_map_of_mem ho)
      rw [hhash o' ho', hhash o ho, heq]
    rw [run_of_reads (BlobStore.readBlob_reads _ _ _), BlobStore.peek_readBlob.mpr]
    exact ⟨offset, packData, hfind, hpack, by rw [hdecode, hdata]⟩
  · intro h hnot
    have hnone : (PackIndex.ofEntries entries).find h = none := by
      rw [PackIndex.find_eq_none, PackIndex.mem_hashes_ofEntries, hashes_packObjects hp]
      exact hnot
    rw [PackFile.readBlob, hnone]
    rfl

/-- Three objects, one of them twice. -/
def repeatedObjects : List (Hash × Bytes) :=
  [text "g", text "a", text "g"].map fun data => (hashBytes Concrete.crates data, data)

/-- Their pack gives `a` back. -/
theorem pack_round_trip_repeated : ∃ p i w' index,
    run (PackFile.create Concrete.crates [text "p"] repeatedObjects) ⟨Tree.empty, .empty⟩ =
      (.ok (p, i), w') ∧ run (PackIndex.load i) w' = (.ok index, w') ∧
    run (PackFile.readBlob Concrete.crates p index (hashBytes Concrete.crates (text "a"))) w' =
      (.ok (text "a"), w') := by
  have hfacts : (run (PackFile.create Concrete.crates [text "p"] repeatedObjects)
        ⟨Tree.empty, .empty⟩).1.isOk = true ∧
      (∀ o ∈ repeatedObjects, o.2.length ≤ maxDecompressedSize) ∧
      (∀ o ∈ repeatedObjects, hashBytes Concrete.crates o.2 = o.1) ∧
      ∀ d ∈ repeatedObjects.map Prod.snd, ∀ d' ∈ repeatedObjects.map Prod.snd,
        hashBytes Concrete.crates d = hashBytes Concrete.crates d' → d = d' := by
    decide +kernel
  obtain ⟨hok, hcap, hhash, hinj⟩ := hfacts
  obtain ⟨⟨p, i⟩, hrun⟩ := run_eq_ok _ _ hok
  have hz := Concrete.zstdSound
  obtain ⟨index, hload, hlisted, -⟩ := pack_round_trip hz.roundTrip (by decide) hcap
    (fun o ho frame hcomp => hz.bound _ _ _ (compress_ok.mp hcomp) (hcap o ho)) hhash
    (fun d hd d' hd' => hinj d hd d' hd') hrun
  refine ⟨p, i, _, index, hrun, hload, ?_⟩
  exact hlisted (_, text "a") (List.mem_cons_of_mem _ List.mem_cons_self)

end CasKit
