import CasKit.Calls
import CasKit.Concrete
import CasKit.Layout

/-!
# Tidy stores

A store is tidy when its pack directory holds nothing but whole pairs, each under the name that
the bytes of its index give it, and every loose file lies at the path of its hash. Completed
calls leave a tidy store tidy, whatever the caches of the handle say.
-/
namespace CasKit
open Effects Files Codec

/-- The pack and the index of one name, with the index bytes `b`. -/
structure Pair (c : Crates) (s : BlobStore) (v : Nodes) (b : Bytes) : Prop where
  loads : ∃ i, PackIndex.parse b = .ok i
  pack : ∃ data, v (PackFile.packPath c s.packDir b) = some (.file data)
  idx : v (PackFile.idxPath c s.packDir b) = some (.file b)

structure Tidy (c : Crates) (s : BlobStore) (v : Nodes) : Prop where
  layout : s.Layout v
  complete : ∀ name, (v (s.packDir ++ [name])).isSome → ∃ b, Pair c s v b ∧
    (s.packDir ++ [name] = PackFile.packPath c s.packDir b ∨
      s.packDir ++ [name] = PackFile.idxPath c s.packDir b)
  dirs : bytesAt v s.objectsDir = none ∧ bytesAt v s.packDir = none
  files : ∀ h, v (s.blobPath h) ≠ some .dir

/-- All names are as the store makes them, those of the packs included. -/
structure Canonical (c : Crates) (s : BlobStore) (v : Nodes) : Prop where
  layout : s.Layout v
  named : ∀ p, s.Indexed v p →
    ∃ b, bytesAt v (idxOf p) = some b ∧ p = PackFile.packPath c s.packDir b

section Facts
variable {c : Crates} {s : BlobStore} {v : Nodes} {p q : Path} {b : Bytes}

theorem Pair.indexAt (hb : Pair c s v b) :
    ∃ i, CasKit.indexAt v (PackFile.packPath c s.packDir b) = some i := by
  obtain ⟨i, hi⟩ := hb.loads
  refine ⟨i, ?_⟩
  rw [CasKit.indexAt, idxOf_packPath, bytesAt_eq_some.mpr hb.idx]
  show (PackIndex.parse b).toOption = some i
  rw [hi]
  rfl

theorem Tidy.pair_of_packEntry (ht : Tidy c s v) (hp : s.PackEntry v p) :
    ∃ b, Pair c s v b ∧ p = PackFile.packPath c s.packDir b := by
  obtain ⟨⟨name, rfl, -, hext⟩, hsome⟩ := hp
  obtain ⟨b, hb, heq | heq⟩ := ht.complete name hsome
  · exact ⟨b, hb, heq⟩
  · obtain ⟨stem, rfl⟩ := endsWith_iff.mp hext
    exact absurd (List.singleton_injective (List.append_cancel_left heq)) (packFile_ne_idxFile _ _)

theorem Tidy.pair_of_idx (ht : Tidy c s v) (hp : IsPackName s.packDir p)
    (hsome : (v (idxOf p)).isSome) : ∃ b, Pair c s v b ∧ p = PackFile.packPath c s.packDir b := by
  obtain ⟨name, hname⟩ := idxOf_of_isPackName hp
  rw [hname] at hsome
  obtain ⟨b, hb, hcase⟩ := ht.complete name hsome
  rw [← hname] at hcase
  refine ⟨b, hb, ?_⟩
  rcases hcase with hcase | hcase
  · exact absurd hcase (idxOf_ne_of_isPackName hp (isPackName_packPath c s b))
  · by_contra hne
    exact BlobStore.idxOf_ne_idxPath hp hne hcase

theorem Tidy.canonical (ht : Tidy c s v) : Canonical c s v := by
  refine ⟨ht.layout, fun p hp => ?_⟩
  obtain ⟨b, hb, rfl⟩ := ht.pair_of_packEntry hp.1
  exact ⟨b, by rw [idxOf_packPath]; exact bytesAt_eq_some.mpr hb.idx, rfl⟩

theorem Tidy.loadable (ht : Tidy c s v) : s.Loadable v := by
  refine ⟨ht.dirs.2, fun p hp => ?_⟩
  obtain ⟨b, hb, rfl⟩ := ht.pair_of_packEntry hp.1
  exact hb.indexAt

/-- A tidy store has no orphans. -/
theorem Tidy.no_orphan (ht : Tidy c s v) : ¬ (s.OrphanPack v q ∨ s.OrphanIdx v q) := by
  rintro (⟨hp, hnone⟩ | ⟨name, rfl, -, hsome, hnone⟩)
  · obtain ⟨b, hb, rfl⟩ := ht.pair_of_packEntry hp
    rw [idxOf_packPath, hb.idx] at hnone
    cases hnone
  · obtain ⟨b, hb, heq⟩ := ht.complete name hsome
    obtain ⟨data, hdata⟩ := hb.pack
    have hback : withExtension (s.packDir ++ [name]) packExt = PackFile.packPath c s.packDir b := by
      have hnamed : s.PackNamed (PackFile.packPath c s.packDir b) := BlobStore.packNamed_packPath c b
      rcases heq with heq | heq
      · rw [heq, hnamed.packOf_self]
      · rw [heq, ← idxOf_packPath, hnamed.packOf_idxOf]
    rw [hback, hdata] at hnone
    cases hnone

end Facts

/-! ## Single changes -/

section Changes
variable {c : Crates} {s : BlobStore} {v u : Nodes} {h : Hash} {p : Path} {b raw packData : Bytes}

theorem length_objectsDir_lt_packFile (name : Name) :
    s.objectsDir.length + 1 < (s.packDir ++ [name]).length := by
  simp [BlobStore.objectsDir, BlobStore.packDir]

/-- A view in which the same files are in the pack directory, and no loose file has a name of its
own, is tidy like the first. -/
theorem Tidy.of_packs_eq (ht : Tidy c s v) (hpacks : ∀ name, u (s.packDir ++ [name]) =
      v (s.packDir ++ [name]))
    (hloose : ∀ bucket name b, u (s.objectsDir ++ [bucket, name]) = some (.file b) →
      v (s.objectsDir ++ [bucket, name]) = some (.file b) ∨
        ∃ h, s.objectsDir ++ [bucket, name] = s.blobPath h)
    (hdirs : bytesAt u s.objectsDir = none ∧ bytesAt u s.packDir = none)
    (hfiles : ∀ h, u (s.blobPath h) ≠ some .dir) : Tidy c s u where
  layout := by
    refine ⟨fun bucket name b h hbucket hfile hhex => ?_, ?_⟩
    · rcases hloose bucket name b hfile with hold | ⟨h', heq⟩
      · exact ht.layout.loose bucket name b h hbucket hold hhex
      · have hnames : bucket = h'.toHex.take 2 ∧ name = h'.toHex.drop 2 := by
          rw [BlobStore.blobPath_eq] at heq
          have hlast := List.append_cancel_left heq
          simpa using hlast
        have hascii := Hash.toHex_ascii h'
        rw [hnames.1, hnames.2, fromUtf8Lossy_ascii fun b hb => hascii b (List.mem_of_mem_take hb),
          fromUtf8Lossy_ascii fun b hb => hascii b (List.mem_of_mem_drop hb),
          List.take_append_drop, Hash.fromHex_toHex] at hhex
        rw [heq, Except.ok.inj hhex]
    · rw [hpacks]
      exact ht.layout.stem
  complete name hsome := by
    rw [hpacks] at hsome
    obtain ⟨b, ⟨hloads, ⟨data, hdata⟩, hidx⟩, heq⟩ := ht.complete name hsome
    exact ⟨b, ⟨hloads, ⟨data, (hpacks _).trans hdata⟩, (hpacks _).trans hidx⟩, heq⟩
  dirs := hdirs
  files := hfiles

theorem bytesAt_mkdir (q : Path) : bytesAt ((Change.mkdir p).apply v) q = bytesAt v q := by
  unfold bytesAt Change.apply
  by_cases hq : q = p ∧ v q = none
  · obtain ⟨rfl, hnone⟩ := hq
    simp [hnone]
  · simp only [hq, if_false]

/-- Making a directory that is no deeper than a bucket. -/
theorem Tidy.mkdir (ht : Tidy c s v) (hp : p.length ≤ s.objectsDir.length + 1) :
    Tidy c s ((Change.mkdir p).apply v) := by
  refine ht.of_packs_eq (fun name => ?_) (fun bucket name b hfile => ?_) ?_ fun h => ?_
  · refine Change.apply_of_ne fun heq => ?_
    have hlen := length_objectsDir_lt_packFile (s := s) name
    rw [heq] at hlen
    simp only [Change.path] at hlen
    omega
  · rw [← bytesAt_eq_some, bytesAt_mkdir, bytesAt_eq_some] at hfile
    exact .inl hfile
  · rw [bytesAt_mkdir, bytesAt_mkdir]
    exact ht.dirs
  · rw [Change.apply_of_ne]
    · exact ht.files h
    · intro heq
      have hlen := congrArg List.length heq
      rw [BlobStore.blobPath_eq, List.length_append] at hlen
      simp only [Change.path, List.length_cons, List.length_nil] at hlen
      omega

/-- Putting a loose file at the path of a hash. -/
theorem Tidy.putLoose (ht : Tidy c s v) : Tidy c s ((Change.put (s.blobPath h) raw).apply v) := by
  refine ht.of_packs_eq (fun name => ?_) (fun bucket name b hfile => ?_) ?_ fun h' => ?_
  · exact Change.apply_of_ne fun heq => s.blobPath_ne_packFile h name heq.symm
  · by_cases heq : s.objectsDir ++ [bucket, name] = s.blobPath h
    · exact .inr ⟨h, heq⟩
    · rw [@Change.apply_of_ne (.put (s.blobPath h) raw) _ _ heq] at hfile
      exact .inl hfile
  · have h1 : s.objectsDir ≠ (Change.put (s.blobPath h) raw).path := (s.blobPath_ne_objectsDir h).symm
    have h2 : s.packDir ≠ (Change.put (s.blobPath h) raw).path := (s.blobPath_ne_packDir h).symm
    rw [bytesAt_congr (Change.apply_of_ne h1), bytesAt_congr (Change.apply_of_ne h2)]
    exact ht.dirs
  · intro hdir
    simp only [Change.apply] at hdir
    split_ifs at hdir
    · cases hdir
    · exact ht.files h' hdir

theorem Tidy.dropLoose (ht : Tidy c s v) : Tidy c s ((Change.drop (s.blobPath h)).apply v) := by
  refine ht.of_packs_eq (fun name => ?_) (fun bucket name b hfile => ?_) ?_ fun h' => ?_
  · exact Change.apply_of_ne fun heq => s.blobPath_ne_packFile h name heq.symm
  · by_cases heq : s.objectsDir ++ [bucket, name] = s.blobPath h
    · exact .inr ⟨h, heq⟩
    · rw [@Change.apply_of_ne (.drop (s.blobPath h)) _ _ heq] at hfile
      exact .inl hfile
  · have h1 : s.objectsDir ≠ (Change.drop (s.blobPath h)).path := (s.blobPath_ne_objectsDir h).symm
    have h2 : s.packDir ≠ (Change.drop (s.blobPath h)).path := (s.blobPath_ne_packDir h).symm
    rw [bytesAt_congr (Change.apply_of_ne h1), bytesAt_congr (Change.apply_of_ne h2)]
    exact ht.dirs
  · intro hdir
    simp only [Change.apply] at hdir
    split_ifs at hdir
    exact ht.files h' hdir

/-- Putting a pair whose index loads: an old pair of the same name gives way to it. -/
theorem Tidy.putPair (ht : Tidy c s v) (hload : ∃ i, PackIndex.parse b = .ok i) :
    Tidy c s (changed [.put (PackFile.packPath c s.packDir b) packData,
      .put (PackFile.idxPath c s.packDir b) b] v) := by
  have hnode : ∀ q, changed [.put (PackFile.packPath c s.packDir b) packData,
      .put (PackFile.idxPath c s.packDir b) b] v q =
        if q = PackFile.idxPath c s.packDir b then some (.file b)
        else if q = PackFile.packPath c s.packDir b then some (.file packData) else v q :=
    fun q => rfl
  have hother : ∀ q, q ≠ PackFile.packPath c s.packDir b → q ≠ PackFile.idxPath c s.packDir b →
      changed [.put (PackFile.packPath c s.packDir b) packData,
        .put (PackFile.idxPath c s.packDir b) b] v q = v q := by
    intro q h1 h2
    rw [hnode, if_neg h2, if_neg h1]
  have hpair : Pair c s (changed [.put (PackFile.packPath c s.packDir b) packData,
      .put (PackFile.idxPath c s.packDir b) b] v) b := by
    refine ⟨hload, ⟨packData, ?_⟩, ?_⟩
    · rw [hnode, if_neg (packPath_ne_idxPath c s b b), if_pos rfl]
    · rw [hnode, if_pos rfl]
  constructor
  · refine ⟨fun bucket name b' h hbucket hfile hhex => ?_, ?_⟩
    · refine ht.layout.loose bucket name b' h hbucket ?_ hhex
      have hne : ∀ name', s.objectsDir ++ [bucket, name] ≠ s.packDir ++ [name'] := by
        intro name' heq
        rw [BlobStore.packDir_eq, List.append_assoc] at heq
        have hlast := List.append_cancel_left heq
        simp only [List.cons_append, List.nil_append, List.cons.injEq] at hlast
        exact hbucket hlast.1
      rwa [hother _ (hne _) (hne _)] at hfile
    · rw [hother]
      · exact ht.layout.stem
      · intro heq
        have hlast := List.singleton_injective (List.append_cancel_left heq)
        exact packName_ne_nil c b (List.append_left_eq_self.mp hlast.symm)
      · intro heq
        exact packFile_ne_idxFile [] _ (List.singleton_injective (List.append_cancel_left heq))
  · intro name hsome
    by_cases h1 : s.packDir ++ [name] = PackFile.packPath c s.packDir b
    · exact ⟨b, hpair, .inl h1⟩
    by_cases h2 : s.packDir ++ [name] = PackFile.idxPath c s.packDir b
    · exact ⟨b, hpair, .inr h2⟩
    rw [hother _ h1 h2] at hsome
    obtain ⟨b', ⟨hloads, ⟨data, hdata⟩, hidx⟩, heq⟩ := ht.complete name hsome
    have hne : hashBytes c b' ≠ hashBytes c b := by
      intro hash
      rcases heq with heq | heq
      · exact h1 (heq.trans (packPath_congr c s hash))
      · exact h2 (heq.trans (idxPath_congr c s hash))
    refine ⟨b', ⟨hloads, ⟨data, ?_⟩, ?_⟩, heq⟩
    · rw [hother _ (fun hp => hne (packPath_injective c s hp)) (packPath_ne_idxPath c s b' b)]
      exact hdata
    · rw [hother _ (fun hp => packPath_ne_idxPath c s b b' hp.symm)
        fun hp => hne (idxPath_injective c s hp)]
      exact hidx
  · have hne : s.objectsDir ≠ PackFile.packPath c s.packDir b ∧
        s.objectsDir ≠ PackFile.idxPath c s.packDir b := by
      constructor
      · intro heq
        have hlen := congrArg List.length heq
        simp [PackFile.packPath, BlobStore.packDir, BlobStore.objectsDir] at hlen
      · intro heq
        have hlen := congrArg List.length heq
        simp [PackFile.idxPath, BlobStore.packDir, BlobStore.objectsDir] at hlen
    rw [bytesAt_congr (hother _ hne.1 hne.2), bytesAt_congr (hother _
      (s.packDir_ne_packFile _) (s.packDir_ne_packFile _))]
    exact ht.dirs
  · intro h
    rw [hother _ (s.blobPath_ne_packFile h _) (s.blobPath_ne_packFile h _)]
    exact ht.files h

end Changes

/-! ## Completed calls -/

section Steps
variable {c : Crates} {s : BlobStore} {v : Nodes} {t : Tree} {caches : Caches} {w : World}

theorem Tidy.createChanges {objects : List (Hash × Bytes)} (ht : Tidy c s v) :
    Tidy c s (changed ([.mkdir s.objectsDir, .mkdir s.packDir] ++ createChanges c s objects) v) := by
  have hdirs : Tidy c s (changed [.mkdir s.objectsDir, .mkdir s.packDir] v) := by
    have hlen : s.packDir.length = s.objectsDir.length + 1 := by
      simp [BlobStore.objectsDir, BlobStore.packDir]
    exact (ht.mkdir (by omega)).mkdir (by omega)
  rw [changed, Prog.after_append]
  cases hp : packObjects c objects with
  | error e =>
    rw [show CasKit.createChanges c s objects = [] by simp only [CasKit.createChanges, hp]]
    exact hdirs
  | ok packed =>
    rw [createChanges_ok hp]
    have hparse := parse_serializeIndex [] (offset_packObjects hp)
    rw [List.append_nil] at hparse
    exact hdirs.putPair ⟨_, hparse⟩

/-- A completed put leaves a tidy store tidy. -/
theorem Tidy.put {call : BlobStore.PutCall} (ht : Tidy c s (s.view t))
    (hrun : run (call.action c s) ⟨t, caches⟩ = (.ok (), w)) : Tidy c s (s.view w.disk) := by
  obtain ⟨cs, hshape, hperf⟩ := BlobStore.performs_put (c := c) (s := s) (w := ⟨t, caches⟩) call
  obtain ⟨hview, -⟩ := hperf.at_ok hrun
  rw [hview]
  have hmk : ∀ h : Hash, Tidy c s (changed [.mkdir s.objectsDir,
      .mkdir (s.objectsDir ++ [h.toHex.take 2])] (s.view t)) := by
    intro h
    refine (ht.mkdir (by omega)).mkdir ?_
    simp
  cases hshape with
  | nothing => exact ht
  | dirs h => exact hmk h
  | stored hraw habs => exact (hmk _).putLoose

theorem Tidy.create {objects : List (Hash × Bytes)} {r : Path × Path} (ht : Tidy c s (s.view t))
    (hrun : run (PackFile.create c s.packDir objects) ⟨t, caches⟩ = (.ok r, w)) :
    Tidy c s (s.view w.disk) := by
  obtain ⟨hview, -⟩ := (performs_create (c := c) (s := s) (w := ⟨t, caches⟩)).at_ok hrun
  rw [hview]
  exact ht.createChanges

theorem Tidy.drops (ht : Tidy c s v) (hashes : List Hash) :
    Tidy c s (changed (hashes.map fun h => .drop (s.blobPath h)) v) := by
  induction hashes generalizing v with
  | nil => exact ht
  | cons h hashes ih => exact ih ht.dropLoose

theorem Tidy.repack {order : HashOrder} {threshold n : ℕ} (ht : Tidy c s (s.view t))
    (hrun : run (s.repack c order threshold) ⟨t, caches⟩ = (.ok n, w)) :
    Tidy c s (s.view w.disk) := by
  cases hlist : peek s.listBlobs t with
  | error e =>
    have hfail : run s.listBlobs ⟨t, caches⟩ = (.error e, ⟨t, caches⟩) := by
      rw [run_of_reads s.listBlobs_reads]
      exact Prod.ext hlist rfl
    have hstop : run (s.repack c order threshold) ⟨t, caches⟩ = _ := run_bind_error hfail
    rw [hstop] at hrun
    cases hrun
  | ok hashes =>
    have hobjects : ∃ objects, ∀ found,
        (run (hashes.foldlM (s.readObject c order) []) ⟨t, caches⟩).1 = .ok found →
          found = objects := by
      cases (run (hashes.foldlM (s.readObject c order) []) ⟨t, caches⟩).1 with
      | error e => exact ⟨[], fun found hf => by cases hf⟩
      | ok objects => exact ⟨objects, fun found hf => (Except.ok.inj hf).symm⟩
    obtain ⟨objects, hobjects⟩ := hobjects
    have hperf : s.Performs (if hashes.length ≤ threshold then [] else
        BlobStore.repackChanges c s hashes objects) _ (s.repack c order threshold) ⟨t, caches⟩ :=
      BlobStore.performs_repack hlist hobjects fun _ h _ => ht.files h
    obtain ⟨hview, -⟩ := hperf.at_ok hrun
    rw [hview]
    split_ifs with hle
    · exact ht
    · rw [BlobStore.repackChanges, Prog.after_append]
      exact (ht.createChanges).drops hashes

/-- A store directory that has just been made is tidy. -/
theorem Tidy.new (hnew : ∀ p, s.view t p = if p = s.objectsDir then some .dir else none) :
    Tidy c s (s.view t) := by
  have hnone : ∀ n : Name, ∀ rest, s.view t (s.objectsDir ++ n :: rest) = none := by
    intro n rest
    rw [hnew, if_neg]
    simp
  have hpack : ∀ name, s.view t (s.packDir ++ [name]) = none := by
    intro name
    rw [BlobStore.packDir_eq, List.append_assoc]
    exact hnone _ _
  refine ⟨⟨fun bucket name b h _ hfile => ?_, hpack _⟩, fun name hsome => ?_, ⟨?_, ?_⟩, fun h => ?_⟩
  · rw [hnone] at hfile
    cases hfile
  · rw [hpack] at hsome
    cases hsome
  · simp [bytesAt, hnew]
  · rw [BlobStore.packDir_eq]
    simp [bytesAt, hnone]
  · rw [BlobStore.blobPath_eq, hnone]
    simp

/-- What `BlobStore::new` makes of an empty file system. -/
theorem view_of_createDirAll (hmk : Tree.empty.createDirAll s.objectsDir = .ok t) (p : Path) :
    s.view t p = if p = s.objectsDir then some .dir else none := by
  have hdir : t.node s.objectsDir = some .dir :=
    (isDir_iff_node s.objectsDir_ne_nil).mp (Tree.isDir_createDirAll hmk)
  by_cases hp : s.objectsDir <+: p
  · rw [s.view_of_prefix hp]
    split_ifs with heq
    · rw [heq, hdir]
    · rcases Tree.node_createDirAll hmk p with hnode | ⟨-, -, hpre⟩
      · exact hnode
      · have hlen := hp.length_le
        exact absurd (hpre.eq_of_length_le hlen) heq
  · have hne : p ≠ s.objectsDir := fun heq => hp (heq ▸ List.prefix_rfl)
    simp [BlobStore.view, hp, hne]

end Steps

namespace Concrete

theorem view_newDisk (compress : Bool) (p : Path) : (store compress).view newDisk p =
    if p = (store compress).objectsDir then some .dir else none := by
  have hok : (Tree.empty.createDirAll (store compress).objectsDir).isOk = true := by
    cases compress <;> decide +kernel
  cases hmk : Tree.empty.createDirAll (store compress).objectsDir with
  | error e => rw [hmk] at hok; cases hok
  | ok t =>
    have hrun : run (BlobStore.new [text "s"]) ⟨Tree.empty, .empty⟩ = (.ok (store true), ⟨t, .empty⟩) := by
      have hcreate : run (ioCas (createDirAll ([text "s"] ++ [objectsName]))) ⟨Tree.empty, .empty⟩ =
          (.ok (), ⟨t, .empty⟩) := by
        rw [ioCas, run_mapErr, run_createDirAll]
        show ((World.update _ (Tree.empty.createDirAll (store compress).objectsDir)).1.mapError _,
          _) = _
        rw [hmk]
        show (_, (World.update _ (Tree.empty.createDirAll (store compress).objectsDir)).2) = _
        rw [hmk]
        rfl
      exact run_bind_ok hcreate
    have hdisk : newDisk = t := by rw [newDisk, hrun]
    rw [hdisk]
    exact view_of_createDirAll hmk p

/-- A store with the blobs `a` and `g` in one pack. -/
def packedDisk : Tree :=
  after ((store false).repack crates .inserted 0)
    (after (BlobStore.PutCall.action crates (store false) (.putBlob (text "g")))
      (after (BlobStore.PutCall.action crates (store false) (.putBlob (text "a"))) newDisk))

/-- The calls that make this store return. -/
theorem packedDisk_calls :
    (run (BlobStore.PutCall.action crates (store false) (.putBlob (text "a")))
      ⟨newDisk, .empty⟩).1 = .ok () ∧
    (run (BlobStore.PutCall.action crates (store false) (.putBlob (text "g")))
      ⟨after (BlobStore.PutCall.action crates (store false) (.putBlob (text "a"))) newDisk,
        .empty⟩).1 = .ok () ∧
    (run ((store false).repack crates .inserted 0)
      ⟨after (BlobStore.PutCall.action crates (store false) (.putBlob (text "g")))
        (after (BlobStore.PutCall.action crates (store false) (.putBlob (text "a"))) newDisk),
        .empty⟩).1 = .ok 2 := by
  decide +kernel

theorem tidy_packedDisk : Tidy crates (store false) ((store false).view packedDisk) := by
  have hput : ∀ t data, Tidy crates (store false) ((store false).view t) →
      (run (BlobStore.PutCall.action crates (store false) (.putBlob data)) ⟨t, .empty⟩).1 = .ok () →
      Tidy crates (store false) ((store false).view
        (after (BlobStore.PutCall.action crates (store false) (.putBlob data)) t)) :=
    fun t data ht hok => ht.put (Prod.ext hok rfl)
  have hrepack : ∀ t, Tidy crates (store false) ((store false).view t) →
      (run ((store false).repack crates .inserted 0) ⟨t, .empty⟩).1 = .ok 2 →
      Tidy crates (store false) ((store false).view
        (after ((store false).repack crates .inserted 0) t)) :=
    fun t ht hok => ht.repack (Prod.ext hok rfl)
  obtain ⟨hfirst, hsecond, hlast⟩ := packedDisk_calls
  exact hrepack _ (hput _ _ (hput _ _ (Tidy.new (view_newDisk false)) hfirst) hsecond) hlast

/-- In this store `a` reads back. -/
theorem reads_packedDisk :
    (store false).Reads crates packedDisk (hashBytes crates (text "a")) (text "a") := by
  refine (fun hfacts : _ ∧ _ ∧ _ ∧ _ => (store false).reads_iff.mpr (.inr ⟨hfacts.1,
    tidy_packedDisk.loadable, BlobStore.packed_of_packsOn hfacts.2.1 hfacts.2.2.1 hfacts.2.2.2⟩)) ?_
  decide +kernel

end Concrete

end CasKit
