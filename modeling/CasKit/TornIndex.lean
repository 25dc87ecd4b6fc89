import CasKit.Marking
import CasKit.Repacking
import CasKit.Torn

/-!
# A torn index

Creating a pack writes the `.pack` and then the `.idx`. Where the second write is cut off, the
file it leaves belongs to a pack that is there, and every handle that opens the store loads it
with all the others.
-/
namespace CasKit
open Effects Files Codec

namespace BlobStore

section Moments
variable {c : Crates} {s : BlobStore} {v : Nodes} {b packData : Bytes} {cs : List Change}
  {objects : List (Hash × Bytes)} {entries : List PackIndexEntry} {w : World}

/-- A change that creating a pack makes, be it in part. -/
def PairChange (c : Crates) (s : BlobStore) (b : Bytes) (ch : Change) : Prop :=
  ch = .mkdir s.objectsDir ∨ ch = .mkdir s.packDir ∨
    ∃ x, ch = .put (PackFile.packPath c s.packDir b) x ∨
      ch = .put (PackFile.idxPath c s.packDir b) x

theorem PairChange.path {ch : Change} (hch : PairChange c s b ch) : ch.path = s.objectsDir ∨
    ch.path = s.packDir ∨ ch.path = PackFile.packPath c s.packDir b ∨
      ch.path = PackFile.idxPath c s.packDir b := by
  rcases hch with rfl | rfl | ⟨x, rfl | rfl⟩
  · exact .inl rfl
  · exact .inr (.inl rfl)
  · exact .inr (.inr (.inl rfl))
  · exact .inr (.inr (.inr rfl))

theorem changed_pair (hcs : ∀ ch ∈ cs, PairChange c s b ch) : PairPut c s b v (changed cs v) ∧
    ∀ h, changed cs v (s.blobPath h) = v (s.blobPath h) := by
  refine ⟨⟨fun q hq hpack hidx => ?_, ?_⟩, fun h => ?_⟩
  · obtain ⟨name, rfl⟩ := hq
    refine changed_of_forall_ne fun ch hch heq => ?_
    rcases (hcs ch hch).path with hp | hp | hp | hp
    · exact s.packFile_ne_objectsDir name (heq.trans hp)
    · exact s.packDir_ne_packFile name (heq.trans hp).symm
    · exact hpack (heq.trans hp)
    · exact hidx (heq.trans hp)
  · induction cs generalizing v with
    | nil => rfl
    | cons ch cs ih =>
      have hrest := ih (v := ch.apply v) fun ch' hch' => hcs ch' (List.mem_cons_of_mem _ hch')
      rw [changed, Prog.after_cons]
      refine hrest.trans ?_
      rcases hcs ch List.mem_cons_self with rfl | rfl | ⟨x, rfl | rfl⟩
      · exact bytesAt_mkdir _
      · exact bytesAt_mkdir _
      · exact bytesAt_congr (Change.apply_of_ne (s.packDir_ne_packFile _))
      · exact bytesAt_congr (Change.apply_of_ne (s.packDir_ne_packFile _))
  · refine changed_of_forall_ne fun ch hch heq => ?_
    rcases (hcs ch hch).path with hp | hp | hp | hp
    · exact s.blobPath_ne_objectsDir h (heq.trans hp)
    · exact s.blobPath_ne_packDir h (heq.trans hp)
    · exact s.blobPath_ne_packFile h _ (heq.trans hp)
    · exact s.blobPath_ne_packFile h _ (heq.trans hp)

/-- Creating a pack writes its two files and nothing else. -/
theorem create_writes (hp : packObjects c objects = .ok (packData, entries)) :
    (PackFile.create c s.packDir objects).Uses (Request.WritesOnly fun q _ =>
      q = PackFile.packPath c s.packDir (serializeIndex entries) ∨
        q = PackFile.idxPath c s.packDir (serializeIndex entries)) := by
  unfold PackFile.create
  split_ifs
  · trivial
  · refine ((createDirAll_writes _).mapErr).bind fun _ => ?_
    rw [hp]
    refine ((writeFile_writes (.inl rfl)).mapErr).bind fun _ => ?_
    exact ((writeFile_writes (.inr rfl)).mapErr).bind fun _ => trivial

/-- Every moment of a call that creates a pack, be it inside a write. -/
theorem create_moment (hp : packObjects c objects = .ok (packData, entries))
    (part : Bytes → Bytes) (n : ℕ) : ∃ cs,
      (∀ ch ∈ cs, PairChange c s (serializeIndex entries) ch) ∧
      s.view (cutOff n (inTwo part (PackFile.create c s.packDir objects)) w).disk =
        changed cs (s.view w.disk) := by
  have hwhole : ∀ m, ∃ cs, (∀ ch ∈ cs, PairChange c s (serializeIndex entries) ch) ∧
      s.view (cutOff m (PackFile.create c s.packDir objects) w).disk =
        changed cs (s.view w.disk) := by
    intro m
    obtain ⟨k, hk⟩ := (@performs_create c s objects w).at_cut m
    refine ⟨_, fun ch hch => ?_, hk⟩
    have hmem := List.mem_of_mem_take hch
    rw [createChanges_ok hp] at hmem
    simp only [List.cons_append, List.nil_append, List.mem_cons, List.not_mem_nil, or_false] at hmem
    rcases hmem with rfl | rfl | rfl | rfl
    · exact .inl rfl
    · exact .inr (.inl rfl)
    · exact .inr (.inr ⟨_, .inl rfl⟩)
    · exact .inr (.inr ⟨_, .inr rfl⟩)
  rcases @cutOff_inTwo _ _ part w (PackFile.create c s.packDir objects) n with
    ⟨m, hm⟩ | ⟨m, q, x, t, hpending, hwrite, hm⟩
  · rw [hm]
    exact hwhole m
  · obtain ⟨cs, hcs, hview⟩ := hwhole m
    have hq : q = PackFile.packPath c s.packDir (serializeIndex entries) ∨
        q = PackFile.idxPath c s.packDir (serializeIndex entries) :=
      (create_writes hp).pending hpending
    have hunder : s.objectsDir <+: q := by
      rcases hq with rfl | rfl <;> exact s.objectsDir_prefix_of_packDir _
    have hput : s.view t = changed [.put q (part x)]
        (s.view (cutOff m (PackFile.create c s.packDir objects) w).disk) := by
      refine BlobStore.view_eq_changed (fun r hr => ?_) hunder
      rw [Tree.node_write hwrite]
      show _ = if r = q then _ else _
      rw [s.view_of_prefix hr]
    refine ⟨cs ++ [.put q (part x)], fun ch hch => ?_, ?_⟩
    · rcases List.mem_append.mp hch with hch | hch
      · exact hcs ch hch
      · rw [List.mem_singleton.mp hch]
        exact .inr (.inr ⟨_, hq.imp (fun h => by rw [h]) fun h => by rw [h]⟩)
    · rw [hm]
      show s.view t = _
      rw [hput, hview, changed, changed, changed, Prog.after_append]

end Moments

/-! ## The calls -/

section CreateCall
variable {c : Crates} {s : BlobStore} {t : Tree} {order : HashOrder} {v u : Nodes} {h : Hash}
  {objects : List (Hash × Bytes)} {d : Bytes} {p : Path}

/-- What `repack`, and the rewrite of a pack in a sweep, hand to `PackFile::create`. -/
inductive CreateCall (c : Crates) (s : BlobStore) (order : HashOrder) (t : Tree) :
    List (Hash × Bytes) → Prop
  | repack {hashes : List Hash} {objects : List (Hash × Bytes)} (caches : Caches)
      (hlist : peek s.listBlobs t = .ok hashes)
      (hread : (run (hashes.foldlM (s.readObject c order) []) ⟨t, caches⟩).1 = .ok objects) :
      CreateCall c s order t objects
  | rewrite {r : Gc.PackRewrite} {index : PackIndex} {objects : List (Hash × Bytes)}
      (hpack : IsPackName s.packDir r.pack) (hload : peek (PackIndex.load (idxOf r.pack)) t = .ok index)
      (hread : peek (r.keep.foldlM (Gc.readKept c r index) []) t = .ok objects) :
      CreateCall c s order t objects

theorem lists_of_recordAt (hp : IsPackName s.packDir p) (hr : recordAt c v p h = some d) :
    s.Lists v p h := by
  unfold recordAt at hr
  simp only [Option.bind_eq_bind, Option.bind_eq_some_iff] at hr
  obtain ⟨i, hi, offset, hfind, bs, hbs, -⟩ := hr
  refine ⟨⟨hp, by rw [bytesAt_eq_some.mp hbs]; rfl⟩, i, hi, ?_⟩
  exact PackIndex.find_isSome.mp (by rw [hfind]; rfl)

/-- The objects of a call are all loose, or come from the records of one pack. -/
theorem CreateCall.source (hcall : CreateCall c s order t objects) (hl : s.Layout (s.view t)) :
    (∀ o ∈ objects, s.IsLoose (s.view t) o.1) ∨
      ∃ p, ∀ o ∈ objects, s.Lists (s.view t) p o.1 ∧ recordAt c (s.view t) p o.1 = some o.2 := by
  cases hcall with
  | repack caches hlist hread =>
    left
    intro o ho
    obtain ⟨new, hnew, hkeys, -⟩ := run_readAll (I := fun _ => True) (P := fun _ _ => True)
      (fun _ _ _ _ _ => ⟨trivial, trivial⟩) trivial hread
    obtain rfl : objects = new := hnew
    have hmem := hkeys ▸ List.mem_map_of_mem (f := Prod.fst) ho
    exact hl.isLoose (((listBlobs_mem hlist).2 _).mp hmem)
  | @rewrite r index objects hpack hload hread =>
    right
    have hindex : indexAt t.node r.pack = some index := peek_load_eq_ok.mp hload
    obtain ⟨new, hnew, hkept⟩ := Gc.peek_foldlM_readKept hindex hread
    obtain rfl : objects = new := hnew
    obtain ⟨-, hrecords⟩ := Gc.mem_keptObjects (v := t.node) hkept
    refine ⟨r.pack, fun o ho => ?_⟩
    have hr : recordAt c (s.view t) r.pack o.1 = some o.2 := by
      rw [s.recordAt_view c hpack]
      exact hrecords o ho
    exact ⟨lists_of_recordAt hpack hr, hr⟩

/-! ## What marking needs -/

/-- `list_blobs_packed` on a fresh handle. -/
theorem run_listBlobsPacked_fresh : run (s.listBlobsPacked order) ⟨t, .empty⟩ =
    match peek (PackCache.loadAll order s.packDir) t with
    | .error e => (.error (.pack e), ⟨t, .empty⟩)
    | .ok cache => (.ok cache.allHashes, ⟨t, { Caches.empty with packCache := some cache }⟩) := by
  rw [listBlobsPacked, run_withPackCache]
  rfl

/-- On a fresh handle `mark` returns if and only if nothing is in the way and all indices load. -/
theorem mark_isOk_iff {roots : Finset Hash} :
    (run (Gc.mark s order roots) ⟨t, .empty⟩).1.isOk = true ↔
      t.file s.objectsDir = none ∧ s.Loadable (s.view t) := by
  have hlist : run s.listBlobs ⟨t, .empty⟩ = (peek s.listBlobs t, ⟨t, .empty⟩) :=
    run_of_reads s.listBlobs_reads _
  cases hloose : peek s.listBlobs t with
  | error e =>
    rw [hloose] at hlist
    have hstop : run (Gc.mark s order roots) ⟨t, .empty⟩ = _ := run_bind_error hlist
    rw [hstop]
    refine iff_of_false (fun h => by cases h) fun hcond => ?_
    rw [s.peek_listBlobs hcond.1] at hloose
    cases hloose
  | ok loose =>
    rw [hloose] at hlist
    have hnext : run (Gc.mark s order roots) ⟨t, .empty⟩ = _ := run_bind_ok hlist
    rw [hnext, and_iff_right (listBlobs_mem hloose).1]
    have hpacked := @run_listBlobsPacked_fresh s t order
    by_cases hload : s.Loadable (s.view t)
    · obtain ⟨cache, hloaded, -⟩ := s.loaded_hashes order hload
      rw [hloaded] at hpacked
      rw [run_bind_ok hpacked]
      exact iff_of_true rfl hload
    · obtain ⟨e, hfail⟩ := (s.peek_loadAll order).2 hload
      rw [hfail] at hpacked
      rw [run_bind_error hpacked]
      exact iff_of_false (fun h => by cases h) hload

end CreateCall

/-! ## The torn pair -/

/-- The index files of the packs. -/
def indexFiles (s : BlobStore) (v : Nodes) : Set Bytes :=
  {b | ∃ p, s.Indexed v p ∧ bytesAt v (idxOf p) = some b}

/-- A pair of which the index loads, if only as far as its count says, has come to the packs. -/
structure PairLoads (c : Crates) (s : BlobStore) (objects : List (Hash × Bytes)) (packData : Bytes)
    (entries : List PackIndexEntry) (v u : Nodes) : Prop where
  created : packObjects c objects = .ok (packData, entries)
  pair : PairPut c s (serializeIndex entries) v u
  loose : ∀ h, u (s.blobPath h) = v (s.blobPath h)
  pack : bytesAt u (PackFile.packPath c s.packDir (serializeIndex entries)) = some packData
  index : indexAt u (PackFile.packPath c s.packDir (serializeIndex entries)) =
    some (PackIndex.ofEntries (entries.take (objects.length % 2 ^ 32)))

section Pair
variable {c : Crates} {s : BlobStore} {t : Tree} {v u : Nodes} {h : Hash} {d packData : Bytes}
  {objects : List (Hash × Bytes)} {entries : List PackIndexEntry}
  (hu : PairLoads c s objects packData entries v u)
include hu

theorem PairLoads.lists_iff :
    s.Lists u (PackFile.packPath c s.packDir (serializeIndex entries)) h ↔
      h ∈ (PackIndex.ofEntries (entries.take (objects.length % 2 ^ 32))).hashes := by
  have hentry : s.PackEntry u (PackFile.packPath c s.packDir (serializeIndex entries)) :=
    ⟨isPackName_packPath c s _, by rw [bytesAt_eq_some.mp hu.pack]; rfl⟩
  constructor
  · rintro ⟨-, i, hi, hh⟩
    rw [hu.index] at hi
    rwa [Option.some.inj hi]
  · intro hh
    exact ⟨hentry, _, hu.index, hh⟩

theorem PairLoads.loadable (hload : s.Loadable v) : s.Loadable u where
  dir := hu.pair.dir.trans hload.dir
  index p hp := by
    by_cases hne : p = PackFile.packPath c s.packDir (serializeIndex entries)
    · rw [hne]
      exact ⟨_, hu.index⟩
    · obtain ⟨i, hi⟩ := hload.index p ((hu.pair.indexed_iff hne).mp hp)
      exact ⟨i, by rwa [hu.pair.indexAt_eq hp.1.1 hne]⟩

/-- A pack of the same name had the same index. -/
theorem PairLoads.lists_old (hcan : Canonical c s v)
    (hinj : Set.InjOn (hashBytes c) (insert (serializeIndex entries) (indexFiles s v)))
    (hold : s.Lists v (PackFile.packPath c s.packDir (serializeIndex entries)) h) :
    s.Lists u (PackFile.packPath c s.packDir (serializeIndex entries)) h := by
  have hindexed := hold.indexed
  obtain ⟨b, hb, hname⟩ := hcan.named _ hindexed
  have hsame : b = serializeIndex entries :=
    hinj (.inr ⟨_, hindexed, hb⟩) (.inl rfl) (packPath_injective c s hname).symm
  obtain ⟨-, i, hi, hh⟩ := hold
  have hparse := parse_serializeIndex [] (offset_packObjects hu.created)
  rw [List.append_nil, length_packObjects hu.created] at hparse
  have hindex : i = PackIndex.ofEntries (entries.take (objects.length % 2 ^ 32)) := by
    rw [indexAt, hb, hsame, Option.bind_some, hparse] at hi
    exact (Option.some.inj hi).symm
  exact hu.lists_iff.mpr (hindex ▸ hh)

/-- A record of the new pack gives back what the call was handed. -/
theorem PairLoads.recordAt (hz : ZstdSound c)
    (hsource : ∃ p, ∀ o ∈ objects, recordAt c v p o.1 = some o.2)
    (hh : s.Lists u (PackFile.packPath c s.packDir (serializeIndex entries)) h) :
    ∃ d, (h, d) ∈ objects ∧
      CasKit.recordAt c u (PackFile.packPath c s.packDir (serializeIndex entries)) h = some d := by
  obtain ⟨p, hp⟩ := hsource
  have hlisted := hu.lists_iff.mp hh
  obtain ⟨e, he, rfl⟩ := PackIndex.mem_hashes.mp hlisted
  have hkey : e.hash ∈ objects.map Prod.fst := by
    rw [← hashes_packObjects hu.created]
    exact List.mem_map_of_mem (List.mem_of_mem_take (PackIndex.mem_ofEntries.mp he))
  obtain ⟨⟨h', d⟩, ho, rfl⟩ := List.mem_map.mp hkey
  have hhash := Gc.recordAt_hash (hp _ ho)
  refine ⟨d, ho, (recordAt_take hz hu.created hu.index hu.pack (fun o ho => ?_) ?_ hlisted).mpr
    hhash.2⟩
  · exact (Gc.recordAt_hash (hp o ho)).1
  · intro o' ho' heq
    have hrecord := hp o' ho'
    rw [heq, hp _ ho] at hrecord
    exact (Option.some.inj hrecord).symm

/-- What reads back next to the old packs reads back next to the new one. -/
theorem PairLoads.readsBack (hz : ZstdSound c) (hcan : Canonical c s v)
    (hinj : Set.InjOn (hashBytes c) (insert (serializeIndex entries) (indexFiles s v)))
    (hsource : (∀ o ∈ objects, s.IsLoose v o.1) ∨
      ∃ p, ∀ o ∈ objects, s.Lists v p o.1 ∧ CasKit.recordAt c v p o.1 = some o.2)
    (hr : s.ReadsBack c v h d) : s.ReadsBack c u h d := by
  rcases hr with ⟨raw, hraw, hdec⟩ | ⟨hnone, hload, ⟨p, hp⟩, hall⟩
  · exact .inl ⟨raw, (bytesAt_congr (hu.loose h)).trans hraw, hdec⟩
  · refine .inr ⟨(hu.loose h).trans hnone, hu.loadable hload, ?_, fun q hq => ?_⟩
    · by_cases hne : p = PackFile.packPath c s.packDir (serializeIndex entries)
      · exact ⟨_, hu.lists_old hcan hinj (hne ▸ hp)⟩
      · exact ⟨p, (hu.pair.lists_iff hne).mpr hp⟩
    · by_cases hne : q = PackFile.packPath c s.packDir (serializeIndex entries)
      · subst hne
        rcases hsource with hloose | ⟨p', hp'⟩
        · -- the pack lists loose objects only, and this one has no loose file
          obtain ⟨e, he, rfl⟩ := PackIndex.mem_hashes.mp (hu.lists_iff.mp hq)
          have hkey : e.hash ∈ objects.map Prod.fst := by
            rw [← hashes_packObjects hu.created]
            exact List.mem_map_of_mem (List.mem_of_mem_take (PackIndex.mem_ofEntries.mp he))
          obtain ⟨o, ho, heq⟩ := List.mem_map.mp hkey
          obtain ⟨b, hb⟩ := hloose o ho
          rw [heq, hnone] at hb
          cases hb
        · obtain ⟨d', ho, hrecord⟩ := hu.recordAt hz ⟨p', fun o ho => (hp' o ho).2⟩ hq
          have hd := hall p' (hp' _ ho).1
          rw [(hp' _ ho).2] at hd
          exact hrecord.trans hd
      · rw [hu.pair.recordAt_eq hq.1.1 hne]
        exact hall q ((hu.pair.lists_iff hne).mp hq)

end Pair

/-! ## The freshly opened store -/

/-- On a freshly opened store what was readable is, and is there, and marking succeeds. -/
structure Isolated (c : Crates) (s : BlobStore) (t u : Tree) : Prop where
  reads : ∀ h d, s.Reads c t h d → s.Reads c u h d
  present : ∀ h d, s.Reads c t h d → ∀ order, (run (s.hasBlob order h) ⟨u, .empty⟩).1 = .ok true
  marks : ∀ order roots, (run (Gc.mark s order roots) ⟨u, .empty⟩).1.isOk = true

section Fresh
variable {c : Crates} {s : BlobStore} {t u : Tree} {order : HashOrder}
  {objects : List (Hash × Bytes)} {packData : Bytes} {entries : List PackIndexEntry}

/-- What reads back on a fresh handle is there for it. -/
theorem sees_of_reads {h : Hash} {d : Bytes} (hr : s.Reads c t h d) : s.Sees ⟨t, .empty⟩ h := by
  rcases s.reads_iff.mp hr with ⟨raw, hraw, -⟩ | ⟨-, hload, hlists, -⟩
  · rw [bytesAt_eq_some, view_blobPath] at hraw
    exact .inl (Tree.exists_of_file (Tree.file_eq_some.mpr hraw))
  · exact .inr ⟨hload, hlists⟩

/-- A call of `repack`, or of a rewrite in a sweep, that creates a pack and is cut off when the
`.pack` is complete and the `.idx` has its first `k` bytes. The store is as good as
before if and only if the prefix holds all the entries that the count in its header, which is
the number of objects modulo `2 ^ 32`, announces. -/
theorem torn_index_iff (hz : ZstdSound c) (hcan : Canonical c s (s.view t))
    (hload : s.Loadable (s.view t)) (hcall : CreateCall c s order t objects)
    (hp : packObjects c objects = .ok (packData, entries))
    (hinj : Set.InjOn (hashBytes c) (insert (serializeIndex entries) (indexFiles s (s.view t))))
    {caches : Caches} {n k : ℕ}
    (hcut : (cutOff n (inTwo (List.take k) (PackFile.create c s.packDir objects)) ⟨t, caches⟩).disk
      = u)
    (hpack : u.file (PackFile.packPath c s.packDir (serializeIndex entries)) = some packData)
    (hidx : u.file (PackFile.idxPath c s.packDir (serializeIndex entries)) =
      some ((serializeIndex entries).take k)) :
    Isolated c s t u ↔ 12 + 40 * (objects.length % 2 ^ 32) ≤ k := by
  obtain ⟨cs, hcs, hview⟩ := create_moment (s := s) (w := ⟨t, caches⟩) hp (List.take k) n
  rw [hcut] at hview
  obtain ⟨hpair, hloose⟩ := changed_pair (v := s.view t) hcs
  rw [← hview] at hpair hloose
  have hlen := length_packObjects hp
  have hparse := parse_take_serializeIndex k (offset_packObjects hp)
  rw [hlen] at hparse
  have hpackAt : bytesAt (s.view u) (PackFile.packPath c s.packDir (serializeIndex entries)) =
      some packData := by
    rw [bytesAt_eq_some, PackFile.packPath, view_packDir_append]
    exact Tree.file_eq_some.mp hpack
  have hidxAt : bytesAt (s.view u) (idxOf (PackFile.packPath c s.packDir
      (serializeIndex entries))) = some ((serializeIndex entries).take k) := by
    rw [idxOf_packPath, bytesAt_eq_some, PackFile.idxPath, view_packDir_append]
    exact Tree.file_eq_some.mp hidx
  constructor
  · intro hsafe
    by_contra hshort
    obtain ⟨e, he⟩ := hparse.2 (by omega)
    -- the index belongs to a pack that is there, and does not load
    have hloads := (mark_isOk_iff.mp (hsafe.marks .inserted ∅)).2
    have hindexed : s.Indexed (s.view u) (PackFile.packPath c s.packDir (serializeIndex entries)) :=
      ⟨⟨isPackName_packPath c s _, by rw [bytesAt_eq_some.mp hpackAt]; rfl⟩,
        by rw [bytesAt_eq_some.mp hidxAt]; rfl⟩
    obtain ⟨i, hi⟩ := hloads.index _ hindexed
    rw [indexAt, hidxAt, Option.bind_some, he] at hi
    cases hi
  · intro hlong
    have hu : PairLoads c s objects packData entries (s.view t) (s.view u) := by
      refine ⟨hp, hpair, hloose, hpackAt, ?_⟩
      rw [indexAt, hidxAt, Option.bind_some, hparse.1 hlong]
      rfl
    have hreads : ∀ h d, s.Reads c t h d → s.Reads c u h d := by
      intro h d hr
      rw [reads_iff] at hr ⊢
      exact hu.readsBack hz hcan hinj (hcall.source hcan.layout) hr
    refine ⟨hreads, fun h d hr order => ?_, fun order roots => mark_isOk_iff.mpr ⟨?_, ?_⟩⟩
    · exact (s.hasBlob_true order).mpr (sees_of_reads (hreads h d hr))
    · -- the directories above the pack are there
      have hdir := Tree.isDir_parent (t := u) (p := PackFile.packPath c s.packDir
        (serializeIndex entries)) (by rw [Tree.file_eq_some.mp hpack]; rfl)
      have habove := Tree.isDir_of_prefix hdir (q := s.objectsDir) (by
        rw [PackFile.packPath, List.dropLast_concat]
        exact s.objectsDir_prefix_packDir)
      rw [isDir_iff_node s.objectsDir_ne_nil] at habove
      simp [Tree.file, habove]
    · exact hu.loadable hload

end Fresh

/-! ## A repack that is cut off -/

/-- What a repack of the store with the loose blob `a` hands over, and the pair it is to write. -/
def looseObject : List (Hash × Bytes) := [(hashBytes Concrete.crates (text "a"), text "a")]

def loosePair : Bytes × List PackIndexEntry :=
  ((packObjects Concrete.crates looseObject).toOption).getD ([], [])

/-- The store when the repack is cut off five bytes into the index. -/
def cutIndexDisk (t : Tree) (objects : List (Hash × Bytes)) : Tree :=
  (cutOff 4 (inTwo (List.take 5) (PackFile.create Concrete.crates (Concrete.store false).packDir
    objects)) ⟨t, .empty⟩).disk

theorem indexFiles_looseDisk :
    indexFiles (Concrete.store false) ((Concrete.store false).view looseDisk) = ∅ := by
  refine Set.eq_empty_iff_forall_notMem.mpr ?_
  rintro b ⟨p, hp, -⟩
  have hfacts : looseDisk.file (Concrete.store false).packDir = none ∧
      (Concrete.store false).packsOn looseDisk = [] := by
    decide +kernel
  have hmem := ((Concrete.store false).mem_packsOn hfacts.1 p).mpr hp.1
  rw [hfacts.2] at hmem
  cases hmem

theorem tidy_looseDisk :
    Tidy Concrete.crates (Concrete.store false) ((Concrete.store false).view looseDisk) :=
  @Tidy.put _ _ Concrete.newDisk .empty _ (.putBlob (text "a"))
    (Tidy.new (Concrete.view_newDisk false)) (Prod.ext (by decide +kernel) rfl)

/-- The repack of one loose blob, cut off five bytes into the index. -/
theorem torn_index_loose : ¬ Isolated Concrete.crates (Concrete.store false) looseDisk
    (cutIndexDisk looseDisk looseObject) := by
  have hinj : Set.InjOn (hashBytes Concrete.crates) (insert (serializeIndex loosePair.2)
      (indexFiles (Concrete.store false) ((Concrete.store false).view looseDisk))) := by
    rw [indexFiles_looseDisk]
    simp
  have hiff := fun hfacts : (_ ∧ _) ∧ _ ∧ _ ∧ _ =>
    @torn_index_iff _ _ looseDisk (cutIndexDisk looseDisk looseObject) .inserted
      looseObject loosePair.1 loosePair.2 Concrete.zstdSound tidy_looseDisk.canonical
      tidy_looseDisk.loadable
      (@CreateCall.repack _ _ _ _ [hashBytes Concrete.crates (text "a")] _ .empty hfacts.1.1
        hfacts.1.2) hfacts.2.1 hinj .empty 4 5 rfl hfacts.2.2.1 hfacts.2.2.2
  exact (hiff (by decide +kernel)).not.mpr (by decide)

/-- The store with `a` and `g` in a pack, and the loose blob `b`. -/
def mixedDisk : Tree := Concrete.after
  (PutCall.action Concrete.crates (Concrete.store false) (.putBlob (text "b"))) Concrete.packedDisk

/-- The repack of `b` is cut off five bytes into the index, and `a` in its old pack is lost to a
freshly opened store. -/
theorem torn_index_breaks :
    CreateCall Concrete.crates (Concrete.store false) .inserted mixedDisk
      [(hashBytes Concrete.crates (text "b"), text "b")] ∧
    (run ((Concrete.store false).getBlob Concrete.crates .inserted
      (hashBytes Concrete.crates (text "a"))) ⟨mixedDisk, .empty⟩).1 = .ok (text "a") ∧
    (run ((Concrete.store false).getBlob Concrete.crates .inserted
      (hashBytes Concrete.crates (text "a"))) ⟨cutIndexDisk mixedDisk
        [(hashBytes Concrete.crates (text "b"), text "b")], .empty⟩).1.isOk = false ∧
    (run ((Concrete.store false).hasBlob .inserted (hashBytes Concrete.crates (text "a")))
      ⟨cutIndexDisk mixedDisk [(hashBytes Concrete.crates (text "b"), text "b")],
        .empty⟩).1 = .ok false ∧
    (run (Gc.mark (Concrete.store false) .inserted ∅) ⟨cutIndexDisk mixedDisk
      [(hashBytes Concrete.crates (text "b"), text "b")], .empty⟩).1.isOk = false := by
  refine (fun hfacts : (_ ∧ _) ∧ _ ∧ _ ∧ _ ∧ _ =>
    ⟨@CreateCall.repack _ _ _ _ [hashBytes Concrete.crates (text "b")] _ .empty hfacts.1.1
      hfacts.1.2, hfacts.2⟩) ?_
  decide +kernel

end BlobStore

end CasKit
