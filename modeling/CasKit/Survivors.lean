import CasKit.Swept

/-!
# What survives a sweep

The replacements of a sweep hold what the rewritten packs held for the hashes they keep, and
every live hash that is present has a copy that no moment of the sweep takes away, as long as
no file has the name of a replacement beforehand.
-/
namespace CasKit
open Effects Files Codec

namespace Gc
variable {c : Crates} {s : BlobStore} {v u : Nodes} {live : Finset Hash} {options : SweepOptions}
  {r : PackRewrite} {objects : List (Hash × Bytes)} {packData : Bytes}
  {entries : List PackIndexEntry} {p q : Path} {h : Hash} {d b : Bytes}

/-! ## Replacements -/

/-- A rewrite and the pair it writes. -/
structure Replacement (c : Crates) (s : BlobStore) (v : Nodes) (live : Finset Hash)
    (options : SweepOptions) (r : PackRewrite) (objects : List (Hash × Bytes)) (packData : Bytes)
    (entries : List PackIndexEntry) : Prop where
  rewrites : Rewrites s v live options r
  kept : keptObjects c v r = some objects
  packed : packObjects c objects = .ok (packData, entries)

def newPack (c : Crates) (s : BlobStore) (entries : List PackIndexEntry) : Path :=
  PackFile.packPath c s.packDir (serializeIndex entries)

def newIdx (c : Crates) (s : BlobStore) (entries : List PackIndexEntry) : Path :=
  PackFile.idxPath c s.packDir (serializeIndex entries)

theorem idxOf_newPack : idxOf (newPack c s entries) = newIdx c s entries :=
  idxOf_packPath c s _

theorem packNamed_newPack : s.PackNamed (newPack c s entries) := BlobStore.packNamed_packPath c _

theorem newPack_ne_newIdx (entries' : List PackIndexEntry) :
    newPack c s entries ≠ newIdx c s entries' := packPath_ne_idxPath c s _ _

/-- A record that reads back has the digest it is filed under, and fits the cap. -/
theorem recordAt_hash (hr : recordAt c v p h = some d) :
    hashBytes c d = h ∧ d.length ≤ maxDecompressedSize := by
  unfold recordAt at hr
  obtain ⟨index, -, hr⟩ := Option.bind_eq_some_iff.mp hr
  obtain ⟨offset, -, hr⟩ := Option.bind_eq_some_iff.mp hr
  obtain ⟨bs, -, hr⟩ := Option.bind_eq_some_iff.mp hr
  cases hd : decodeRecord c (bs.drop offset) h with
  | error e => rw [hd] at hr; cases hr
  | ok d' =>
    rw [hd] at hr
    obtain rfl := Option.some.inj hr
    exact decodeRecord_hash hd

theorem mem_keptObjects (hkept : keptObjects c v r = some objects) :
    objects.map Prod.fst = r.keep ∧ ∀ o ∈ objects, recordAt c v r.pack o.1 = some o.2 := by
  unfold keptObjects at hkept
  generalize r.keep = keep at hkept
  induction keep generalizing objects with
  | nil =>
    obtain rfl : [] = objects := Option.some.inj hkept
    exact ⟨rfl, fun o ho => by cases ho⟩
  | cons k keep ih =>
    rw [List.mapM_cons] at hkept
    obtain ⟨o, ho, hkept⟩ := Option.bind_eq_some_iff.mp hkept
    obtain ⟨rest, hrest, hkept⟩ := Option.bind_eq_some_iff.mp hkept
    obtain rfl := Option.some.inj hkept
    obtain ⟨d, hd, rfl⟩ := Option.map_eq_some_iff.mp ho
    obtain ⟨hmap, hrecord⟩ := ih hrest
    refine ⟨by rw [List.map_cons, hmap], fun o ho => ?_⟩
    rcases List.mem_cons.mp ho with rfl | ho
    · exact hd
    · exact hrecord o ho

/-- An index cannot list so many hashes that the count of a replacement overflows. -/
theorem Rewrites.length_keep (hr : Rewrites s v live options r) : r.keep.length < 2 ^ 32 := by
  obtain ⟨h, hh⟩ := List.exists_mem_of_ne_nil _ hr.ne_nil
  obtain ⟨-, i, hi, -⟩ := ((hr.keep h).mp hh).lists
  obtain ⟨bs, -, hparse⟩ := Option.bind_eq_some_iff.mp hi
  have hlen : i.entries.length < 2 ^ 32 := by
    cases hp : PackIndex.parse bs with
    | error e => rw [hp] at hparse; cases hparse
    | ok j =>
      rw [hp] at hparse
      obtain rfl := Option.some.inj hparse
      exact length_parse hp
  have hsub : r.keep ⊆ i.hashes := by
    intro k hk
    obtain ⟨-, j, hj, hkj⟩ := ((hr.keep k).mp hk).lists
    rw [hi] at hj
    obtain rfl := Option.some.inj hj
    exact hkj
  have hnodup : r.keep.Nodup := hr.sorted.imp fun hlt => hlt.ne
  have hle := (List.subperm_of_subset hnodup hsub).length_le
  rw [PackIndex.hashes, List.length_map] at hle
  omega

section Replacement
variable (hrep : Replacement c s v live options r objects packData entries)
include hrep

theorem Replacement.keys : objects.map Prod.fst = r.keep := (mem_keptObjects hrep.kept).1

theorem Replacement.puts :
    Replaces c s v live options (.put (newPack c s entries) packData) ∧
      Replaces c s v live options (.put (newIdx c s entries) (serializeIndex entries)) := by
  have hmem : ∀ ch ∈ createChanges c s objects, Replaces c s v live options ch := by
    intro ch hch
    refine ⟨r, hrep.rewrites, ?_⟩
    rw [rewriteChanges, hrep.kept]
    exact hch
  rw [createChanges_ok hrep.packed] at hmem
  exact ⟨hmem _ List.mem_cons_self, hmem _ (List.mem_cons_of_mem _ List.mem_cons_self)⟩

theorem Replacement.written (hpack : u (newPack c s entries) = some (.file packData))
    (hidx : u (newIdx c s entries) = some (.file (serializeIndex entries))) :
    Written c s objects packData entries u :=
  ⟨hrep.packed, bytesAt_eq_some.mpr hpack, bytesAt_eq_some.mpr hidx⟩

theorem Replacement.lists_iff (hw : Written c s objects packData entries u) :
    s.Lists u (newPack c s entries) h ↔ h ∈ r.keep := by
  have hlen : objects.length = r.keep.length := by rw [← hrep.keys, List.length_map]
  have hlt := hrep.rewrites.length_keep
  rw [newPack, hw.lists_iff, hrep.keys, Nat.mod_eq_of_lt (by omega), hlen, List.take_length]

/-- The index of a replacement lists what has to be kept. -/
theorem Replacement.mem_hashes {i : PackIndex}
    (hidx : u (newIdx c s entries) = some (.file (serializeIndex entries)))
    (hi : indexAt u (newPack c s entries) = some i) : h ∈ i.hashes ↔ h ∈ r.keep := by
  have hlen : objects.length = r.keep.length := by rw [← hrep.keys, List.length_map]
  have hlt := hrep.rewrites.length_keep
  have hindex := indexAt_of_idx (s := s) hrep.packed (bytesAt_eq_some.mpr hidx)
  rw [show PackFile.packPath c s.packDir (serializeIndex entries) = newPack c s entries from rfl,
    hi] at hindex
  rw [Option.some.inj hindex, mem_hashes_take hrep.packed, hrep.keys,
    Nat.mod_eq_of_lt (by omega), hlen, List.take_length]

/-- The replacement has what the old pack has. -/
theorem Replacement.recordAt (hz : ZstdSound c) (hw : Written c s objects packData entries u)
    (hh : h ∈ r.keep) : CasKit.recordAt c u (newPack c s entries) h =
      CasKit.recordAt c v r.pack h ∧ ∃ d, CasKit.recordAt c v r.pack h = some d := by
  have hrecord := (mem_keptObjects hrep.kept).2
  have hkeys := hrep.keys
  rw [← hkeys] at hh
  obtain ⟨o, ho, rfl⟩ := List.mem_map.mp hh
  have hold := hrecord o ho
  obtain ⟨-, hlen⟩ := recordAt_hash hold
  have hdata : ∀ o ∈ objects, hashBytes c o.2 = o.1 := fun o ho => (recordAt_hash (hrecord o ho)).1
  have hone : ∀ o' ∈ objects, o'.1 = o.1 → o'.2 = o.2 := by
    intro o' ho' heq
    have h1 := hrecord o' ho'
    rw [heq, hold] at h1
    exact (Option.some.inj h1).symm
  have hl : s.Lists u (newPack c s entries) o.1 := by
    rw [hrep.lists_iff hw, ← hkeys]
    exact hh
  have hnew := (hw.recordAt_iff hz hdata hone hl).mpr hlen
  exact ⟨hnew.trans hold.symm, o.2, hold⟩

end Replacement

theorem Rewritable.replacement (hall : Rewritable c s v live options)
    (hr : Rewrites s v live options r) :
    ∃ objects packData entries, Replacement c s v live options r objects packData entries := by
  obtain ⟨⟨objects, packData, entries⟩, hsome⟩ := Option.isSome_iff_exists.mp (hall r hr)
  obtain ⟨hkept, hpacked⟩ := replacement_eq_some.mp hsome
  exact ⟨objects, packData, entries, hr, hkept, hpacked⟩

/-- A file that a rewrite writes is the pack or the index of a replacement. -/
theorem replaces_cases (hch : Replaces c s v live options (.put q b)) :
    ∃ r objects packData entries, Replacement c s v live options r objects packData entries ∧
      (q = newPack c s entries ∧ b = packData ∨
        q = newIdx c s entries ∧ b = serializeIndex entries) := by
  obtain ⟨r, hr, hch⟩ := hch
  obtain ⟨objects, packData, entries, hkept, hpacked, heq⟩ := mem_rewriteChanges hch
  refine ⟨r, objects, packData, entries, ⟨hr, hkept, hpacked⟩, ?_⟩
  rcases heq with heq | heq
  · exact .inl (Change.put.inj heq)
  · exact .inr (Change.put.inj heq)

/-- Replacements lie in the pack directory, and none has an empty stem. -/
theorem exists_name_of_replaces (hch : Replaces c s v live options (.put q b)) :
    ∃ name, name ≠ dot :: packExt ∧ q = s.packDir ++ [name] := by
  obtain ⟨r, objects, packData, entries, -, ⟨rfl, -⟩ | ⟨rfl, -⟩⟩ := replaces_cases hch
  · refine ⟨_, fun heq => packName_ne_nil c (serializeIndex entries) ?_, rfl⟩
    exact List.append_left_eq_self.mp heq
  · exact ⟨_, fun heq => packFile_ne_idxFile [] _ heq.symm, rfl⟩

/-! ## What is not discarded -/

section Discards

/-- The file of a hash is discarded if it is listed and not live. -/
theorem discards_blobPath_iff :
    Discards s v live options (s.blobPath h) ↔ s.NamedLoose v h ∧ h ∉ live := by
  constructor
  · rintro (⟨h', heq, hn, hh⟩ | horphan | ⟨p, hp, hq⟩)
    · rw [s.blobPath_injective heq]
      exact ⟨hn, hh⟩
    · obtain ⟨name, hname⟩ := BlobStore.exists_name_of_orphan horphan
      exact absurd hname (s.blobPath_ne_packFile h name)
    · obtain ⟨⟨name, hname, -⟩, -⟩ := hp.1.indexed.1
      obtain ⟨name', hname'⟩ := idxOf_of_isPackName hp.1.indexed.1.1
      rcases hq with hq | hq
      · exact absurd (hq.trans hname) (s.blobPath_ne_packFile h name)
      · exact absurd (hq.trans hname') (s.blobPath_ne_packFile h name')
  · rintro ⟨hn, hh⟩
    exact .inl ⟨h, rfl, hn, hh⟩

theorem not_replaces_blobPath : ¬ Replaces c s v live options (.put (s.blobPath h) b) := by
  intro hch
  obtain ⟨name, -, hname⟩ := exists_name_of_replaces hch
  exact s.blobPath_ne_packFile h name hname

/-- A pack that does not go keeps both its files. -/
theorem not_discards_of_indexed (hl : s.Layout v) (hp : s.Indexed v p)
    (hstay : ¬ Removed s v live options p) :
    ¬ Discards s v live options p ∧ ¬ Discards s v live options (idxOf p) := by
  have hnamed := hl.packNamed hp.1
  obtain ⟨⟨name, hname⟩, name', hname'⟩ := hnamed.exists_name
  have hne : ∀ q, s.OrphanPack v q ∨ s.OrphanIdx v q → q ≠ p ∧ q ≠ idxOf p := by
    rintro q (hq | hq)
    · exact BlobStore.OrphanPack.ne hl hq hp
    · exact BlobStore.OrphanIdx.ne hq hnamed hp.1.2
  constructor
  · rintro (⟨h, heq, -⟩ | horphan | ⟨p', hp', heq | heq⟩)
    · exact s.blobPath_ne_packFile h name (heq.symm.trans hname)
    · exact (hne p horphan).1 rfl
    · exact hstay (heq ▸ hp')
    · exact (hl.packNamed hp'.1.indexed.1).idxOf_ne hnamed heq.symm
  · rintro (⟨h, heq, -⟩ | horphan | ⟨p', hp', heq | heq⟩)
    · exact s.blobPath_ne_packFile h name' (heq.symm.trans hname')
    · exact (hne _ horphan).2 rfl
    · exact hnamed.idxOf_ne (hl.packNamed hp'.1.indexed.1) heq
    · exact hstay (hnamed.idxOf_injective (hl.packNamed hp'.1.indexed.1) heq ▸ hp')

/-- Only what is there is discarded. -/
theorem isSome_of_discards (hl : s.Layout v) (hq : Discards s v live options q) : (v q).isSome := by
  rcases hq with ⟨h, rfl, hn, -⟩ | (⟨⟨-, hsome⟩, -⟩ | ⟨name, -, -, hsome, -⟩) | ⟨p, hp, rfl | rfl⟩
  · obtain ⟨b, hb⟩ := hl.isLoose hn
    rw [hb]
    rfl
  · exact hsome
  · exact hsome
  · exact hp.1.indexed.1.2
  · exact hp.1.indexed.2

end Discards

/-! ## What a live hash is kept by -/

section Kept
variable {t : Tree}

/-- A live hash that nothing covers is kept by the first pack with garbage that lists it. -/
theorem exists_kept (hh : h ∈ live) (hlists : s.Lists (s.view t) p h)
    (hcov : ¬ s.Covered (s.view t) live h) : ∃ q, s.Kept (s.view t) live q h := by
  classical
  have hgarbage : ∀ q, s.Lists (s.view t) q h → s.HasGarbage (s.view t) live q := by
    intro q hq
    by_contra hhealthy
    exact hcov ⟨hh, .inr ⟨q, hq, hhealthy⟩⟩
  let found := t.nodes.keys.toFinset.filter fun q => s.Lists (s.view t) q h
  have hmem : ∀ q, s.Lists (s.view t) q h → q ∈ found := by
    intro q hq
    have hnode := (s.packEntry_view.mp hq.1).2
    refine Finset.mem_filter.mpr ⟨List.mem_toFinset.mpr ?_, hq⟩
    exact AList.mem_keys.mpr (Tree.mem_nodes.mpr hnode)
  have hne : found.Nonempty := ⟨p, hmem p hlists⟩
  have hmin := (Finset.mem_filter.mp (found.min'_mem hne)).2
  refine ⟨found.min' hne, hgarbage _ hmin, hmin, hh, hcov, fun q hq _ hl => ?_⟩
  exact absurd (found.min'_le q (hmem q hl)) (not_le.mpr hq)

/-- A pack that keeps something is rewritten, where rewriting is on. -/
theorem exists_rewrites (hk : s.Kept v live p h) (hopt : options.rewritePartialPacks = true) :
    ∃ r, Rewrites s v live options r ∧ r.pack = p := by
  classical
  obtain ⟨-, i, hi, hhi⟩ := hk.lists
  have hmem : ∀ k, k ∈ (toBTreeSet i.hashes).filter (fun k => s.Kept v live p k) ↔
      s.Kept v live p k := by
    intro k
    rw [List.mem_filter, decide_eq_true_eq, mem_toBTreeSet]
    constructor
    · exact fun hk => hk.2
    · intro hk
      obtain ⟨-, j, hj, hkj⟩ := hk.lists
      rw [hi] at hj
      obtain rfl := Option.some.inj hj
      exact ⟨hkj, hk⟩
  refine ⟨⟨p, (toBTreeSet i.hashes).filter fun k => s.Kept v live p k⟩, ⟨hopt, hmem, ?_, ?_⟩, rfl⟩
  · exact List.ne_nil_of_mem ((hmem h).mpr hk)
  · exact (sorted_toBTreeSet i.hashes).filter _

end Kept

/-! ## Every moment of a sweep that meets no file of a replacement's name -/

/-- The file of a live hash is as it was. -/
theorem Partly.blobPath_eq (hu : Partly c s v live options u) (hh : h ∈ live) :
    u (s.blobPath h) = v (s.blobPath h) := by
  rcases hu.node (s.blobPath h) with heq | ⟨-, hq⟩ | ⟨b, hput, -⟩
  · exact heq
  · exact absurd hh (discards_blobPath_iff.mp hq).2
  · exact absurd hput not_replaces_blobPath

/-- Sweeping leaves the names of a store as they should be. -/
theorem Partly.layout (hl : s.Layout v) (hu : Partly c s v live options u) : s.Layout u where
  loose bucket name b h hbucket hfile hhex := by
    rcases hu.node (s.objectsDir ++ [bucket, name]) with heq | ⟨hnone, -⟩ | ⟨b', hput, -⟩
    · exact hl.loose bucket name b h hbucket (heq.symm.trans hfile) hhex
    · rw [hnone] at hfile
      cases hfile
    · obtain ⟨name', -, hname⟩ := exists_name_of_replaces hput
      rw [BlobStore.packDir_eq, List.append_assoc] at hname
      have hlast := List.append_cancel_left hname
      simp only [List.cons_append, List.nil_append, List.cons.injEq] at hlast
      exact absurd hlast.1 hbucket
  stem := by
    rcases hu.node (s.packDir ++ [dot :: packExt]) with heq | ⟨hnone, -⟩ | ⟨b, hput, -⟩
    · exact heq.trans hl.stem
    · exact hnone
    · obtain ⟨name, hne, hname⟩ := exists_name_of_replaces hput
      exact absurd (List.singleton_injective (List.append_cancel_left hname)).symm hne

theorem Partly.packDir_eq (hu : Partly c s v live options u) (hl : s.Layout v) :
    u s.packDir = v s.packDir := by
  rcases hu.node s.packDir with heq | ⟨-, hd⟩ | ⟨b, hput, -⟩
  · exact heq
  · rcases hd with ⟨h, heq, -⟩ | horphan | ⟨p, hp, hq⟩
    · exact absurd heq.symm (s.blobPath_ne_packDir h)
    · obtain ⟨name, hname⟩ := BlobStore.exists_name_of_orphan horphan
      exact absurd hname (s.packDir_ne_packFile name)
    · obtain ⟨⟨name, hname⟩, name', hname'⟩ := (hl.packNamed hp.1.indexed.1).exists_name
      rcases hq with hq | hq
      · exact absurd (hq.trans hname) (s.packDir_ne_packFile name)
      · exact absurd (hq.trans hname') (s.packDir_ne_packFile name')
  · obtain ⟨name, -, hname⟩ := exists_name_of_replaces hput
    exact absurd hname (s.packDir_ne_packFile name)

theorem Fresh.eq_none (hfresh : Fresh c s v live options)
    (hput : Replaces c s v live options (.put q b)) : v q = none := hfresh.absent _ hput

section Fresh
variable (hl : s.Layout v) (hfresh : Fresh c s v live options) (hu : Partly c s v live options u)
include hl hfresh hu

/-- A pack with an index is an old one as it was, or a whole replacement. -/
theorem Partly.indexed_cases (hp : s.Indexed u p) :
    (s.Indexed v p ∧ u p = v p ∧ u (idxOf p) = v (idxOf p)) ∨
      ∃ r objects packData entries, Replacement c s v live options r objects packData entries ∧
        p = newPack c s entries ∧ Written c s objects packData entries u := by
  have hcases : ∀ q, (u q).isSome → (v q).isSome ∧ u q = v q ∨
      ∃ b, Replaces c s v live options (.put q b) ∧ u q = some (.file b) := by
    intro q hq
    rcases hu.node q with heq | ⟨hnone, -⟩ | hput
    · exact .inl ⟨by rwa [← heq], heq⟩
    · rw [hnone] at hq
      cases hq
    · exact .inr hput
  obtain ⟨⟨hname, hsome⟩, hidx⟩ := hp
  rcases hcases p hsome with ⟨hvp, hpack⟩ | ⟨b, hput, hpack⟩
  · rcases hcases (idxOf p) hidx with ⟨hvi, heq⟩ | ⟨b, hput, -⟩
    · exact .inl ⟨⟨⟨hname, hvp⟩, hvi⟩, hpack, heq⟩
    · -- the index of an old pack is never a replacement: the pack itself would be one
      have hnamed := hl.packNamed ⟨hname, hvp⟩
      obtain ⟨r, objects, packData, entries, hrep, ⟨heq, -⟩ | ⟨heq, -⟩⟩ := replaces_cases hput
      · exact absurd heq (hnamed.idxOf_ne packNamed_newPack)
      · rw [← idxOf_newPack] at heq
        rw [hnamed.idxOf_injective packNamed_newPack heq] at hvp
        rw [hfresh.eq_none hrep.puts.1] at hvp
        cases hvp
  · obtain ⟨r, objects, packData, entries, hrep, ⟨rfl, rfl⟩ | ⟨heq, -⟩⟩ := replaces_cases hput
    · refine .inr ⟨r, objects, _, entries, hrep, rfl, ?_⟩
      rw [idxOf_newPack] at hidx
      rcases hcases _ hidx with ⟨hvi, -⟩ | ⟨b', hput', hidx'⟩
      · rw [hfresh.eq_none hrep.puts.2] at hvi
        cases hvi
      · have hb := hfresh.functional _ _ _ hput' hrep.puts.2
        exact hrep.written hpack (hb ▸ hidx')
    · -- an index is no pack
      obtain ⟨name, hp, -, hext⟩ := hname
      obtain ⟨stem, rfl⟩ := endsWith_iff.mp hext
      rw [hp] at heq
      exact absurd (List.singleton_injective (List.append_cancel_left heq)) (packFile_ne_idxFile _ _)

/-- What a pack lists it has from an old pack that lists it. -/
theorem Partly.lists_cases (hz : ZstdSound c) (hp : s.Lists u p h) :
    (s.Lists v p h ∧ u p = v p ∧ recordAt c u p h = recordAt c v p h) ∨
      ∃ q, s.Kept v live q h ∧ recordAt c u p h = recordAt c v q h := by
  rcases hu.indexed_cases hl hfresh (BlobStore.Lists.indexed s hp) with
    ⟨hindexed, hpack, hidx⟩ | ⟨r, objects, packData, entries, hrep, rfl, hw⟩
  · have hindex : indexAt u p = indexAt v p := by simp only [indexAt, bytesAt_congr hidx]
    obtain ⟨-, i, hi, hh⟩ := hp
    rw [hindex] at hi
    refine .inl ⟨⟨hindexed.1, i, hi, hh⟩, hpack, ?_⟩
    simp only [recordAt, hindex, bytesAt_congr hpack]
  · have hh := (hrep.lists_iff hw).mp hp
    exact .inr ⟨r.pack, (hrep.rewrites.keep h).mp hh, (hrep.recordAt hz hw hh).1⟩

/-- An old pack that does not go is as it was. -/
theorem Partly.same_of_stays (hp : s.Indexed v p) (hstay : ¬ Removed s v live options p) :
    u p = v p ∧ u (idxOf p) = v (idxOf p) := by
  obtain ⟨hpack, hidx⟩ := not_discards_of_indexed hl hp hstay
  have hsame : ∀ q, (v q).isSome → ¬ Discards s v live options q → u q = v q := by
    intro q hq hnot
    rcases hu.node q with heq | ⟨-, hd⟩ | ⟨b, hput, -⟩
    · exact heq
    · exact absurd hd hnot
    · rw [hfresh.eq_none hput] at hq
      cases hq
  exact ⟨hsame p hp.1.2 hpack, hsame _ hp.2 hidx⟩

theorem Partly.lists_of_stays (hp : s.Lists v p h) (hstay : ¬ Removed s v live options p) :
    s.Lists u p h := by
  obtain ⟨hpack, hidx⟩ := hu.same_of_stays hl hfresh (BlobStore.Lists.indexed s hp) hstay
  obtain ⟨⟨hname, hsome⟩, i, hi, hh⟩ := hp
  refine ⟨⟨hname, by rwa [hpack]⟩, i, ?_, hh⟩
  simpa only [indexAt, bytesAt_congr hidx] using hi

/-- A live hash of a pack stays in a pack unless it is loose. -/
theorem Partly.exists_lists {t : Tree} (hv : v = s.view t) (hh : h ∈ live) (hp : s.Lists v p h)
    (hloose : ¬ s.NamedLoose v h) : ∃ q, s.Lists u q h := by
  by_cases hgone : s.Lists u p h
  · exact ⟨p, hgone⟩
  -- a file of the pack is discarded, so all replacements are written
  have hindexed := BlobStore.Lists.indexed s hp
  have hlost : ∃ q, u q = none ∧ (v q).isSome := by
    by_contra hnone
    push Not at hnone
    apply hgone
    have hsame : ∀ q, (v q).isSome → u q = v q := by
      intro q hq
      rcases hu.node q with heq | ⟨hnot, -⟩ | ⟨b, hput, -⟩
      · exact heq
      · exact absurd hq (hnone q hnot)
      · rw [hfresh.eq_none hput] at hq
        cases hq
    obtain ⟨⟨hname, hsome⟩, i, hi, hhi⟩ := hp
    refine ⟨⟨hname, by rwa [hsame p hsome]⟩, i, ?_, hhi⟩
    simpa only [indexAt, bytesAt_congr (hsame _ hindexed.2)] using hi
  obtain ⟨q, hq, hsome⟩ := hlost
  obtain ⟨hall, hwritten⟩ := hu.complete q hq hsome
  by_cases hcov : s.Covered v live h
  · obtain ⟨-, hn | ⟨p', hp', hhealthy⟩⟩ := hcov
    · exact absurd hn hloose
    · exact ⟨p', hu.lists_of_stays hl hfresh hp' fun hgo => hhealthy hgo.1⟩
  · subst hv
    obtain ⟨p', hk⟩ := exists_kept hh hp hcov
    by_cases hopt : options.rewritePartialPacks = true
    · obtain ⟨r, hr, rfl⟩ := exists_rewrites hk hopt
      obtain ⟨objects, packData, entries, hrep⟩ := hall.replacement hr
      have hkeep : ∀ q b, Replaces c s (s.view t) live options (.put q b) →
          u q = some (.file b) := by
        intro q b hput
        refine hwritten q b hput fun hd => ?_
        have hsome := isSome_of_discards hl hd
        rw [hfresh.eq_none hput] at hsome
        cases hsome
      have hw := hrep.written (hkeep _ _ hrep.puts.1) (hkeep _ _ hrep.puts.2)
      exact ⟨_, (hrep.lists_iff hw).mpr ((hr.keep h).mpr hk)⟩
    · refine ⟨p', hu.lists_of_stays hl hfresh hk.lists ?_⟩
      rintro ⟨-, hon | hnone⟩
      · exact hopt hon
      · exact hnone h hk

end Fresh

end Gc

end CasKit
