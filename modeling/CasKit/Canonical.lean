import CasKit.Survivors
import CasKit.Tidy

/-!
# Finished sweeps of a canonical store

Where every pack has the name that the bytes of its index give it and no two of these byte
strings collide, no replacement has the name of an old pack. What is listed after a finished
sweep is then known exactly: what the packs that stay list, and what the replacements keep,
save those that an orphan of the same name takes along.
-/
namespace CasKit
open Effects Files Codec

namespace Gc
variable {c : Crates} {s : BlobStore} {v u : Nodes} {live : Finset Hash} {options : SweepOptions}
  {r : PackRewrite} {objects : List (Hash × Bytes)} {packData : Bytes}
  {entries : List PackIndexEntry} {p q : Path} {h : Hash} {d b : Bytes}

/-- The index files of a store and those its rewrites write. -/
def indexBytes (c : Crates) (s : BlobStore) (v : Nodes) (live : Finset Hash)
    (options : SweepOptions) : Set Bytes :=
  {b | (∃ p, s.Indexed v p ∧ bytesAt v (idxOf p) = some b) ∨
    Replaces c s v live options (.put (PackFile.idxPath c s.packDir b) b)}

theorem Replacement.mem_indexBytes
    (hrep : Replacement c s v live options r objects packData entries) :
    serializeIndex entries ∈ indexBytes c s v live options := .inr hrep.puts.2

/-- These byte strings are found by listing the packs and by planning. -/
theorem indexBytes_subset {t : Tree} {B : List Bytes} (hdir : t.file s.packDir = none)
    (hok : (peek (planSweep s live) t).toOption.isSome = true)
    (hpacks : ∀ p ∈ s.packsOn t, ∀ b ∈ bytesAt (s.view t) (idxOf p), b ∈ B)
    (hputs : ∀ plan ∈ (peek (planSweep s live) t).toOption,
      ∀ ch ∈ sweepPuts c s (s.view t) plan options, ∃ b ∈ B, ch = .put ch.path b) :
    indexBytes c s (s.view t) live options ⊆ {b | b ∈ B} := by
  rintro b (⟨p, hp, hb⟩ | hput)
  · exact hpacks p ((s.mem_packsOn hdir p).mpr hp.1) b hb
  · cases hplan : peek (planSweep s live) t with
    | error e =>
      rw [hplan] at hok
      cases hok
    | ok plan =>
      obtain ⟨b', hb', heq⟩ := hputs plan (by rw [hplan]; rfl) _
        ((planned hplan).mem_sweepPuts.mpr hput)
      rw [(Change.put.inj heq).2]
      exact hb'

/-- A hash is kept by one pack only. -/
theorem kept_unique (hp : s.Kept v live p h) (hq : s.Kept v live q h) : p = q := by
  rcases lt_trichotomy p q with hlt | heq | hgt
  · exact absurd hp.lists (hq.first p hlt hp.garbage)
  · exact heq
  · exact absurd hq.lists (hp.first q hgt hq.garbage)

section Names
variable (hinj : Set.InjOn (hashBytes c) (indexBytes c s v live options))
include hinj

/-- Replacements of one name are one replacement. -/
theorem Replacement.unique {r' : PackRewrite} {objects' : List (Hash × Bytes)} {packData' : Bytes}
    {entries' : List PackIndexEntry}
    (hrep : Replacement c s v live options r objects packData entries)
    (hrep' : Replacement c s v live options r' objects' packData' entries')
    (hash : hashBytes c (serializeIndex entries) = hashBytes c (serializeIndex entries')) :
    packData = packData' ∧ entries = entries' := by
  have hbytes := hinj hrep.mem_indexBytes hrep'.mem_indexBytes hash
  have hentries := serializeIndex_injective (offset_packObjects hrep.packed)
    (offset_packObjects hrep'.packed) hbytes
  subst hentries
  have hkeep : r.keep = r'.keep := by
    rw [← hrep.keys, ← hrep'.keys, ← hashes_packObjects hrep.packed,
      ← hashes_packObjects hrep'.packed]
  obtain ⟨k, hk⟩ := List.exists_mem_of_ne_nil _ hrep.rewrites.ne_nil
  have hpack : r.pack = r'.pack := by
    have hkept := (hrep.rewrites.keep k).mp hk
    rw [hkeep] at hk
    exact kept_unique hkept ((hrep'.rewrites.keep k).mp hk)
  have hsame := hrep.rewrites.ext hrep'.rewrites hpack
  subst hsame
  have hobjects : objects = objects' := Option.some.inj (hrep.kept.symm.trans hrep'.kept)
  subst hobjects
  have hpacked := hrep.packed.symm.trans hrep'.packed
  exact ⟨(Prod.mk.inj (Except.ok.inj hpacked)).1, rfl⟩

theorem functional_of_injOn : Functional c s v live options := by
  intro q b b' hb hb'
  obtain ⟨r, objects, packData, entries, hrep, hcase⟩ := replaces_cases hb
  obtain ⟨r', objects', packData', entries', hrep', hcase'⟩ := replaces_cases hb'
  rcases hcase with ⟨hq, hbytes⟩ | ⟨hq, hbytes⟩
  · rcases hcase' with ⟨hq', hbytes'⟩ | ⟨hq', -⟩
    · have hash := packPath_injective c s (hq.symm.trans hq')
      rw [hbytes, hbytes', (hrep.unique hinj hrep' hash).1]
    · exact absurd (hq.symm.trans hq') (newPack_ne_newIdx _)
  · rcases hcase' with ⟨hq', -⟩ | ⟨hq', hbytes'⟩
    · exact absurd (hq'.symm.trans hq) (newPack_ne_newIdx _)
    · have hash := idxPath_injective c s (hq.symm.trans hq')
      rw [hbytes, hbytes', (hrep.unique hinj hrep' hash).2]

/-- The objects of a replacement are not covered, so an old pack of its name, which would list
just these, has garbage; but all of them are live. -/
theorem separate_of_canonical (hcan : Canonical c s v) : Separate c s v live options := by
  refine ⟨?_, functional_of_injOn hinj⟩
  have hpair : ∀ r objects packData entries, Replacement c s v live options r objects packData
      entries → ∀ p, s.Indexed v p → newPack c s entries ≠ p := by
    intro r objects packData entries hrep p hp heq
    obtain ⟨b, hb, hname⟩ := hcan.named p hp
    have hash := packPath_injective c s (heq.trans hname)
    have hbytes := hinj hrep.mem_indexBytes (.inl ⟨p, hp, hb⟩) hash
    subst hbytes
    obtain ⟨k, hk⟩ := List.exists_mem_of_ne_nil _ hrep.rewrites.ne_nil
    have hkept := (hrep.rewrites.keep k).mp hk
    -- the old pack lists just what the replacement is to keep
    have hparse := parse_serializeIndex [] (offset_packObjects hrep.packed)
    rw [List.append_nil, length_packObjects hrep.packed] at hparse
    have hlen : objects.length = r.keep.length := by rw [← hrep.keys, List.length_map]
    have hlt := hrep.rewrites.length_keep
    rw [Nat.mod_eq_of_lt (by omega), ← length_packObjects hrep.packed, List.take_length] at hparse
    have hindex : indexAt v p = some (PackIndex.ofEntries entries) := by
      rw [indexAt, hb]
      show (PackIndex.parse (serializeIndex entries)).toOption = _
      rw [hparse]
      rfl
    have hlists : ∀ h, s.Lists v p h ↔ h ∈ r.keep := by
      intro h
      rw [← hrep.keys, ← hashes_packObjects hrep.packed, ← PackIndex.mem_hashes_ofEntries]
      constructor
      · rintro ⟨-, i, hi, hh⟩
        rw [hindex] at hi
        rwa [← Option.some.inj hi] at hh
      · exact fun hh => ⟨hp.1, _, hindex, hh⟩
    apply hkept.uncovered
    refine ⟨hkept.mem, .inr ⟨p, (hlists k).mpr hk, ?_⟩⟩
    rintro ⟨g, hg, hlg⟩
    exact hg ((hrep.rewrites.keep g).mp ((hlists g).mp hlg)).mem
  intro ch hch p hp
  obtain ⟨q, b, rfl⟩ := replaces_put hch
  have hnamed := hcan.layout.packNamed hp.1
  obtain ⟨r, objects, packData, entries, hrep, hcase⟩ := replaces_cases hch
  have hne := hpair r objects packData entries hrep p hp
  rcases hcase with ⟨rfl, -⟩ | ⟨rfl, -⟩
  · exact ⟨hne, fun heq => hnamed.idxOf_ne packNamed_newPack heq.symm⟩
  · constructor
    · intro heq
      have hidx : idxOf (newPack c s entries) = p := idxOf_newPack.trans heq
      exact packNamed_newPack.idxOf_ne hnamed hidx
    · intro heq
      have hidx : idxOf (newPack c s entries) = idxOf p := idxOf_newPack.trans heq
      exact hne (packNamed_newPack.idxOf_injective hnamed hidx)

end Names

/-! ## After a finished sweep -/

/-- An orphan has the name of the replacement or of its index. -/
def Clash (c : Crates) (s : BlobStore) (v : Nodes) (entries : List PackIndexEntry) : Prop :=
  (s.OrphanPack v (newPack c s entries) ∨ s.OrphanIdx v (newPack c s entries)) ∨
    s.OrphanPack v (newIdx c s entries) ∨ s.OrphanIdx v (newIdx c s entries)

/-- No orphan has the name of a replacement or of its index. -/
def NoClash (c : Crates) (s : BlobStore) (v : Nodes) (live : Finset Hash)
    (options : SweepOptions) : Prop :=
  ∀ r objects packData entries, Replacement c s v live options r objects packData entries →
    ¬ Clash c s v entries

/-- A file of a replacement's name that belongs to no indexed pack is an orphan. -/
theorem fresh_of_noClash (hsep : Separate c s v live options)
    (hclash : NoClash c s v live options) : Fresh c s v live options := by
  refine ⟨?_, hsep.functional⟩
  intro ch hch
  obtain ⟨q, b, rfl⟩ := replaces_put hch
  obtain ⟨r, objects, packData, entries, hrep, hcase⟩ := replaces_cases hch
  have hnot := hclash r objects packData entries hrep
  by_contra hsome
  have hq : (v q).isSome = true := Option.isSome_iff_ne_none.mpr hsome
  rcases hcase with ⟨rfl, -⟩ | ⟨rfl, -⟩
  · have hentry : s.PackEntry v (newPack c s entries) := ⟨isPackName_packPath c s _, hq⟩
    cases hidx : v (idxOf (newPack c s entries)) with
    | none => exact hnot (.inl (.inl ⟨hentry, hidx⟩))
    | some n => exact (hsep.apart _ hch _ ⟨hentry, by rw [hidx]; rfl⟩).1 rfl
  · cases hpack : v (newPack c s entries) with
    | none =>
      obtain ⟨name, hname, hext⟩ := isIdxName_idxPath c s (serializeIndex entries)
      refine hnot (.inr (.inr ⟨name, hname, hext, hq, ?_⟩))
      rw [← idxOf_newPack, packNamed_newPack.packOf_idxOf]
      exact hpack
    | some n =>
      have hindexed : s.Indexed v (newPack c s entries) :=
        ⟨⟨isPackName_packPath c s _, by rw [hpack]; rfl⟩, by rwa [idxOf_newPack]⟩
      exact (hsep.apart _ hch _ hindexed).2 idxOf_newPack.symm

section Done
variable (hl : s.Layout v) (hsep : Separate c s v live options)

include hsep in
/-- A replacement is discarded only for an orphan. -/
theorem Replacement.discards_iff
    (hrep : Replacement c s v live options r objects packData entries) :
    Clash c s v entries ↔ Discards s v live options (newPack c s entries) ∨
      Discards s v live options (newIdx c s entries) := by
  have horphan : ∀ q b, Replaces c s v live options (.put q b) →
      (Discards s v live options q ↔ s.OrphanPack v q ∨ s.OrphanIdx v q) := by
    intro q b hput
    constructor
    · rintro (⟨h, rfl, -⟩ | horphan | ⟨p, hp, hq⟩)
      · exact absurd hput not_replaces_blobPath
      · exact horphan
      · obtain ⟨h1, h2⟩ := hsep.apart _ hput p hp.1.indexed
        rcases hq with hq | hq
        · exact absurd hq h1
        · exact absurd hq h2
    · exact fun horphan => .inr (.inl horphan)
  rw [Clash, horphan _ _ hrep.puts.1, horphan _ _ hrep.puts.2]

include hl hsep in
/-- A pack with an index after the sweep is an old one that stays, as it was, or a whole
replacement. -/
theorem Done.indexed_cases (hu : Done c s v live options u) (hp : s.Indexed u p) :
    (s.Indexed v p ∧ ¬ Removed s v live options p ∧ u p = v p ∧ u (idxOf p) = v (idxOf p)) ∨
      ∃ r objects packData entries, Replacement c s v live options r objects packData entries ∧
        ¬ Clash c s v entries ∧ p = newPack c s entries ∧
          Written c s objects packData entries u := by
  have hkeep : ∀ q, (u q).isSome → ¬ Discards s v live options q := by
    intro q hq hd
    rw [hu.gone q hd] at hq
    cases hq
  obtain ⟨⟨hname, hsome⟩, hidx⟩ := hp
  by_cases hput : ∃ b, Replaces c s v live options (.put p b)
  · obtain ⟨b, hput⟩ := hput
    obtain ⟨r, objects, packData, entries, hrep, ⟨rfl, rfl⟩ | ⟨heq, -⟩⟩ := replaces_cases hput
    · rw [idxOf_newPack] at hidx
      have h1 := hkeep _ hsome
      have h2 := hkeep _ hidx
      refine .inr ⟨r, objects, _, entries, hrep, ?_, rfl, hrep.written ?_ ?_⟩
      · rw [hrep.discards_iff hsep]
        exact fun hd => hd.elim h1 h2
      · exact hu.written _ _ hrep.puts.1 h1
      · exact hu.written _ _ hrep.puts.2 h2
    · obtain ⟨name, hp, -, hext⟩ := hname
      obtain ⟨stem, rfl⟩ := endsWith_iff.mp hext
      rw [hp] at heq
      exact absurd (List.singleton_injective (List.append_cancel_left heq)) (packFile_ne_idxFile _ _)
  · push Not at hput
    have hpack := hu.same p (hkeep p hsome) hput
    have hentry : s.PackEntry v p := ⟨hname, by rwa [← hpack]⟩
    have hnamed := hl.packNamed hentry
    have hnoidx : ∀ b, ¬ Replaces c s v live options (.put (idxOf p) b) := by
      intro b hb
      obtain ⟨r, objects, packData, entries, hrep, ⟨heq, -⟩ | ⟨heq, -⟩⟩ := replaces_cases hb
      · exact hnamed.idxOf_ne packNamed_newPack heq
      · rw [← idxOf_newPack] at heq
        rw [hnamed.idxOf_injective packNamed_newPack heq] at hput
        exact hput _ hrep.puts.1
    have hsame := hu.same _ (hkeep _ hidx) hnoidx
    refine .inl ⟨⟨hentry, by rwa [← hsame]⟩, fun hgo => ?_, hpack, hsame⟩
    exact hkeep p hsome (.inr (.inr ⟨p, hgo, .inl rfl⟩))

include hl hsep in
/-- A pack that does not go is as it was. -/
theorem Done.same_of_stays (hu : Done c s v live options u) (hp : s.Indexed v p)
    (hstay : ¬ Removed s v live options p) : u p = v p ∧ u (idxOf p) = v (idxOf p) := by
  obtain ⟨h1, h2⟩ := not_discards_of_indexed hl hp hstay
  constructor
  · exact hu.same p h1 fun b hput => (hsep.apart _ hput p hp).1 rfl
  · exact hu.same _ h2 fun b hput => (hsep.apart _ hput p hp).2 rfl

include hl hsep in
/-- What a pack lists after a finished sweep, and what it has for it. -/
theorem Done.lists_cases (hz : ZstdSound c) (hu : Done c s v live options u)
    (hp : s.Lists u p h) :
    (s.Lists v p h ∧ ¬ Removed s v live options p ∧ recordAt c u p h = recordAt c v p h) ∨
      ∃ r objects packData entries, Replacement c s v live options r objects packData entries ∧
        ¬ Clash c s v entries ∧ h ∈ r.keep ∧ recordAt c u p h = recordAt c v r.pack h := by
  rcases hu.indexed_cases hl hsep (BlobStore.Lists.indexed s hp) with
    ⟨hindexed, hstay, hpack, hidx⟩ | ⟨r, objects, packData, entries, hrep, hclash, rfl, hw⟩
  · have hindex : indexAt u p = indexAt v p := by simp only [indexAt, bytesAt_congr hidx]
    obtain ⟨-, i, hi, hh⟩ := hp
    rw [hindex] at hi
    refine .inl ⟨⟨hindexed.1, i, hi, hh⟩, hstay, ?_⟩
    simp only [recordAt, hindex, bytesAt_congr hpack]
  · have hh := (hrep.lists_iff hw).mp hp
    exact .inr ⟨r, objects, packData, entries, hrep, hclash, hh, (hrep.recordAt hz hw hh).1⟩

include hl hsep in
theorem Done.lists_of_stays (hu : Done c s v live options u) (hp : s.Lists v p h)
    (hstay : ¬ Removed s v live options p) :
    s.Lists u p h ∧ recordAt c u p h = recordAt c v p h := by
  obtain ⟨hpack, hidx⟩ := hu.same_of_stays hl hsep (BlobStore.Lists.indexed s hp) hstay
  have hindex : indexAt u p = indexAt v p := by simp only [indexAt, bytesAt_congr hidx]
  obtain ⟨⟨hname, hsome⟩, i, hi, hh⟩ := hp
  refine ⟨⟨⟨hname, by rwa [hpack]⟩, i, hindex.trans hi, hh⟩, ?_⟩
  simp only [recordAt, hindex, bytesAt_congr hpack]

include hsep in
/-- A replacement that meets no orphan is there, with what the old pack had. -/
theorem Done.lists_of_replacement (hz : ZstdSound c) (hu : Done c s v live options u)
    (hrep : Replacement c s v live options r objects packData entries)
    (hclash : ¬ Clash c s v entries) (hh : h ∈ r.keep) :
    s.Lists u (newPack c s entries) h ∧
      recordAt c u (newPack c s entries) h = recordAt c v r.pack h ∧
        ∃ d, recordAt c v r.pack h = some d := by
  rw [hrep.discards_iff hsep, not_or] at hclash
  have hw := hrep.written (hu.written _ _ hrep.puts.1 hclash.1)
    (hu.written _ _ hrep.puts.2 hclash.2)
  exact ⟨(hrep.lists_iff hw).mpr hh, hrep.recordAt hz hw hh⟩

include hl hsep in
/-- Which hashes some pack lists after a finished sweep. -/
theorem Done.exists_lists_iff (hz : ZstdSound c) (hu : Done c s v live options u) :
    (∃ p, s.Lists u p h) ↔ (∃ p, s.Lists v p h ∧ ¬ Removed s v live options p) ∨
      ∃ r objects packData entries, Replacement c s v live options r objects packData entries ∧
        h ∈ r.keep ∧ ¬ Clash c s v entries := by
  constructor
  · intro hp
    obtain ⟨p, hp⟩ := hp
    rcases hu.lists_cases hl hsep hz hp with
      ⟨hold, hstay, -⟩ | ⟨r, objects, packData, entries, hrep, hclash, hkeep, -⟩
    · exact .inl ⟨p, hold, hstay⟩
    · exact .inr ⟨r, objects, packData, entries, hrep, hkeep, hclash⟩
  · rintro (⟨p, hold, hstay⟩ | ⟨r, objects, packData, entries, hrep, hkeep, hclash⟩)
    · exact ⟨p, (hu.lists_of_stays hl hsep hold hstay).1⟩
    · exact ⟨_, (hu.lists_of_replacement hsep hz hrep hclash hkeep).1⟩

include hl hsep in
/-- A finished sweep leaves every index of a pack readable. -/
theorem Done.loadable (hu : Done c s v live options u) (hload : s.Loadable v) : s.Loadable u where
  dir := (bytesAt_congr (hu.partly.packDir_eq hl)).trans hload.dir
  index p hp := by
    rcases hu.indexed_cases hl hsep hp with
      ⟨hindexed, -, -, hidx⟩ | ⟨r, objects, packData, entries, -, -, rfl, hw⟩
    · obtain ⟨i, hi⟩ := hload.index p hindexed
      exact ⟨i, by simpa only [indexAt, bytesAt_congr hidx] using hi⟩
    · exact ⟨_, hw.indexAt⟩

/-- A sweep adds no loose file and takes no live one away. -/
theorem Done.isLoose_iff (hu : Done c s v live options u) :
    s.IsLoose u h ↔ s.IsLoose v h ∧ ¬ (s.NamedLoose v h ∧ h ∉ live) := by
  have hother : ∀ b, ¬ Replaces c s v live options (.put (s.blobPath h) b) :=
    fun b => not_replaces_blobPath
  by_cases hd : Discards s v live options (s.blobPath h)
  · have hnone := hu.gone _ hd
    constructor
    · rintro ⟨b, hb⟩
      rw [hnone] at hb
      cases hb
    · rintro ⟨-, hnot⟩
      exact absurd (discards_blobPath_iff.mp hd) hnot
  · have hsame := hu.same _ hd hother
    unfold BlobStore.IsLoose
    rw [hsame]
    constructor
    · exact fun hb => ⟨hb, fun hg => hd (discards_blobPath_iff.mpr hg)⟩
    · exact fun hb => hb.1

include hsep in
/-- What is present after a finished sweep that rewrites and meets no orphan of a replacement's
name: the live hashes that were present. -/
theorem Done.present_iff (hz : ZstdSound c) {t t' : Tree} (hv : v = s.view t) (hu' : u = s.view t')
    (hl : s.Layout v) (hu : Done c s v live options u) (hopt : options.rewritePartialPacks = true)
    (hclash : NoClash c s v live options) : s.Present u h ↔ h ∈ live ∧ s.Present v h := by
  have hlu := hu.partly.layout hl
  constructor
  · rintro (hn | ⟨p, hp⟩)
    · obtain ⟨hold, hnot⟩ := hu.isLoose_iff.mp (hlu.isLoose hn)
      subst hv
      have hnamed := BlobStore.namedLoose_of_isLoose hold
      refine ⟨?_, .inl hnamed⟩
      by_contra hh
      exact hnot ⟨hnamed, hh⟩
    · rcases hu.lists_cases hl hsep hz hp with
        ⟨hold, hstay, -⟩ | ⟨r, objects, packData, entries, hrep, -, hh, -⟩
      · refine ⟨?_, .inr ⟨p, hold⟩⟩
        by_contra hh
        exact hstay ⟨⟨h, hh, hold⟩, .inl hopt⟩
      · have hk := (hrep.rewrites.keep h).mp hh
        exact ⟨hk.mem, .inr ⟨_, hk.lists⟩⟩
  · rintro ⟨hh, hp⟩
    by_cases hn : s.NamedLoose v h
    · have hnew := hu.isLoose_iff.mpr ⟨hl.isLoose hn, fun hg => hg.2 hh⟩
      subst hu'
      exact .inl (BlobStore.namedLoose_of_isLoose hnew)
    · obtain ⟨p, hp⟩ := hp.resolve_left hn
      by_cases hcov : s.Covered v live h
      · obtain ⟨-, hn' | ⟨p', hp', hhealthy⟩⟩ := hcov
        · exact absurd hn' hn
        · exact .inr ⟨p', (hu.lists_of_stays hl hsep hp' fun hgo => hhealthy hgo.1).1⟩
      · subst hv
        obtain ⟨p', hk⟩ := exists_kept hh hp hcov
        obtain ⟨r, hr, rfl⟩ := exists_rewrites hk hopt
        obtain ⟨objects, packData, entries, hrep⟩ := hu.rewritable.replacement hr
        have hkeep := (hr.keep h).mpr hk
        exact .inr ⟨_, (hu.lists_of_replacement hsep hz hrep (hclash _ _ _ _ hrep) hkeep).1⟩

end Done

/-! ## The disk with one pack -/

/-- The files of the disk with one pack, before and after a sweep for `a` alone. -/
def packedBytes : List Bytes :=
  [text "a", text "g"] ++ (Concrete.files Concrete.packedDisk ++ Concrete.files
    (Concrete.after (sweep Concrete.crates (Concrete.store false)
      {hashBytes Concrete.crates (text "a")} ⟨.delete, true⟩) Concrete.packedDisk))

theorem packedBytes_injOn : Set.InjOn (hashBytes Concrete.crates) {b | b ∈ packedBytes} := by
  have hall : ∀ b ∈ packedBytes, ∀ b' ∈ packedBytes,
      hashBytes Concrete.crates b = hashBytes Concrete.crates b' → b = b' := by
    decide +kernel
  exact fun b hb b' hb' => hall b hb b' hb'

/-- The sweep for `a` alone returns. -/
theorem sweep_packedDisk_ok : (run (sweep Concrete.crates (Concrete.store false)
    {hashBytes Concrete.crates (text "a")} ⟨.delete, true⟩)
      ⟨Concrete.packedDisk, .empty⟩).1.isOk = true := by
  decide +kernel

/-- Its index, and the index of the replacement, are among them. -/
theorem indexBytes_packedDisk : indexBytes Concrete.crates (Concrete.store false)
    ((Concrete.store false).view Concrete.packedDisk) {hashBytes Concrete.crates (text "a")}
    ⟨.delete, true⟩ ⊆ {b | b ∈ packedBytes} := by
  refine (fun hfacts : _ ∧ _ ∧ _ ∧ _ =>
    indexBytes_subset hfacts.1 hfacts.2.1 hfacts.2.2.1 hfacts.2.2.2) ?_
  decide +kernel

end Gc

end CasKit
