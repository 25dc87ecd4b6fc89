import CasKit.Created
import CasKit.Inventory

/-!
# The layout of a store directory

Which names occur under `objects/`: every file that counts as a loose blob lies at the path
of its hash, and a pack and its index determine each other by name.
-/
namespace CasKit
open Effects Files Codec

namespace BlobStore
variable (s : BlobStore)

/-- A pack file with a proper stem, so that its name and the name of its index lead to each
other. -/
def PackNamed (p : Path) : Prop :=
  ∃ stem, stem ≠ [] ∧ p = s.packDir ++ [stem ++ dot :: packExt]

section Names
variable {s} {p q : Path} {v : Nodes}

theorem PackNamed.idxOf_eq {stem : Name} (hstem : stem ≠ []) :
    idxOf (s.packDir ++ [stem ++ dot :: packExt]) = s.packDir ++ [stem ++ dot :: idxExt] :=
  withExtension_append hstem packExt_ne_nil dot_not_mem_packExt

/-- The way from a pack to its index and back. -/
theorem PackNamed.packOf_idxOf (hp : s.PackNamed p) : withExtension (idxOf p) packExt = p := by
  obtain ⟨stem, hstem, rfl⟩ := hp
  rw [PackNamed.idxOf_eq hstem]
  exact withExtension_append hstem idxExt_ne_nil dot_not_mem_idxExt

theorem PackNamed.packOf_self (hp : s.PackNamed p) : withExtension p packExt = p := by
  obtain ⟨stem, hstem, rfl⟩ := hp
  exact withExtension_append hstem packExt_ne_nil dot_not_mem_packExt

theorem PackNamed.idxOf_injective (hp : s.PackNamed p) (hq : s.PackNamed q)
    (h : idxOf p = idxOf q) : p = q := by
  rw [← hp.packOf_idxOf, h, hq.packOf_idxOf]

theorem PackNamed.idxOf_ne (hp : s.PackNamed p) (hq : s.PackNamed q) : idxOf p ≠ q := by
  obtain ⟨stem, hstem, rfl⟩ := hp
  obtain ⟨stem', -, rfl⟩ := hq
  rw [PackNamed.idxOf_eq hstem]
  intro h
  have hlast := List.singleton_injective (List.append_cancel_left h)
  exact packFile_ne_idxFile _ _ hlast.symm

theorem PackNamed.exists_name (hp : s.PackNamed p) :
    (∃ name, p = s.packDir ++ [name]) ∧ ∃ name, idxOf p = s.packDir ++ [name] := by
  obtain ⟨stem, hstem, rfl⟩ := hp
  exact ⟨⟨_, rfl⟩, _, PackNamed.idxOf_eq hstem⟩

theorem packNamed_packPath (c : Crates) (indexData : Bytes) :
    s.PackNamed (PackFile.packPath c s.packDir indexData) :=
  ⟨_, packName_ne_nil c indexData, rfl⟩

/-- A pack whose index has the name of a new index is the new pack. -/
theorem idxOf_ne_idxPath {c : Crates} {b : Bytes} (hp : IsPackName s.packDir p)
    (hne : p ≠ PackFile.packPath c s.packDir b) : idxOf p ≠ PackFile.idxPath c s.packDir b := by
  obtain ⟨name, rfl, -, hext⟩ := hp
  obtain ⟨stem, rfl⟩ := endsWith_iff.mp hext
  intro heq
  by_cases hstem : stem = []
  · -- the stem of `.pack` is the whole name
    subst hstem
    have hidx : idxOf (s.packDir ++ [[] ++ dot :: packExt]) = s.packDir ++ [text ".pack.idx"] := by
      have hfile : fileStem ([] ++ dot :: packExt) ++ dot :: idxExt = text ".pack.idx" := by
        decide +kernel
      unfold idxOf withExtension
      simp only [List.getLast?_append, List.getLast?_singleton, List.dropLast_concat]
      rw [← hfile]
      rfl
    rw [hidx, PackFile.idxPath] at heq
    have hname := List.singleton_injective (List.append_cancel_left heq)
    have hhead := congrArg List.head? hname
    have hpack : (text "pack-").head? = some 0x70 := by decide +kernel
    have hdot : (text ".pack.idx").head? = some 0x2E := by decide +kernel
    rw [hdot, PackFile.packName, List.append_assoc, List.head?_append, hpack] at hhead
    cases hhead
  · have hnamed : s.PackNamed (s.packDir ++ [stem ++ dot :: packExt]) := ⟨stem, hstem, rfl⟩
    rw [← idxOf_packPath] at heq
    exact hne (hnamed.idxOf_injective (packNamed_packPath c b) heq)

end Names

/-- There is a file at the path of the hash. -/
def IsLoose (v : Nodes) (h : Hash) : Prop := ∃ b, v (s.blobPath h) = some (.file b)

/-- All names are as the store itself makes them: a file that is listed as a blob is at the
path of the blob, and no pack has an empty stem. -/
structure Layout (v : Nodes) : Prop where
  loose : ∀ bucket name b h, bucket ≠ packDirName →
    v (s.objectsDir ++ [bucket, name]) = some (.file b) →
    Hash.fromHex (fromUtf8Lossy bucket ++ fromUtf8Lossy name) = .ok h →
    s.objectsDir ++ [bucket, name] = s.blobPath h
  stem : v (s.packDir ++ [dot :: packExt]) = none

section Layout
variable {s} {v : Nodes} {p q : Path} {h : Hash}

theorem Layout.packNamed (hl : s.Layout v) (hp : s.PackEntry v p) : s.PackNamed p := by
  obtain ⟨⟨name, rfl, -, hext⟩, hsome⟩ := hp
  obtain ⟨stem, rfl⟩ := endsWith_iff.mp hext
  refine ⟨stem, ?_, rfl⟩
  rintro rfl
  rw [List.nil_append, hl.stem] at hsome
  cases hsome

theorem Layout.isLoose (hl : s.Layout v) (hn : s.NamedLoose v h) : s.IsLoose v h := by
  obtain ⟨bucket, name, b, hbucket, -, hfile, hhex⟩ := hn
  exact ⟨b, hl.loose bucket name b h hbucket hfile hhex ▸ hfile⟩

/-- The file of a hash is listed under it. -/
theorem namedLoose_of_isLoose {t : Tree} (hf : s.IsLoose (s.view t) h) :
    s.NamedLoose (s.view t) h := by
  obtain ⟨b, hb⟩ := hf
  refine ⟨h.toHex.take 2, h.toHex.drop 2, b, bucket_ne_packDirName h, ?_, ?_, ?_⟩
  · rw [view_blobPath] at hb
    have hparent := Tree.isDir_parent (t := t) (p := s.blobPath h) (by rw [hb]; rfl)
    rw [dropLast_blobPath, isDir_iff_node (by simp)] at hparent
    rwa [view_objectsDir_append]
  · rwa [blobPath_eq] at hb
  · have hascii := Hash.toHex_ascii h
    rw [fromUtf8Lossy_ascii fun b hb => hascii b (List.mem_of_mem_take hb),
      fromUtf8Lossy_ascii fun b hb => hascii b (List.mem_of_mem_drop hb), List.take_append_drop]
    exact Hash.fromHex_toHex h

theorem Layout.namedLoose_iff {t : Tree} (hl : s.Layout (s.view t)) :
    s.NamedLoose (s.view t) h ↔ s.IsLoose (s.view t) h :=
  ⟨hl.isLoose, namedLoose_of_isLoose⟩

/-- An orphaned index belongs to no pack and is none. -/
theorem OrphanIdx.ne (hq : s.OrphanIdx v q) (hp : s.PackNamed p) (hv : (v p).isSome) :
    q ≠ p ∧ q ≠ idxOf p := by
  obtain ⟨name, -, -, -, hnone⟩ := hq
  constructor
  · rintro rfl
    rw [hp.packOf_self] at hnone
    rw [hnone] at hv
    cases hv
  · rintro rfl
    rw [hp.packOf_idxOf] at hnone
    rw [hnone] at hv
    cases hv

/-- An orphaned pack has no index, and is none. -/
theorem OrphanPack.ne (hl : s.Layout v) (hq : s.OrphanPack v q) (hp : s.Indexed v p) :
    q ≠ p ∧ q ≠ idxOf p := by
  constructor
  · rintro rfl
    have hsome := hp.2
    rw [hq.2] at hsome
    cases hsome
  · intro heq
    exact (hl.packNamed hp.1).idxOf_ne (hl.packNamed hq.1) heq.symm

/-- Every path that an orphan has lies in the pack directory. -/
theorem exists_name_of_orphan (hq : s.OrphanPack v q ∨ s.OrphanIdx v q) :
    ∃ name, q = s.packDir ++ [name] := by
  rcases hq with ⟨⟨⟨name, rfl, -⟩, -⟩, -⟩ | ⟨name, rfl, -⟩
  · exact ⟨name, rfl⟩
  · exact ⟨name, rfl⟩

theorem HasGarbage.indexed {live : Finset Hash} (hp : s.HasGarbage v live p) : s.Indexed v p := by
  obtain ⟨g, -, hlists⟩ := hp
  exact Lists.indexed s hlists

end Layout

/-! ## One new pair -/

variable {s}

/-- All that may have changed among the packs is the pair of that index. -/
structure PairPut (c : Crates) (s : BlobStore) (b : Bytes) (v u : Nodes) : Prop where
  others : ∀ q, (∃ name, q = s.packDir ++ [name]) → q ≠ PackFile.packPath c s.packDir b →
    q ≠ PackFile.idxPath c s.packDir b → u q = v q
  dir : bytesAt u s.packDir = bytesAt v s.packDir

section PairPut
variable {c : Crates} {v u : Nodes} {b : Bytes} {p : Path} {h : Hash} (hu : PairPut c s b v u)
include hu

/-- Every pack but the new one is as it was. -/
theorem PairPut.same (hp : IsPackName s.packDir p)
    (hne : p ≠ PackFile.packPath c s.packDir b) :
    u p = v p ∧ u (idxOf p) = v (idxOf p) := by
  have hnew : IsPackName s.packDir (PackFile.packPath c s.packDir b) :=
    isPackName_packPath c s _
  constructor
  · have hidx := (idxOf_ne_of_isPackName hnew hp).symm
    rw [idxOf_packPath] at hidx
    obtain ⟨name, hname, -⟩ := hp
    exact hu.others p ⟨name, hname⟩ hne hidx
  · exact hu.others _ (idxOf_of_isPackName hp) (idxOf_ne_of_isPackName hp hnew)
      (idxOf_ne_idxPath hp hne)

theorem PairPut.indexed_iff
    (hne : p ≠ PackFile.packPath c s.packDir b) :
    s.Indexed u p ↔ s.Indexed v p := by
  unfold Indexed PackEntry
  constructor
  · rintro ⟨⟨hp, hsome⟩, hidx⟩
    rw [(hu.same hp hne).1] at hsome
    rw [(hu.same hp hne).2] at hidx
    exact ⟨⟨hp, hsome⟩, hidx⟩
  · rintro ⟨⟨hp, hsome⟩, hidx⟩
    rw [← (hu.same hp hne).1] at hsome
    rw [← (hu.same hp hne).2] at hidx
    exact ⟨⟨hp, hsome⟩, hidx⟩

theorem PairPut.indexAt_eq (hp : IsPackName s.packDir p)
    (hne : p ≠ PackFile.packPath c s.packDir b) :
    indexAt u p = indexAt v p := by
  simp only [indexAt, bytesAt_congr (hu.same hp hne).2]

theorem PairPut.lists_iff
    (hne : p ≠ PackFile.packPath c s.packDir b) :
    s.Lists u p h ↔ s.Lists v p h := by
  unfold Lists PackEntry
  constructor
  · rintro ⟨⟨hp, hsome⟩, hi⟩
    rw [(hu.same hp hne).1] at hsome
    rw [hu.indexAt_eq hp hne] at hi
    exact ⟨⟨hp, hsome⟩, hi⟩
  · rintro ⟨⟨hp, hsome⟩, hi⟩
    rw [← (hu.same hp hne).1] at hsome
    rw [← hu.indexAt_eq hp hne] at hi
    exact ⟨⟨hp, hsome⟩, hi⟩

theorem PairPut.recordAt_eq (hp : IsPackName s.packDir p)
    (hne : p ≠ PackFile.packPath c s.packDir b) :
    recordAt c u p h = recordAt c v p h := by
  simp only [recordAt, hu.indexAt_eq hp hne, bytesAt_congr (hu.same hp hne).1]

end PairPut

end BlobStore

end CasKit
