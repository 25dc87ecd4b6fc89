import CasKit.Store

/-!
# Names of the files of a store

Where the blobs, the packs and the indices lie, which of these paths can coincide, and how
the name of a pack and that of its index determine each other.
-/
namespace CasKit
open Effects Files Codec

section Extension
variable {stem name : Name} {ext : Text}

theorem endsWith_iff {suffix : Text} : endsWith name suffix ↔ ∃ stem, name = stem ++ suffix := by
  rw [endsWith, List.isSuffixOf_iff_suffix]
  constructor
  · rintro ⟨stem, rfl⟩
    exact ⟨stem, rfl⟩
  · rintro ⟨stem, rfl⟩
    exact ⟨stem, rfl⟩

theorem fileStem_append (hstem : stem ≠ []) (hext : ext ≠ []) (hdot : dot ∉ ext) :
    fileStem (stem ++ dot :: ext) = stem := by
  have hne : stem ++ dot :: ext ≠ [dot, dot] := by
    intro h
    have hlen := congrArg List.length h
    have h1 := List.length_pos_iff.mpr hstem
    have h2 := List.length_pos_iff.mpr hext
    simp only [List.length_append, List.length_cons, List.length_nil] at hlen
    omega
  have hdrop : ((stem ++ dot :: ext).reverse.dropWhile (· ≠ dot)) = dot :: stem.reverse := by
    have hrev : ∀ b ∈ ext.reverse, decide (b ≠ dot) = true := by
      intro b hb
      have hb' : b ∈ ext := List.mem_reverse.mp hb
      have : b ≠ dot := fun h => hdot (h ▸ hb')
      simpa using this
    simp only [List.reverse_append, List.reverse_cons, List.append_assoc]
    rw [List.dropWhile_append_of_pos hrev]
    simp
  rw [fileStem, if_neg hne, hdrop]
  simp only [List.tail_cons, List.reverse_reverse]

theorem withExtension_append {dir : Path} {ext' : Text} (hstem : stem ≠ []) (hext : ext ≠ [])
    (hdot : dot ∉ ext) :
    withExtension (dir ++ [stem ++ dot :: ext]) ext' = dir ++ [stem ++ dot :: ext'] := by
  simp [withExtension, fileStem_append hstem hext hdot]

theorem packExt_ne_nil : packExt ≠ [] := by decide +kernel

theorem idxExt_ne_nil : idxExt ≠ [] := by decide +kernel

theorem dot_not_mem_packExt : dot ∉ packExt := by decide +kernel

theorem dot_not_mem_idxExt : dot ∉ idxExt := by decide +kernel

/-- No file name is that of a pack and of an index. -/
theorem packFile_ne_idxFile (a b : Name) : a ++ dot :: packExt ≠ b ++ dot :: idxExt := by
  intro h
  have hlast := congrArg List.getLast? h
  rw [List.getLast?_append_of_ne_nil _ (by simp), List.getLast?_append_of_ne_nil _ (by simp)]
    at hlast
  revert hlast
  decide +kernel

end Extension

namespace BlobStore
variable (s : BlobStore) {h h' : Hash}

theorem packDirName_length : packDirName.length = 4 := by decide +kernel

theorem bucket_ne_packDirName (h : Hash) : h.toHex.take 2 ≠ packDirName := by
  intro heq
  have hlen := congrArg List.length heq
  rw [List.length_take, Hash.length_toHex, packDirName_length] at hlen
  omega

theorem blobPath_eq : s.blobPath h = s.objectsDir ++ [h.toHex.take 2, h.toHex.drop 2] := by
  simp [blobPath, objectsDir]

theorem packDir_eq : s.packDir = s.objectsDir ++ [packDirName] := by
  simp [packDir, objectsDir]

theorem blobPath_ne_nil : s.blobPath h ≠ [] := by simp [blobPath]

theorem packDir_ne_nil : s.packDir ≠ [] := by simp [packDir]

theorem objectsDir_ne_nil : s.objectsDir ≠ [] := by simp [objectsDir]

@[simp] theorem dropLast_blobPath :
    (s.blobPath h).dropLast = s.objectsDir ++ [h.toHex.take 2] := by
  rw [blobPath_eq, show [h.toHex.take 2, h.toHex.drop 2] = [h.toHex.take 2] ++ [h.toHex.drop 2]
    from rfl, ← List.append_assoc, List.dropLast_concat]

theorem objectsDir_prefix_blobPath : s.objectsDir <+: s.blobPath h := by
  rw [blobPath_eq]
  exact List.prefix_append _ _

theorem objectsDir_prefix_packDir : s.objectsDir <+: s.packDir := by
  rw [packDir_eq]
  exact List.prefix_append _ _

theorem objectsDir_prefix_of_packDir (p : Path) : s.objectsDir <+: s.packDir ++ p :=
  s.objectsDir_prefix_packDir.trans (List.prefix_append _ _)

theorem blobPath_injective : Function.Injective s.blobPath := by
  intro a b hab
  rw [blobPath_eq, blobPath_eq] at hab
  have hlast := List.append_cancel_left hab
  simp only [List.cons.injEq, and_true] at hlast
  apply Hash.toHex_injective
  rw [← List.take_append_drop 2 a.toHex, ← List.take_append_drop 2 b.toHex, hlast.1, hlast.2]

/-- A loose blob does not lie in the pack directory. -/
theorem blobPath_ne_packFile (h : Hash) (name : Name) : s.blobPath h ≠ s.packDir ++ [name] := by
  intro heq
  rw [blobPath_eq, packDir_eq, List.append_assoc] at heq
  have hlast := List.append_cancel_left heq
  simp only [List.cons_append, List.nil_append, List.cons.injEq, and_true] at hlast
  exact bucket_ne_packDirName h hlast.1

theorem packDir_ne_packFile (name : Name) : s.packDir ≠ s.packDir ++ [name] := by simp

theorem blobPath_ne_packDir (h : Hash) : s.blobPath h ≠ s.packDir := by
  intro heq
  have hlen := congrArg List.length heq
  simp [blobPath, packDir] at hlen

theorem blobPath_ne_objectsDir (h : Hash) : s.blobPath h ≠ s.objectsDir := by
  intro heq
  have hlen := congrArg List.length heq
  simp [blobPath, objectsDir] at hlen

theorem packDir_ne_objectsDir : s.packDir ≠ s.objectsDir := by
  intro heq
  have hlen := congrArg List.length heq
  simp [packDir, objectsDir] at hlen

theorem packFile_ne_objectsDir (name : Name) : s.packDir ++ [name] ≠ s.objectsDir := by
  intro heq
  have hlen := congrArg List.length heq
  simp [packDir, objectsDir] at hlen

end BlobStore

end CasKit
