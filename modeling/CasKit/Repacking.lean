import CasKit.Coherent
import CasKit.Concrete
import CasKit.Survivors

/-!
# What a repack leaves readable

`repack` moves every loose blob to the read path of the packs. There the index of every pack
has to load, any pack that lists the blob may be asked for it, and the payload has to fit the
cap.
-/
namespace CasKit
open Effects Files Codec

namespace BlobStore
variable {c : Crates} {s : BlobStore} {t : Tree} {h : Hash} {d : Bytes} {order : HashOrder}

/-! ## The view after a repack -/

/-- The view after the loose blobs were moved into a pack. -/
structure Repacked (c : Crates) (s : BlobStore) (v : Nodes) (hashes : List Hash)
    (objects : List (Hash × Bytes)) (packData : Bytes) (entries : List PackIndexEntry)
    (u : Nodes) : Prop where
  written : Written c s objects packData entries u
  gone : ∀ h ∈ hashes, u (s.blobPath h) = none
  kept : ∀ h, h ∉ hashes → u (s.blobPath h) = v (s.blobPath h)
  pair : PairPut c s (serializeIndex entries) v u

theorem repacked_changed {v : Nodes} {hashes : List Hash} {objects : List (Hash × Bytes)}
    {packData : Bytes} {entries : List PackIndexEntry}
    (hp : packObjects c objects = .ok (packData, entries)) :
    Repacked c s v hashes objects packData entries (changed (repackChanges c s hashes objects) v) := by
  have hdrops : ∀ q, changed (repackChanges c s hashes objects) v q =
      if q ∈ hashes.map s.blobPath then none
      else changed ([.mkdir s.objectsDir, .mkdir s.packDir] ++ createChanges c s objects) v q := by
    intro q
    have hmap : hashes.map (fun h => Change.drop (s.blobPath h)) =
        (hashes.map s.blobPath).map Change.drop := by
      rw [List.map_map]
      rfl
    rw [repackChanges, changed, Prog.after_append, hmap]
    exact changed_drops
  have hfile : ∀ q, (∃ name, q = s.packDir ++ [name]) → q ∉ hashes.map s.blobPath := by
    rintro q ⟨name, rfl⟩ hmem
    obtain ⟨h, -, heq⟩ := List.mem_map.mp hmem
    exact s.blobPath_ne_packFile h name heq
  have hcreate : ∀ q, changed ([.mkdir s.objectsDir, .mkdir s.packDir] ++ createChanges c s objects)
      v q = if q = PackFile.idxPath c s.packDir (serializeIndex entries) then
          some (.file (serializeIndex entries))
        else if q = PackFile.packPath c s.packDir (serializeIndex entries) then some (.file packData)
        else changed [.mkdir s.objectsDir, .mkdir s.packDir] v q := by
    intro q
    rw [createChanges_ok hp, changed, Prog.after_append]
    rfl
  have hdirs : ∀ q, q ≠ s.objectsDir → q ≠ s.packDir →
      changed [.mkdir s.objectsDir, .mkdir s.packDir] v q = v q := by
    intro q h1 h2
    refine changed_of_forall_ne fun ch hch => ?_
    rcases List.mem_cons.mp hch with rfl | hch
    · exact h1
    · rw [List.mem_singleton.mp hch]
      exact h2
  constructor
  · constructor
    · exact hp
    · have hnot := hfile (PackFile.packPath c s.packDir (serializeIndex entries)) ⟨_, rfl⟩
      rw [bytesAt_eq_some, hdrops, if_neg hnot, hcreate, if_neg (packPath_ne_idxPath c s _ _),
        if_pos rfl]
    · have hnot := hfile (PackFile.idxPath c s.packDir (serializeIndex entries)) ⟨_, rfl⟩
      rw [bytesAt_eq_some, hdrops, if_neg hnot, hcreate, if_pos rfl]
  · intro h hh
    rw [hdrops, if_pos (List.mem_map_of_mem hh)]
  · intro h hh
    have hnot : s.blobPath h ∉ hashes.map s.blobPath := by
      intro hmem
      obtain ⟨h', hh', heq⟩ := List.mem_map.mp hmem
      rw [s.blobPath_injective heq] at hh'
      exact hh hh'
    have hidx : s.blobPath h ≠ PackFile.idxPath c s.packDir (serializeIndex entries) :=
      s.blobPath_ne_packFile h _
    have hpack : s.blobPath h ≠ PackFile.packPath c s.packDir (serializeIndex entries) :=
      s.blobPath_ne_packFile h _
    rw [hdrops, if_neg hnot, hcreate, if_neg hidx, if_neg hpack]
    exact hdirs _ (s.blobPath_ne_objectsDir h) (s.blobPath_ne_packDir h)
  refine ⟨fun q hq h1 h2 => ?_, ?_⟩
  · obtain ⟨name, rfl⟩ := hq
    rw [hdrops, if_neg (hfile _ ⟨name, rfl⟩), hcreate, if_neg h2, if_neg h1]
    exact hdirs _ (s.packFile_ne_objectsDir name) (s.packDir_ne_packFile name).symm
  · have hnot : s.packDir ∉ hashes.map s.blobPath := by
      intro hmem
      obtain ⟨h, -, heq⟩ := List.mem_map.mp hmem
      exact s.blobPath_ne_packDir h heq
    have hidx : s.packDir ≠ PackFile.idxPath c s.packDir (serializeIndex entries) :=
      s.packDir_ne_packFile _
    have hpack : s.packDir ≠ PackFile.packPath c s.packDir (serializeIndex entries) :=
      s.packDir_ne_packFile _
    have hdir : changed [.mkdir s.objectsDir, .mkdir s.packDir] v s.packDir =
        if v s.packDir = none then some .dir else v s.packDir := by
      show (Change.mkdir s.packDir).apply ((Change.mkdir s.objectsDir).apply v) s.packDir = _
      simp [Change.apply, s.packDir_ne_objectsDir]
    have hsame : changed (repackChanges c s hashes objects) v s.packDir =
        if v s.packDir = none then some .dir else v s.packDir := by
      rw [hdrops, if_neg hnot, hcreate, if_neg hidx, if_neg hpack, hdir]
    cases hv : v s.packDir with
    | none => simp [bytesAt, hsame, hv]
    | some n => simp [bytesAt, hsame, hv]

/-! ## What stays readable -/

section Repack
variable (c : Crates) (s : BlobStore) (order : HashOrder) (t : Tree)

variable {c s order t}

/-- A store with the loose blob `a`. -/
def looseDisk : Tree := Concrete.after
  (PutCall.action Concrete.crates (Concrete.store false) (.putBlob (text "a"))) Concrete.newDisk

end Repack

end BlobStore

end CasKit
