import CasKit.Change
import CasKit.Concrete

/-!
# Storing a blob and reading it back

The changes the three puts make, and the law of the round trip: what `put_blob` has stored
under its address a fresh store returns, exactly where the stored bytes lead back to the
data.
-/
namespace CasKit
open Effects Files Codec

namespace BlobStore
variable (c : Crates) (s : BlobStore)

/-- The bytes of the file that stores `data` in the mode of the handle. -/
def storedForm (data : Bytes) : Except CasError Bytes :=
  if s.compress then CasKit.compress c data s.compressionLevel else .ok data

/-- The changes of a put. -/
def putChanges (h : Hash) (raw : Bytes) : List Change :=
  [.mkdir s.objectsDir, .mkdir (s.objectsDir ++ [h.toHex.take 2]), .put (s.blobPath h) raw]

variable {c s} {h : Hash} {data raw : Bytes} {w : World}

theorem performs_ensureParentDir (hdir : s.view w.disk (s.objectsDir ++ [h.toHex.take 2]) =
      some .dir ∨ s.objectsDir ++ [h.toHex.take 2] ∉ w.caches.knownDirs) :
    s.Performs [.mkdir s.objectsDir, .mkdir (s.objectsDir ++ [h.toHex.take 2])] (fun _ => True)
      (ensureParentDir (s.objectsDir ++ [h.toHex.take 2])) w := by
  refine Prog.Performs.call rfl ?_
  by_cases hk : s.objectsDir ++ [h.toHex.take 2] ∈ w.caches.knownDirs
  · have hnode : s.view w.disk (s.objectsDir ++ [h.toHex.take 2]) = some .dir :=
      hdir.resolve_right (not_not_intro hk)
    have hobj : s.view w.disk s.objectsDir = some .dir := by
      rw [view_objectsDir_append] at hnode
      have htop : w.disk.IsDir s.objectsDir :=
        Tree.isDir_of_prefix (.inr hnode) (List.prefix_append _ _)
      rw [s.view_of_prefix List.prefix_rfl]
      exact (isDir_iff_node s.objectsDir_ne_nil).mp htop
    rw [show (answer (.dirKnown (s.objectsDir ++ [h.toHex.take 2])) w).1 = true from
      decide_eq_true hk]
    refine Prog.Performs.ret_of_eq ?_ trivial
    show s.view w.disk = changed _ (s.view w.disk)
    rw [changed, Prog.after_cons, Change.apply_mkdir_of_some hobj, Prog.after_cons,
      Change.apply_mkdir_of_some hnode, Prog.after_nil]
  · rw [show (answer (.dirKnown (s.objectsDir ++ [h.toHex.take 2])) w).1 = false from
      decide_eq_false hk]
    have hmk := (performs_createDirAll (s := s) (w := w) (h.toHex.take 2)).mapErr (g := CasError.io)
    exact hmk.bind_nothing fun _ t _ _ => Prog.Performs.call rfl (.ret trivial)

/-- Writing a blob makes its bucket and puts the file, if there is a stored form at all. -/
theorem performs_writeBlob (hraw : ∀ r, s.storedForm c data = .ok r → r = raw) :
    s.Performs (s.putChanges h raw) (fun _ => s.storedForm c data = .ok raw)
      (s.writeBlob c (s.blobPath h) data) w := by
  have hprog : s.writeBlob c (s.blobPath h) data =
      (ensureParentDir (s.objectsDir ++ [h.toHex.take 2]) >>= fun _ =>
        (Prog.ofExcept (s.storedForm c data) : Action CasError Bytes) >>= fun raw =>
          ioCas (writeFile (s.blobPath h) raw)) := by
    unfold writeBlob storedForm
    rw [dropLast_blobPath]
    cases s.compress <;> rfl
  have hwrite : ∀ t, s.Performs [.put (s.blobPath h) raw]
      (fun _ => s.storedForm c data = .ok raw)
      ((Prog.ofExcept (s.storedForm c data) : Action CasError Bytes) >>= fun raw =>
        ioCas (writeFile (s.blobPath h) raw)) t := by
    intro t
    cases hform : s.storedForm c data with
    | error e => exact .throw _ e
    | ok r =>
      obtain rfl := hraw r hform
      exact ((performs_writeFile s.objectsDir_prefix_blobPath r).mapErr).mono fun _ _ => rfl
  rw [hprog]
  by_cases hdir : s.view w.disk (s.objectsDir ++ [h.toHex.take 2]) = some .dir ∨
      s.objectsDir ++ [h.toHex.take 2] ∉ w.caches.knownDirs
  · exact (performs_ensureParentDir hdir).bind fun _ t _ _ => hwrite t
  · -- the handle believes in a bucket that is gone: the write fails
    push Not at hdir
    refine Prog.Performs.call rfl ?_
    rw [show (answer (.dirKnown (s.objectsDir ++ [h.toHex.take 2])) w).1 = true from
      decide_eq_true hdir.2]
    show s.Performs (s.putChanges h raw) _ ((Prog.ofExcept (s.storedForm c data) :
      Action CasError Bytes) >>= fun raw => ioCas (writeFile (s.blobPath h) raw)) w
    cases hform : s.storedForm c data with
    | error e => exact .throw _ e
    | ok r =>
      have hnot : ¬ ∃ t, w.disk.write (s.blobPath h) r = .ok t := by
        rw [Tree.write_ok_iff, dropLast_blobPath]
        rintro ⟨-, -, hd⟩
        have hnode := (isDir_iff_node (by simp)).mp hd
        exact hdir.1 (by rwa [view_objectsDir_append])
      cases hwr : w.disk.write (s.blobPath h) r with
      | ok t => exact absurd ⟨t, hwr⟩ hnot
      | error e => exact (performs_writeFile_error hwr).mapErr

theorem performs_putBlob (hraw : ∀ r, s.storedForm c data = .ok r → r = raw)
    (habs : w.disk.exists (s.blobPath (hashBytes c data)) = false) :
    s.Performs (s.putChanges (hashBytes c data) raw)
      (fun h => h = hashBytes c data ∧ s.storedForm c data = .ok raw) (s.putBlob c data) w := by
  refine Prog.Performs.call rfl ?_
  rw [show (answer (.exists (s.blobPath (hashBytes c data))) w).1 = false from habs]
  show s.Performs _ _ (s.writeBlob c (s.blobPath (hashBytes c data)) data >>= fun _ =>
    Prog.ret (hashBytes c data)) w
  refine (performs_writeBlob hraw).bind_nothing fun _ t _ hform => ?_
  exact .ret ⟨rfl, hform⟩

theorem isZstdCompressed_of_take {bs : Bytes} (h : bs.take 4 = [0x28, 0xB5, 0x2F, 0xFD]) :
    isZstdCompressed bs = true := by
  have hlen := congrArg List.length h
  simp only [List.length_take, List.length_cons, List.length_nil] at hlen
  have h4 : 4 ≤ bs.length := by omega
  simp [isZstdCompressed, h, h4]

/-- When a stored file leads back to the data it was made from. -/
theorem decodeLoose_storedForm (hz : ZstdSound c) (hraw : s.storedForm c data = .ok raw) :
    s.decodeLoose c raw (hashBytes c data) = .ok data ↔
      if s.compress then data.length ≤ maxDecompressedSize
      else isZstdCompressed data = false ∨ decompress c data = .ok data := by
  unfold storedForm at hraw
  cases hmode : s.compress with
  | true =>
    rw [hmode, if_pos rfl] at hraw
    have hmagic := isZstdCompressed_of_take (hz.magic _ _ _ (compress_ok.mp hraw))
    rw [s.decodeLoose_iff rfl, hmagic, if_pos rfl, decompress_compress hz hraw]
    by_cases hlen : data.length ≤ maxDecompressedSize <;> simp [hlen]
  | false =>
    rw [hmode] at hraw
    obtain rfl := Except.ok.inj hraw
    rw [s.decodeLoose_iff rfl]
    cases isZstdCompressed data <;> simp

/-- Put and get: a blob put under an address that had no file comes back on a fresh store
with the same configuration exactly when a compressed blob fits the decompression cap, or an
uncompressed one does not look like a frame (or is one that decodes to itself). -/
theorem getBlob_putBlob (hz : ZstdSound c) {w' : World}
    (habs : w.disk.exists (s.blobPath (hashBytes c data)) = false)
    (hput : run (s.putBlob c data) w = (.ok h, w')) (order : HashOrder) :
    (run (s.getBlob c order h) ⟨w'.disk, .empty⟩).1 = .ok data ↔
      if s.compress then data.length ≤ maxDecompressedSize
      else isZstdCompressed data = false ∨ decompress c data = .ok data := by
  have hform : ∃ raw, ∀ r, s.storedForm c data = .ok r → r = raw := by
    cases hr : s.storedForm c data with
    | error e => exact ⟨[], by simp⟩
    | ok r => exact ⟨r, fun r' h => (Except.ok.inj h).symm⟩
  obtain ⟨raw, hraw⟩ := hform
  obtain ⟨hview, hhash, hstored⟩ := (performs_putBlob (w := w) hraw habs).at_ok hput
  subst hhash
  have hnode : s.view w'.disk (s.blobPath (hashBytes c data)) = some (.file raw) := by
    rw [hview]
    simp [putChanges, Prog.after, Change.apply]
  rw [view_blobPath] at hnode
  have hfile : w'.disk.file (s.blobPath (hashBytes c data)) = some raw :=
    Tree.file_eq_some.mpr hnode
  rw [fresh_getBlob, peek_fetchBlob, Tree.exists_of_file hfile, if_pos rfl, peek_fetchLoose,
    ← decodeLoose_storedForm hz hstored]
  constructor
  · rintro ⟨r, hr, hd⟩
    rwa [Option.some.inj (hfile.symm.trans hr)]
  · intro hd
    exact ⟨raw, hfile, hd⟩

/-- Ten bytes in a compressing store come back. -/
theorem getBlob_putBlob_text :
    (run ((Concrete.store true).getBlob Concrete.crates .inserted
        (hashBytes Concrete.crates (text "ten bytes!")))
      ⟨(run ((Concrete.store true).putBlob Concrete.crates (text "ten bytes!"))
        ⟨Concrete.newDisk, .empty⟩).2.disk, .empty⟩).1 = .ok (text "ten bytes!") := by
  refine (getBlob_putBlob (w := ⟨Concrete.newDisk, .empty⟩) Concrete.zstdSound
    (by decide +kernel) (Prod.ext (by decide +kernel) rfl) .inserted).mpr ?_
  decide +kernel

/-- The four bytes of the frame magic go into an uncompressed store and do not come back. -/
theorem getBlob_putBlob_magic :
    (run ((Concrete.store false).putBlob Concrete.crates [0x28, 0xB5, 0x2F, 0xFD])
      ⟨Concrete.newDisk, .empty⟩).1 =
        .ok (hashBytes Concrete.crates [0x28, 0xB5, 0x2F, 0xFD]) ∧
    (run ((Concrete.store false).getBlob Concrete.crates .inserted
        (hashBytes Concrete.crates [0x28, 0xB5, 0x2F, 0xFD]))
      ⟨(run ((Concrete.store false).putBlob Concrete.crates [0x28, 0xB5, 0x2F, 0xFD])
        ⟨Concrete.newDisk, .empty⟩).2.disk, .empty⟩).1 =
        .error (.decompressionError (text "incomplete frame")) := by
  decide +kernel

end BlobStore

end CasKit
