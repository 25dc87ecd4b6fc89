import CasKit.Dedup
import CasKit.Torn

/-!
# A put after an interrupted put

A put that is interrupted may leave a part of its file at the final address. The next put of
the same data finds a file there and returns; what `get_blob` then makes of the file decides.
-/
namespace CasKit
open Effects Files Codec

/-- The bytes of a loose file lead back to the data. -/
def DecodesTo (c : Crates) (left data : Bytes) : Prop :=
  (if isZstdCompressed left then decompress c left else .ok left) = .ok data

namespace BlobStore
variable {c : Crates} {s : BlobStore} {w : World} {data : Bytes} {t : Tree}

/-- A moment of an undivided put: its file is absent or whole, where it was absent before. -/
theorem cutOff_put (call : PutCall)
    (habs : w.disk.node (s.blobPath (hashBytes c call.bytes)) = none) (n : ℕ) :
    (cutOff n (call.action c s) w).disk.node (s.blobPath (hashBytes c call.bytes)) = none ∨
      ∃ raw, s.storedForm c call.bytes = .ok raw ∧
        (cutOff n (call.action c s) w).disk.node (s.blobPath (hashBytes c call.bytes)) =
          some (.file raw) := by
  obtain ⟨-, hloose⟩ := put_moment (c := c) (s := s) (w := w) call n
  have hmoment := hloose (hashBytes c call.bytes)
  simp only [view_blobPath] at hmoment
  rcases hmoment with hsame | ⟨-, -, hfile⟩
  · exact .inl (hsame.trans habs)
  · exact .inr hfile

/-- What an interrupted put leaves where nothing was: nothing, or a prefix of the stored form. -/
theorem left_by_put (call : PutCall) {k n : ℕ}
    (habs : w.disk.node (s.blobPath (hashBytes c call.bytes)) = none) :
    (cutOff n (inTwo (List.take k) (call.action c s)) w).disk.node
        (s.blobPath (hashBytes c call.bytes)) = none ∨
      ∃ raw j, s.storedForm c call.bytes = .ok raw ∧
        (cutOff n (inTwo (List.take k) (call.action c s)) w).disk.file
          (s.blobPath (hashBytes c call.bytes)) = some (raw.take j) := by
  rcases @cutOff_inTwo _ _ (List.take k) w (call.action c s) n with
    ⟨m, hm⟩ | ⟨m, q, b, t, hpending, hwrite, hm⟩
  · rw [hm]
    rcases cutOff_put call habs m with hnone | ⟨raw, hraw, hfile⟩
    · exact .inl hnone
    · refine .inr ⟨raw, raw.length, hraw, ?_⟩
      rw [List.take_length]
      exact Tree.file_eq_some.mpr hfile
  · obtain ⟨rfl, hraw⟩ : q = s.blobPath (hashBytes c call.bytes) ∧
        s.storedForm c call.bytes = .ok b := (put_writes call).pending hpending
    refine .inr ⟨b, k, hraw, ?_⟩
    rw [hm]
    show t.file _ = _
    rw [Tree.file_write hwrite, if_pos rfl]

/-- A put of data that has a file there already, and then a get on a fresh handle. -/
theorem getBlob_existing {order : HashOrder}
    (hex : t.exists (s.blobPath (hashBytes c data)) = true) :
    (run (s.getBlob c order (hashBytes c data)) ⟨t, .empty⟩).1 = .ok data ↔
      ∃ left, t.file (s.blobPath (hashBytes c data)) = some left ∧ DecodesTo c left data := by
  rw [fresh_getBlob, peek_fetchBlob, hex, if_pos rfl, peek_fetchLoose]
  simp only [s.decodeLoose_iff rfl, DecodesTo]

/-- A put of the same data after one that was interrupted, by a crash or an error, after any
part of its file was written. What the first one leaves where nothing was is a prefix of the
stored form, if anything. When the second one succeeds, the data comes back on a fresh handle
if and only if nothing was left at the path, or a file that leads back to the data. -/
theorem reput_heals_iff (hz : ZstdSound c) (hlen : data.length ≤ maxDecompressedSize)
    (hmagic : s.compress = false → isZstdCompressed data = false) (call : PutCall)
    (hcall : call.bytes = data) {u : World} {n k : ℕ}
    (hu : cutOff n (inTwo (List.take k) (call.action c s)) w = u) (caches : Caches) :
    (w.disk.node (s.blobPath (hashBytes c data)) = none →
      u.disk.node (s.blobPath (hashBytes c data)) = none ∨ ∃ raw j,
        s.storedForm c data = .ok raw ∧
          u.disk.file (s.blobPath (hashBytes c data)) = some (raw.take j)) ∧
    ((∀ h w', run (s.putBlob c data) ⟨u.disk, caches⟩ = (.ok h, w') → ∀ order,
        (run (s.getBlob c order h) ⟨w'.disk, .empty⟩).1 = .ok data) ↔
      u.disk.node (s.blobPath (hashBytes c data)) = none ∨
        ∃ left, u.disk.file (s.blobPath (hashBytes c data)) = some left ∧
          DecodesTo c left data) := by
  subst hcall
  refine ⟨fun habs => hu ▸ left_by_put call habs, ?_⟩
  cases hex : u.disk.exists (s.blobPath (hashBytes c call.bytes)) with
  | true =>
    obtain ⟨hput, -⟩ := run_puts_existing (c := c) (s := s) (w := ⟨u.disk, caches⟩) hex rfl
    have hnode : u.disk.node (s.blobPath (hashBytes c call.bytes)) ≠ none := by
      intro hnone
      rw [(Tree.exists_eq_false s.blobPath_ne_nil).mpr hnone] at hex
      cases hex
    rw [or_iff_right hnode]
    constructor
    · intro hheals
      exact (getBlob_existing hex).mp (hheals _ _ hput .inserted)
    · intro hleft h w' hrun order
      rw [hput] at hrun
      obtain ⟨hres, rfl⟩ := Prod.mk.inj hrun
      obtain rfl := Except.ok.inj hres
      exact (getBlob_existing hex).mpr hleft
  | false =>
    have hnode := (Tree.exists_eq_false s.blobPath_ne_nil).mp hex
    refine iff_of_true (fun h w' hrun order => ?_) (.inl hnode)
    refine (getBlob_putBlob hz (w := ⟨u.disk, caches⟩) hex hrun order).mpr ?_
    cases hmode : s.compress with
    | true => rwa [if_pos rfl]
    | false =>
      rw [if_neg Bool.false_ne_true]
      exact .inl (hmagic hmode)

/-- A put that was cut off before it made its file: the next one stores the blob. -/
theorem reput_heals_unwritten :
    (run ((Concrete.store false).getBlob Concrete.crates .inserted
        (hashBytes Concrete.crates (text "ab")))
      ⟨(run ((Concrete.store false).putBlob Concrete.crates (text "ab"))
        ⟨(cutOff 4 (inTwo (List.take 1) (PutCall.action Concrete.crates (Concrete.store false)
          (.putBlob (text "ab")))) ⟨Concrete.newDisk, .empty⟩).disk, .empty⟩).2.disk,
        .empty⟩).1 = .ok (text "ab") :=
  (reput_heals_iff Concrete.zstdSound (by decide +kernel) (by decide +kernel)
    (.putBlob (text "ab")) rfl (w := ⟨Concrete.newDisk, .empty⟩) (n := 4) (k := 1) rfl
    .empty).2.mpr (.inl (by decide +kernel)) (hashBytes Concrete.crates (text "ab")) _
    (Prod.ext (by decide +kernel) rfl) .inserted

/-- A put that was cut off after one byte: the next one succeeds, and the blob does not come
back. -/
theorem reput_keeps_torn :
    (run ((Concrete.store false).putBlob Concrete.crates (text "ab"))
      ⟨(cutOff 5 (inTwo (List.take 1) (PutCall.action Concrete.crates (Concrete.store false)
        (.putBlob (text "ab")))) ⟨Concrete.newDisk, .empty⟩).disk, .empty⟩).1 =
        .ok (hashBytes Concrete.crates (text "ab")) ∧
    (run ((Concrete.store false).getBlob Concrete.crates .inserted
        (hashBytes Concrete.crates (text "ab")))
      ⟨(run ((Concrete.store false).putBlob Concrete.crates (text "ab"))
        ⟨(cutOff 5 (inTwo (List.take 1) (PutCall.action Concrete.crates (Concrete.store false)
          (.putBlob (text "ab")))) ⟨Concrete.newDisk, .empty⟩).disk, .empty⟩).2.disk,
        .empty⟩).1 ≠ .ok (text "ab") := by
  decide +kernel

end BlobStore

end CasKit
