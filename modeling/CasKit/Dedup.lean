import CasKit.Concrete
import CasKit.Session

/-!
# Deduplication

The puts look at the loose path and at nothing else, while `has_blob` asks the packs too. A
blob that is only in a pack is there for the one and missing for the others.
-/
namespace CasKit
open Effects Files Codec

namespace BlobStore
variable {c : Crates} {s : BlobStore} {w : World} {h : Hash} {data : Bytes}

section Existing
variable (hex : w.disk.exists (s.blobPath h) = true)
include hex

/-- Where something is at the loose path, the puts only look. -/
theorem run_puts_existing (hh : hashBytes c data = h) :
    run (s.putBlob c data) w = (.ok h, w) ∧
      run (s.putBlobWithHash c data h) w = (.ok (), w) ∧
      run (s.putBlobNew c data) w = (.error (.alreadyExists h.toHex), w) := by
  subst hh
  have hput : run (s.putBlob c data) w = run (if w.disk.exists (s.blobPath (hashBytes c data))
      then .ret (hashBytes c data) else (s.writeBlob c (s.blobPath (hashBytes c data)) data >>=
        fun _ => .ret (hashBytes c data)) : Action CasError Hash) w := rfl
  have hwith : run (s.putBlobWithHash c data (hashBytes c data)) w =
      run (if w.disk.exists (s.blobPath (hashBytes c data)) then .ret () else
        (Prog.ofExcept (verifyHash c data (hashBytes c data)) >>= fun _ =>
          s.writeBlob c (s.blobPath (hashBytes c data)) data) : Action CasError Unit) w := rfl
  have hnew : run (s.putBlobNew c data) w = run (if w.disk.exists (s.blobPath (hashBytes c data))
      then .throw (.alreadyExists (hashBytes c data).toHex)
      else (s.writeBlob c (s.blobPath (hashBytes c data)) data >>=
        fun _ => .ret (hashBytes c data)) : Action CasError Hash) w := rfl
  rw [hput, hwith, hnew, hex]
  exact ⟨rfl, rfl, rfl⟩

end Existing

section Missing
variable (hex : w.disk.exists (s.blobPath (hashBytes c data)) = false)
include hex

theorem file_of_missing : w.disk.file (s.blobPath (hashBytes c data)) = none :=
  Tree.file_eq_none_of_node ((Tree.exists_eq_false s.blobPath_ne_nil).mp hex)

/-- A put of a blob without a loose file writes one, if it succeeds. -/
theorem run_putBlob_missing {h : Hash} {w' : World}
    (hrun : run (s.putBlob c data) w = (.ok h, w')) :
    (w'.disk.file (s.blobPath (hashBytes c data))).isSome := by
  have hstart : run (s.putBlob c data) w = run (if w.disk.exists (s.blobPath (hashBytes c data))
      then .ret (hashBytes c data) else (s.writeBlob c (s.blobPath (hashBytes c data)) data >>=
        fun _ => .ret (hashBytes c data)) : Action CasError Hash) w := rfl
  rw [hstart, hex, if_neg Bool.false_ne_true] at hrun
  cases hres : (run (s.writeBlob c (s.blobPath (hashBytes c data)) data) w).1 with
  | error e =>
    rw [run_bind_error (Prod.ext hres rfl)] at hrun
    cases (Prod.mk.inj hrun).1
  | ok u =>
    have hok : run (s.writeBlob c (s.blobPath (hashBytes c data)) data) w =
        (.ok (), (run (s.writeBlob c (s.blobPath (hashBytes c data)) data) w).2) :=
      Prod.ext hres rfl
    obtain ⟨raw, -, hfiles⟩ := (run_writeBlob (s.blobPath (hashBytes c data))).1 _ hok
    rw [run_bind_ok hok] at hrun
    rw [← (Prod.mk.inj hrun).2]
    show ((run (s.writeBlob c (s.blobPath (hashBytes c data)) data) w).2.disk.file _).isSome
    rw [hfiles, if_pos rfl]
    rfl

/-- A new blob without a loose file: it gets one, and no other file changes, or there was an
I/O error or no stored form. -/
theorem run_putBlobNew_missing (hio : ∀ e, (run (s.putBlobNew c data) w).1 ≠ .error (.io e))
    (hform : ∀ e, s.storedForm c data ≠ .error e) :
    (run (s.putBlobNew c data) w).1 = .ok (hashBytes c data) ∧ ∃ raw, ∀ q,
      (run (s.putBlobNew c data) w).2.disk.file q =
        if q = s.blobPath (hashBytes c data) then some raw else w.disk.file q := by
  have hstart : run (s.putBlobNew c data) w = run
      (if w.disk.exists (s.blobPath (hashBytes c data))
        then .throw (.alreadyExists (hashBytes c data).toHex)
        else (s.writeBlob c (s.blobPath (hashBytes c data)) data >>=
          fun _ => .ret (hashBytes c data)) : Action CasError Hash) w := rfl
  rw [hex, if_neg Bool.false_ne_true] at hstart
  cases hres : (run (s.writeBlob c (s.blobPath (hashBytes c data)) data) w).1 with
  | error e =>
    rcases (run_writeBlob (s.blobPath (hashBytes c data))).2 e hres with ⟨k, rfl⟩ | hnone
    · refine absurd ?_ (hio k)
      rw [hstart, run_bind_error (Prod.ext hres rfl)]
    · exact absurd hnone (hform e)
  | ok u =>
    have hok : run (s.writeBlob c (s.blobPath (hashBytes c data)) data) w =
        (.ok (), (run (s.writeBlob c (s.blobPath (hashBytes c data)) data) w).2) :=
      Prod.ext hres rfl
    obtain ⟨raw, -, hfiles⟩ := (run_writeBlob (s.blobPath (hashBytes c data))).1 _ hok
    rw [hstart, run_bind_ok hok]
    exact ⟨rfl, raw, hfiles⟩

end Missing

/-- Content that is there is not stored again, and content that is not there is stored in one
loose file. -/
structure Deduplicates (c : Crates) (s : BlobStore) (order : HashOrder) (w : World)
    (data : Bytes) : Prop where
  known : (run (s.hasBlob order (hashBytes c data)) w).1 = .ok true →
    ((run (s.putBlob c data) w).1 = .ok (hashBytes c data) ∧
      (run (s.putBlob c data) w).2.disk = w.disk) ∧
    ((run (s.putBlobWithHash c data (hashBytes c data)) w).1 = .ok () ∧
      (run (s.putBlobWithHash c data (hashBytes c data)) w).2.disk = w.disk) ∧
    (run (s.putBlobNew c data) w).1 = .error (.alreadyExists (hashBytes c data).toHex) ∧
      (run (s.putBlobNew c data) w).2.disk = w.disk
  unknown : (run (s.hasBlob order (hashBytes c data)) w).1 = .ok false →
    (∀ e, (run (s.putBlobNew c data) w).1 ≠ .error (.io e)) →
    (∀ e, s.storedForm c data ≠ .error e) →
    (run (s.putBlobNew c data) w).1 = .ok (hashBytes c data) ∧
      w.disk.file (s.blobPath (hashBytes c data)) = none ∧
      ∃ raw, ∀ q, (run (s.putBlobNew c data) w).2.disk.file q =
        if q = s.blobPath (hashBytes c data) then some raw else w.disk.file q

/-- After any sequence of calls on a handle, content is deduplicated if and only if something is
at its loose path or the packs that the handle asks do not list it. -/
theorem deduplicates_iff (calls : List StoreCall) (order : HashOrder) (start : World)
    (data : Bytes) : Deduplicates c s order (session c s calls start) data ↔
      (session c s calls start).disk.exists (s.blobPath (hashBytes c data)) = true ∨
        ¬ s.SeesPacked (s.view (session c s calls start).disk)
          (session c s calls start).caches.packCache (hashBytes c data) := by
  generalize session c s calls start = w
  constructor
  · intro hdedup
    by_contra hnot
    push Not at hnot
    have hex : w.disk.exists (s.blobPath (hashBytes c data)) = false :=
      Bool.not_eq_true _ ▸ hnot.1
    obtain ⟨⟨hok, hdisk⟩, -⟩ := hdedup.known ((s.hasBlob_true order).mpr (.inr hnot.2))
    -- the put succeeds and writes a loose file that was not there
    have hwritten := run_putBlob_missing hex (Prod.ext hok rfl)
    rw [hdisk, file_of_missing hex] at hwritten
    cases hwritten
  · intro hcond
    constructor
    · intro htrue
      have hex : w.disk.exists (s.blobPath (hashBytes c data)) = true := by
        rcases (s.hasBlob_true order).mp htrue with hex | hsees
        · exact hex
        · exact hcond.resolve_right fun hno => hno hsees
      obtain ⟨hput, hwith, hnew⟩ := run_puts_existing (c := c) hex rfl
      rw [hput, hwith, hnew]
      exact ⟨⟨rfl, rfl⟩, ⟨rfl, rfl⟩, rfl, rfl⟩
    · intro hfalse hio hform
      have hno := (s.hasBlob_false order).mp hfalse
      have hex : w.disk.exists (s.blobPath (hashBytes c data)) = false := by
        rw [← Bool.not_eq_true]
        exact fun hex => hno (.inl hex)
      obtain ⟨hok, hfiles⟩ := run_putBlobNew_missing hex hio hform
      exact ⟨hok, file_of_missing hex, hfiles⟩

/-- A blob that `repack` moved into a pack is there, and `put_blob_new` takes it for new. -/
theorem deduplicates_fails_packed :
    ¬ Deduplicates Concrete.crates (Concrete.store false) .inserted
      (session Concrete.crates (Concrete.store false)
        [.put (.putBlob (text "a")), .repack .inserted 0] ⟨Concrete.newDisk, .empty⟩)
      (text "a") := by
  intro hdedup
  have hknown := hdedup.known (by decide +kernel)
  have hnew : (run ((Concrete.store false).putBlobNew Concrete.crates (text "a"))
      (session Concrete.crates (Concrete.store false)
        [.put (.putBlob (text "a")), .repack .inserted 0] ⟨Concrete.newDisk, .empty⟩)).1 =
        .ok (hashBytes Concrete.crates (text "a")) := by
    decide +kernel
  rw [hnew] at hknown
  cases hknown.2.2.1

end BlobStore

end CasKit
