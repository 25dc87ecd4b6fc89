import CasKit.Gc
import CasKit.Presence

/-!
# Calls on one handle

Calls that complete one after another on one handle. What a call leaves behind is the disk and
the caches of the handle.
-/
namespace CasKit
open Effects Files Codec

namespace BlobStore
variable {c : Crates} {s : BlobStore} {w : World} {data : Bytes}

inductive StoreCall where
  | put (call : PutCall)
  | getBlob (order : HashOrder) (hash : Hash)
  | hasBlob (order : HashOrder) (hash : Hash)
  | deleteBlob (hash : Hash)
  | repack (order : HashOrder) (threshold : ℕ)
  | sweep (live : Finset Hash) (options : Gc.SweepOptions)

/-- The world that a call leaves behind, whatever its outcome. -/
def StoreCall.after (c : Crates) (s : BlobStore) (w : World) : StoreCall → World
  | put call => (run (call.action c s) w).2
  | getBlob order hash => (run (s.getBlob c order hash) w).2
  | hasBlob order hash => (run (s.hasBlob order hash) w).2
  | deleteBlob hash => (run (s.deleteBlob hash) w).2
  | repack order threshold => (run (s.repack c order threshold) w).2
  | sweep live options => (run (Gc.sweep c s live options) w).2

/-- The world after a sequence of calls. -/
def session (c : Crates) (s : BlobStore) (calls : List StoreCall) (w : World) : World :=
  calls.foldl (StoreCall.after c s) w

section Write

/-- Making the bucket changes no file, and fails with an I/O error if at all. -/
theorem run_ensureParentDir (p : Path) :
    (∀ q, (run (ensureParentDir p) w).2.disk.file q = w.disk.file q) ∧
      ∀ e, (run (ensureParentDir p) w).1 = .error e → ∃ k, e = .io k := by
  have hstart : run (ensureParentDir p) w = run (if p ∈ w.caches.knownDirs then .ret () else
      ioCas (createDirAll p) >>= fun _ => .call (.dirLearn p) .ret : Action CasError Unit) w := by
    unfold ensureParentDir
    by_cases hk : p ∈ w.caches.knownDirs
    · show run (if decide (p ∈ w.caches.knownDirs) then _ else _) w = _
      rw [decide_eq_true hk, if_pos hk]
      rfl
    · show run (if decide (p ∈ w.caches.knownDirs) then _ else _) w = _
      rw [decide_eq_false hk, if_neg hk]
      rfl
  rw [hstart]
  by_cases hk : p ∈ w.caches.knownDirs
  · rw [if_pos hk]
    exact ⟨fun q => rfl, fun e he => by cases he⟩
  · rw [if_neg hk]
    cases hmk : w.disk.createDirAll p with
    | error k =>
      have hfail : run (ioCas (createDirAll p)) w = (.error (.io k), w) := by
        rw [ioCas, run_mapErr, run_createDirAll, hmk]
        rfl
      rw [run_bind_error hfail]
      exact ⟨fun q => rfl, fun e he => ⟨k, (Except.error.inj he).symm⟩⟩
    | ok t =>
      have hok : run (ioCas (createDirAll p)) w = (.ok (), { w with disk := t }) := by
        rw [ioCas, run_mapErr, run_createDirAll, hmk]
        rfl
      rw [run_bind_ok hok]
      exact ⟨fun q => Tree.file_createDirAll hmk q, fun e he => by cases he⟩

theorem writeBlob_eq (p : Path) (data : Bytes) : s.writeBlob c p data =
    ensureParentDir p.dropLast >>= fun _ =>
      (Prog.ofExcept (s.storedForm c data) : Action CasError Bytes) >>= fun raw =>
        ioCas (writeFile p raw) := by
  unfold writeBlob storedForm
  cases s.compress <;> rfl

/-- A blob that is written adds or changes its file only, and a write that fails does so with an
I/O error or because there is no stored form. -/
theorem run_writeBlob (p : Path) :
    (∀ w', run (s.writeBlob c p data) w = (.ok (), w') → ∃ raw, s.storedForm c data = .ok raw ∧
      ∀ q, w'.disk.file q = if q = p then some raw else w.disk.file q) ∧
    ∀ e, (run (s.writeBlob c p data) w).1 = .error e →
      (∃ k, e = .io k) ∨ s.storedForm c data = .error e := by
  rw [writeBlob_eq]
  obtain ⟨hsame, hfail⟩ := run_ensureParentDir (w := w) p.dropLast
  cases hens : (run (ensureParentDir p.dropLast) w).1 with
  | error e =>
    rw [run_bind_error (Prod.ext hens rfl)]
    exact ⟨fun w' hw => (by cases hw), fun e' he => .inl (Except.error.inj he ▸ hfail e hens)⟩
  | ok u =>
    rw [run_bind_ok (Prod.ext hens rfl)]
    cases hform : s.storedForm c data with
    | error e => exact ⟨fun w' hw => (by cases hw), fun e' he =>
      .inr (congrArg Except.error (Except.error.inj he))⟩
    | ok raw =>
      have hwrite : ∀ v : World, run (ioCas (writeFile p raw)) v =
          (((v.update (v.disk.write p raw)).1).mapError .io,
            (v.update (v.disk.write p raw)).2) := by
        intro v
        rw [ioCas, run_mapErr, run_writeFile]
      simp only [Prog.ofExcept_ok, Prog.ret_bind, hwrite]
      cases hwr : (run (ensureParentDir p.dropLast) w).2.disk.write p raw with
      | error k =>
        exact ⟨fun w' hw => (by cases hw), fun e he => .inl ⟨k, (Except.error.inj he).symm⟩⟩
      | ok t =>
        refine ⟨fun w' hw => ⟨raw, rfl, fun q => ?_⟩, fun e he => by cases he⟩
        rw [← (Prod.mk.inj hw).2]
        show t.file q = _
        rw [Tree.file_write hwr, hsame]

end Write

end BlobStore

end CasKit
