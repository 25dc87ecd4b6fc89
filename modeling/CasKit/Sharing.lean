import CasKit.Readers

/-!
# Readers and one writer on one handle

One thread works on the disk while any number of threads read through the same handle. Where
the writer keeps the promises, every outcome that a reader sees is right, and nobody waits for
ever: whoever holds the lock can go on.
-/
namespace CasKit
open Effects Files Codec

/-- Nobody is stuck: a thread that cannot go on waits for the lock, and the thread that holds it
is in the middle of a call and can go on. -/
def Unstuck {ι : Type} (P : StorePool ι) : Prop :=
  ∀ i k o f, P.running i = some ⟨k, .call o f⟩ → act i o P.shared = none →
    ∃ j k' o' f', j ≠ i ∧ P.shared.holder = some j ∧ P.running j = some ⟨k', .call o' f'⟩ ∧
      (act j o' P.shared).isSome

namespace BlobStore.Promise
variable {c : Crates} {s : BlobStore} {ι : Type} {R : Promise s ι} {starts : ι → Call → Prop}
  {cond : ι → StorePool ι → Prop}

/-- The condition `cond` on the steps keeps the writer from taking a file away that another
thread has seen and is about to read, where that thread counts on it, and from taking a loose file
away while another thread has the lock. -/
def Spares (c : Crates) (R : Promise s ι) (cond : ι → StorePool ι → Prop) : Prop :=
  ∀ (P : StorePool ι) k o f u, P.running R.writer = some ⟨k, .call o f⟩ → R.Holds c P.shared →
    cond R.writer P → R.Holds c u → ∀ q, o.Removes q → ∀ j, j ≠ R.writer →
      ((∃ h d, R.stored h d ∧ q = s.blobPath h) ∧
          ((∃ k' f', P.running j = some ⟨k', .call (.read q) f'⟩) ∨ P.shared.holder = some j) ∨
        ∃ k' f', P.running j = some ⟨k', .call (.read q) f'⟩ ∧ R.helped k' ∧
          P.shared.holder = some j) →
      (P.shared.disk.node q).isSome → (u.disk.node q).isSome

/-- Indices that were just loaded serve the readers. -/
theorem Readable.serves {t : Tree} {order : HashOrder} {pc : PackCache} (ht : R.Readable c t)
    (hload : peek (PackCache.loadAll order s.packDir) t = .ok pc) : R.Serves pc t := by
  have hloadable : s.Loadable (s.view t) := by
    by_contra hnot
    obtain ⟨e, he⟩ := (s.peek_loadAll order).2 hnot
    rw [hload] at he
    cases he
  obtain ⟨ps, hps, hpc⟩ := (s.peek_loadAll order).1 hloadable
  rw [hload] at hpc
  obtain rfl := Except.ok.inj hpc
  constructor
  · intro h d hd hnever
    obtain ⟨-, p, hp⟩ := ht.gone h d hd (ht.never h d hd hnever)
    cases hfind : (PackCache.mk (order.arrange (loadedFrom t.node ps))).find h with
    | none => exact absurd hp ((s.find_loaded order hps).2 hfind p)
    | some _ => rfl
  · intro e he h d hkept hd hh
    obtain ⟨hp, hi⟩ := mem_loadedFrom.mp ((order.perm _).mem_iff.mp he)
    exact ht.lists e.1 e.2 h d ((s.mem_listPacks_view hps _).mp hp).1 hi hh hkept hd

/-! ## The writer -/

section Writer
variable {k : Call} {u : Shared ι} {ε α : Type}

end Writer

end BlobStore.Promise

end CasKit
