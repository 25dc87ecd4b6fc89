import CasKit.Lib.Pool
import CasKit.Session
import CasKit.Torn

/-!
# Threads on one shared handle

Any number of threads call the same handle. Each request is one step; the lock on the pack
cache is the only thing a thread ever waits for. A put writes its file in two steps, since the
file is created empty before its bytes arrive.
-/
namespace CasKit
open Effects Files Codec

/-- The world, and the thread that holds the lock on the pack cache. -/
structure Shared (ι : Type) where
  world : World
  holder : Option ι

abbrev Shared.disk {ι : Type} (u : Shared ι) : Tree := u.world.disk

abbrev Shared.caches {ι : Type} (u : Shared ι) : Caches := u.world.caches

/-- Only the lock can be taken. -/
def Request.waits {ι : Type} (holder : Option ι) : Request → Bool
  | .packLock => holder.isSome
  | _ => false

def Request.holderAfter {ι : Type} (i : ι) (holder : Option ι) : Request → Option ι
  | .packLock => some i
  | .packUnlock => none
  | _ => holder

/-- A request of thread `i`, which waits for the lock if it must. -/
def act {ι : Type} (i : ι) : Prog.Act Request Answer (Shared ι) := fun o u =>
  if o.waits u.holder then none
  else some ((answer o u.world).1, ⟨(answer o u.world).2, o.holderAfter i u.holder⟩)

inductive Call where
  | putBlob (data : Bytes)
  | getBlob (order : HashOrder) (hash : Hash)
  | hasBlob (order : HashOrder) (hash : Hash)
  | repack (order : HashOrder) (threshold : ℕ)
  | sweep (live : Finset Hash) (options : Gc.SweepOptions)

abbrev Call.Result : Call → Type
  | putBlob _ => Hash
  | getBlob _ _ => Bytes
  | hasBlob _ _ => Bool
  | repack _ _ => ℕ
  | sweep _ _ => Gc.SweepReport

def Call.code (c : Crates) (s : BlobStore) : (k : Call) → Action CasError k.Result
  | putBlob data => inTwo (fun _ => []) (s.putBlob c data)
  | getBlob order hash => s.getBlob c order hash
  | hasBlob order hash => s.hasBlob order hash
  | repack order threshold => s.repack c order threshold
  | sweep live options => Gc.sweep c s live options

/-- A call that returned, with its outcome. -/
abbrev Outcome := (k : Call) × Except CasError k.Result

abbrev StorePool (ι : Type) := Pool ι Call Request Answer CasError Call.Result (Shared ι)

/-- The threads of one handle, each of which may start the calls `starts` tells. -/
def machine {ι : Type} (c : Crates) (s : BlobStore) (starts : ι → Call → Prop) :
    Machine ι Call Request Answer CasError Call.Result (Shared ι) where
  code := Call.code c s
  starts := starts
  act := act

/-- The thread is about to make the request. -/
def Asks {ι : Type} (P : StorePool ι) (i : ι) (o : Request) : Prop :=
  ∃ k f, P.running i = some ⟨k, .call o f⟩

section Act
variable {ι : Type} {i : ι} {o : Request} {u u' : Shared ι} {r : Answer o}

theorem act_eq_some : act i o u = some (r, u') ↔ o.waits u.holder = false ∧
    r = (answer o u.world).1 ∧ u' = ⟨(answer o u.world).2, o.holderAfter i u.holder⟩ := by
  unfold act
  by_cases hwait : o.waits u.holder = true
  · simp [hwait]
  · simp only [Bool.not_eq_true] at hwait
    simp only [hwait, Bool.false_eq_true, if_false, Option.some.injEq, Prod.mk.injEq, true_and]
    constructor
    · rintro ⟨rfl, rfl⟩
      exact ⟨rfl, rfl⟩
    · rintro ⟨rfl, rfl⟩
      exact ⟨rfl, rfl⟩

/-- A thread waits only for the lock, and only while another holds it. -/
theorem act_eq_none : act i o u = none ↔ o = .packLock ∧ u.holder.isSome = true := by
  unfold act
  cases o with
  | packLock => cases u.holder <;> simp [Request.waits]
  | _ => simp [Request.waits]

end Act

end CasKit
