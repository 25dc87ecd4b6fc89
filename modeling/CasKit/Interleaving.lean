import CasKit.Lib.Lock
import CasKit.Sharing
import CasKit.Verified

/-!
# Any calls in any interleaving

Threads put, get, ask, repack and sweep through one handle, in any interleaving and without any
promise to each other. The lock on the pack cache never locks them up, and a handle that verifies
never returns bytes with another digest than the one asked for.
-/
namespace CasKit
open Effects Files Codec

/-- The lock on the pack cache. -/
def packCacheLock : Lock Request where
  takes
    | .packLock => true
    | _ => false
  gives
    | .packUnlock => true
    | _ => false
  needs
    | .packGet => true
    | .packSet _ => true
    | _ => false

section Lock
variable {c : Crates} {s : BlobStore} {ι : Type} {o : Request} {ok err held : Bool}

theorem Request.OnFiles.ignores (ho : o.OnFiles) : packCacheLock.Ignores o := by
  cases o <;> simp [Request.OnFiles, Lock.Ignores, packCacheLock] at ho ⊢

theorem Request.Stores.ignores (ho : o.Stores) : packCacheLock.Ignores o := by
  cases o <;> simp [Request.Stores, Lock.Ignores, packCacheLock] at ho ⊢

theorem Request.Reads.ignores (ho : o.Reads) : packCacheLock.Ignores o := ho.onFiles.ignores

/-- A program with its writes in two steps makes the same kinds of requests. -/
theorem uses_inTwo {ε α : Type} {q : Request → Prop} {part : Bytes → Bytes} {p : Action ε α}
    (hp : p.Uses q) (hwrite : ∀ p b, q (.write p b)) : (inTwo part p).Uses q := by
  induction p with
  | ret a => trivial
  | throw e => trivial
  | call o k ih =>
    cases o with
    | write p b =>
      refine ⟨hwrite p _, fun r => ?_⟩
      cases r with
      | error e => exact ih _ (hp.2 _)
      | ok x => exact ⟨hwrite p _, fun r => ih r (hp.2 r)⟩
    | _ => exact ⟨hp.1, fun r => ih r (hp.2 r)⟩

theorem governs_packCacheLock (starts : ι → Call → Prop) :
    Pool.Governs packCacheLock Shared.holder (machine c s starts) where
  waits i o u hact := by
    obtain ⟨rfl, hheld⟩ := act_eq_none.mp hact
    exact ⟨rfl, hheld⟩
  takes i o u r v hact htakes := by
    obtain ⟨hwait, -, rfl⟩ := act_eq_some.mp hact
    cases o <;> simp [packCacheLock] at htakes
    simpa [Request.waits, Request.holderAfter] using hwait
  gives i o u r v hact _ hgives := by
    obtain ⟨-, -, rfl⟩ := act_eq_some.mp hact
    cases o <;> simp [packCacheLock, Request.holderAfter] at hgives ⊢
  keeps i o u r v hact htakes hgives := by
    obtain ⟨-, -, rfl⟩ := act_eq_some.mp hact
    cases o <;> simp [packCacheLock, Request.holderAfter] at htakes hgives ⊢

namespace BlobStore
variable {h : Hash}

/-- The lock is given back whether the indices were there, were loaded or could not be loaded. -/
theorem withPackCache_guards {β : Type} (order : HashOrder) (f : PackCache → β) :
    packCacheLock.Guards false false (s.withPackCache order f) false := by
  refine ⟨by simp [Lock.Allows, packCacheLock], fun _ => ?_⟩
  refine ⟨by simp [Lock.Allows, Lock.after, packCacheLock], fun guard => ?_⟩
  have hunlock : packCacheLock.Allows true .packUnlock := by simp [Lock.Allows, packCacheLock]
  cases (guard : Option PackCache) with
  | some cache => exact ⟨hunlock, fun _ => rfl⟩
  | none =>
    have hload : packCacheLock.Guards true true (PackCache.loadAll order s.packDir) true :=
      .of_uses ((loadAll_reads order s.packDir).mono fun _ ho => ho.ignores)
    have hcaught : packCacheLock.Guards true false
        (Prog.attempt (PackCache.loadAll order s.packDir) :
          Action CasError (Except PackError PackCache)) true := hload.attempt
    refine hcaught.bind fun loaded => ?_
    cases loaded with
    | error e => exact ⟨hunlock, fun _ => rfl⟩
    | ok cache =>
      exact ⟨by simp [Lock.Allows, packCacheLock], fun _ => ⟨hunlock, fun _ => rfl⟩⟩

theorem invalidatePackCache_guards :
    packCacheLock.Guards false false invalidatePackCache false := by
  refine ⟨by simp [Lock.Allows, packCacheLock], fun _ => ?_⟩
  refine ⟨by simp [Lock.Allows, Lock.after, packCacheLock], fun _ => ?_⟩
  exact ⟨by simp [Lock.Allows, Lock.after, packCacheLock], fun _ => rfl⟩

theorem guards_of_reads {ε α : Type} {p : Action ε α} (hp : p.Uses Request.Reads) :
    packCacheLock.Guards false false p false :=
  .of_uses (hp.mono fun _ ho => ho.ignores)

theorem getBlobPacked_guards (order : HashOrder) :
    packCacheLock.Guards false false (s.getBlobPacked c order h) false := by
  refine (withPackCache_guards order _).bind fun found => ?_
  cases found with
  | none => rfl
  | some p =>
    refine (guards_of_reads (packCas_reads (load_reads _))).bind fun i => ?_
    exact guards_of_reads (packCas_reads (readBlob_reads p i h))

theorem fetchBlob_guards (order : HashOrder) :
    packCacheLock.Guards false false (s.fetchBlob c order h) false := by
  refine ⟨by simp [Lock.Allows, packCacheLock], fun there => ?_⟩
  cases (there : Bool) with
  | true => exact guards_of_reads (s.fetchLoose_reads h)
  | false =>
    refine (getBlobPacked_guards order).attempt.bind fun packed => ?_
    cases packed with
    | ok d => rfl
    | error e => cases e <;> rfl

theorem getBlob_guards (order : HashOrder) :
    packCacheLock.Guards false false (s.getBlob c order h) false := by
  refine ⟨by simp [Lock.Allows, packCacheLock], fun hit => ?_⟩
  cases (hit : Option Bytes) with
  | some data => rfl
  | none =>
    refine (fetchBlob_guards order).bind fun data => ?_
    exact ⟨by simp [Lock.Allows, packCacheLock], fun _ => rfl⟩

theorem hasBlob_guards (order : HashOrder) :
    packCacheLock.Guards false false (s.hasBlob order h) false := by
  refine ⟨by simp [Lock.Allows, packCacheLock], fun there => ?_⟩
  cases (there : Bool) with
  | true => rfl
  | false =>
    refine (withPackCache_guards order _).attempt.bind fun found => ?_
    cases (found : Except CasError Bool) <;> rfl

theorem repack_guards (order : HashOrder) (threshold : ℕ) :
    packCacheLock.Guards false false (s.repack c order threshold) false := by
  refine (guards_of_reads s.listBlobs_reads).bind fun loose => ?_
  split_ifs
  · rfl
  · refine (Lock.Guards.foldlM loose (fun objects h => ?_) []).bind fun objects => ?_
    · exact (getBlob_guards order).bind fun data => rfl
    · have hcreate := (create_stores (c := c) s.packDir objects).mono fun _ ho => ho.ignores
      refine (Lock.Guards.of_uses hcreate).mapErr.bind fun _ => ?_
      have hdelete : ∀ u h, (s.deletePacked u h).Uses packCacheLock.Ignores :=
        fun u h => deletePacked_uses (fun p => by simp [Lock.Ignores, packCacheLock]) u h
      refine (Lock.Guards.of_uses (Prog.Uses.foldlM hdelete loose ())).bind fun _ => ?_
      exact invalidatePackCache_guards.bind fun _ => rfl

end BlobStore

theorem Gc.sweep_guards (live : Finset Hash) (options : Gc.SweepOptions) :
    packCacheLock.Guards false false (Gc.sweep c s live options) false := by
  rw [Gc.sweep_eq]
  have hfiles := (Gc.sweepFiles_onFiles (c := c) (s := s) live options).mono fun _ ho => ho.ignores
  refine (Lock.Guards.of_uses hfiles).bind fun report => ?_
  unfold Gc.finish
  split_ifs
  · exact BlobStore.invalidatePackCache_guards.bind fun _ => rfl
  · rfl

/-- Every call keeps to the lock. -/
theorem Call.code_guards (k : Call) : packCacheLock.Guards false false (k.code c s) false := by
  cases k with
  | putBlob data =>
    have hput := (BlobStore.putBlob_stores (c := c) (s := s) data).mono fun _ ho => ho.ignores
    exact .of_uses (uses_inTwo hput fun p b => by simp [Lock.Ignores, packCacheLock])
  | getBlob order h => exact BlobStore.getBlob_guards order
  | hasBlob order h => exact BlobStore.hasBlob_guards order
  | repack order threshold => exact BlobStore.repack_guards order threshold
  | sweep live options => exact Gc.sweep_guards live options

/-- The requests that look at the pack cache or change it. -/
def Request.OnPackCache : Request → Prop
  | .packGet | .packSet _ => True
  | _ => False

/-- In every interleaving of any calls only the thread with the lock looks at the pack cache or
changes it, nobody returns with the lock, and a thread that waits for it gets it once the thread
that has it is let run. -/
theorem lock_in_any_interleaving [DecidableEq ι] {starts : ι → Call → Prop}
    {cond : ι → StorePool ι → Prop} {x : Shared ι} {P : StorePool ι} (hfree : x.holder = none)
    (hruns : Pool.Runs (machine c s starts) cond (.idle x) P) :
    (∀ i o, Asks P i o → o.OnPackCache → P.shared.holder = some i) ∧
    (∀ i, P.running i = none → P.shared.holder ≠ some i) ∧ Unstuck P ∧
    ∀ i, Asks P i .packLock → ∃ P', Pool.Runs (machine c s starts) Pool.anyStep P P' ∧
      P'.running i = P.running i ∧ (act i .packLock P'.shared).isSome = true := by
  have hgov := governs_packCacheLock (c := c) (s := s) starts
  have hP : Pool.Disciplined packCacheLock Shared.holder P :=
    (Pool.disciplined_idle hfree).runs hgov (fun _ k _ => k.code_guards) hruns
  refine ⟨?_, hP.quiet, ?_, ?_⟩
  · intro i o hasks ho
    obtain ⟨k, f, hrun⟩ := hasks
    apply hP.exclusive hrun
    cases o <;> simp [Request.OnPackCache, packCacheLock] at ho ⊢
  · intro i k o f hrun hact
    obtain ⟨j, hij, hj⟩ := hP.waits hgov hrun hact
    obtain ⟨k', o', f', hrun'⟩ := hP.goes_on hj
    exact ⟨j, k', o', f', hij, hj, hrun', hP.can_ask hgov hj hrun'⟩
  · intro i hasks
    obtain ⟨k, f, hrun⟩ := hasks
    cases hact : act i .packLock P.shared with
    | some y => exact ⟨P, .refl, rfl, by rw [hact]; rfl⟩
    | none =>
      obtain ⟨j, hij, hj⟩ := hP.waits hgov hrun hact
      obtain ⟨P', hruns', hnone, hothers⟩ := hP.released hgov hj
      refine ⟨P', hruns', hothers i hij.symm, ?_⟩
      rw [Option.isSome_iff_ne_none, ne_eq, act_eq_none]
      simp [hnone]

section Contended

/-- Both threads ask for an object that is not loose, and `true` is first at the lock. -/
def contended : List (Pool.Move Bool Call) :=
  [.start true (.hasBlob .inserted .zero), .start false (.hasBlob .inserted .zero),
    .ask true, .ask false, .ask true]

def asksLock (P : StorePool Bool) (i : Bool) : Bool :=
  match P.running i with
  | some ⟨_, .call .packLock _⟩ => true
  | _ => false

theorem asks_of_asksLock {P : StorePool Bool} {i : Bool} (h : asksLock P i = true) :
    Asks P i .packLock := by
  unfold asksLock at h
  split at h
  · next k f hrun => exact ⟨k, f, hrun⟩
  · cases h

/-- The thread `false` waits, and gets the lock after `true`. -/
theorem lock_contended : ∃ P, (Pool.idle ⟨⟨Concrete.newDisk, .empty⟩, none⟩ : StorePool Bool).play
      (machine Concrete.crates (Concrete.store false) fun _ _ => True) contended = some P ∧
    act false .packLock P.shared = none ∧
    ∃ P', Pool.Runs (machine Concrete.crates (Concrete.store false) fun _ _ => True)
      Pool.anyStep P P' ∧ (act false .packLock P'.shared).isSome = true := by
  have hplay : ((Pool.idle ⟨⟨Concrete.newDisk, .empty⟩, none⟩ : StorePool Bool).play
      (machine Concrete.crates (Concrete.store false) fun _ _ => True) contended).map
        (fun P => (P.shared.holder, asksLock P false)) = some (some true, true) := by
    decide +kernel
  obtain ⟨P, hP, hends⟩ := Option.map_eq_some_iff.mp hplay
  have hruns := Pool.runs_of_play (fun _ _ _ => trivial) (fun _ _ _ _ _ => trivial) hP
  obtain ⟨-, -, -, hgets⟩ := lock_in_any_interleaving rfl hruns
  obtain ⟨P', hruns', -, hsome⟩ := hgets false (asks_of_asksLock (congrArg Prod.snd hends))
  have hheld : P.shared.holder = some true := congrArg Prod.fst hends
  exact ⟨P, hP, act_eq_none.mpr ⟨rfl, by rw [hheld]; rfl⟩, P', hruns', hsome⟩

end Contended

end Lock

/-! ## Verified reads -/

section Verified
variable {c : Crates} {s : BlobStore} {ι : Type} {i : ι} {x u : Shared ι} {h : Hash}

/-- The blob cache of the handle is verified. -/
def Shared.Verified (c : Crates) (u : Shared ι) : Prop := u.caches.Verified c

/-- A program that keeps the blob cache verified, whatever the other threads do. -/
abbrev Verifies {ε α : Type} (c : Crates) (i : ι) (p : Action ε α) (Q : Except ε α → Prop)
    (u : Shared ι) : Prop :=
  Prog.Safe (act i) (Shared.Verified c) .none (fun r _ => Q r) p u

theorem act_verified {o : Request} {r : Answer o} (ho : o.InsertsNothing)
    (hact : act i o x = some (r, u)) (hx : x.Verified c) : u.Verified c := by
  obtain ⟨-, -, rfl⟩ := act_eq_some.mp hact
  exact answer_verified ho hx

theorem verifies_of_uses {ε α : Type} {p : Action ε α} (hp : p.Uses Request.InsertsNothing) :
    Verifies c i p (fun _ => True) u :=
  Prog.Safe.of_uses (P := fun _ => True) hp (fun _ _ _ _ _ => trivial)
    (fun _ _ _ _ _ _ _ _ => trivial)
    (fun _ _ _ _ ho _ hinv _ hact => ⟨act_verified ho hact hinv, trivial, trivial⟩) trivial

/-- A hit is as good as the cache, and a miss is read under verification. -/
theorem getBlob_verifies (hv : s.verifyOnRead = true) (order : HashOrder) :
    Verifies c i (s.getBlob c order h) (fun r => ∀ d, r = .ok d → hashBytes c d = h) u := by
  refine ⟨fun _ => True, trivial, fun _ _ _ => trivial, fun _ _ _ _ _ _ => trivial, ?_⟩
  intro v r v' _ hinv _ hact
  have hlooked := act_verified (o := .blobLookup h) trivial hact hinv
  refine ⟨hlooked, trivial, ?_⟩
  obtain ⟨-, rfl, -⟩ := act_eq_some.mp hact
  cases hcase : (answer (.blobLookup h) v.world).1 with
  | some data =>
    intro d hd
    obtain rfl := Except.ok.inj hd
    exact hinv _ ((lookupBlob_spec v.caches.blobCache h).1 _ hcase)
  | none =>
    have hfetch := (verifies_of_uses (c := c) (i := i) (u := v') <|
      (BlobStore.fetchBlob_consults (c := c) (s := s) order h).mono fun _ ho =>
        ho.sparesBlobs.insertsNothing).yields (BlobStore.fetchBlob_yields hv order h)
    refine hfetch.bind hlooked (fun d y hy hQ => ?_) fun e y _ _ d hd => ?_
    · refine ⟨fun _ => True, trivial, fun _ _ _ => trivial, fun _ _ _ _ _ _ => trivial, ?_⟩
      intro y r y' _ hy _ hact'
      obtain ⟨-, -, rfl⟩ := act_eq_some.mp hact'
      refine ⟨fun e he => ?_, trivial, fun d' hd' => Except.ok.inj hd' ▸ hQ.2 d rfl⟩
      rcases mem_insertBlob he with rfl | he
      · exact hQ.2 d rfl
      · exact hy e he
    · cases hd

theorem repack_verifies (hv : s.verifyOnRead = true) (hu : u.Verified c)
    (order : HashOrder) (threshold : ℕ) :
    Verifies c i (s.repack c order threshold) (fun _ => True) u := by
  have hlist : s.listBlobs.Uses Request.InsertsNothing :=
    s.listBlobs_reads.mono fun _ ho => ho.sparesBlobs.insertsNothing
  refine (verifies_of_uses hlist).bind hu (fun loose x hx _ => ?_) fun _ _ _ _ => trivial
  split_ifs
  · trivial
  · have hread : Prog.Safe (act i) (Shared.Verified c) .none
        (Prog.Ends (fun _ _ => True) fun _ _ => True) (loose.foldlM (s.readObject c order) []) x := by
      refine Prog.Safe.foldlM (fun _ _ _ => True) hx trivial ?_
      intro done h rest objects y _ hy _
      refine (getBlob_verifies hv order).bind hy (fun _ _ _ _ => trivial) fun _ _ _ _ => trivial
    refine hread.bind hx (fun objects y hy _ => verifies_of_uses ?_) fun _ _ _ _ => trivial
    have hcreate := (BlobStore.create_stores (c := c) s.packDir objects).mono fun _ ho =>
      ho.sparesBlobs.insertsNothing
    refine hcreate.mapErr.bind fun _ => ?_
    refine (Prog.Uses.foldlM (BlobStore.deletePacked_uses fun _ => trivial) loose ()).bind
      fun _ => ?_
    exact ⟨trivial, fun _ => ⟨trivial, fun _ => ⟨trivial, fun _ => trivial⟩⟩⟩

/-- What a verified outcome is: bytes that were asked for have the digest. -/
def VerifiedOutcome (c : Crates) : Outcome → Prop
  | ⟨.getBlob _ h, .ok d⟩ => hashBytes c d = h
  | _ => True

theorem Call.code_verifies (hv : s.verifyOnRead = true) (hu : u.Verified c) (k : Call) :
    Verifies c i (k.code c s) (fun r => VerifiedOutcome c ⟨k, r⟩) u := by
  cases k with
  | getBlob order h =>
    refine (getBlob_verifies hv order).mono hu fun r _ _ hr => ?_
    cases r with
    | ok d => exact hr d rfl
    | error e => trivial
  | putBlob data =>
    have hput := (BlobStore.putBlob_stores (c := c) (s := s) data).mono fun _ ho =>
      ho.sparesBlobs.insertsNothing
    exact verifies_of_uses (uses_inTwo hput fun _ _ => trivial)
  | hasBlob order h =>
    exact verifies_of_uses <| (BlobStore.hasBlob_consults (s := s) order h).mono fun _ ho =>
      ho.sparesBlobs.insertsNothing
  | repack order threshold => exact repack_verifies hv hu order threshold
  | sweep live options =>
    have hfiles := (Gc.sweepFiles_onFiles (c := c) (s := s) live options).mono fun _ ho =>
      ho.sparesBlobs.insertsNothing
    have hsweep : (Gc.sweep c s live options).Uses Request.InsertsNothing := by
      rw [Gc.sweep_eq]
      refine hfiles.bind fun report => ?_
      unfold Gc.finish
      split_ifs
      · exact ⟨trivial, fun _ => ⟨trivial, fun _ => ⟨trivial, fun _ => trivial⟩⟩⟩
      · trivial
    exact verifies_of_uses hsweep

/-- In every interleaving of any calls on a handle that verifies, over a blob cache that was
verified, a read that returns bytes returns bytes with the digest asked for. -/
theorem verified_in_any_interleaving [DecidableEq ι] {starts : ι → Call → Prop}
    {cond : ι → StorePool ι → Prop} {P : StorePool ι} (hv : s.verifyOnRead = true)
    (hx : x.Verified c) (hruns : Pool.Runs (machine c s starts) cond (.idle x) P) :
    P.shared.Verified c ∧
      ∀ i order h d, ⟨.getBlob order h, .ok d⟩ ∈ P.log i → hashBytes c d = h := by
  have hcode : ∀ i k u, starts i k → u.Verified c →
      Verifies c i (k.code c s) (fun r => VerifiedOutcome c ⟨k, r⟩) u :=
    fun _ k _ _ hu => k.code_verifies hv hu
  obtain ⟨hshared, hgood⟩ := Pool.outcomes_of_runs hcode hx hruns
  exact ⟨hshared, fun i order h d he => hgood i _ he⟩

section Beside

/-- The thread `true` puts a blob and packs it, and `false` reads its file in between. -/
def readBesideRepack : List (Pool.Move Bool Call) :=
  [.start true (.putBlob (text "a"))] ++ List.replicate 6 (.ask true) ++
  [.stop true, .start true (.repack .inserted 0),
    .start false (.getBlob .inserted (hashBytes Concrete.crates (text "a"))),
    .ask false, .ask false] ++ List.replicate 5 (.ask true) ++ [.ask false] ++
  List.replicate 9 (.ask true) ++ [.ask false, .stop false, .stop true]

def bytesRead : Outcome → Option Bytes
  | ⟨.getBlob _ _, .ok d⟩ => some d
  | _ => none

/-- The read whose file was seen before the repack took it away gives verified bytes. -/
theorem verified_beside_repack : ∃ P,
    (Pool.idle ⟨⟨Concrete.newDisk, .empty⟩, none⟩ : StorePool Bool).play
      (machine Concrete.crates (Concrete.store true) fun _ _ => True) readBesideRepack = some P ∧
    (P.log false).map bytesRead = [some (text "a")] ∧
    P.shared.disk.node ((Concrete.store true).blobPath (hashBytes Concrete.crates (text "a"))) =
      none ∧
    ∀ order h d, ⟨.getBlob order h, .ok d⟩ ∈ P.log false → hashBytes Concrete.crates d = h := by
  have hplay : ((Pool.idle ⟨⟨Concrete.newDisk, .empty⟩, none⟩ : StorePool Bool).play
      (machine Concrete.crates (Concrete.store true) fun _ _ => True) readBesideRepack).map
        (fun P => ((P.log false).map bytesRead, P.shared.disk.node ((Concrete.store true).blobPath
          (hashBytes Concrete.crates (text "a"))))) = some ([some (text "a")], none) := by
    decide +kernel
  obtain ⟨P, hP, hends⟩ := Option.map_eq_some_iff.mp hplay
  have hruns := Pool.runs_of_play (fun _ _ _ => trivial) (fun _ _ _ _ _ => trivial) hP
  have hempty : (Shared.mk ⟨Concrete.newDisk, .empty⟩ (none : Option Bool)).Verified
      Concrete.crates := fun e he => by cases he
  obtain ⟨-, hverified⟩ := verified_in_any_interleaving rfl hempty hruns
  exact ⟨P, hP, congrArg Prod.fst hends, congrArg Prod.snd hends, hverified false⟩

end Beside

end Verified

end CasKit
