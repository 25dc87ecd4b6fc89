import CasKit.Concrete
import CasKit.Footprint

/-!
# Verified reads

What comes from the disk is checked against its address, what comes from the blob cache is
not. The invariant that links the two is that a handle that verifies holds only verified
entries; turning verification on is the one call that can break it.
-/
namespace CasKit
open Effects Files Codec

/-- Every entry of the blob cache has the digest it is filed under. -/
def Caches.Verified (c : Crates) (caches : Caches) : Prop :=
  ∀ e ∈ caches.blobCache, hashBytes c e.2 = e.1

instance (c : Crates) (caches : Caches) : Decidable (caches.Verified c) :=
  inferInstanceAs (Decidable (∀ e ∈ caches.blobCache, _))

/-- The requests that put nothing into the blob cache. -/
def Request.InsertsNothing : Request → Prop
  | .blobInsert _ _ => False
  | _ => True

theorem Request.SparesBlobs.insertsNothing {o : Request} (ho : o.SparesBlobs) :
    o.InsertsNothing := by
  cases o <;> trivial

/-- The store's requests while others change the file system in between: `env n` is what
happens to the disk before the `n`-th request. -/
def answerIn (env : ℕ → Tree → Tree) : Prog.Handler Request Answer (World × ℕ) := fun o u =>
  let w : World := { u.1 with disk := env u.2 u.1.disk }
  ((answer o w).1, ((answer o w).2, u.2 + 1))

section Invariant
variable {c : Crates} {env : ℕ → Tree → Tree} {u : World × ℕ} {o : Request}

theorem answer_verified (ho : o.InsertsNothing) {w : World} (hw : w.caches.Verified c) :
    (answer o w).2.caches.Verified c := by
  have hupdate : ∀ r : Except ErrorKind Tree, (w.update r).2.caches.Verified c := by
    intro r
    cases r <;> exact hw
  cases o with
  | blobInsert h data => exact ho.elim
  | blobLookup h =>
    intro e he
    exact hw e ((lookupBlob_spec w.caches.blobCache h).2 e he)
  | createDirAll p => exact hupdate _
  | write p b => exact hupdate _
  | removeFile p => exact hupdate _
  | rename p q => exact hupdate _
  | «exists» p => exact hw
  | read p => exact hw
  | readDir p => exact hw
  | fileLen p => exact hw
  | packLock => exact hw
  | packUnlock => exact hw
  | packGet => exact hw
  | packSet cache => exact hw
  | dirKnown p => exact hw
  | dirLearn p => exact hw

theorem answerIn_verified (ho : o.InsertsNothing) (hu : u.1.caches.Verified c) :
    (answerIn env o u).2.1.caches.Verified c := answer_verified ho hu

end Invariant

namespace BlobStore
variable {c : Crates} {s : BlobStore} {h : Hash}

theorem readBlob_yields (p : Path) (i : PackIndex) (h : Hash) :
    (PackFile.readBlob c p i h).Yields fun d => hashBytes c d = h := by
  unfold PackFile.readBlob
  cases i.find h with
  | none => trivial
  | some o =>
    refine (Prog.Yields.trivial _).bind fun bs _ => Prog.Yields.ofExcept fun d hd => ?_
    exact (decodeRecord_hash hd).1

/-- What a verifying handle fetches from the disk has the digest asked for. -/
theorem fetchBlob_yields (hv : s.verifyOnRead = true) (order : HashOrder) (h : Hash) :
    (s.fetchBlob c order h).Yields fun d => hashBytes c d = h := by
  refine fun there => ?_
  cases (there : Bool) with
  | true =>
    show (s.fetchLoose c h).Yields _
    refine (Prog.Yields.trivial _).bind fun raw _ => Prog.Yields.ofExcept fun d hd => ?_
    exact s.decodeLoose_verified hv hd
  | false =>
    have hpacked : (s.getBlobPacked c order h).Yields fun d => hashBytes c d = h := by
      refine (Prog.Yields.trivial _).bind fun found _ => ?_
      cases found with
      | none => trivial
      | some p =>
        refine (Prog.Yields.trivial _).bind fun i _ => ?_
        exact (readBlob_yields p i h).mapErr
    show (s.fetchPacked c order h).Yields _
    refine hpacked.attempt.bind fun packed hpk => ?_
    cases packed with
    | ok d => exact hpk d rfl
    | error e => cases e <;> trivial

section Calls
variable {env : ℕ → Tree → Tree} {u : World × ℕ}

/-- A run among other people's changes that keeps the blob cache verified. -/
abbrev KeepsVerified {α : Type} (c : Crates) (env : ℕ → Tree → Tree) (p : Action CasError α)
    (u : World × ℕ) (Q : Except CasError α → Prop) : Prop :=
  p.Along (answerIn env) (fun u => u.1.caches.Verified c)
    (fun r u => u.1.caches.Verified c ∧ Q r) u

theorem keepsVerified_of_spares {α : Type} {p : Action CasError α}
    (hp : p.Uses Request.SparesBlobs) (hu : u.1.caches.Verified c) :
    KeepsVerified c env p u fun _ => True :=
  (hp.along (I := fun u => u.1.caches.Verified c)
    (fun _ _ ho hI => answerIn_verified ho.insertsNothing hI) hu).mono (fun _ h => h)
      fun _ _ _ h => ⟨h, trivial⟩

/-- A verifying handle with a verified cache answers with verified bytes and keeps its cache
verified. -/
theorem getBlob_keepsVerified (hv : s.verifyOnRead = true) (hu : u.1.caches.Verified c)
    (order : HashOrder) (h : Hash) : KeepsVerified c env (s.getBlob c order h) u
      fun r => ∀ d, r = .ok d → hashBytes c d = h := by
  have hlookup : (answerIn env (.blobLookup h) u).2.1.caches.Verified c :=
    answerIn_verified trivial hu
  have hhit := (lookupBlob_spec u.1.caches.blobCache h).1
  refine ⟨hu, ?_⟩
  cases hcase : (answerIn env (.blobLookup h) u).1 with
  | some data =>
    refine ⟨hlookup, hlookup, fun d hd => ?_⟩
    obtain rfl := Except.ok.inj hd
    exact hu _ (hhit _ hcase)
  | none =>
    have hfetch := (fetchBlob_yields (c := c) hv order h).along (h := answerIn env)
      (I := fun u => u.1.caches.Verified c) (fetchBlob_consults order h)
      (fun _ _ ho hI => answerIn_verified ho.sparesBlobs.insertsNothing hI) hlookup
    refine hfetch.bind (fun d t ht => ?_) fun e t ht => ⟨ht.1, fun d hd => (by cases hd)⟩
    obtain ⟨hI, hd⟩ := ht
    have hinsert : (answerIn env (.blobInsert h d) t).2.1.caches.Verified c := by
      intro e he
      rcases mem_insertBlob he with rfl | he
      · exact hd d rfl
      · exact hI e he
    exact ⟨hI, hinsert, hinsert, fun d' hd' => Except.ok.inj hd' ▸ hd d rfl⟩

theorem repack_keepsVerified (hv : s.verifyOnRead = true) (hu : u.1.caches.Verified c)
    (order : HashOrder) (threshold : ℕ) :
    KeepsVerified c env (s.repack c order threshold) u fun _ => True := by
  have hlist : s.listBlobs.Uses Request.SparesBlobs :=
    s.listBlobs_reads.mono fun _ h => h.sparesBlobs
  refine (keepsVerified_of_spares hlist hu).bind (fun loose t ht => ?_)
    fun _ _ he => he
  by_cases hle : loose.length ≤ threshold
  · rw [if_pos hle]
    exact ⟨ht.1, ht.1, trivial⟩
  · rw [if_neg hle]
    have hread : KeepsVerified c env (loose.foldlM (s.readObject c order) []) t
        fun _ => True := by
      refine (Prog.Along.foldlM (fun _ _ (u : World × ℕ) => u.1.caches.Verified c)
        (E := fun _ u => u.1.caches.Verified c) ht.1 ht.1 ?_).mono (fun _ h => h) ?_
      · intro done h rest objects t' _ ht' _
        refine (getBlob_keepsVerified hv ht' order h).bind (fun d t'' ht'' => ?_) ?_
        · exact ⟨ht''.1, ht''.1⟩
        · exact fun _ _ he => he.1
      · intro r t' hI _
        exact ⟨hI, trivial⟩
    refine hread.bind (fun objects t' ht' => ?_) fun _ _ he => he
    refine keepsVerified_of_spares ?_ ht'.1
    have hcreate := (create_stores (c := c) s.packDir objects).mono fun _ h => h.sparesBlobs
    refine hcreate.mapErr.bind fun _ => ?_
    refine (Prog.Uses.foldlM (deletePacked_uses fun _ => trivial) loose ()).bind fun _ => ?_
    exact ⟨trivial, fun _ => ⟨trivial, fun _ => ⟨trivial, fun _ => trivial⟩⟩⟩

end Calls

/-! ## Histories of one handle -/

/-- The calls that make up the history of a handle. -/
inductive HandleCall where
  | putBlob (data : Bytes)
  | putBlobNew (data : Bytes)
  | putBlobWithHash (data : Bytes) (expectedHash : Hash)
  | getBlob (order : HashOrder) (hash : Hash)
  | repack (order : HashOrder) (threshold : ℕ)
  | setVerifyOnRead (verify : Bool)

/-- A handle and its world after a call, with whatever happens to the disk in between. -/
def HandleCall.after (c : Crates) (env : ℕ → Tree → Tree) (s : BlobStore) (u : World × ℕ) :
    HandleCall → BlobStore × World × ℕ
  | putBlob data => (s, ((s.putBlob c data).exec (answerIn env) u).2)
  | putBlobNew data => (s, ((s.putBlobNew c data).exec (answerIn env) u).2)
  | putBlobWithHash data h => (s, ((s.putBlobWithHash c data h).exec (answerIn env) u).2)
  | getBlob order h => (s, ((s.getBlob c order h).exec (answerIn env) u).2)
  | repack order threshold => (s, ((s.repack c order threshold).exec (answerIn env) u).2)
  | setVerifyOnRead verify => (s.setVerifyOnRead verify, u)

/-- The condition on a call: when verification is turned on, what the blob cache holds by
then has the digests it is filed under. -/
def HandleCall.Admitted (c : Crates) (u : World × ℕ) : HandleCall → Prop
  | setVerifyOnRead true => u.1.caches.Verified c
  | _ => True

/-- The states of a handle that was opened on some disk with some configuration. -/
inductive History (c : Crates) (env : ℕ → Tree → Tree) : BlobStore → World × ℕ → Prop
  | opened (s : BlobStore) (disk : Tree) : History c env s (⟨disk, .empty⟩, 0)
  | call {s : BlobStore} {u : World × ℕ} (call : HandleCall) (past : History c env s u)
      (admitted : call.Admitted c u) :
      History c env (call.after c env s u).1 (call.after c env s u).2

theorem History.verified {env : ℕ → Tree → Tree} {u : World × ℕ} (hist : History c env s u)
    (hv : s.verifyOnRead = true) : u.1.caches.Verified c := by
  induction hist with
  | opened s disk => exact fun e he => by cases he
  | @call s u call past admitted ih =>
    cases call with
    | putBlob data =>
      have hput := (putBlob_stores (c := c) (s := s) data).mono fun _ h => h.sparesBlobs
      exact (keepsVerified_of_spares hput (ih hv)).last
    | putBlobNew data =>
      have hput := (putBlobNew_stores (c := c) (s := s) data).mono fun _ h => h.sparesBlobs
      exact (keepsVerified_of_spares hput (ih hv)).last
    | putBlobWithHash data h =>
      have hput := (putBlobWithHash_stores (c := c) (s := s) data h).mono fun _ h => h.sparesBlobs
      exact (keepsVerified_of_spares hput (ih hv)).last
    | getBlob order h => exact (getBlob_keepsVerified hv (ih hv) order h).last
    | repack order threshold => exact (repack_keepsVerified hv (ih hv) order threshold).last
    | setVerifyOnRead verify =>
      obtain rfl : verify = true := hv
      exact admitted

/-- Verified reads are sound in every history in which verification is turned on only over a
verified cache: a `get_blob` that returns bytes while the handle verifies returns bytes with
the digest asked for, whatever happens to the disk before, between and during the calls. -/
theorem getBlob_verified {env : ℕ → Tree → Tree} {u u' : World × ℕ} {d : Bytes}
    (hist : History c env s u) (hv : s.verifyOnRead = true) (order : HashOrder)
    (hget : (s.getBlob c order h).exec (answerIn env) u = (.ok d, u')) : hashBytes c d = h := by
  have hend := Prog.Along.at_end (h := answerIn env)
    (getBlob_keepsVerified hv (hist.verified hv) order h)
  rw [hget] at hend
  exact hend.2 d rfl

/-- A blob that was put is read back with its digest. -/
theorem getBlob_verified_text :
    hashBytes Concrete.crates (text "ten bytes!") = Concrete.blake3 (text "ten bytes!") :=
  getBlob_verified (show History Concrete.crates (fun _ t => t) _ _ from
      .call (.putBlob (text "ten bytes!")) (.opened (Concrete.store true) Concrete.newDisk) trivial)
    rfl .inserted (Prod.ext (by decide +kernel) rfl)

/-- The disk after `a` was put into an uncompressed store and its file got the byte `b`. -/
def tamperedDisk : Tree :=
  Concrete.after (ioCas (writeFile ((Concrete.store false).blobPath
    (hashBytes Concrete.crates (text "a"))) (text "b")))
    (Concrete.after ((Concrete.store false).putBlob Concrete.crates (text "a")) Concrete.newDisk)

/-- Read without verification, then with it: the second read returns what the first one put
into the blob cache, which has another digest. -/
theorem getBlob_cached_unverified :
    (run (((Concrete.store false).setVerifyOnRead true).getBlob Concrete.crates .inserted
        (hashBytes Concrete.crates (text "a")))
      (run (((Concrete.store false).setVerifyOnRead false).getBlob Concrete.crates .inserted
        (hashBytes Concrete.crates (text "a"))) ⟨tamperedDisk, .empty⟩).2).1 = .ok (text "b") ∧
    hashBytes Concrete.crates (text "b") ≠ hashBytes Concrete.crates (text "a") := by
  decide +kernel

end BlobStore

end CasKit
