import CasKit.Created
import CasKit.Footprint
import CasKit.Puts

/-!
# The calls that store blobs

What the puts and `repack` do to a store, as lists of changes. What `repack` packs it reads
through the handle, whose caches may answer in place of the disk; that is stated by what the
reading loop returns.
-/
namespace CasKit
open Effects Files Codec

namespace BlobStore
variable {c : Crates} {s : BlobStore} {w : World} {h : Hash} {data : Bytes}

/-! ## The puts -/

/-- The calls that store one blob. -/
inductive PutCall where
  | putBlob (data : Bytes)
  | putBlobNew (data : Bytes)
  | putBlobWithHash (data : Bytes) (expectedHash : Hash)

/-- The bytes to be stored. -/
def PutCall.bytes : PutCall → Bytes
  | putBlob data => data
  | putBlobNew data => data
  | putBlobWithHash data _ => data

/-- The call, for what it does to the store. -/
def PutCall.action (c : Crates) (s : BlobStore) : PutCall → Action CasError Unit
  | putBlob data => do
    let _ ← s.putBlob c data
    return ()
  | putBlobNew data => do
    let _ ← s.putBlobNew c data
    return ()
  | putBlobWithHash data expectedHash => s.putBlobWithHash c data expectedHash

theorem PutCall.action_stores (call : PutCall) : (call.action c s).Uses Request.Stores := by
  cases call with
  | putBlob data => exact (putBlob_stores data).bind fun _ => trivial
  | putBlobNew data => exact (putBlobNew_stores data).bind fun _ => trivial
  | putBlobWithHash data expected => exact putBlobWithHash_stores data expected

section Put

/-- The changes that a put can make: none, only its directories, or all. -/
inductive PutShape (c : Crates) (s : BlobStore) (v : Nodes) (data : Bytes) : List Change → Prop
  | nothing : PutShape c s v data []
  | dirs (h : Hash) : PutShape c s v data [.mkdir s.objectsDir, .mkdir (s.objectsDir ++ [h.toHex.take 2])]
  | stored {raw : Bytes} (hraw : s.storedForm c data = .ok raw)
      (habs : v (s.blobPath (hashBytes c data)) = none) :
      PutShape c s v data (s.putChanges (hashBytes c data) raw)

/-- Writing a blob that has no stored form makes directories at most. -/
theorem performs_writeBlob_error {e : CasError} (hform : s.storedForm c data = .error e) :
    s.Performs [.mkdir s.objectsDir, .mkdir (s.objectsDir ++ [h.toHex.take 2])] (fun _ => False)
      (s.writeBlob c (s.blobPath h) data) w := by
  have hfail : ∀ t, s.Performs [] (fun _ => False)
      (if s.compress then (Prog.ofExcept (CasKit.compress c data s.compressionLevel) :
        Action CasError Bytes) >>= fun raw => ioCas (writeFile (s.blobPath h) raw)
        else ioCas (writeFile (s.blobPath h) data)) t := by
    intro t
    unfold storedForm at hform
    cases hmode : s.compress with
    | false => rw [hmode] at hform; cases hform
    | true =>
      rw [hmode, if_pos rfl] at hform
      rw [if_pos rfl, hform]
      exact .throw [] e
  unfold writeBlob
  rw [dropLast_blobPath, ← List.append_nil [Change.mkdir s.objectsDir, _]]
  by_cases hk : s.objectsDir ++ [h.toHex.take 2] ∈ w.caches.knownDirs
  · refine Prog.Performs.call rfl ?_
    rw [show (answer (.dirKnown (s.objectsDir ++ [h.toHex.take 2])) w).1 = true from
      decide_eq_true hk]
    refine Prog.Along.mono (hfail w) (fun u hu => ?_) fun r u _ hr a ha => (hr a ha).2.elim
    obtain ⟨k, hk⟩ := hu
    exact ⟨0, by rw [hk, List.take_nil]; rfl⟩
  · exact (performs_ensureParentDir (.inr hk)).bind fun _ t _ _ => hfail t

/-- Storing a blob under its own hash makes the changes of a put. -/
theorem performs_store (habs : w.disk.exists (s.blobPath (hashBytes c data)) = false) :
    ∃ cs, PutShape c s (s.view w.disk) data cs ∧ s.Performs cs (fun _ => True)
      (s.writeBlob c (s.blobPath (hashBytes c data)) data) w := by
  have hnone : s.view w.disk (s.blobPath (hashBytes c data)) = none := by
    rw [view_blobPath]
    exact (Tree.exists_eq_false s.blobPath_ne_nil).mp habs
  cases hform : s.storedForm c data with
  | error e =>
    exact ⟨_, .dirs (hashBytes c data), (performs_writeBlob_error hform).mono fun _ h => h.elim⟩
  | ok raw =>
    refine ⟨_, .stored hform hnone, (performs_writeBlob fun r hr => ?_).mono fun _ _ => trivial⟩
    exact Except.ok.inj (hr.symm.trans hform)

/-- What `put_blob` and `put_blob_new` do once the file turned out to be absent. -/
theorem performs_storeHash (habs : w.disk.exists (s.blobPath (hashBytes c data)) = false) :
    ∃ cs, PutShape c s (s.view w.disk) data cs ∧ s.Performs cs (fun _ => True)
      ((s.writeBlob c (s.blobPath (hashBytes c data)) data >>= fun _ =>
        (Prog.ret (hashBytes c data) : Action CasError Hash)) >>= fun _ => Prog.ret ()) w := by
  obtain ⟨cs, hcs, hperf⟩ := performs_store habs
  refine ⟨cs, hcs, ?_⟩
  have hwrite : s.Performs cs (fun _ => True) (s.writeBlob c (s.blobPath (hashBytes c data)) data
      >>= fun _ => (Prog.ret (hashBytes c data) : Action CasError Hash)) w := by
    rw [← List.append_nil cs]
    exact hperf.bind fun _ _ _ _ => .ret trivial
  rw [← List.append_nil cs]
  exact hwrite.bind fun _ _ _ _ => .ret trivial

theorem performs_put (call : PutCall) : ∃ cs, PutShape c s (s.view w.disk) call.bytes cs ∧
    s.Performs cs (fun _ => True) (call.action c s) w := by
  have hnothing : ∀ a : Unit, s.Performs [] (fun _ => True)
      (Prog.ret a : Action CasError Unit) w := fun a => .ret trivial
  cases call with
  | putBlob data =>
    cases hex : w.disk.exists (s.blobPath (hashBytes c data)) with
    | true =>
      refine ⟨[], .nothing, Prog.Performs.call rfl ?_⟩
      rw [show (answer (.exists (s.blobPath (hashBytes c data))) w).1 = true from hex]
      exact hnothing ()
    | false =>
      obtain ⟨cs, hcs, hperf⟩ := performs_storeHash hex
      refine ⟨cs, hcs, Prog.Performs.call rfl ?_⟩
      rw [show (answer (.exists (s.blobPath (hashBytes c data))) w).1 = false from hex]
      exact hperf
  | putBlobNew data =>
    cases hex : w.disk.exists (s.blobPath (hashBytes c data)) with
    | true =>
      refine ⟨[], .nothing, Prog.Performs.call rfl ?_⟩
      rw [show (answer (.exists (s.blobPath (hashBytes c data))) w).1 = true from hex]
      exact .throw _ _
    | false =>
      obtain ⟨cs, hcs, hperf⟩ := performs_storeHash hex
      refine ⟨cs, hcs, Prog.Performs.call rfl ?_⟩
      rw [show (answer (.exists (s.blobPath (hashBytes c data))) w).1 = false from hex]
      exact hperf
  | putBlobWithHash data expected =>
    cases hex : w.disk.exists (s.blobPath expected) with
    | true =>
      refine ⟨[], .nothing, Prog.Performs.call rfl ?_⟩
      rw [show (answer (.exists (s.blobPath expected)) w).1 = true from hex]
      exact hnothing ()
    | false =>
      by_cases hhash : hashBytes c data = expected
      · subst hhash
        obtain ⟨cs, hcs, hperf⟩ := performs_store hex
        refine ⟨cs, hcs, Prog.Performs.call rfl ?_⟩
        rw [show (answer (.exists (s.blobPath (hashBytes c data))) w).1 = false from hex]
        show s.Performs cs _ (Prog.ofExcept (verifyHash c data (hashBytes c data)) >>= fun _ =>
          s.writeBlob c (s.blobPath (hashBytes c data)) data) w
        rw [(verifyHash_ok c).mpr rfl]
        exact hperf
      · refine ⟨[], .nothing, Prog.Performs.call rfl ?_⟩
        rw [show (answer (.exists (s.blobPath expected)) w).1 = false from hex]
        show s.Performs [] _ (Prog.ofExcept (verifyHash c data expected) >>= fun _ =>
          s.writeBlob c (s.blobPath expected) data) w
        rw [show verifyHash c data expected = .error (.hashMismatch expected.toHex
          (hashBytes c data).toHex) by simp [verifyHash, hhash]]
        exact .throw _ _

/-- Making the directories of a loose file changes nothing below them, and not the packs. -/
theorem changed_bucket {v : Nodes} (h : Hash) (k : ℕ) {q : Path}
    (hq : s.objectsDir.length + 2 ≤ q.length ∨ q = s.packDir) :
    changed (([.mkdir s.objectsDir, .mkdir (s.objectsDir ++ [h.toHex.take 2])] :
      List Change).take k) v q = v q := by
  have hne : q ≠ s.objectsDir ∧ q ≠ s.objectsDir ++ [h.toHex.take 2] := by
    rcases hq with hlen | rfl
    · constructor
      · intro heq
        rw [heq] at hlen
        omega
      · intro heq
        rw [heq, List.length_append, List.length_singleton] at hlen
        omega
    · refine ⟨s.packDir_ne_objectsDir, fun heq => ?_⟩
      rw [packDir_eq] at heq
      have hlast := List.append_cancel_left heq
      exact bucket_ne_packDirName h (by simpa using hlast.symm)
  refine changed_of_forall_ne fun ch hch => ?_
  have hmem := List.mem_of_mem_take hch
  simp only [List.mem_cons, List.not_mem_nil, or_false] at hmem
  rcases hmem with rfl | rfl
  · exact hne.1
  · exact hne.2

/-- In the midst of a put a path is as before, or it is the one of the hash and has the file. -/
theorem PutShape.moment {v : Nodes} {cs : List Change} (hcs : PutShape c s v data cs) (k : ℕ)
    {q : Path} (hq : s.objectsDir.length + 2 ≤ q.length ∨ q = s.packDir) :
    changed (cs.take k) v q = v q ∨ q = s.blobPath (hashBytes c data) ∧ v q = none ∧
      ∃ raw, s.storedForm c data = .ok raw ∧ changed (cs.take k) v q = some (.file raw) := by
  cases hcs with
  | nothing => exact .inl (by rw [List.take_nil]; rfl)
  | dirs h => exact .inl (changed_bucket h k hq)
  | @stored raw hraw habs =>
    by_cases hlast : k ≤ 2
    · left
      have htake : (s.putChanges (hashBytes c data) raw).take k = ([.mkdir s.objectsDir,
          .mkdir (s.objectsDir ++ [(hashBytes c data).toHex.take 2])] : List Change).take k := by
        obtain rfl | rfl | rfl : k = 0 ∨ k = 1 ∨ k = 2 := by omega
        all_goals rfl
      rw [htake]
      exact changed_bucket _ k hq
    · have hall : changed ((s.putChanges (hashBytes c data) raw).take k) v q =
          if q = s.blobPath (hashBytes c data) then some (.file raw) else v q := by
        have hdirs := changed_bucket (v := v) (hashBytes c data) 2 hq
        rw [List.take_of_length_le (by simp [putChanges]; omega)]
        rw [show changed (s.putChanges (hashBytes c data) raw) v q =
          (Change.put (s.blobPath (hashBytes c data)) raw).apply (changed (List.take 2
            [.mkdir s.objectsDir, .mkdir (s.objectsDir ++ [(hashBytes c data).toHex.take 2])]) v) q
            from rfl]
        simp only [Change.apply, hdirs]
      rw [hall]
      by_cases hown : q = s.blobPath (hashBytes c data)
      · exact .inr ⟨hown, hown ▸ habs, raw, hraw, if_pos hown⟩
      · exact .inl (if_neg hown)

/-- A moment of a put: the packs are as before, and so is every loose file, but that of its hash
may be there where nothing was. -/
theorem put_moment (call : PutCall) (n : ℕ) :
    s.SamePacks (s.view w.disk) (s.view (cutOff n (call.action c s) w).disk) ∧
    ∀ h, s.view (cutOff n (call.action c s) w).disk (s.blobPath h) = s.view w.disk (s.blobPath h) ∨
      h = hashBytes c call.bytes ∧ s.view w.disk (s.blobPath h) = none ∧
        ∃ raw, s.storedForm c call.bytes = .ok raw ∧
          s.view (cutOff n (call.action c s) w).disk (s.blobPath h) = some (.file raw) := by
  obtain ⟨cs, hshape, hperf⟩ := performs_put (c := c) (s := s) (w := w) call
  obtain ⟨k, hk⟩ := hperf.at_cut n
  rw [show s.view (cutOff n (call.action c s) w).disk = _ from hk]
  refine ⟨⟨?_, fun name => ?_⟩, fun h => ?_⟩
  · exact (hshape.moment k (.inr rfl)).resolve_right fun hown =>
      s.blobPath_ne_packDir _ hown.1.symm
  · have hlen : s.objectsDir.length + 2 ≤ (s.packDir ++ [name]).length := by
      rw [packDir_eq]
      simp
    exact (hshape.moment k (.inl hlen)).resolve_right fun hown =>
      s.blobPath_ne_packFile _ name hown.1.symm
  · have hlen : s.objectsDir.length + 2 ≤ (s.blobPath h).length := by
      rw [blobPath_eq, List.length_append]
      simp
    rcases hshape.moment k (.inl hlen) with hsame | ⟨heq, hnone, hfile⟩
    · exact .inl hsame
    · exact .inr ⟨s.blobPath_injective heq, hnone, hfile⟩

end Put

/-! ## Repack -/

section Repack
variable {order : HashOrder} {hashes : List Hash} {objects : List (Hash × Bytes)}

/-- The reading loop of `repack` returns an object for each hash, in order, each as `get_blob`
gave it. -/
theorem run_readAll {I : World → Prop} {P : Hash → Bytes → Prop}
    (hget : ∀ w h, I w → ∀ d, (run (s.getBlob c order h) w).1 = .ok d →
      I (run (s.getBlob c order h) w).2 ∧ P h d)
    {done found : List (Hash × Bytes)} (hw : I w)
    (hrun : (run (hashes.foldlM (s.readObject c order) done) w).1 = .ok found) :
    ∃ new, found = done ++ new ∧ new.map Prod.fst = hashes ∧ ∀ o ∈ new, P o.1 o.2 := by
  induction hashes generalizing w done with
  | nil =>
    obtain rfl := Except.ok.inj hrun
    exact ⟨[], (List.append_nil done).symm, rfl, fun o ho => by cases ho⟩
  | cons h hashes ih =>
    have hkeep := hget w h hw
    rw [List.foldlM_cons] at hrun
    cases hg : run (s.getBlob c order h) w with
    | mk r w' =>
      rw [hg] at hkeep
      cases r with
      | error e =>
        have hread : run (s.readObject c order done h) w = (.error e, w') := run_bind_error hg
        rw [run_bind_error hread] at hrun
        cases hrun
      | ok d =>
        obtain ⟨hI, hP⟩ := hkeep d rfl
        have hread : run (s.readObject c order done h) w = (.ok (done ++ [(h, d)]), w') :=
          run_bind_ok hg
        rw [run_bind_ok hread] at hrun
        obtain ⟨new, rfl, hkeys, hall⟩ := ih hI hrun
        refine ⟨(h, d) :: new, by rw [List.append_assoc]; rfl, by rw [List.map_cons, hkeys], ?_⟩
        intro o ho
        rcases List.mem_cons.mp ho with rfl | ho
        · exact hP
        · exact hall o ho

/-- The changes of a `repack` that packs the objects of the hashes. -/
def repackChanges (c : Crates) (s : BlobStore) (hashes : List Hash)
    (objects : List (Hash × Bytes)) : List Change :=
  [.mkdir s.objectsDir, .mkdir s.packDir] ++ createChanges c s objects ++
    hashes.map fun h => .drop (s.blobPath h)

/-- What `repack` does with the blobs that it has read. -/
def packAway (c : Crates) (s : BlobStore) (hashes : List Hash) (objects : List (Hash × Bytes)) :
    Action CasError ℕ := do
  let _ ← packCas (PackFile.create c s.packDir objects)
  hashes.foldlM (deletePacked s) ()
  invalidatePackCache
  return hashes.length

theorem run_repack (order : HashOrder) (threshold : ℕ) : run (s.repack c order threshold) w =
    match peek s.listBlobs w.disk with
    | .error e => (.error e, w)
    | .ok hashes => if hashes.length ≤ threshold then (.ok 0, w)
      else run (hashes.foldlM (s.readObject c order) [] >>= packAway c s hashes) w := by
  have hlist : run s.listBlobs w = (peek s.listBlobs w.disk, w) := run_of_reads s.listBlobs_reads w
  cases hfound : peek s.listBlobs w.disk with
  | error e =>
    rw [hfound] at hlist
    exact run_bind_error hlist
  | ok hashes =>
    rw [hfound] at hlist
    refine (run_bind_ok hlist).trans ?_
    by_cases hle : hashes.length ≤ threshold
    · simp only [if_pos hle]
      rfl
    · simp only [if_neg hle]
      rfl

/-- A run that packs blobs away drops the pack indices at its end, and touches no cache before. -/
theorem run_packAway (hashes : List Hash) (objects : List (Hash × Bytes)) :
    (run (packAway c s hashes objects) w).2.caches.blobCache = w.caches.blobCache ∧
    (∀ e, (run (packAway c s hashes objects) w).1 = .error e →
      (run (packAway c s hashes objects) w).2.caches.packCache = w.caches.packCache) ∧
    ∀ n, (run (packAway c s hashes objects) w).1 = .ok n →
      (run (packAway c s hashes objects) w).2.caches.packCache = none := by
  have hcreate := (create_stores (c := c) s.packDir objects).mapErr (g := CasError.pack)
  have hdelete := Prog.Uses.foldlM (deletePacked_uses (s := s) (q := Request.OnFiles)
    fun _ => trivial) hashes ()
  have hblobs : (packAway c s hashes objects).Uses Request.SparesBlobs := by
    refine (hcreate.mono fun _ h => h.sparesBlobs).bind fun _ => ?_
    refine (hdelete.mono fun _ h => h.sparesBlobs).bind fun _ => ?_
    exact ⟨trivial, fun _ => ⟨trivial, fun _ => ⟨trivial, fun _ => trivial⟩⟩⟩
  refine ⟨hblobs.exec_eq (fun w => w.caches.blobCache) (fun _ u ho => answer_sparesBlobs ho u) w,
    ?_⟩
  have hcreated := (hcreate.mono fun _ h => h.sparesPacks).exec_eq (h := answer)
    (fun w => w.caches.packCache) (fun _ u ho => answer_sparesPacks ho u) w
  cases hres : run (packCas (PackFile.create c s.packDir objects)) w with
  | mk res u =>
    cases res with
    | error e =>
      have hstop : run (packAway c s hashes objects) w = (.error e, u) := run_bind_error hres
      rw [hstop]
      refine ⟨fun e' _ => ?_, fun n hn => by cases hn⟩
      rw [← hcreated]
      exact congrArg (fun r => r.2.caches.packCache) hres.symm
    | ok created =>
      have hnext : run (packAway c s hashes objects) w =
          run (hashes.foldlM (deletePacked s) () >>= fun _ => invalidatePackCache >>= fun _ =>
            Prog.ret hashes.length) u := run_bind_ok hres
      rw [hnext]
      cases hdel : run (hashes.foldlM (deletePacked s) ()) u with
      | mk res' u' =>
        cases res' with
        | error e =>
          have hspared := (hdelete.mono fun _ h => h.sparesPacks).exec_eq (h := answer)
            (fun w => w.caches.packCache) (fun _ u ho => answer_sparesPacks ho u) u
          rw [run_bind_error hdel]
          refine ⟨fun e' _ => ?_, fun n hn => by cases hn⟩
          have hu : u.caches.packCache = w.caches.packCache := by
            rw [← hcreated]
            exact congrArg (fun r => r.2.caches.packCache) hres.symm
          rw [← hu, ← hspared]
          exact congrArg (fun r => r.2.caches.packCache) hdel.symm
        | ok a =>
          rw [run_bind_ok hdel]
          exact ⟨fun e he => (by cases he), fun n _ => rfl⟩

/-- Deleting a packed blob drops its file, or there is none. -/
theorem performs_deletePacked (hfile : s.view w.disk (s.blobPath h) ≠ some .dir) :
    s.Performs [.drop (s.blobPath h)] (fun _ => True) (s.deletePacked () h) w := by
  rw [view_blobPath] at hfile
  cases hn : w.disk.node (s.blobPath h) with
  | none =>
    have hremove := Tree.removeFile_error (t := w.disk) s.blobPath_ne_nil hn
    have hsame : s.view w.disk = changed [.drop (s.blobPath h)] (s.view w.disk) := by
      funext q
      show s.view w.disk q = (Change.drop (s.blobPath h)).apply (s.view w.disk) q
      by_cases hq : q = s.blobPath h
      · subst hq
        rw [view_blobPath, hn]
        simp [Change.apply]
      · simp [Change.apply, hq]
    have hanswer : answer (.removeFile (s.blobPath h)) w = (.error .notFound, w) := by
      show w.update (w.disk.removeFile (s.blobPath h)) = _
      rw [hremove]
      rfl
    refine Prog.Performs.call (by rw [hanswer]) ?_
    rw [hanswer]
    exact Prog.Performs.ret_of_eq hsame trivial
  | some n =>
    cases n with
    | dir => exact absurd hn hfile
    | file b =>
      obtain ⟨t, ht⟩ := Tree.exists_removeFile s.blobPath_ne_nil (Tree.file_eq_some.mpr hn)
      have hview : s.view t = changed [.drop (s.blobPath h)] (s.view w.disk) := by
        refine view_eq_changed (fun q hq => ?_) s.objectsDir_prefix_blobPath
        rw [Tree.node_removeFile ht q]
        simp only [Change.apply, s.view_of_prefix hq]
      have hanswer : answer (.removeFile (s.blobPath h)) w = (.ok (), { w with disk := t }) := by
        show w.update (w.disk.removeFile (s.blobPath h)) = _
        rw [ht]
        rfl
      refine ⟨⟨0, rfl⟩, ?_⟩
      rw [hanswer]
      exact ⟨⟨1, hview⟩, fun _ _ => ⟨hview, trivial⟩⟩

/-- A `repack` packs what it reads and then deletes the loose files, unless there are too few
of them. -/
theorem performs_repack {threshold : ℕ} (hlist : peek s.listBlobs w.disk = .ok hashes)
    (hobjects : ∀ found, (run (hashes.foldlM (s.readObject c order) []) w).1 = .ok found →
      found = objects)
    (hfile : (run (hashes.foldlM (s.readObject c order) []) w).1 = .ok objects →
      ∀ h ∈ hashes, s.view w.disk (s.blobPath h) ≠ some .dir) :
    s.Performs (if hashes.length ≤ threshold then [] else repackChanges c s hashes objects)
      (fun _ => threshold < hashes.length →
        (run (hashes.foldlM (s.readObject c order) []) w).1 = .ok objects ∧
          ∃ r, Created c s objects r)
      (s.repack c order threshold) w := by
  refine Prog.Performs.after_look s.listBlobs_reads (fun o u ho => answer_reads ho u) ?_
  intro found hfound
  have hsame : found = hashes := by
    have hrun : run s.listBlobs w = _ := run_of_reads s.listBlobs_reads w
    rw [show Prog.exec answer s.listBlobs w = _ from hrun, hlist] at hfound
    exact (Except.ok.inj hfound).symm
  subst hsame
  by_cases hle : found.length ≤ threshold
  · rw [if_pos hle, if_pos hle]
    exact .ret fun hlt => absurd hle (by omega)
  rw [if_neg hle, if_neg hle, repackChanges, List.append_assoc]
  -- the reading loop looks only
  have hread : s.Performs []
      (fun got => (run (found.foldlM (s.readObject c order) []) w).1 = .ok got)
      (found.foldlM (s.readObject c order) []) w :=
    Prog.Performs.nothing (Prog.Uses.foldlM (readObject_looks order) found [])
      fun o u ho => by rw [answer_looks ho u]
  rw [← List.nil_append ([Change.mkdir s.objectsDir, .mkdir s.packDir] ++ _)]
  refine hread.bind fun got t ht hgot => ?_
  obtain rfl := hobjects got hgot
  rw [Prog.after_nil] at ht
  have hnodir := hfile hgot
  rw [← List.append_assoc]
  have hcreate : s.Performs ([.mkdir s.objectsDir, .mkdir s.packDir] ++ createChanges c s got)
      (Created c s got) (packCas (PackFile.create c s.packDir got)) t := performs_create.mapErr
  refine hcreate.bind fun created u hu hcreated => ?_
  have hdrop : s.Performs (found.flatMap fun h => [Change.drop (s.blobPath h)])
      (fun _ => ∀ h ∈ found, True) (found.foldlM (s.deletePacked) ()) u := by
    refine Prog.Performs.foldlM fun done h rest _ u' hsplit hu' => performs_deletePacked ?_
    -- neither the new pair nor the drops before make a directory of the file
    have hdrops : done.flatMap (fun h => [Change.drop (s.blobPath h)]) =
        (done.map s.blobPath).map Change.drop := by
      rw [List.map_map, List.map_eq_flatMap]
      rfl
    rw [hu', hdrops, show Prog.after Change.apply _ (s.view u.disk) = changed _ _ from rfl,
      changed_drops]
    split_ifs with hmem
    · simp
    · have hmem : h ∈ found := by
        rw [hsplit]
        simp
      rw [hu, show Prog.after Change.apply _ (s.view t.disk) = changed _ _ from rfl,
        changed_of_forall_ne, ht]
      · exact hnodir h hmem
      · intro ch hch heq
        have hpath : ch.path = s.objectsDir ∨ ch.path = s.packDir ∨
            ∃ name, ch.path = s.packDir ++ [name] := by
          rcases List.mem_append.mp hch with hch | hch
          · rcases List.mem_cons.mp hch with rfl | hch
            · exact .inl rfl
            · exact .inr (.inl (by rw [List.mem_singleton.mp hch]; rfl))
          · exact .inr (.inr (path_of_mem_createChanges hch))
        rcases hpath with hp | hp | ⟨name, hp⟩
        · have hlen := congrArg List.length (heq.trans hp)
          simp [blobPath, objectsDir] at hlen
        · exact s.blobPath_ne_packDir h (heq.trans hp)
        · exact s.blobPath_ne_packFile h name (heq.trans hp)
  have hflat : found.map (fun h => Change.drop (s.blobPath h)) =
      found.flatMap (fun h => [Change.drop (s.blobPath h)]) ++ [] := by
    rw [List.append_nil, List.map_eq_flatMap]
  rw [hflat]
  refine hdrop.bind fun _ u' _ _ => ?_
  exact .call rfl (.call rfl (.call rfl (.ret fun _ => ⟨hgot, created, hcreated⟩)))

end Repack

end BlobStore

end CasKit
