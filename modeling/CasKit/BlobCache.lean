import CasKit.Footprint
import CasKit.Lib.Recency

/-!
# The blob cache as a recency list

A hit moves its entry to the front, a miss that succeeds puts one there, and a full cache loses
its last entry: one after another the calls of one handle keep the newest reads, and no call goes
to the disk for a hash among them.
-/
namespace CasKit
open Effects Files Codec Recency

/-- The requests that go to the file system. -/
def Request.TouchesDisk : Request → Prop
  | .exists _ | .read _ | .readDir _ | .fileLen _ | .createDirAll _ | .write _ _ | .removeFile _
  | .rename _ _ => True
  | _ => False

section Sections
variable {cache : List (Hash × Bytes)} {h : Hash} {d : Bytes}

/-- A hit in a cache that holds each hash once. -/
theorem lookupBlob_of_mem (hcache : Distinct cache) (hmem : (h, d) ∈ cache) :
    lookupBlob cache h = (some d, (h, d) :: cache.filter fun e => e.1 ≠ h) := by
  obtain ⟨a, b, rfl, ha, hb⟩ := hcache.split hmem
  have hpos : (a ++ (h, d) :: b).findIdx? (fun e => e.1 = h) = some a.length := by
    rw [List.findIdx?_eq_some_iff_getElem]
    refine ⟨by simp, by simp, fun j hj => ?_⟩
    rw [List.getElem_append_left hj]
    simpa using ha _ (List.getElem_mem hj)
  have hget : (a ++ (h, d) :: b)[a.length]? = some (h, d) := by simp
  have herase : (a ++ (h, d) :: b).eraseIdx a.length = a ++ b := by
    simp [List.eraseIdx_append_of_length_le]
  rw [lookupBlob, hpos, filter_split ha hb]
  simp only [hget, herase]

theorem lookupBlob_of_not_mem (hnot : h ∉ cache.map Prod.fst) : lookupBlob cache h = (none, cache) := by
  have hpos : cache.findIdx? (fun e => e.1 = h) = none := by
    rw [List.findIdx?_eq_none_iff]
    intro e he
    apply decide_eq_false
    rintro rfl
    exact hnot (List.mem_map_of_mem he)
  rw [lookupBlob, hpos]

end Sections

/-- One call of `get_blob`. The disk may have changed since the last one. -/
structure ReadCall where
  disk : Tree
  order : HashOrder
  hash : Hash

namespace BlobStore
variable (c : Crates) (s : BlobStore)

/-- The caches of the handle and the reads that succeeded, the newest first. -/
abbrev ReadState := Caches × List (Hash × Bytes)

def readStep (st : ReadState) (k : ReadCall) : ReadState :=
  let r := run (s.getBlob c k.order k.hash) ⟨k.disk, st.1⟩
  (r.2.caches, match r.1 with
    | .ok data => (k.hash, data) :: st.2
    | .error _ => st.2)

def readAll (calls : List ReadCall) : ReadState := calls.foldl (s.readStep c) (.empty, [])

variable {c s} {st : ReadState} {k : ReadCall}

/-- Fetching a blob leaves the blob cache alone. -/
theorem fetchBlob_blobCache (c : Crates) (s : BlobStore) (order : HashOrder) (h : Hash) (w : World) :
    (run (s.fetchBlob c order h) w).2.caches.blobCache = w.caches.blobCache :=
  ((fetchBlob_consults (c := c) (s := s) order h).mono fun _ ho => ho.sparesBlobs).exec_eq
    (fun w => w.caches.blobCache) (fun _ _ ho => answer_sparesBlobs ho _) w

/-- A call for a hash that is cached: the entry moves to the front and its bytes are returned. -/
theorem readStep_hit {d : Bytes} (hcache : Distinct st.1.blobCache)
    (hmem : (k.hash, d) ∈ st.1.blobCache) : s.readStep c st k =
    ({ st.1 with blobCache := (k.hash, d) :: st.1.blobCache.filter fun e => e.1 ≠ k.hash },
      (k.hash, d) :: st.2) := by
  have hlookup := lookupBlob_of_mem hcache hmem
  have hhit : (lookupBlob st.1.blobCache k.hash).1 = some d := by rw [hlookup]
  rw [readStep, s.run_getBlob_hit (w := ⟨k.disk, st.1⟩) hhit, hlookup]

/-- A call for a hash that is not: what is read, if anything, goes to the front. -/
theorem readStep_miss (hnot : k.hash ∉ st.1.blobCache.map Prod.fst) :
    ((s.readStep c st k).1.blobCache = st.1.blobCache ∧ (s.readStep c st k).2 = st.2) ∨
    ∃ d, (s.readStep c st k).1.blobCache = insertBlob st.1.blobCache k.hash d ∧
      (s.readStep c st k).2 = (k.hash, d) :: st.2 := by
  have hmiss : (lookupBlob st.1.blobCache k.hash).1 = none := by rw [lookupBlob_of_not_mem hnot]
  have hcache := fetchBlob_blobCache c s k.order k.hash ⟨k.disk, st.1⟩
  rw [readStep, s.run_getBlob_miss (w := ⟨k.disk, st.1⟩) hmiss]
  cases hfetch : run (s.fetchBlob c k.order k.hash) ⟨k.disk, st.1⟩ with
  | mk r w =>
    rw [hfetch] at hcache
    cases r with
    | error e =>
      rw [run_bind_error hfetch]
      exact .inl ⟨hcache, rfl⟩
    | ok d =>
      rw [run_bind_ok hfetch]
      right
      refine ⟨d, ?_, rfl⟩
      show insertBlob w.caches.blobCache k.hash d = _
      rw [hcache]

/-- A call keeps the cache the list of the newest reads. -/
theorem readStep_recent (hst : st.1.blobCache = recent blobCacheCapacity st.2) :
    (s.readStep c st k).1.blobCache = recent blobCacheCapacity (s.readStep c st k).2 := by
  have hdistinct : Distinct st.1.blobCache := by
    rw [hst]
    exact (distinct_newest st.2).sublist (List.take_sublist _ _)
  by_cases hmem : k.hash ∈ st.1.blobCache.map Prod.fst
  · obtain ⟨⟨h, d⟩, hentry, heq⟩ := List.mem_map.mp hmem
    obtain rfl : h = k.hash := heq
    have hrecent : (k.hash, d) ∈ recent blobCacheCapacity st.2 := hst ▸ hentry
    rw [readStep_hit hdistinct hentry, recent_hit hrecent, hst]
  · rcases readStep_miss (c := c) (s := s) hmem with ⟨hcache, hhist⟩ | ⟨d, hcache, hhist⟩
    · rw [hcache, hhist, hst]
    · rw [hst] at hmem
      rw [hcache, hhist, recent_miss (by decide) hmem, hst]
      rfl

/-- After any calls the cache is the list of the newest reads. -/
theorem readAll_recent (calls : List ReadCall) :
    (s.readAll c calls).1.blobCache = recent blobCacheCapacity (s.readAll c calls).2 := by
  induction calls using List.reverseRecOn with
  | nil => rfl
  | append_singleton calls k ih =>
    rw [readAll, List.foldl_append]
    exact readStep_recent ih

/-- What `get_blob` asks for once it has looked into the blob cache. -/
theorem pending_getBlob (c : Crates) (s : BlobStore) (order : HashOrder) (h : Hash) (n : ℕ)
    (w : World) : Prog.pending answer (n + 1) (s.getBlob c order h) w =
      Prog.pending answer n (match (lookupBlob w.caches.blobCache h).1 with
        | some data => Prog.ret data
        | none => s.fetchBlob c order h >>= fun data =>
          (.call (.blobInsert h data) fun _ => .ret data : Action CasError Bytes))
        ⟨w.disk, { w.caches with blobCache := (lookupBlob w.caches.blobCache h).2 }⟩ := rfl

/-- A call touches the disk if its hash is not in the cache, and only then. -/
theorem getBlob_touches {caches : Caches} {t : Tree} {order : HashOrder} {h : Hash}
    (hcache : Distinct caches.blobCache) :
    (∀ n o, Prog.pending answer n (s.getBlob c order h) ⟨t, caches⟩ = some o → ¬ o.TouchesDisk) ↔
      h ∈ caches.blobCache.map Prod.fst := by
  constructor
  · intro hnone
    by_contra hnot
    have hasks : Prog.pending answer 1 (s.getBlob c order h) ⟨t, caches⟩ =
        some (.exists (s.blobPath h)) := by
      rw [pending_getBlob, lookupBlob_of_not_mem hnot]
      rfl
    exact hnone 1 _ hasks trivial
  · intro hmem n o hpending
    obtain ⟨⟨h, d⟩, hentry, rfl⟩ := List.mem_map.mp hmem
    cases n with
    | zero =>
      have hfirst : some (Request.blobLookup h) = some o := hpending
      obtain rfl := Option.some.inj hfirst
      exact not_false
    | succ n =>
      rw [pending_getBlob, lookupBlob_of_mem hcache hentry] at hpending
      cases n <;> cases hpending

/-- The blob cache is an exact recency list: after any calls of `get_blob` on one handle it is the
1024 newest of the hashes read, each with the bytes of its latest read, and a call is served
without the disk exactly for these. -/
theorem blob_cache_lru (c : Crates) (s : BlobStore) (calls : List ReadCall) :
    (s.readAll c calls).1.blobCache = recent blobCacheCapacity (s.readAll c calls).2 ∧
    ∀ k : ReadCall,
      (∀ n o, Prog.pending answer n (s.getBlob c k.order k.hash)
        ⟨k.disk, (s.readAll c calls).1⟩ = some o → ¬ o.TouchesDisk) ↔
      k.hash ∈ (recent blobCacheCapacity (s.readAll c calls).2).map Prod.fst := by
  have hrecent := readAll_recent (c := c) (s := s) calls
  refine ⟨hrecent, fun k => ?_⟩
  rw [← hrecent]
  apply getBlob_touches
  rw [hrecent]
  exact (distinct_newest _).sublist (List.take_sublist _ _)

end BlobStore

end CasKit
