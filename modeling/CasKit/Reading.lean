import CasKit.View

/-!
# Reading on a freshly opened store

What loading all indices gives, and when `get_blob` on a fresh handle returns given bytes:
the loose file decides where there is one, and otherwise every pack that lists the hash,
since any of them may come first in the cache.
-/
namespace CasKit
open Effects Files Codec

section LoadAll
variable {t : Tree} {dir : Path}

theorem loadStep_reads (indices : List (Path × PackIndex)) (p : Path) :
    (PackCache.loadStep indices p).Uses Request.Reads := by
  refine (pathExists_reads _).bind fun there => ?_
  cases there with
  | false => trivial
  | true => exact (load_reads _).bind fun _ => trivial

theorem loadAll_reads (order : HashOrder) (dir : Path) :
    (PackCache.loadAll order dir).Uses Request.Reads :=
  (ioPack_reads (listPacks_reads dir)).bind fun _ =>
    (Prog.Uses.foldlM loadStep_reads _ _).bind fun _ => trivial

/-- A path without a node has no index to parse. -/
theorem indexAt_eq_none_of_node {v : Nodes} {p : Path} (h : v (idxOf p) = none) :
    indexAt v p = none := by
  simp [indexAt, bytesAt, h]

theorem idxOf_ne_nil (p : Path) (hp : p ≠ []) : idxOf p ≠ [] := by
  unfold idxOf withExtension
  cases hl : p.getLast? with
  | none => exact absurd (List.getLast?_eq_none_iff.mp hl) hp
  | some name => simp

/-- One round of loading, in terms of the index it meets. -/
theorem peek_loadStep {p : Path} (hp : p ≠ []) (indices : List (Path × PackIndex)) :
    (t.node (idxOf p) = none → peek (PackCache.loadStep indices p) t = .ok indices) ∧
    (∀ i, indexAt t.node p = some i →
      peek (PackCache.loadStep indices p) t = .ok (indices ++ [(p, i)])) ∧
    ((t.node (idxOf p)).isSome → indexAt t.node p = none →
      ∃ e, peek (PackCache.loadStep indices p) t = .error e) := by
  have hstep : peek (PackCache.loadStep indices p) t =
      if t.exists (idxOf p) then
        (peek (PackIndex.load (idxOf p)) t).map fun i => indices ++ [(p, i)]
      else .ok indices := by
    rw [PackCache.loadStep, peek_bind (pathExists_reads _), peek_pathExists]
    show peek (if t.exists (idxOf p) then _ else _) t = _
    cases t.exists (idxOf p) with
    | false => rfl
    | true =>
      show peek (PackIndex.load (idxOf p) >>= _) t = _
      rw [peek_bind (load_reads _)]
      cases peek (PackIndex.load (idxOf p)) t <;> rfl
  have hexists : ∀ n, t.node (idxOf p) = some n → t.exists (idxOf p) = true := by
    intro n hn
    simp [Tree.exists, hn]
  refine ⟨?_, ?_, ?_⟩
  · intro hn
    rw [hstep, (Tree.exists_eq_false (idxOf_ne_nil p hp)).mpr hn]
    rfl
  · intro i hi
    have hload := peek_load_eq_ok.mpr (show ((t.file (idxOf p)).bind _) = some i from hi)
    obtain ⟨b, hb, -⟩ := Option.bind_eq_some_iff.mp hi
    rw [hstep, hexists _ (bytesAt_eq_some.mp hb), hload]
    rfl
  · intro hn hi
    obtain ⟨n, hn⟩ := Option.isSome_iff_exists.mp hn
    rw [hstep, hexists n hn]
    cases hload : peek (PackIndex.load (idxOf p)) t with
    | error e => exact ⟨e, rfl⟩
    | ok i =>
      have := peek_load_eq_ok.mp hload
      rw [show ((t.file (idxOf p)).bind _) = indexAt t.node p from rfl, hi] at this
      cases this

/-- The indices that loading collects from a list of packs. -/
def loadedFrom (v : Nodes) (ps : List Path) : List (Path × PackIndex) :=
  ps.filterMap fun p => (indexAt v p).map fun i => (p, i)

theorem mem_loadedFrom {v : Nodes} {ps : List Path} {p : Path} {i : PackIndex} :
    (p, i) ∈ loadedFrom v ps ↔ p ∈ ps ∧ indexAt v p = some i := by
  simp only [loadedFrom, List.mem_filterMap, Option.map_eq_some_iff, Prod.mk.injEq]
  constructor
  · rintro ⟨q, hq, j, hj, rfl, rfl⟩
    exact ⟨hq, hj⟩
  · rintro ⟨hp, hi⟩
    exact ⟨p, hp, i, hi, rfl, rfl⟩

/-- The loading loop succeeds exactly when every index that is there loads. -/
theorem peek_foldlM_loadStep {ps : List Path} (hps : ∀ p ∈ ps, p ≠ [])
    (indices : List (Path × PackIndex)) :
    ((∀ p ∈ ps, (t.node (idxOf p)).isSome → ∃ i, indexAt t.node p = some i) →
      peek (ps.foldlM PackCache.loadStep indices) t = .ok (indices ++ loadedFrom t.node ps)) ∧
    ((∃ p ∈ ps, (t.node (idxOf p)).isSome ∧ indexAt t.node p = none) →
      ∃ e, peek (ps.foldlM PackCache.loadStep indices) t = .error e) := by
  induction ps generalizing indices with
  | nil => exact ⟨fun _ => by simp [loadedFrom], by simp⟩
  | cons p ps ih =>
    have hrest := ih fun q hq => hps q (List.mem_cons_of_mem _ hq)
    obtain ⟨hnone, hsome, hbad⟩ := peek_loadStep (t := t) (hps p List.mem_cons_self) indices
    rw [List.foldlM_cons, peek_bind (loadStep_reads _ _)]
    constructor
    · intro hall
      have hall' := (hrest · |>.1 fun q hq => hall q (List.mem_cons_of_mem _ hq))
      cases hn : t.node (idxOf p) with
      | none =>
        rw [hnone hn]
        show peek (ps.foldlM PackCache.loadStep indices) t = _
        rw [hall', loadedFrom, loadedFrom, List.filterMap_cons, indexAt_eq_none_of_node hn]
        rfl
      | some n =>
        obtain ⟨i, hi⟩ := hall p List.mem_cons_self (by rw [hn]; rfl)
        rw [hsome i hi]
        show peek (ps.foldlM PackCache.loadStep (indices ++ [(p, i)])) t = _
        rw [hall', loadedFrom, loadedFrom, List.filterMap_cons, hi]
        simp
    · rintro ⟨q, hq, hqn, hqi⟩
      cases hn : t.node (idxOf p) with
      | none =>
        rw [hnone hn]
        rcases List.mem_cons.mp hq with rfl | hq
        · rw [hn] at hqn; cases hqn
        · exact (hrest indices).2 ⟨q, hq, hqn, hqi⟩
      | some n =>
        cases hi : indexAt t.node p with
        | none =>
          obtain ⟨e, he⟩ := hbad (by rw [hn]; rfl) hi
          exact ⟨e, by rw [he]; rfl⟩
        | some i =>
          rw [hsome i hi]
          rcases List.mem_cons.mp hq with rfl | hq
          · rw [hi] at hqi; cases hqi
          · exact (hrest _).2 ⟨q, hq, hqn, hqi⟩

end LoadAll

namespace HashOrder

/-- The order that comes to one pack before all others. -/
def startingAt (p : Path) : HashOrder where
  arrange l := l.filter (fun e => e.1 = p) ++ l.filter (fun e => !decide (e.1 = p))
  perm l := List.filter_append_perm _ l

theorem find_startingAt {l : List (Path × PackIndex)} {p : Path} {i : PackIndex} {h : Hash}
    (hmem : (p, i) ∈ l) (honly : ∀ j, (p, j) ∈ l → j = i) (hh : h ∈ i.hashes) :
    ∃ o, (PackCache.mk ((startingAt p).arrange l)).find h = some (p, o) := by
  obtain ⟨o, ho⟩ := Option.isSome_iff_exists.mp (PackIndex.find_isSome.mpr hh)
  refine ⟨o, ?_⟩
  have hfront : ∀ e ∈ l.filter (fun e => e.1 = p), e = (p, i) := by
    intro e he
    obtain ⟨hel, hep⟩ := List.mem_filter.mp he
    obtain ⟨q, j⟩ := e
    have hq : q = p := by simpa using hep
    subst hq
    rw [honly j hel]
  have hne : (p, i) ∈ l.filter (fun e => e.1 = p) := List.mem_filter.mpr ⟨hmem, by simp⟩
  cases hl : l.filter (fun e => e.1 = p) with
  | nil => rw [hl] at hne; cases hne
  | cons e es =>
    have he := hfront e (by rw [hl]; exact List.mem_cons_self)
    simp [PackCache.find, startingAt, hl, he, ho]

end HashOrder

namespace BlobStore
variable {c : Crates} (s : BlobStore) {t : Tree} {h : Hash} {d : Bytes}

/-- What `get_blob` does once it has looked into the blob cache. -/
theorem run_getBlob (order : HashOrder) (w : World) : run (s.getBlob c order h) w =
    run (match (lookupBlob w.caches.blobCache h).1 with
      | some data => Prog.ret data
      | none => s.fetchBlob c order h >>= fun data =>
        (.call (.blobInsert h data) fun _ => .ret data : Action CasError Bytes))
      ⟨w.disk, { w.caches with blobCache := (lookupBlob w.caches.blobCache h).2 }⟩ := rfl

/-- A hit of `get_blob` moves the entry to the front. -/
theorem run_getBlob_hit {order : HashOrder} {w : World} {data : Bytes}
    (hhit : (lookupBlob w.caches.blobCache h).1 = some data) : run (s.getBlob c order h) w =
    (.ok data, ⟨w.disk, { w.caches with blobCache := (lookupBlob w.caches.blobCache h).2 }⟩) := by
  rw [run_getBlob, hhit]
  rfl

/-- A miss fetches the blob and caches it. -/
theorem run_getBlob_miss {order : HashOrder} {w : World}
    (hmiss : (lookupBlob w.caches.blobCache h).1 = none) : run (s.getBlob c order h) w =
    run (s.fetchBlob c order h >>= fun data =>
      (.call (.blobInsert h data) fun _ => .ret data : Action CasError Bytes)) w := by
  rw [run_getBlob, hmiss, (lookupBlob_eq_none hmiss).1]

theorem fresh_getBlob (order : HashOrder) :
    (run (s.getBlob c order h) ⟨t, .empty⟩).1 = peek (s.fetchBlob c order h) t := by
  rw [s.run_getBlob_miss rfl, run, Prog.exec_bind, peek, run]
  cases (s.fetchBlob c order h).exec answer ⟨t, .empty⟩ with
  | mk r w => cases r <;> rfl

/-- Loading succeeds on a loadable store and then has the indices of all packs. -/
theorem peek_loadAll (order : HashOrder) :
    (s.Loadable (s.view t) → ∃ ps, peek (PackFile.listPacks s.packDir) t = .ok ps ∧
      peek (PackCache.loadAll order s.packDir) t = .ok ⟨order.arrange (loadedFrom t.node ps)⟩) ∧
    (¬ s.Loadable (s.view t) → ∃ e, peek (PackCache.loadAll order s.packDir) t = .error e) := by
  have hload : peek (PackCache.loadAll order s.packDir) t =
      ((peek (PackFile.listPacks s.packDir) t).mapError PackError.io >>= fun ps =>
        (peek (ps.foldlM PackCache.loadStep []) t).map fun l => ⟨order.arrange l⟩) := by
    rw [PackCache.loadAll, peek_bind (ioPack_reads (listPacks_reads _)), peek_ioPack]
    congr 1
    funext ps
    rw [peek_bind (Prog.Uses.foldlM loadStep_reads _ _)]
    cases peek (ps.foldlM PackCache.loadStep []) t <;> rfl
  have hne : ∀ ps, peek (PackFile.listPacks s.packDir) t = .ok ps → ∀ p ∈ ps, p ≠ [] := by
    intro ps hps p hp hnil
    obtain ⟨⟨name, hname, -⟩, -⟩ := (mem_listPacks s.packDir_ne_nil hps p).mp hp
    rw [hnil] at hname
    simp at hname
  constructor
  · intro hl
    have hdir : t.file s.packDir = none := by
      have := hl.dir
      rwa [bytesAt_congr (s.view_packDir t), bytesAt_node] at this
    obtain ⟨ps, hps⟩ := (listPacks_ok_iff s.packDir_ne_nil).mpr hdir
    refine ⟨ps, hps, ?_⟩
    rw [hload, hps]
    show (peek (ps.foldlM PackCache.loadStep []) t).map _ = _
    rw [(peek_foldlM_loadStep (hne ps hps) []).1]
    · rfl
    · intro p hp hn
      have hentry := (s.mem_listPacks_view hps p).mp hp
      rw [← s.indexAt_view hentry.1]
      exact hl.index p ⟨hentry, by rwa [s.view_idxOf hentry.1]⟩
  · intro hl
    by_cases hdir : t.file s.packDir = none
    · obtain ⟨ps, hps⟩ := (listPacks_ok_iff s.packDir_ne_nil).mpr hdir
      have hbad : ∃ p ∈ ps, (t.node (idxOf p)).isSome ∧ indexAt t.node p = none := by
        by_contra hgood
        push Not at hgood
        refine hl ⟨by rwa [bytesAt_congr (s.view_packDir t)], fun p hp => ?_⟩
        have hmem := (s.mem_listPacks_view hps p).mpr hp.1
        have hsome := hp.2
        rw [s.view_idxOf hp.1.1] at hsome
        rw [s.indexAt_view hp.1.1]
        exact Option.ne_none_iff_exists'.mp (hgood p hmem hsome)
      obtain ⟨e, he⟩ := (peek_foldlM_loadStep (hne ps hps) []).2 hbad
      refine ⟨e, ?_⟩
      rw [hload, hps]
      show (peek (ps.foldlM PackCache.loadStep []) t).map _ = _
      rw [he]
      rfl
    · cases hps : peek (PackFile.listPacks s.packDir) t with
      | ok ps => exact absurd ((listPacks_ok_iff s.packDir_ne_nil).mp ⟨ps, hps⟩) hdir
      | error e => exact ⟨.io e, by rw [hload, hps]; rfl⟩

/-- The pack path that a lookup in the cache settles on lists the hash; without one no pack
does. -/
theorem find_loaded (order : HashOrder) {ps : List Path}
    (hps : peek (PackFile.listPacks s.packDir) t = .ok ps) :
    (∀ p o, (PackCache.mk (order.arrange (loadedFrom t.node ps))).find h = some (p, o) →
      s.Lists (s.view t) p h) ∧
    ((PackCache.mk (order.arrange (loadedFrom t.node ps))).find h = none →
      ∀ p, ¬ s.Lists (s.view t) p h) := by
  have hmem : ∀ p i, (p, i) ∈ order.arrange (loadedFrom t.node ps) ↔
      s.PackEntry (s.view t) p ∧ indexAt (s.view t) p = some i := by
    intro p i
    rw [(order.perm _).mem_iff, mem_loadedFrom, s.mem_listPacks_view hps]
    constructor
    · rintro ⟨hp, hi⟩
      exact ⟨hp, by rwa [s.indexAt_view hp.1]⟩
    · rintro ⟨hp, hi⟩
      exact ⟨hp, by rwa [s.indexAt_view hp.1] at hi⟩
  constructor
  · intro p o hf
    obtain ⟨⟨q, i⟩, hq, hfind⟩ := List.exists_of_findSome?_eq_some hf
    obtain ⟨o', ho', heq⟩ := Option.map_eq_some_iff.mp hfind
    obtain ⟨rfl, rfl⟩ := Prod.mk.inj heq
    obtain ⟨hentry, hi⟩ := (hmem q i).mp hq
    have hsome : (i.find h).isSome := by rw [ho']; rfl
    exact ⟨hentry, i, hi, PackIndex.find_isSome.mp hsome⟩
  · rintro hf p ⟨hentry, i, hi, hh⟩
    have hnone := List.findSome?_eq_none_iff.mp hf (p, i) ((hmem p i).mpr ⟨hentry, hi⟩)
    exact PackIndex.find_eq_none.mp (Option.map_eq_none_iff.mp hnone) hh

/-! ## Loose files -/

section Loose
variable {raw : Bytes}

theorem decodeLoose_eq : s.decodeLoose c raw h =
    (if isZstdCompressed raw then decompress c raw else .ok raw) >>= fun result =>
      if s.verifyOnRead then (verifyHash c result h).map fun _ => result else .ok result := by
  unfold decodeLoose
  have htail : ∀ x : Except CasError Bytes, (do
      let result ← x
      if s.verifyOnRead then verifyHash c result h
      return result) = x >>= fun result =>
        if s.verifyOnRead then (verifyHash c result h).map fun _ => result else .ok result := by
    intro x
    cases x with
    | error e => rfl
    | ok r =>
      cases s.verifyOnRead with
      | false => rfl
      | true => cases hv : verifyHash c r h <;> simp [hv, bind, Except.bind, Except.map, pure,
          Except.pure]
  cases isZstdCompressed raw with
  | true => exact htail _
  | false => exact htail (.ok raw)

/-- A loose file reads as its data exactly when its bytes decode to it, verified or not. -/
theorem decodeLoose_iff (hhash : hashBytes c d = h) : s.decodeLoose c raw h = .ok d ↔
    (if isZstdCompressed raw then decompress c raw else .ok raw) = .ok d := by
  rw [decodeLoose_eq]
  cases (if isZstdCompressed raw then decompress c raw else .ok raw) with
  | error e => simp [bind, Except.bind]
  | ok r =>
    show (if s.verifyOnRead then (verifyHash c r h).map fun _ => r else .ok r) = .ok d ↔ _
    cases s.verifyOnRead with
    | false => simp
    | true =>
      cases hver : verifyHash c r h with
      | ok u => simp [Except.map]
      | error e =>
        have hne : r ≠ d := by
          rintro rfl
          rw [(verifyHash_ok c).mpr hhash] at hver
          cases hver
        simp [Except.map, hne]

/-- Verification passes on only what has the digest. -/
theorem decodeLoose_verified (hv : s.verifyOnRead = true) (hd : s.decodeLoose c raw h = .ok d) :
    hashBytes c d = h := by
  rw [decodeLoose_eq] at hd
  cases hx : (if isZstdCompressed raw then decompress c raw else .ok raw) with
  | error e => rw [hx] at hd; cases hd
  | ok r =>
    rw [hx] at hd
    change (if s.verifyOnRead then (verifyHash c r h).map fun _ => r else .ok r) = .ok d at hd
    rw [hv, if_pos rfl] at hd
    cases hver : verifyHash c r h with
    | error e => rw [hver] at hd; cases hd
    | ok u =>
      rw [hver] at hd
      obtain rfl := Except.ok.inj hd
      exact (verifyHash_ok c).mp hver

end Loose

/-- The pack cache as a call finds it or loads it. -/
theorem run_withPackCache {β : Type} (order : HashOrder) (f : PackCache → β) (w : World) :
    run (s.withPackCache order f) w = match w.caches.packCache with
      | some cache => (.ok (f cache), w)
      | none => match peek (PackCache.loadAll order s.packDir) w.disk with
        | .error e => (.error (.pack e), w)
        | .ok cache =>
          (.ok (f cache), { w with caches := { w.caches with packCache := some cache } }) := by
  have hstart : run (s.withPackCache order f) w = run (match w.caches.packCache with
      | some cache => .call .packUnlock fun _ => .ret (f cache)
      | none => (PackCache.loadAll order s.packDir).attempt >>= fun loaded => match loaded with
        | .error e => .call .packUnlock fun _ => .throw (.pack e)
        | .ok cache => .call (.packSet (some cache)) fun _ =>
            .call .packUnlock fun _ => .ret (f cache) : Action CasError β) w := rfl
  rw [hstart]
  cases w.caches.packCache with
  | some cache => rfl
  | none =>
    have hload : run ((PackCache.loadAll order s.packDir).attempt :
        Action CasError (Except PackError PackCache)) w =
        (.ok (peek (PackCache.loadAll order s.packDir) w.disk), w) := by
      rw [run_attempt, run_of_reads (loadAll_reads _ _)]
    refine (run_bind_ok hload).trans ?_
    cases peek (PackCache.loadAll order s.packDir) w.disk <;> rfl

/-- Loading the index of a pack and reading a hash through it. -/
def readThrough (c : Crates) (p : Path) (h : Hash) : Action PackError Bytes := do
  let index ← PackIndex.load (idxOf p)
  PackFile.readBlob c p index h

theorem readBlob_reads (p : Path) (index : PackIndex) (h : Hash) :
    (PackFile.readBlob c p index h).Uses Request.Reads := by
  unfold PackFile.readBlob
  cases index.find h with
  | none => trivial
  | some offset => exact (ioPack_reads (readFile_reads p)).bind fun _ => Prog.Uses.ofExcept _

theorem readThrough_reads (p : Path) (h : Hash) : (readThrough c p h).Uses Request.Reads :=
  (load_reads _).bind fun _ => readBlob_reads _ _ _

theorem peek_readBlob {p : Path} {index : PackIndex} :
    peek (PackFile.readBlob c p index h) t = .ok d ↔
      ∃ offset bs, index.find h = some offset ∧ t.file p = some bs ∧
        decodeRecord c (bs.drop offset) h = .ok d := by
  unfold PackFile.readBlob
  cases hf : index.find h with
  | none => simp
  | some offset =>
    show peek (ioPack (readFile p) >>= fun bs => Prog.ofExcept _) t = _ ↔ _
    rw [peek_bind (ioPack_reads (readFile_reads p)), peek_ioPack, peek_readFile]
    simp only [peek_ofExcept]
    cases hr : t.read p with
    | error e =>
      have hnone : ∀ bs, t.file p ≠ some bs := by
        intro bs hbs
        rw [read_eq_ok.mpr hbs] at hr
        cases hr
      simp [Except.mapError, bind, Except.bind, hnone]
    | ok bs =>
      have hfile := read_eq_ok.mp hr
      simp [Except.mapError, bind, Except.bind, hfile]

theorem recordAt_iff {p : Path} : recordAt c t.node p h = some d ↔
    ∃ i, indexAt t.node p = some i ∧ ∃ offset bs, i.find h = some offset ∧
      t.file p = some bs ∧ decodeRecord c (bs.drop offset) h = .ok d := by
  have hok : ∀ x : Except PackError Bytes, x.toOption = some d ↔ x = .ok d := by
    intro x
    cases x <;> simp [Except.toOption]
  simp only [recordAt, bytesAt_node, Option.bind_eq_bind, Option.bind_eq_some_iff, hok]
  constructor
  · rintro ⟨i, hi, o, ho, bs, hbs, hd⟩
    exact ⟨i, hi, o, bs, ho, hbs, hd⟩
  · rintro ⟨i, hi, o, bs, ho, hbs, hd⟩
    exact ⟨i, hi, o, ho, bs, hbs, hd⟩

/-- Reading through a pack gives what the record decodes to. -/
theorem peek_readThrough {p : Path} :
    peek (readThrough c p h) t = .ok d ↔ recordAt c t.node p h = some d := by
  rw [recordAt_iff, readThrough, peek_bind (load_reads _)]
  constructor
  · intro h
    cases hl : peek (PackIndex.load (idxOf p)) t with
    | error e => rw [hl] at h; cases h
    | ok i =>
      rw [hl] at h
      exact ⟨i, peek_load_eq_ok.mp hl, peek_readBlob.mp h⟩
  · rintro ⟨i, hi, hrest⟩
    have hl := peek_load_eq_ok.mpr (show ((t.file (idxOf p)).bind _) = some i from hi)
    rw [hl]
    exact peek_readBlob.mpr hrest

/-- What `get_blob_packed` does with the pack cache it gets. -/
theorem run_getBlobPacked {order : HashOrder} {w w' : World} {pc : PackCache}
    (hcache : run (s.withPackCache order fun cache => (cache.find h).map Prod.fst) w =
      (.ok ((pc.find h).map Prod.fst), w')) : run (s.getBlobPacked c order h) w =
    (match (pc.find h).map Prod.fst with
      | none => .error (.blobNotFound h.toHex)
      | some p => (peek (readThrough c p h) w'.disk).mapError .pack, w') := by
  rw [getBlobPacked, run_bind_ok hcache]
  cases (pc.find h).map Prod.fst with
  | none => rfl
  | some p =>
    have hprog : (packCas (PackIndex.load (withExtension p idxExt)) >>= fun index =>
        packCas (PackFile.readBlob c p index h)) = packCas (readThrough c p h) :=
      (Prog.mapErr_bind _ _ _).symm
    show run (packCas (PackIndex.load (withExtension p idxExt)) >>= fun index =>
        packCas (PackFile.readBlob c p index h)) _ = _
    rw [hprog, run_of_reads (packCas_reads (readThrough_reads p h)), peek_packCas]

theorem peek_getBlobPacked (order : HashOrder) : peek (s.getBlobPacked c order h) t =
    match peek (PackCache.loadAll order s.packDir) t with
    | .error e => .error (.pack e)
    | .ok cache => match (cache.find h).map Prod.fst with
      | none => .error (.blobNotFound h.toHex)
      | some p => (peek (readThrough c p h) t).mapError .pack := by
  have hcache := s.run_withPackCache order (fun cache => (cache.find h).map Prod.fst) ⟨t, .empty⟩
  simp only [Caches.empty_packCache] at hcache
  cases hload : peek (PackCache.loadAll order s.packDir) t with
  | error e =>
    rw [hload] at hcache
    rw [peek, getBlobPacked, run_bind_error hcache]
  | ok cache =>
    rw [hload] at hcache
    rw [peek, s.run_getBlobPacked hcache]

theorem run_fetchPacked (order : HashOrder) (w : World) : run (s.fetchPacked c order h) w =
    (match (run (s.getBlobPacked c order h) w).1 with
      | .ok data => .ok data
      | .error (.blobNotFound _) => .error (.blobNotFound h.toHex)
      | .error e => .error e, (run (s.getBlobPacked c order h) w).2) := by
  have hattempt : run ((s.getBlobPacked c order h).attempt :
      Action CasError (Except CasError Bytes)) w = _ := run_attempt _
  rw [fetchPacked, run_bind_ok hattempt]
  cases (run (s.getBlobPacked c order h) w).1 with
  | ok d => rfl
  | error e => cases e <;> rfl

theorem run_fetchPacked_ok (order : HashOrder) (w : World) :
    (run (s.fetchPacked c order h) w).1 = .ok d ↔ (run (s.getBlobPacked c order h) w).1 = .ok d := by
  rw [run_fetchPacked]
  cases (run (s.getBlobPacked c order h) w).1 with
  | ok d' => rfl
  | error e => cases e <;> simp

theorem peek_fetchPacked (order : HashOrder) :
    peek (s.fetchPacked c order h) t = .ok d ↔ peek (s.getBlobPacked c order h) t = .ok d :=
  s.run_fetchPacked_ok order ⟨t, .empty⟩

theorem fetchLoose_reads (h : Hash) : (s.fetchLoose c h).Uses Request.Reads :=
  (ioCas_reads (readFile_reads _)).bind fun _ => Prog.Uses.ofExcept _

theorem peek_fetchLoose : peek (s.fetchLoose c h) t = .ok d ↔
    ∃ raw, t.file (s.blobPath h) = some raw ∧ s.decodeLoose c raw h = .ok d := by
  rw [fetchLoose, peek_bind (ioCas_reads (readFile_reads _)), peek_ioCas, peek_readFile]
  simp only [peek_ofExcept]
  cases hr : t.read (s.blobPath h) with
  | error e =>
    have hnone : ∀ raw, t.file (s.blobPath h) ≠ some raw := by
      intro raw hraw
      rw [read_eq_ok.mpr hraw] at hr
      cases hr
    simp [Except.mapError, bind, Except.bind, hnone]
  | ok raw =>
    have hfile := read_eq_ok.mp hr
    simp [Except.mapError, bind, Except.bind, hfile]

theorem peek_fetchBlob (order : HashOrder) : peek (s.fetchBlob c order h) t =
    if t.exists (s.blobPath h) then peek (s.fetchLoose c h) t
    else peek (s.fetchPacked c order h) t := by
  rw [fetchBlob, peek_bind (pathExists_reads _), peek_pathExists]
  show peek (if t.exists (s.blobPath h) = true then _ else _) t = _
  cases t.exists (s.blobPath h) <;> rfl

/-- When the packs answer in a given order: they load, and the first one in this order that lists
the hash has the record. -/
theorem getBlobPacked_eq_ok (order : HashOrder) : peek (s.getBlobPacked c order h) t = .ok d ↔
    s.Loadable (s.view t) ∧ ∃ ps, peek (PackFile.listPacks s.packDir) t = .ok ps ∧
      ∃ p o, (PackCache.mk (order.arrange (loadedFrom t.node ps))).find h = some (p, o) ∧
        recordAt c (s.view t) p h = some d := by
  rw [peek_getBlobPacked]
  by_cases hload : s.Loadable (s.view t)
  · obtain ⟨ps, hps, hcache⟩ := (s.peek_loadAll order).1 hload
    have hps' : ∀ ps', peek (PackFile.listPacks s.packDir) t = .ok ps' ↔ ps = ps' := by
      intro ps'
      rw [hps, Except.ok.injEq]
    simp only [hcache, hload, true_and, hps', exists_eq_left']
    cases hfind : (PackCache.mk (order.arrange (loadedFrom t.node ps))).find h with
    | none => simp
    | some e =>
      have hlists := (s.find_loaded (h := h) order hps).1 e.1 e.2 hfind
      have hthrough : (peek (readThrough c e.1 h) t).mapError CasError.pack = .ok d ↔
          recordAt c (s.view t) e.1 h = some d := by
        rw [s.recordAt_view c hlists.1.1, ← peek_readThrough]
        exact mapError_eq_ok
      show (peek (readThrough c e.1 h) t).mapError CasError.pack = .ok d ↔ _
      rw [hthrough]
      constructor
      · intro hrec
        exact ⟨e.1, e.2, rfl, hrec⟩
      · rintro ⟨p, o, heq, hrec⟩
        obtain rfl := Option.some.inj heq
        exact hrec
  · obtain ⟨e, hfail⟩ := (s.peek_loadAll order).2 hload
    simp [hfail, hload]

/-- A pack that lists the hash is the first one in some order. -/
theorem find_listed {ps : List Path} {p : Path}
    (hps : peek (PackFile.listPacks s.packDir) t = .ok ps) (hp : s.Lists (s.view t) p h) :
    ∃ o, (PackCache.mk ((HashOrder.startingAt p).arrange (loadedFrom t.node ps))).find h =
      some (p, o) := by
  obtain ⟨hentry, i, hi, hh⟩ := hp
  have hmem : (p, i) ∈ loadedFrom t.node ps := mem_loadedFrom.mpr
    ⟨(s.mem_listPacks_view hps p).mpr hentry, by rwa [← s.indexAt_view hentry.1]⟩
  have honly : ∀ j, (p, j) ∈ loadedFrom t.node ps → j = i := by
    intro j hj
    have h1 := (mem_loadedFrom.mp hj).2
    have h2 := (mem_loadedFrom.mp hmem).2
    exact Option.some.inj (h1.symm.trans h2)
  exact HashOrder.find_startingAt hmem honly hh

/-- The packed answer of a fresh store does not depend on the iteration order exactly when
all packs that list the hash agree on it. -/
theorem packed_iff :
    (∀ order, peek (s.getBlobPacked c order h) t = .ok d) ↔
      s.Loadable (s.view t) ∧ (∃ p, s.Lists (s.view t) p h) ∧
        ∀ p, s.Lists (s.view t) p h → recordAt c (s.view t) p h = some d := by
  simp only [getBlobPacked_eq_ok]
  constructor
  · intro hall
    obtain ⟨hload, ps, hps, q, o, hfind, -⟩ := hall .inserted
    refine ⟨hload, ⟨q, (s.find_loaded (h := h) .inserted hps).1 q o hfind⟩, fun p hp => ?_⟩
    obtain ⟨-, ps', hps', q', o', hfind', hrec⟩ := hall (.startingAt p)
    obtain ⟨o'', hfirst⟩ := s.find_listed hps' hp
    rw [hfirst] at hfind'
    obtain ⟨rfl, -⟩ := Prod.mk.inj (Option.some.inj hfind')
    exact hrec
  · rintro ⟨hload, ⟨p, hp⟩, hrec⟩ order
    obtain ⟨ps, hps, -⟩ := (s.peek_loadAll order).1 hload
    have hfound := s.find_loaded (h := h) order hps
    refine ⟨hload, ps, hps, ?_⟩
    cases hfind : (PackCache.mk (order.arrange (loadedFrom t.node ps))).find h with
    | none => exact absurd hp (hfound.2 hfind p)
    | some e => exact ⟨e.1, e.2, rfl, hrec e.1 (hfound.1 e.1 e.2 hfind)⟩

/-- The packs can answer with these bytes: all indices load, and a record of the hash has them. -/
def PacksHold (c : Crates) (s : BlobStore) (v : Nodes) (h : Hash) (d : Bytes) : Prop :=
  s.Loadable v ∧ ∃ p, s.Lists v p h ∧ recordAt c v p h = some d

/-- The packs answer so in some order. -/
theorem packsHold_iff : (∃ order, peek (s.getBlobPacked c order h) t = .ok d) ↔
    s.PacksHold c (s.view t) h d := by
  simp only [getBlobPacked_eq_ok]
  constructor
  · rintro ⟨order, hload, ps, hps, p, o, hfind, hrec⟩
    exact ⟨hload, p, (s.find_loaded (h := h) order hps).1 p o hfind, hrec⟩
  · rintro ⟨hload, p, hp, hrec⟩
    obtain ⟨ps, hps, -⟩ := (s.peek_loadAll .inserted).1 hload
    obtain ⟨o, hfirst⟩ := s.find_listed hps hp
    exact ⟨.startingAt p, hload, ps, hps, p, o, hfirst, hrec⟩

/-- When a freshly opened store returns `d` for `h`. -/
theorem reads_iff : s.Reads c t h d ↔ s.ReadsBack c (s.view t) h d := by
  unfold Reads ReadsBack
  simp only [fresh_getBlob, peek_fetchBlob]
  cases hn : t.node (s.blobPath h) with
  | none =>
    have hex : t.exists (s.blobPath h) = false := (Tree.exists_eq_false s.blobPath_ne_nil).mpr hn
    have hraw : ∀ raw, bytesAt (s.view t) (s.blobPath h) ≠ some raw := by
      intro raw hraw
      rw [bytesAt_congr (s.view_blobPath t h), bytesAt_eq_some, hn] at hraw
      cases hraw
    simp only [hex, Bool.false_eq_true, if_false, peek_fetchPacked, packed_iff, view_blobPath, hn,
      true_and]
    constructor
    · exact Or.inr
    · rintro (⟨raw, hr, -⟩ | hp)
      · exact absurd hr (hraw raw)
      · exact hp
  | some n =>
    have hex : t.exists (s.blobPath h) = true := by simp [Tree.exists, hn]
    simp only [hex, if_true, peek_fetchLoose, view_blobPath, hn, reduceCtorEq, false_and, or_false]
    rw [bytesAt_congr (s.view_blobPath t h), bytesAt_node]
    constructor
    · intro hall
      exact hall .inserted
    · intro hr _
      exact hr

end BlobStore

end CasKit
