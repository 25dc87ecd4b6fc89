import CasKit.Dedup
import CasKit.Exact
import CasKit.Lib.Tiers
import CasKit.Salvage

/-!
# The store as two tiers

Completed calls on one handle do to the loose files, and to what packs list, what the operations
of a store with two tiers do. A handle that is opened afterwards finds what the two tiers hold.
-/
namespace CasKit
open Effects Files Codec

namespace BlobStore

/-- The hash that a put stores under. -/
def PutCall.address (c : Crates) : PutCall → Hash
  | putBlob data => hashBytes c data
  | putBlobNew data => hashBytes c data
  | putBlobWithHash _ expectedHash => expectedHash

/-- The operation that a call carries out, if any. -/
def StoreCall.op (c : Crates) : StoreCall → Option (Tiers.Op Hash)
  | put call => some (.put (call.address c))
  | getBlob _ _ => none
  | hasBlob _ _ => none
  | deleteBlob hash => some (.delete hash)
  | repack _ threshold => some (.bundle threshold)
  | sweep live options =>
    if options.mode = .dryRun then none else some (.sweep live options.rewritePartialPacks)

/-- The tiers are the loose files and what packs list. -/
structure Models (s : BlobStore) (v : Nodes) (T : Tiers.Store Hash) : Prop where
  loose : ∀ h, h ∈ T.loose ↔ s.IsLoose v h
  packed : ∀ h, h ∈ T.packed ↔ ∃ p, s.Lists v p h

/-- The call does what it is for: a put returns or finds its file, a repack and a sweep return,
and what they pack fits the format. -/
def StoreCall.Completes (c : Crates) (s : BlobStore) (B : Set Bytes) (w : World) :
    StoreCall → Prop
  | put call => call.bytes ∈ B ∧ ((run (call.action c s) w).1 = .ok () ∨
      w.disk.exists (s.blobPath (call.address c)) = true)
  | getBlob _ _ => True
  | hasBlob _ _ => True
  | deleteBlob _ => True
  | repack order threshold => RepackFits c s B order w ∧
      (run (s.repack c order threshold) w).1.isOk = true
  | sweep live options => SweepFits c s B live options w.disk ∧
      (run (Gc.sweep c s live options) w).1.isOk = true

end BlobStore

/-- A handle between completed calls. -/
structure Ready (c : Crates) (s : BlobStore) (B : Set Bytes) (w : World) : Prop where
  sound : Sound c s B w
  tidy : Tidy c s (s.view w.disk)

section Loose
variable {c : Crates} {s : BlobStore} {B : Set Bytes} {w w' : World} {h k : Hash} {v u : Nodes}
  {T : Tiers.Store Hash} {t : Tree}

theorem isLoose_iff_file : s.IsLoose (s.view t) h ↔ (t.file (s.blobPath h)).isSome := by
  simp [BlobStore.IsLoose, ← Tree.file_eq_some, Option.isSome_iff_exists]

/-- Whatever is at the path of a hash is its file. -/
theorem Tidy.isLoose_iff_exists (ht : Tidy c s (s.view t)) :
    s.IsLoose (s.view t) h ↔ t.exists (s.blobPath h) = true := by
  have hdir := ht.files h
  rw [s.view_blobPath] at hdir
  cases hnode : t.node (s.blobPath h) with
  | none =>
    have hex := (Tree.exists_eq_false s.blobPath_ne_nil).mpr hnode
    simp [BlobStore.IsLoose, hnode, hex]
  | some n =>
    cases n with
    | dir => exact absurd hnode hdir
    | file b =>
      have hex := Tree.exists_of_file (Tree.file_eq_some.mpr hnode)
      simp [BlobStore.IsLoose, hnode, hex]

/-- A change of a loose file leaves the packs as they are. -/
theorem samePacks_of_loose (hsame : ∀ q, q ≠ s.blobPath h → u q = v q) : s.SamePacks v u where
  dir := hsame _ (s.blobPath_ne_packDir h).symm
  files name := hsame _ (s.blobPath_ne_packFile h name).symm

theorem BlobStore.Models.packed_of_same (hT : s.Models v T) (hpacks : s.SamePacks v u) (k : Hash) :
    k ∈ T.packed ↔ ∃ p, s.Lists u p k := by
  simp only [hpacks.lists_iff]
  exact hT.packed k

end Loose

/-! ## Puts -/

section Puts
variable {c : Crates} {s : BlobStore} {B : Set Bytes} {w w' : World} {T : Tiers.Store Hash}
  {call : BlobStore.PutCall}

/-- A put that finds its file only looks. -/
theorem run_action_existing (hex : w.disk.exists (s.blobPath (call.address c)) = true) :
    (run (call.action c s) w).2 = w := by
  cases call with
  | putBlob data =>
    have hrun := (BlobStore.run_puts_existing (c := c) (s := s) hex rfl).1
    exact congrArg Prod.snd (run_bind_ok hrun)
  | putBlobNew data =>
    have hrun := (BlobStore.run_puts_existing (c := c) (s := s) hex rfl).2.2
    exact congrArg Prod.snd (run_bind_error hrun)
  | putBlobWithHash data expectedHash =>
    have hrun : run (s.putBlobWithHash c data expectedHash) w =
        run (if w.disk.exists (s.blobPath expectedHash) then .ret () else
          (Prog.ofExcept (verifyHash c data expectedHash) >>= fun _ =>
            s.writeBlob c (s.blobPath expectedHash) data) : Action CasError Unit) w := rfl
    have hex' : w.disk.exists (s.blobPath expectedHash) = true := hex
    rw [BlobStore.PutCall.action, hrun, hex']
    rfl

/-- A put that does not find its file writes it, if it returns. -/
theorem run_action_missing (hex : w.disk.exists (s.blobPath (call.address c)) = false)
    (hrun : run (call.action c s) w = (.ok (), w')) : ∃ raw, ∀ q,
      w'.disk.file q = if q = s.blobPath (call.address c) then some raw else w.disk.file q := by
  have hwrite : ∀ {data : Bytes} {h : Hash} {u : World},
      run (s.writeBlob c (s.blobPath h) data) w = (.ok (), u) →
      ∃ raw, ∀ q, u.disk.file q = if q = s.blobPath h then some raw else w.disk.file q := by
    intro data h u hok
    obtain ⟨raw, -, hfiles⟩ := (BlobStore.run_writeBlob (s.blobPath h)).1 u hok
    exact ⟨raw, hfiles⟩
  cases call with
  | putBlob data =>
    obtain ⟨a, u, hput, hlast⟩ := run_bind_eq_ok hrun
    obtain ⟨-, rfl⟩ := Prod.mk.inj hlast
    have hstart : run (s.putBlob c data) w = run (if w.disk.exists (s.blobPath (hashBytes c data))
        then .ret (hashBytes c data) else (s.writeBlob c (s.blobPath (hashBytes c data)) data >>=
          fun _ => .ret (hashBytes c data)) : Action CasError Hash) w := rfl
    have hex' : w.disk.exists (s.blobPath (hashBytes c data)) = false := hex
    rw [hstart, hex', if_neg Bool.false_ne_true] at hput
    obtain ⟨_, x, hok, hlast⟩ := run_bind_eq_ok hput
    obtain ⟨-, rfl⟩ := Prod.mk.inj hlast
    exact hwrite hok
  | putBlobNew data =>
    obtain ⟨a, u, hput, hlast⟩ := run_bind_eq_ok hrun
    obtain ⟨-, rfl⟩ := Prod.mk.inj hlast
    have hstart : run (s.putBlobNew c data) w = run
        (if w.disk.exists (s.blobPath (hashBytes c data))
          then .throw (.alreadyExists (hashBytes c data).toHex)
          else (s.writeBlob c (s.blobPath (hashBytes c data)) data >>=
            fun _ => .ret (hashBytes c data)) : Action CasError Hash) w := rfl
    have hex' : w.disk.exists (s.blobPath (hashBytes c data)) = false := hex
    rw [hstart, hex', if_neg Bool.false_ne_true] at hput
    obtain ⟨_, x, hok, hlast⟩ := run_bind_eq_ok hput
    obtain ⟨-, rfl⟩ := Prod.mk.inj hlast
    exact hwrite hok
  | putBlobWithHash data expectedHash =>
    have hstart : run (s.putBlobWithHash c data expectedHash) w =
        run (if w.disk.exists (s.blobPath expectedHash) then .ret () else
          (Prog.ofExcept (verifyHash c data expectedHash) >>= fun _ =>
            s.writeBlob c (s.blobPath expectedHash) data) : Action CasError Unit) w := rfl
    have hex' : w.disk.exists (s.blobPath expectedHash) = false := hex
    rw [BlobStore.PutCall.action, hstart, hex', if_neg Bool.false_ne_true] at hrun
    obtain ⟨_, x, hverify, hok⟩ := run_bind_eq_ok hrun
    obtain rfl : x = w := by
      cases hcheck : verifyHash c data expectedHash with
      | error e => simp [hcheck, run] at hverify
      | ok u =>
        rw [hcheck] at hverify
        exact (Prod.mk.inj hverify).2.symm
    exact hwrite hok

theorem Ready.put (hinj : Set.InjOn (hashBytes c) B) (hw : Ready c s B w)
    (hT : s.Models (s.view w.disk) T) (hdata : call.bytes ∈ B)
    (hcall : (run (call.action c s) w).1 = .ok () ∨
      w.disk.exists (s.blobPath (call.address c)) = true) :
    Ready c s B (run (call.action c s) w).2 ∧
      s.Models (s.view (run (call.action c s) w).2.disk) ⟨insert (call.address c) T.loose, T.packed⟩ := by
  cases hex : w.disk.exists (s.blobPath (call.address c)) with
  | true =>
    rw [run_action_existing hex]
    have hthere := hw.tidy.isLoose_iff_exists.mpr hex
    refine ⟨hw, ⟨fun h => ?_, hT.packed⟩⟩
    rw [Finset.mem_insert, hT.loose]
    exact ⟨fun h => h.elim (fun heq => heq ▸ hthere) id, .inr⟩
  | false =>
    have hok : run (call.action c s) w = (.ok (), (run (call.action c s) w).2) :=
      Prod.ext (hcall.resolve_right (by simp [hex])) rfl
    have hlasts := hw.sound.put hinj hdata
    obtain ⟨raw, hfiles⟩ := run_action_missing hex hok
    obtain ⟨n, hn⟩ := Prog.exists_cut_eq_exec answer (call.action c s) w
    have hpacks := (BlobStore.put_moment (c := c) (s := s) (w := w) call n).1
    rw [show cutOff n (call.action c s) w = (run (call.action c s) w).2 from hn] at hpacks
    refine ⟨⟨⟨hlasts.last.stocked, hlasts.at_end⟩, hw.tidy.put hok⟩,
      ⟨fun h => ?_, hT.packed_of_same hpacks⟩⟩
    rw [Finset.mem_insert, hT.loose, isLoose_iff_file, isLoose_iff_file, hfiles]
    by_cases heq : h = call.address c
    · simp [heq]
    · simp [heq, s.blobPath_injective.eq_iff]

end Puts

/-! ## Deletes -/

section Deletes
variable {c : Crates} {s : BlobStore} {B : Set Bytes} {w : World} {T : Tiers.Store Hash} {h : Hash}

/-- A delete drops the file of the hash, or there is none. -/
theorem run_deleteBlob (hfile : s.view w.disk (s.blobPath h) ≠ some .dir) :
    s.view (run (s.deleteBlob h) w).2.disk = (Change.drop (s.blobPath h)).apply (s.view w.disk) ∧
      (run (s.deleteBlob h) w).2.caches = w.caches := by
  have hrun : run (s.deleteBlob h) w =
      (((w.update (w.disk.removeFile (s.blobPath h))).1).mapError fun e =>
        if e = .notFound then .blobNotFound h.toHex else .io e,
        (w.update (w.disk.removeFile (s.blobPath h))).2) := by
    rw [BlobStore.deleteBlob, run_mapErr, run_removeFile]
  rw [hrun]
  cases hremove : w.disk.removeFile (s.blobPath h) with
  | error e =>
    have hnone : w.disk.node (s.blobPath h) = none := by
      rw [s.view_blobPath] at hfile
      simp only [Tree.removeFile, s.blobPath_ne_nil, hfile, dite_false] at hremove
      by_contra hsome
      simp [hsome] at hremove
    refine ⟨?_, rfl⟩
    funext q
    by_cases hq : q = s.blobPath h
    · simp [World.update, Change.apply, hq, hnone]
    · simp [World.update, Change.apply, hq]
  | ok t =>
    refine ⟨?_, rfl⟩
    funext q
    by_cases hq : q = s.blobPath h
    · simp [World.update, Change.apply, hq, Tree.node_removeFile hremove]
    · by_cases hpre : s.objectsDir <+: q
      · simp [World.update, Change.apply, hq, s.view_of_prefix hpre, Tree.node_removeFile hremove]
      · simp [Change.apply, hq, BlobStore.view, hpre]

theorem Ready.delete (hw : Ready c s B w) (hT : s.Models (s.view w.disk) T) :
    Ready c s B (run (s.deleteBlob h) w).2 ∧
      s.Models (s.view (run (s.deleteBlob h) w).2.disk) ⟨T.loose.erase h, T.packed⟩ := by
  obtain ⟨hview, hcaches⟩ := run_deleteBlob (hw.tidy.files h)
  have hother : ∀ q, q ≠ s.blobPath h →
      (Change.drop (s.blobPath h)).apply (s.view w.disk) q = s.view w.disk q :=
    fun q hq => by simp [Change.apply, hq]
  refine ⟨⟨⟨?_, hcaches ▸ hw.sound.caches⟩, ?_⟩, ⟨fun k => ?_, fun k => ?_⟩⟩
  · rw [hview]
    exact hw.sound.stocked.apply (show (Change.drop (s.blobPath h)).Lawful c s B from trivial)
  · rw [hview]
    exact hw.tidy.dropLoose
  · rw [hview, Finset.mem_erase, hT.loose]
    by_cases heq : k = h
    · simp [heq, BlobStore.IsLoose, Change.apply]
    · simp [heq, BlobStore.IsLoose, Change.apply, s.blobPath_injective.eq_iff]
  · rw [hview]
    exact hT.packed_of_same (samePacks_of_loose hother) k

end Deletes

/-! ## Repacks -/

section Repacks
variable {c : Crates} {s : BlobStore} {B : Set Bytes} {w w' : World} {T : Tiers.Store Hash}
  {order : HashOrder} {threshold n : ℕ} {t : Tree}

/-- A store in order lists each loose file once. -/
theorem Tidy.looseOn (ht : Tidy c s (s.view t)) : peek s.listBlobs t = .ok (s.looseOn t) ∧
    (s.looseOn t).Nodup ∧ ∀ h, h ∈ s.looseOn t ↔ s.IsLoose (s.view t) h := by
  have hdir : t.file s.objectsDir = none := by
    rw [← ht.dirs.1, bytesAt_congr (s.view_of_prefix List.prefix_rfl), bytesAt_node]
  have hown : s.AtOwnPath t := by
    intro bucket name b h hbucket hfile hparse
    refine ht.layout.loose bucket name b h hbucket ?_ hparse
    rw [s.view_objectsDir_append]
    exact Tree.file_eq_some.mp hfile
  have hnodup := (s.listed_iff_atOwnPath.mpr hown).1
  have hlist := s.peek_listBlobs hdir
  have heq : s.looseOn t = ((s.twoDown t).filterMap glued).insertionSort (· ≤ ·) := by
    simp [BlobStore.looseOn, hlist, Except.toOption]
  refine ⟨heq ▸ hlist, ?_, fun h => ?_⟩
  · rw [heq]
    exact (List.perm_insertionSort _ _).nodup_iff.mpr hnodup
  · rw [s.mem_looseOn hdir, ht.layout.namedLoose_iff]

theorem BlobStore.Models.card_loose (hT : s.Models (s.view t) T) (ht : Tidy c s (s.view t)) :
    T.loose.card = (s.looseOn t).length := by
  obtain ⟨-, hnodup, hmem⟩ := ht.looseOn
  rw [← List.toFinset_card_of_nodup hnodup]
  congr 1
  ext h
  simp [hT.loose, hmem]

/-- All that was loose is in the pack that a repack writes, next to the other packs. -/
theorem Repacked.models {v u : Nodes} {hashes : List Hash} {objects : List (Hash × Bytes)}
    {packData : Bytes} {entries : List PackIndexEntry} (hinj : Set.InjOn (hashBytes c) B)
    (hv : Stocked c s B v) (hu : Stocked c s B u)
    (hrep : BlobStore.Repacked c s v hashes objects packData entries u)
    (hkeys : objects.map Prod.fst = hashes) (hcount : objects.length < 2 ^ 32)
    (hhashes : ∀ h, h ∈ hashes ↔ s.IsLoose v h) (hT : s.Models v T) :
    s.Models u ⟨∅, T.loose ∪ T.packed⟩ := by
  let new := PackFile.packPath c s.packDir (serializeIndex entries)
  have hnew : ∀ h, s.Lists u new h ↔ h ∈ hashes := by
    intro h
    rw [hrep.written.lists_iff, Nat.mod_eq_of_lt hcount, List.take_of_length_le (by simp), hkeys]
  have hother : ∀ p h, p ≠ new → (s.Lists u p h ↔ s.Lists v p h) :=
    fun p h hne => hrep.pair.lists_iff hne
  constructor
  · intro h
    simp only [Finset.notMem_empty, false_iff]
    rintro ⟨b, hb⟩
    by_cases hh : h ∈ hashes
    · simp [hrep.gone h hh] at hb
    · exact hh ((hhashes h).mpr ⟨b, hrep.kept h hh ▸ hb⟩)
  · intro h
    rw [Finset.mem_union, hT.loose, hT.packed, ← hhashes]
    constructor
    · rintro (hh | ⟨p, hp⟩)
      · exact ⟨new, (hnew h).mpr hh⟩
      · by_cases hne : p = new
        · refine ⟨p, hv.lists_of_isSome hinj hu hp ?_ ?_⟩
          · simp [hne, new, bytesAt_eq_some.mp hrep.written.pack]
          · simp [hne, new, idxOf_packPath, bytesAt_eq_some.mp hrep.written.idx]
        · exact ⟨p, (hother p h hne).mpr hp⟩
    · rintro ⟨p, hp⟩
      by_cases hne : p = new
      · exact .inl ((hnew h).mp (hne ▸ hp))
      · exact .inr ⟨p, (hother p h hne).mp hp⟩

theorem Ready.repack (hz : ZstdSound c) (hinj : Set.InjOn (hashBytes c) B) (hw : Ready c s B w)
    (hT : s.Models (s.view w.disk) T) (hfits : RepackFits c s B order w)
    (hrun : run (s.repack c order threshold) w = (.ok n, w')) :
    Ready c s B w' ∧ ∃ U, s.Models (s.view w'.disk) U ∧ Tiers.Step T (.bundle threshold) U := by
  obtain rfl : w' = (run (s.repack c order threshold) w).2 := by rw [hrun]
  have hlasts : Lasts c s B (s.repack c order threshold) w := hw.sound.repack hz hinj hfits
  have hready : Ready c s B (run (s.repack c order threshold) w).2 :=
    ⟨⟨hlasts.last.stocked, hlasts.at_end⟩, hw.tidy.repack hrun⟩
  obtain ⟨hlist, -, hmem⟩ := hw.tidy.looseOn
  have hcard := hT.card_loose hw.tidy
  -- what is read, if the reading loop succeeds
  obtain ⟨objects, hobjects⟩ : ∃ objects, ∀ found,
      (run ((s.looseOn w.disk).foldlM (s.readObject c order) []) w).1 = .ok found →
        found = objects := by
    cases (run ((s.looseOn w.disk).foldlM (s.readObject c order) []) w).1 with
    | error e => exact ⟨[], fun found hf => by cases hf⟩
    | ok objects => exact ⟨objects, fun found hf => (Except.ok.inj hf).symm⟩
  have hperf := @BlobStore.performs_repack c s w order _ objects threshold hlist hobjects
    fun _ h _ => hw.tidy.files h
  obtain ⟨hview, hcreated⟩ := hperf.at_ok hrun
  refine ⟨hready, ?_⟩
  by_cases hle : (s.looseOn w.disk).length ≤ threshold
  · simp only [hle, if_true] at hview
    refine ⟨T, ?_, .few T (hcard ▸ hle)⟩
    rw [hview]
    exact hT
  · simp only [hle, if_false] at hview
    obtain ⟨hread, r, packData, entries, hpacked, -⟩ := hcreated (by omega)
    have hu := @BlobStore.repacked_changed _ s (s.view w.disk) (s.looseOn w.disk) _ _ _ hpacked
    rw [changed, ← hview] at hu
    have hkeys := ((hw.sound.readAll hz hinj order (s.looseOn w.disk)).at_end.2
      objects hread).1
    exact ⟨_, Repacked.models hinj hw.sound.stocked hready.sound.stocked hu hkeys
      (hfits objects hread).count hmem hT, .bundle T (by omega)⟩

end Repacks

/-! ## Sweeps -/

section Sweeps
variable {c : Crates} {s : BlobStore} {B : Set Bytes} {w w' : World} {T : Tiers.Store Hash}
  {live : Finset Hash} {options : Gc.SweepOptions} {report : Gc.SweepReport} {t : Tree}
  {u : Nodes}

/-- The packs that a sweep writes are made of what is filed. -/
theorem Stocked.replacement (hz : ZstdSound c) (hinj : Set.InjOn (hashBytes c) B)
    (hv : Stocked c s B (s.view t)) {plan : Gc.SweepPlan}
    (hplan : peek (Gc.planSweep s live) t = .ok plan) (hfits : SweepFits c s B live options t)
    {r : Gc.PackRewrite} {objects : List (Hash × Bytes)} {packData : Bytes}
    {entries : List PackIndexEntry}
    (hrep : Gc.Replacement c s (s.view t) live options r objects packData entries) :
    Bundle c s B objects packData entries := by
  have hr := (Gc.planned hplan).mem_rewrites.mpr hrep.rewrites
  refine (hfits plan hplan r hr objects hrep.kept).bundle hrep.packed fun o ho => ?_
  obtain ⟨h, hh⟩ := List.exists_mem_of_ne_nil _ hrep.rewrites.ne_nil
  have hname := ((hrep.rewrites.keep h).mp hh).lists.1.1
  exact hv.filed_of_recordAt hz hinj hname ((Gc.mem_keptObjects hrep.kept).2 o ho)

theorem Stocked.indexBytes (hz : ZstdSound c) (hinj : Set.InjOn (hashBytes c) B)
    (hv : Stocked c s B (s.view t)) {plan : Gc.SweepPlan}
    (hplan : peek (Gc.planSweep s live) t = .ok plan) (hfits : SweepFits c s B live options t) :
    Gc.indexBytes c s (s.view t) live options ⊆ B := by
  rintro b (⟨p, ⟨⟨hname, hsome⟩, hidx⟩, hb⟩ | hput)
  · obtain ⟨data, hdata⟩ := hv.file_of_isSome hname.length.ge hsome
    have hi := bytesAt_eq_some.mp hb
    obtain ⟨objects, entries, hbundle, hw, rfl⟩ := hv.written hinj hname hdata hi
    rw [idxOf_packPath, hw.idx] at hb
    exact Option.some.inj hb ▸ hbundle.mem
  · obtain ⟨r, objects, packData, entries, hrep, ⟨hq, -⟩ | ⟨-, rfl⟩⟩ := Gc.replaces_cases hput
    · exact absurd hq.symm (packPath_ne_idxPath c s _ _)
    · exact (hv.replacement hz hinj hplan hfits hrep).mem

/-- What a finished sweep leaves of the two tiers. -/
theorem Done.models (hz : ZstdSound c) (ht : Tidy c s (s.view t))
    (hsep : Gc.Separate c s (s.view t) live options)
    (hu : Gc.Done c s (s.view t) live options (s.view w'.disk)) (hT : s.Models (s.view t) T) :
    ∃ U, s.Models (s.view w'.disk) U ∧
      Tiers.Step T (.sweep live options.rewritePartialPacks) U := by
  classical
  have hclash : Gc.NoClash c s (s.view t) live options := ht.noClash
  have hlists : ∀ h, (∃ p, s.Lists (s.view w'.disk) p h) → h ∈ T.packed := by
    intro h hh
    rw [hT.packed]
    rcases (hu.exists_lists_iff ht.layout hsep hz).mp hh with
      ⟨p, hp, -⟩ | ⟨r, objects, packData, entries, hrep, hkeep, -⟩
    · exact ⟨p, hp⟩
    · exact ⟨r.pack, ((hrep.rewrites.keep h).mp hkeep).lists⟩
  have hlive : options.rewritePartialPacks = true → ∀ h,
      (∃ p, s.Lists (s.view w'.disk) p h) → h ∈ live := fun hopt h hh =>
    ((hu.present_iff hsep hz rfl rfl ht.layout hopt hclash).mp (.inr hh)).1
  refine ⟨⟨T.loose ∩ live, T.packed.filter fun h => ∃ p, s.Lists (s.view w'.disk) p h⟩,
    ⟨fun h => ?_, fun h => ?_⟩, .sweep T (Finset.filter_subset _ _) (fun h hh => ?_) fun hopt h hh => ?_⟩
  · rw [hu.isLoose_iff, ht.layout.namedLoose_iff, Finset.mem_inter, hT.loose]
    tauto
  · rw [Finset.mem_filter]
    exact ⟨And.right, fun hh => ⟨hlists h hh, hh⟩⟩
  · obtain ⟨hpacked, hh⟩ := Finset.mem_inter.mp hh
    obtain ⟨p, hp⟩ := (hT.packed h).mp hpacked
    rw [Finset.mem_union, hT.loose, Finset.mem_filter]
    by_cases hloose : s.IsLoose (s.view t) h
    · exact .inl hloose
    · refine .inr ⟨hpacked, hu.partly.exists_lists ht.layout
        (Gc.fresh_of_noClash hsep hclash) rfl hh hp ?_⟩
      rwa [ht.layout.namedLoose_iff]
  · exact hlive hopt h (Finset.mem_filter.mp hh).2

/-- The packs that a sweep writes have names of their own. -/
theorem Ready.separate (hz : ZstdSound c) (hinj : Set.InjOn (hashBytes c) B) (hw : Ready c s B w)
    {plan : Gc.SweepPlan} (hplan : peek (Gc.planSweep s live) w.disk = .ok plan)
    (hfits : SweepFits c s B live options w.disk) :
    Gc.Separate c s (s.view w.disk) live options := by
  have hindex := hw.sound.stocked.indexBytes hz hinj hplan hfits
  exact Gc.separate_of_canonical (hinj.mono hindex) hw.tidy.canonical

theorem Ready.sweep (hz : ZstdSound c) (hinj : Set.InjOn (hashBytes c) B) (hw : Ready c s B w)
    (hT : s.Models (s.view w.disk) T) (hfits : SweepFits c s B live options w.disk)
    (hrun : run (Gc.sweep c s live options) w = (.ok report, w')) :
    Ready c s B w' ∧ ∃ U, s.Models (s.view w'.disk) U ∧
      if options.mode = .dryRun then U = T
      else Tiers.Step T (.sweep live options.rewritePartialPacks) U := by
  obtain ⟨plan, hplan⟩ : ∃ plan, peek (Gc.planSweep s live) w.disk = .ok plan := by
    obtain ⟨plan, u, hplan, -⟩ := run_bind_eq_ok hrun
    rw [run_of_reads Gc.planSweep_reads] at hplan
    exact ⟨plan, (Prod.mk.inj hplan).1⟩
  have hsep := hw.separate hz hinj hplan hfits
  obtain ⟨hdry, hdone⟩ := Gc.sweep_done hsep hrun
  by_cases hmode : options.mode = .dryRun
  · obtain rfl := (Gc.run_sweep_executed hrun).1 hmode
    exact ⟨hw, T, hT, by simp [hmode]⟩
  have hu := hdone hmode
  obtain ⟨U, hU, hstep⟩ := Done.models hz hw.tidy hsep hu hT
  refine ⟨⟨⟨?_, ?_⟩, hw.tidy.done hsep hu⟩, U, hU, by simpa [hmode] using hstep⟩
  · have hplanned := Gc.planned hplan
    obtain ⟨hview, -⟩ := (Gc.performs_sweep hplan (hsep.toApart hplanned)).at_ok hrun
    rw [if_neg hmode] at hview
    rw [hview]
    refine hw.sound.stocked.changed fun ch hch => ?_
    rw [Gc.sweepChanges, List.mem_append, hplanned.mem_sweepPuts] at hch
    rcases hch with hput | hdrop
    · obtain ⟨q, b, rfl⟩ := Gc.replaces_put hput
      obtain ⟨r, objects, packData, entries, hrep, ⟨rfl, rfl⟩ | ⟨rfl, rfl⟩⟩ :=
        Gc.replaces_cases hput
      · exact .pack (hw.sound.stocked.replacement hz hinj hplan hfits hrep)
      · exact .idx (hw.sound.stocked.replacement hz hinj hplan hfits hrep)
    · split_ifs at hdrop
      · obtain ⟨q, -, rfl⟩ := List.mem_map.mp hdrop
        trivial
      · simp at hdrop
  · obtain ⟨hblobs, hpacks, -⟩ := Gc.run_sweep_caches (c := c) (s := s) (w := w) live options
    rw [hrun] at hblobs hpacks
    refine ⟨fun e he => hw.sound.caches.blobs e (hblobs ▸ he), fun pc hpc => ?_⟩
    rcases hpacks with hsame | hnone
    · exact hw.sound.caches.packs pc (hsame ▸ hpc)
    · cases hnone.symm.trans hpc

end Sweeps

/-! ## Sessions -/

/-- What a freshly opened handle finds in the store. -/
structure Serves (c : Crates) (s : BlobStore) (B : Set Bytes) (t : Tree) (T : Tiers.Store Hash) :
    Prop where
  listed : (run s.listBlobs ⟨t, .empty⟩).1 = .ok T.loose.sort
  present : ∀ order h, (run (s.hasBlob order h) ⟨t, .empty⟩).1 = .ok (decide (h ∈ T.all))
  missing : ∀ order h, h ∉ T.all →
    (run (s.getBlob c order h) ⟨t, .empty⟩).1 = .error (.blobNotFound h.toHex)
  reads : ∀ h d, h ∈ T.all → Filed c s B h d → hashBytes c d = h →
    d.length ≤ maxDecompressedSize → s.Reads c t h d

section Sessions
variable {c : Crates} {s : BlobStore} {B : Set Bytes} {w : World} {T : Tiers.Store Hash}
  {h : Hash} {d : Bytes} {t : Tree}

/-- A fresh handle on a store whose packs do not list the hash, which has no loose file either. -/
theorem getBlob_missing {order : HashOrder} (hload : s.Loadable (s.view t))
    (hex : t.exists (s.blobPath h) = false) (hno : ¬ ∃ p, s.Lists (s.view t) p h) :
    (run (s.getBlob c order h) ⟨t, .empty⟩).1 = .error (.blobNotFound h.toHex) := by
  obtain ⟨cache, hcache, hmem⟩ := s.loaded_hashes order hload
  have hfind : (cache.find h).map Prod.fst = none := by
    have hnot : ¬ (cache.find h).isSome := fun hsome =>
      hno ((hmem h).mp (PackCache.find_isSome.mp hsome))
    simpa using hnot
  have hpacked : peek (s.getBlobPacked c order h) t = .error (.blobNotFound h.toHex) := by
    simp [s.peek_getBlobPacked, hcache, hfind]
  rw [s.fresh_getBlob, s.peek_fetchBlob, hex, if_neg Bool.false_ne_true, peek,
    s.run_fetchPacked, show (run (s.getBlobPacked c order h) ⟨t, .empty⟩).1 = _ from hpacked]

theorem Ready.serves (hz : ZstdSound c) (hinj : Set.InjOn (hashBytes c) B)
    (hw : Ready c s B ⟨t, .empty⟩) (hT : s.Models (s.view t) T) : Serves c s B t T := by
  have hload := hw.tidy.loadable
  have hall : ∀ h, h ∈ T.all ↔ t.exists (s.blobPath h) = true ∨ ∃ p, s.Lists (s.view t) p h := by
    intro h
    rw [Tiers.Store.mem_all, hT.loose, hT.packed, hw.tidy.isLoose_iff_exists]
  constructor
  · obtain ⟨hlist, hnodup, hmem⟩ := hw.tidy.looseOn
    rw [run_of_reads s.listBlobs_reads, hlist]
    have hsorted : (s.looseOn t).Pairwise (· ≤ ·) := by
      have hdir : t.file s.objectsDir = none := (BlobStore.listBlobs_mem hlist).1
      rw [s.peek_listBlobs hdir] at hlist
      rw [← Except.ok.inj hlist]
      exact List.pairwise_insertionSort _ _
    have hset : T.loose = (s.looseOn t).toFinset := by
      ext h
      simp [hT.loose, hmem]
    rw [hset, List.toFinset_sort _ hnodup |>.mpr hsorted]
  · intro order h
    have hsees : s.Sees ⟨t, .empty⟩ h ↔ h ∈ T.all := by
      rw [hall]
      exact or_congr_right (and_iff_right hload)
    by_cases hh : h ∈ T.all
    · simpa [hh] using (s.hasBlob_true order).mpr (hsees.mpr hh)
    · simpa [hh] using (s.hasBlob_false order).mpr (mt hsees.mp hh)
  · intro order h hh
    rw [hall, not_or] at hh
    exact getBlob_missing hload (by simpa using hh.1) hh.2
  · intro h d hh hd hhash hlen
    rw [Tiers.Store.mem_all, hT.loose, hT.packed] at hh
    exact s.reads_iff.mpr (hw.sound.stocked.readsBack_of_stored hz hinj ⟨hd, hh⟩ hhash hlen)

/-- One completed call is one operation, or none. -/
theorem Ready.call (hz : ZstdSound c) (hinj : Set.InjOn (hashBytes c) B) (hw : Ready c s B w)
    (hT : s.Models (s.view w.disk) T) {call : BlobStore.StoreCall} (hcall : call.Completes c s B w) :
    Ready c s B (call.after c s w) ∧ ∃ U, s.Models (s.view (call.after c s w).disk) U ∧
      match call.op c with
      | none => U = T
      | some op => Tiers.Step T op U := by
  have hlooks : ∀ {u : World}, Sound c s B u → u.disk = w.disk → Ready c s B u ∧
      ∃ U, s.Models (s.view u.disk) U ∧ U = T := by
    intro u hu hdisk
    exact ⟨⟨hu, hdisk ▸ hw.tidy⟩, T, hdisk ▸ hT, rfl⟩
  cases call with
  | put call =>
    obtain ⟨hready, hmodels⟩ := hw.put hinj hT hcall.1 hcall.2
    exact ⟨hready, _, hmodels, .put T _⟩
  | getBlob order hash =>
    obtain ⟨hsound, hdisk, -⟩ := hw.sound.getBlob hz hinj order hash
    exact hlooks hsound hdisk
  | hasBlob order hash =>
    have huses := (BlobStore.hasBlob_consults (s := s) order hash).mono fun _ ho => ho.looks
    exact hlooks (hw.sound.hasBlob hinj order hash)
      (huses.exec_eq (h := answer) World.disk (fun o u ho => answer_looks ho u) w)
  | deleteBlob hash =>
    obtain ⟨hready, hmodels⟩ := hw.delete (h := hash) hT
    exact ⟨hready, _, hmodels, .delete T hash⟩
  | repack order threshold =>
    obtain ⟨n, hrun⟩ := run_eq_ok _ w hcall.2
    exact hw.repack hz hinj hT hcall.1 hrun
  | sweep live options =>
    obtain ⟨report, hrun⟩ := run_eq_ok _ w hcall.2
    obtain ⟨hready, U, hU, hstep⟩ := hw.sweep hz hinj hT hcall.1 hrun
    refine ⟨hready, U, hU, ?_⟩
    by_cases hmode : options.mode = .dryRun
    · simpa [BlobStore.StoreCall.op, hmode] using hstep
    · simpa [BlobStore.StoreCall.op, hmode] using hstep

/-- Completed calls run their operations. -/
theorem Ready.session (hz : ZstdSound c) (hinj : Set.InjOn (hashBytes c) B)
    (hw : Ready c s B w) (hT : s.Models (s.view w.disk) T) (calls : List BlobStore.StoreCall)
    (hcalls : ∀ done call rest, calls = done ++ call :: rest →
      call.Completes c s B (BlobStore.session c s done w)) :
    Ready c s B (BlobStore.session c s calls w) ∧
      ∃ U, Tiers.Run T (calls.filterMap (BlobStore.StoreCall.op c)) U ∧
        s.Models (s.view (BlobStore.session c s calls w).disk) U := by
  induction calls using List.reverseRecOn with
  | nil => exact ⟨hw, T, .start, hT⟩
  | append_singleton calls call ih =>
    obtain ⟨hready, U, hpast, hU⟩ := ih fun done call' rest hsplit =>
      hcalls done call' (rest ++ [call]) (by simp [hsplit])
    obtain ⟨hready', V, hV, hstep⟩ := hready.call hz hinj hU (hcalls calls call [] rfl)
    rw [BlobStore.session_append]
    refine ⟨hready', V, ?_, hV⟩
    rw [List.filterMap_append]
    cases hop : call.op c with
    | none =>
      rw [hop] at hstep
      subst hstep
      simpa [hop] using hpast
    | some op =>
      rw [hop] at hstep
      simpa [hop] using hpast.step hstep

/-- The call takes no copy of the blob. -/
def BlobStore.StoreCall.Spares (h : Hash) : BlobStore.StoreCall → Prop
  | .deleteBlob hash => hash ≠ h
  | .sweep live options => options.mode ≠ .dryRun → h ∈ live
  | _ => True

/-- The call takes no copy of the blob, or all copies. -/
def BlobStore.StoreCall.Thorough (h : Hash) : BlobStore.StoreCall → Prop
  | .deleteBlob hash => hash ≠ h
  | .sweep live options => options.mode ≠ .dryRun → h ∈ live ∨ options.rewritePartialPacks = true
  | _ => True

theorem op_of_sweep {live : Finset Hash} {options : Gc.SweepOptions} {op : Tiers.Op Hash}
    (hop : (BlobStore.StoreCall.sweep live options).op c = some op) :
    options.mode ≠ .dryRun ∧ op = .sweep live options.rewritePartialPacks := by
  simp only [BlobStore.StoreCall.op] at hop
  split_ifs at hop with hmode
  exact ⟨hmode, (Option.some.inj hop).symm⟩

theorem BlobStore.StoreCall.Thorough.op {call : BlobStore.StoreCall} {op : Tiers.Op Hash}
    (hcall : call.Thorough h) (hop : call.op c = some op) : op.Thorough h := by
  cases call with
  | sweep live options =>
    obtain ⟨hmode, rfl⟩ := op_of_sweep hop
    exact hcall hmode
  | getBlob => simp [BlobStore.StoreCall.op] at hop
  | hasBlob => simp [BlobStore.StoreCall.op] at hop
  | _ =>
    simp only [BlobStore.StoreCall.op, Option.some.injEq] at hop
    subst hop
    exact hcall

/-- A new store holds nothing. -/
theorem models_empty (hnew : ∀ p, s.view t p = if p = s.objectsDir then some .dir else none) :
    s.Models (s.view t) .empty := by
  have hnone : ∀ p, s.objectsDir.length < p.length → s.view t p = none := by
    intro p hp
    rw [hnew, if_neg]
    rintro rfl
    exact hp.false
  constructor
  · intro h
    have := hnone (s.blobPath h) (by simp [s.blobPath_eq])
    simp [Tiers.Store.empty, BlobStore.IsLoose, this]
  · intro h
    simp only [Tiers.Store.empty, Finset.notMem_empty, false_iff]
    rintro ⟨p, hp⟩
    have := hnone p (by have := hp.1.1.length; omega)
    simpa [this] using hp.1.2

end Sessions

end CasKit
