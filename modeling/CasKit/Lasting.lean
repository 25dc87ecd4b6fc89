import CasKit.Stocked
import CasKit.Lib.History
import CasKit.Transparent

/-!
# What was stored lasts

Puts and repacks, each of which may be cut off between any two of its file operations, lose no
blob: whatever is loose is either still loose or in a pack that has both of its files.
-/
namespace CasKit
open Effects Files Codec

/-! ## Changes that keep a store stocked -/

/-- A change that writes only what the name of a file says, and makes no directory but the
buckets. -/
def Change.Lawful (c : Crates) (s : BlobStore) (B : Set Bytes) : Change → Prop
  | .put p b => Legal c s B p b
  | .drop _ => True
  | .mkdir p => p.length ≤ s.objectsDir.length + 1

section Changes
variable {c : Crates} {s : BlobStore} {B : Set Bytes} {h : Hash} {d : Bytes} {p q : Path}
  {v u x : Nodes} {ch : Change} {cs : List Change} {objects : List (Hash × Bytes)}
  {packData : Bytes} {entries : List PackIndexEntry}

theorem Stocked.apply (hv : Stocked c s B v) (hch : ch.Lawful c s B) :
    Stocked c s B (ch.apply v) := by
  cases ch with
  | put p b =>
    constructor
    · intro q b' hq
      by_cases heq : q = p
      · simp only [Change.apply, heq, if_true, Option.some.injEq, Node.file.injEq] at hq
        rw [heq, ← hq]
        exact hch
      · exact hv.files q b' (by simpa [Change.apply, heq] using hq)
    · intro q hq
      by_cases heq : q = p <;> simp only [Change.apply, heq, if_true, if_false] at hq
      · simp at hq
      · exact hv.dirs q hq
  | drop p =>
    constructor
    · intro q b' hq
      by_cases heq : q = p <;> simp only [Change.apply, heq, if_true, if_false] at hq
      · simp at hq
      · exact hv.files q b' hq
    · intro q hq
      by_cases heq : q = p <;> simp only [Change.apply, heq, if_true, if_false] at hq
      · simp at hq
      · exact hv.dirs q hq
  | mkdir p =>
    constructor
    · intro q b' hq
      by_cases heq : q = p ∧ v q = none
      · simp [Change.apply, if_pos heq] at hq
      · exact hv.files q b' (by simpa [Change.apply, if_neg heq] using hq)
    · intro q hq
      by_cases heq : q = p ∧ v q = none
      · rw [heq.1]
        exact hch
      · exact hv.dirs q (by simpa [Change.apply, if_neg heq] using hq)

theorem Stocked.changed (hv : Stocked c s B v) (hcs : ∀ ch ∈ cs, ch.Lawful c s B) :
    Stocked c s B (changed cs v) := by
  induction cs generalizing v with
  | nil => exact hv
  | cons ch cs ih =>
    simp only [List.forall_mem_cons] at hcs
    exact ih (hv.apply hcs.1) hcs.2

/-- What no change drops is still there. -/
theorem isSome_changed (hcs : ∀ ch ∈ cs, ch ≠ .drop q) (hq : (v q).isSome) :
    (CasKit.changed cs v q).isSome := by
  induction cs generalizing v with
  | nil => exact hq
  | cons ch cs ih =>
    simp only [List.forall_mem_cons] at hcs
    apply ih hcs.2
    cases ch with
    | put p b =>
      by_cases heq : q = p
      · simp [Change.apply, heq]
      · simpa [Change.apply, heq] using hq
    | drop p =>
      have hne : q ≠ p := fun heq => hcs.1 (by rw [heq])
      simpa [Change.apply, hne] using hq
    | mkdir p =>
      by_cases heq : q = p ∧ v q = none
      · simp [Change.apply, if_pos heq]
      · simpa [Change.apply, if_neg heq] using hq

/-- A pack stays one as long as both of its files are there. -/
theorem Stocked.lists_of_isSome (hinj : Set.InjOn (hashBytes c) B) (hv : Stocked c s B v)
    (hu : Stocked c s B u) (hl : s.Lists v p h) (hp : (u p).isSome) (hi : (u (idxOf p)).isSome) :
    s.Lists u p h := by
  obtain ⟨objects, packData, entries, hb, hw, hmem, rfl⟩ := hv.written_of_lists hinj hl
  rw [idxOf_packPath] at hi
  obtain ⟨b, hp⟩ := hu.file_of_isSome (isPackName_packPath c s _).length.ge hp
  obtain ⟨b', hi⟩ := hu.file_of_isSome
    (by rw [← idxOf_packPath]; exact (isPackName_packPath c s _).length_idxOf.ge) hi
  obtain rfl := (hu.files _ _ hp).unique hinj (.pack hb)
  obtain rfl := (hu.files _ _ hi).unique hinj (.idx hb)
  have hw' : Written c s objects b entries u :=
    ⟨hb.packed, bytesAt_eq_some.mpr hp, bytesAt_eq_some.mpr hi⟩
  rw [hw'.lists_iff, Nat.mod_eq_of_lt hb.count, List.take_of_length_le (by simp)]
  exact hmem

/-- The store is in order, and everything that was stored still is. -/
structure Keeps (c : Crates) (s : BlobStore) (B : Set Bytes) (v u : Nodes) : Prop where
  stocked : Stocked c s B u
  stored : ∀ h d, Stored c s B v h d → Stored c s B u h d
  packs : ∀ name, (v (s.packDir ++ [name])).isSome → (u (s.packDir ++ [name])).isSome

theorem Keeps.refl (hv : Stocked c s B v) : Keeps c s B v v :=
  ⟨hv, fun _ _ hd => hd, fun _ hp => hp⟩

theorem Keeps.trans (h : Keeps c s B v u) (h' : Keeps c s B u x) : Keeps c s B v x :=
  ⟨h'.stocked, fun k d hd => h'.stored k d (h.stored k d hd),
    fun name hp => h'.packs name (h.packs name hp)⟩

/-- Changes that drop nothing. -/
theorem keeps_changed (hinj : Set.InjOn (hashBytes c) B) (hv : Stocked c s B v)
    (hlawful : ∀ ch ∈ cs, ch.Lawful c s B) (hdrop : ∀ ch ∈ cs, ∀ q, ch ≠ .drop q) :
    Keeps c s B v (changed cs v) := by
  have hu := hv.changed hlawful
  have hsome : ∀ q, (v q).isSome → (changed cs v q).isSome := fun q hq =>
    isSome_changed (fun ch hch => hdrop ch hch q) hq
  refine ⟨hu, fun h d hd => ⟨hd.1, ?_⟩, fun name => hsome _⟩
  rcases hd.2 with ⟨b, hb⟩ | ⟨p, hl⟩
  · have hlen : s.objectsDir.length + 2 ≤ (s.blobPath h).length := by simp [s.blobPath_eq]
    exact .inl (hu.file_of_isSome hlen (hsome _ (by simp [hb])))
  · have hindexed := hl.indexed
    exact .inr ⟨p, hv.lists_of_isSome hinj hu hl (hsome _ hindexed.1.2) (hsome _ hindexed.2)⟩

/-- Dropping the loose file of a hash that a pack lists. -/
theorem keeps_drop (hinj : Set.InjOn (hashBytes c) B) (hv : Stocked c s B v)
    (hp : ∃ p, s.Lists v p h) : Keeps c s B v (changed [.drop (s.blobPath h)] v) ∧
      ∀ p k, s.Lists v p k → s.Lists (changed [.drop (s.blobPath h)] v) p k := by
  have hu : Stocked c s B (changed [.drop (s.blobPath h)] v) :=
    hv.changed fun ch hch => by rw [List.mem_singleton.mp hch]; trivial
  have hother : ∀ q, q ≠ s.blobPath h → changed [.drop (s.blobPath h)] v q = v q :=
    fun q hq => changed_of_forall_ne (by simpa [Change.path] using hq)
  have hlists : ∀ p k, s.Lists v p k → s.Lists (changed [.drop (s.blobPath h)] v) p k := by
    intro p k hl
    obtain ⟨⟨hname, hsome⟩, hidx⟩ := hl.indexed
    obtain ⟨file, hfile⟩ := idxOf_of_isPackName hname
    obtain ⟨name, rfl, -⟩ := id hname
    refine hv.lists_of_isSome hinj hu hl ?_ ?_
    · rwa [hother _ (s.blobPath_ne_packFile h name).symm]
    · rwa [hfile, hother _ (s.blobPath_ne_packFile h file).symm, ← hfile]
  refine ⟨⟨hu, fun k d hd => ⟨hd.1, ?_⟩, fun name hp => ?_⟩, hlists⟩
  swap
  · rwa [hother _ (s.blobPath_ne_packFile h name).symm]
  rcases hd.2 with ⟨b, hb⟩ | ⟨p, hl⟩
  · by_cases heq : k = h
    · obtain ⟨p, hl⟩ := hp
      exact .inr ⟨p, heq ▸ hlists p h hl⟩
    · have hne : s.blobPath k ≠ s.blobPath h := fun hsame => heq (s.blobPath_injective hsame)
      exact .inl ⟨b, by rw [hother _ hne, hb]⟩
  · exact .inr ⟨p, hlists p k hl⟩

end Changes

/-! ## Handles -/

/-- What is in the memory of a handle: blobs that are filed, and indices of packs. -/
structure Caches.Sound (c : Crates) (s : BlobStore) (B : Set Bytes) (caches : Caches) : Prop where
  blobs : ∀ e ∈ caches.blobCache, Filed c s B e.1 e.2
  packs : ∀ pc, caches.packCache = some pc → ∀ e ∈ pc.indices, IsPackName s.packDir e.1

theorem Caches.sound_empty (c : Crates) (s : BlobStore) (B : Set Bytes) :
    Caches.empty.Sound c s B := ⟨fun e he => by simp at he, fun pc hpc => by simp at hpc⟩

/-- A handle on a store in order. -/
structure Sound (c : Crates) (s : BlobStore) (B : Set Bytes) (w : World) : Prop where
  stocked : Stocked c s B (s.view w.disk)
  caches : w.caches.Sound c s B

section Reading
variable {c : Crates} {s : BlobStore} {B : Set Bytes} {h : Hash} {d : Bytes} {w : World}
  {order : HashOrder}

/-- The pack cache that a call finds or loads has packs of the store only. -/
theorem Sound.withPackCache {β : Type} (hinj : Set.InjOn (hashBytes c) B) (hw : Sound c s B w)
    (order : HashOrder) (f : PackCache → β) : ∃ caches, (run (s.withPackCache order f) w).2 = ⟨w.disk, caches⟩ ∧
      caches.Sound c s B ∧ ∀ b, (run (s.withPackCache order f) w).1 = .ok b →
        ∃ pc, b = f pc ∧ ∀ e ∈ pc.indices, IsPackName s.packDir e.1 := by
  rw [s.run_withPackCache]
  cases hpc : w.caches.packCache with
  | some pc =>
    exact ⟨w.caches, rfl, hw.caches, fun b hb => ⟨pc, (Except.ok.inj hb).symm, hw.caches.packs pc hpc⟩⟩
  | none =>
    obtain ⟨ps, hps, hload⟩ := (s.peek_loadAll order).1 (hw.stocked.loadable hinj)
    simp only [hload]
    have hnames : ∀ e ∈ order.arrange (loadedFrom w.disk.node ps), IsPackName s.packDir e.1 := by
      intro e he
      have hmem := (order.perm _).mem_iff.mp he
      simp only [loadedFrom, List.mem_filterMap, Option.map_eq_some_iff] at hmem
      obtain ⟨p, hp, i, -, rfl⟩ := hmem
      exact ((mem_listPacks s.packDir_ne_nil hps p).mp hp).1
    refine ⟨_, rfl, ⟨hw.caches.blobs, fun pc hpc => ?_⟩, fun b hb => ?_⟩
    · obtain rfl := Option.some.inj hpc
      exact hnames
    · exact ⟨_, (Except.ok.inj hb).symm, hnames⟩

/-- Whatever pack a lookup settles on, reading it gives what is filed. -/
theorem Sound.getBlobPacked (hz : ZstdSound c) (hinj : Set.InjOn (hashBytes c) B)
    (hw : Sound c s B w) (order : HashOrder) (h : Hash) : ∃ caches,
      (run (s.getBlobPacked c order h) w).2 = ⟨w.disk, caches⟩ ∧ caches.Sound c s B ∧
        ∀ d, (run (s.getBlobPacked c order h) w).1 = .ok d → Filed c s B h d := by
  obtain ⟨caches, hworld, hcaches, hok⟩ := hw.withPackCache hinj order
    fun cache => (cache.find h).map Prod.fst
  cases hrun : run (s.withPackCache order fun cache => (cache.find h).map Prod.fst) w with
  | mk r w' =>
    rw [hrun] at hworld hok
    subst hworld
    cases r with
    | error e =>
      have hstop : run (s.getBlobPacked c order h) w = _ := run_bind_error hrun
      rw [hstop]
      exact ⟨caches, rfl, hcaches, fun d hd => by simp at hd⟩
    | ok found =>
      obtain ⟨pc, rfl, hnames⟩ := hok found rfl
      rw [s.run_getBlobPacked hrun]
      refine ⟨caches, rfl, hcaches, fun d hd => ?_⟩
      cases hfind : pc.find h with
      | none => simp [hfind] at hd
      | some found =>
        obtain ⟨p, offset⟩ := found
        obtain ⟨e, he, hsome⟩ := List.exists_of_findSome?_eq_some hfind
        obtain ⟨o, -, heq⟩ := Option.map_eq_some_iff.mp hsome
        have hname : IsPackName s.packDir p := by
          rw [← (Prod.mk.inj heq).1]
          exact hnames e he
        simp only [hfind, Option.map_some, mapError_eq_ok, BlobStore.peek_readThrough] at hd
        rw [← s.recordAt_view c hname] at hd
        exact hw.stocked.filed_of_recordAt hz hinj hname hd

theorem Sound.fetchBlob (hz : ZstdSound c) (hinj : Set.InjOn (hashBytes c) B)
    (hw : Sound c s B w) (order : HashOrder) (h : Hash) : ∃ caches,
      (run (s.fetchBlob c order h) w).2 = ⟨w.disk, caches⟩ ∧ caches.Sound c s B ∧
        ∀ d, (run (s.fetchBlob c order h) w).1 = .ok d → Filed c s B h d := by
  have hstart : run (s.fetchBlob c order h) w = run (if w.disk.exists (s.blobPath h) = true then
      s.fetchLoose c h else s.fetchPacked c order h) w := rfl
  rw [hstart]
  split_ifs with hex
  · rw [run_of_reads (s.fetchLoose_reads h)]
    refine ⟨w.caches, rfl, hw.caches, fun d hd => ?_⟩
    obtain ⟨raw, hraw, hdec⟩ := s.peek_fetchLoose.mp hd
    have hfile : s.view w.disk (s.blobPath h) = some (.file raw) := by
      rw [s.view_blobPath, ← bytesAt_eq_some, bytesAt_node, hraw]
    obtain ⟨data, hmem, hhash, hform⟩ := (hw.stocked.files _ raw hfile).at_blobPath
    exact ⟨data, hmem, hhash, raw, hform, hdec⟩
  · obtain ⟨caches, hworld, hcaches, hok⟩ := hw.getBlobPacked hz hinj order h
    refine ⟨caches, ?_, hcaches, fun d hd => hok d ((s.run_fetchPacked_ok order w).mp hd)⟩
    rw [s.run_fetchPacked, hworld]

/-- `get_blob` leaves the store in order and returns what is filed. -/
theorem Sound.getBlob (hz : ZstdSound c) (hinj : Set.InjOn (hashBytes c) B) (hw : Sound c s B w)
    (order : HashOrder) (h : Hash) :
    Sound c s B (run (s.getBlob c order h) w).2 ∧
      (run (s.getBlob c order h) w).2.disk = w.disk ∧
        ∀ d, (run (s.getBlob c order h) w).1 = .ok d → Filed c s B h d := by
  obtain ⟨hhit, hkept⟩ := lookupBlob_spec w.caches.blobCache h
  cases hfound : (lookupBlob w.caches.blobCache h).1 with
  | some data =>
    rw [s.run_getBlob_hit hfound]
    refine ⟨⟨hw.stocked, fun e he => hw.caches.blobs e (hkept e he), hw.caches.packs⟩, rfl, ?_⟩
    intro d hd
    rw [← Except.ok.inj hd]
    exact hw.caches.blobs _ (hhit data hfound)
  | none =>
    obtain ⟨caches, hworld, hcaches, hok⟩ := hw.fetchBlob hz hinj order h
    rw [s.run_getBlob_miss hfound]
    cases hfetch : run (s.fetchBlob c order h) w with
    | mk r w' =>
      rw [hfetch] at hworld hok
      subst hworld
      cases r with
      | error e =>
        rw [run_bind_error hfetch]
        exact ⟨⟨hw.stocked, hcaches⟩, rfl, fun d hd => by simp at hd⟩
      | ok d =>
        rw [run_bind_ok hfetch]
        refine ⟨⟨hw.stocked, fun e he => ?_, hcaches.packs⟩, rfl, fun d' hd' => ?_⟩
        · rcases mem_insertBlob he with rfl | hold
          · exact hok d rfl
          · exact hcaches.blobs e hold
        · rw [← Except.ok.inj hd']
          exact hok d rfl

theorem Sound.hasBlob (hinj : Set.InjOn (hashBytes c) B) (hw : Sound c s B w) (order : HashOrder)
    (h : Hash) :
    Sound c s B (run (s.hasBlob order h) w).2 := by
  have hstart : run (s.hasBlob order h) w = run (if w.disk.exists (s.blobPath h) then .ret true
      else s.hasBlobPacked order h : Action CasError Bool) w := rfl
  rw [hstart]
  cases hex : w.disk.exists (s.blobPath h) with
  | true => exact hw
  | false =>
    obtain ⟨caches, hworld, hcaches, -⟩ :=
      hw.withPackCache hinj order fun pc => (pc.find h).isSome
    have hafter : Sound c s B ⟨w.disk, caches⟩ := ⟨hw.stocked, hcaches⟩
    rw [if_neg Bool.false_ne_true, BlobStore.run_hasBlobPacked_start, hworld]
    cases (run (s.withPackCache order fun pc => (pc.find h).isSome) w).1 <;> exact hafter

end Reading

/-! ## Calls, cut off or not -/

section Calls
variable {c : Crates} {s : BlobStore} {B : Set Bytes} {h : Hash} {d : Bytes} {w : World}
  {order : HashOrder} {threshold : ℕ} {cs : List Change} {v : Nodes}

/-- An action that only looks leaves everything as it is. -/
theorem throughout_reads {ε α : Type} {p : Action ε α} {I : World → Prop}
    (hp : p.Uses Request.Reads) (hw : I w) :
    Throughout I p w fun r u => u = w ∧ r = peek p w.disk := by
  have hlook := hp.along (h := answer) (I := fun u => u = w)
    (fun o u ho hu => by rw [answer_reads ho, hu]) rfl
  refine Prog.along_iff.mpr ⟨fun n => ?_, hlook.at_end, ?_⟩
  · rw [hlook.at_cut n]
    exact hw
  · show (run p w).1 = _
    rw [run_of_reads hp]

/-- At every moment of the action the store is in order and has what it had. -/
abbrev Lasts (c : Crates) (s : BlobStore) (B : Set Bytes) {ε α : Type} (p : Action ε α)
    (w : World) : Prop :=
  Throughout (fun u => Keeps c s B (s.view w.disk) (s.view u.disk)) p w
    fun _ u => u.caches.Sound c s B

theorem BlobStore.PutShape.lawful {data : Bytes} (hdata : data ∈ B)
    (hcs : s.PutShape c v data cs) :
    (∀ ch ∈ cs, ch.Lawful c s B) ∧ ∀ ch ∈ cs, ∀ q, ch ≠ .drop q := by
  cases hcs with
  | nothing => simp
  | dirs h => simp [Change.Lawful]
  | stored hraw habs =>
    have hfile : Legal c s B (s.blobPath (hashBytes c data)) _ := .loose hdata hraw
    simp [BlobStore.putChanges, Change.Lawful, hfile]

theorem Caches.Sound.answer {o : Request} {u : World} (hu : u.caches.Sound c s B)
    (hblobs : o.SparesBlobs) (hpacks : o.SparesPacks) : (answer o u).2.caches.Sound c s B := by
  constructor
  · rw [answer_sparesBlobs hblobs]
    exact hu.blobs
  · rw [answer_sparesPacks hpacks]
    exact hu.packs

/-- An action that makes lawful changes, drops nothing and leaves the caches alone. -/
theorem Sound.lasts {ε α : Type} {p : Action ε α} {Q : α → Prop}
    (hinj : Set.InjOn (hashBytes c) B) (hw : Sound c s B w) (hperf : s.Performs cs Q p w)
    (hstores : p.Uses Request.Stores) (hlawful : ∀ ch ∈ cs, ch.Lawful c s B)
    (hdrop : ∀ ch ∈ cs, ∀ q, ch ≠ .drop q) :
    Throughout (fun u => Keeps c s B (s.view w.disk) (s.view u.disk) ∧ u.caches.Sound c s B) p w
      fun r u => ∀ a, r = .ok a → s.view u.disk = changed cs (s.view w.disk) ∧ Q a := by
  have hcaches := hstores.along (h := CasKit.answer) (I := fun u => u.caches.Sound c s B)
    (fun o u ho hu => hu.answer ho.sparesBlobs ho.sparesPacks) hw.caches
  refine (Prog.Along.and hperf hcaches).mono (fun u hu => ?_) fun r u _ hu => hu.1
  obtain ⟨⟨k, hk⟩, hu⟩ := hu
  refine ⟨?_, hu⟩
  rw [show s.view u.disk = _ from hk]
  exact keeps_changed hinj hw.stocked (fun ch hch => hlawful ch (List.mem_of_mem_take hch))
    fun ch hch => hdrop ch (List.mem_of_mem_take hch)

theorem Sound.put (hinj : Set.InjOn (hashBytes c) B) (hw : Sound c s B w)
    {call : BlobStore.PutCall} (hdata : call.bytes ∈ B) : Lasts c s B (call.action c s) w := by
  obtain ⟨cs, hshape, hperf⟩ := BlobStore.performs_put (c := c) (s := s) (w := w) call
  obtain ⟨hlawful, hdrop⟩ := hshape.lawful hdata
  exact (hw.lasts hinj hperf call.action_stores hlawful hdrop).mono (fun u hu => hu.1)
    fun r u hu _ => hu.2

/-- The reading loop of a repack collects what is filed. -/
theorem Sound.readAll (hz : ZstdSound c) (hinj : Set.InjOn (hashBytes c) B) (hw : Sound c s B w)
    (order : HashOrder) (hashes : List Hash) : Throughout (fun u => u.disk = w.disk)
      (hashes.foldlM (s.readObject c order) []) w fun r u => Sound c s B u ∧
        ∀ objects, r = .ok objects →
          objects.map Prod.fst = hashes ∧ ∀ o ∈ objects, Filed c s B o.1 o.2 := by
  let L : List Hash → List (Hash × Bytes) → World → Prop := fun done objects u =>
    Sound c s B u ∧ objects.map Prod.fst = done ∧ ∀ o ∈ objects, Filed c s B o.1 o.2
  have hstart : L [] [] w := ⟨hw, rfl, by simp⟩
  refine (Prog.Along.foldlM (I := fun u => u.disk = w.disk) (E := fun _ u => Sound c s B u) L rfl
    hstart ?_).mono (fun u hu => hu) ?_
  · intro done h rest objects u _ hdisk hu
    obtain ⟨hu, hkeys, hfiled⟩ := hu
    obtain ⟨hnext, -, hget⟩ := hu.getBlob hz hinj order h
    refine Prog.along_iff.mpr ⟨fun n => ?_, ?_⟩
    · have hsame := (BlobStore.readObject_looks (c := c) (s := s) order objects h).cut_eq
        (h := CasKit.answer) World.disk (fun o u ho => answer_looks ho u) n u
      exact hsame.trans hdisk
    · cases hrun : run (s.getBlob c order h) u with
      | mk r u' =>
        rw [hrun] at hnext hget
        cases r with
        | error e =>
          have hread : run (s.readObject c order objects h) u = (.error e, u') := run_bind_error hrun
          simp only [hread]
          exact hnext
        | ok d =>
          have hread : run (s.readObject c order objects h) u = (.ok (objects ++ [(h, d)]), u') :=
            run_bind_ok hrun
          simp only [hread]
          refine ⟨hnext, by simp [hkeys], fun o ho => ?_⟩
          rcases List.mem_append.mp ho with ho | ho
          · exact hfiled o ho
          · rw [List.mem_singleton.mp ho]
            exact hget d rfl
  · intro r u _ hu
    cases r with
    | error e => exact ⟨hu, fun objects hobjects => by simp at hobjects⟩
    | ok objects =>
      exact ⟨hu.1, fun objects' hobjects => by rw [← Except.ok.inj hobjects]; exact hu.2⟩

/-- What is packed is within the limits of the format, and its index is among the bytes of the
run. -/
structure PackFits (c : Crates) (B : Set Bytes) (objects : List (Hash × Bytes)) : Prop where
  count : objects.length < 2 ^ 32
  frames : ∀ o ∈ objects, ∀ frame, compressDefault c o.2 = .ok frame → frame.length < 2 ^ 32
  mem : ∀ packData entries, packObjects c objects = .ok (packData, entries) →
    serializeIndex entries ∈ B

theorem PackFits.bundle {objects : List (Hash × Bytes)} {packData : Bytes}
    {entries : List PackIndexEntry} (hfits : PackFits c B objects)
    (hp : packObjects c objects = .ok (packData, entries))
    (hfiled : ∀ o ∈ objects, Filed c s B o.1 o.2) : Bundle c s B objects packData entries :=
  ⟨hp, hfits.count, hfits.frames, hfiled, hfits.mem _ _ hp⟩

theorem createChanges_lawful {objects : List (Hash × Bytes)} (hfits : PackFits c B objects)
    (hfiled : ∀ o ∈ objects, Filed c s B o.1 o.2) :
    (∀ ch ∈ [Change.mkdir s.objectsDir, .mkdir s.packDir] ++ createChanges c s objects,
      ch.Lawful c s B) ∧
    ∀ ch ∈ [Change.mkdir s.objectsDir, .mkdir s.packDir] ++ createChanges c s objects,
      ∀ q, ch ≠ .drop q := by
  have hlen : s.packDir.length = s.objectsDir.length + 1 := by simp [s.packDir_eq]
  cases hp : packObjects c objects with
  | error e => simp [createChanges, hp, Change.Lawful, hlen]
  | ok packed =>
    have hb := hfits.bundle hp hfiled
    have hpack : Legal c s B _ _ := .pack hb
    have hidx : Legal c s B _ _ := .idx hb
    simp [createChanges_ok hp, Change.Lawful, hlen, hpack, hidx]

/-- Once the pair is written it lists what was packed. -/
theorem lists_created {objects : List (Hash × Bytes)} {r : Path × Path}
    (hcount : objects.length < 2 ^ 32) (hr : Created c s objects r) (pre : List Change) :
    ∀ h ∈ objects.map Prod.fst,
      s.Lists (changed (pre ++ createChanges c s objects) v) r.1 h := by
  obtain ⟨packData, entries, hp, rfl⟩ := hr
  have hne := packPath_ne_idxPath c s (serializeIndex entries) (serializeIndex entries)
  have hw : Written c s objects packData entries (changed (pre ++ createChanges c s objects) v) := by
    rw [createChanges_ok hp, changed, Prog.after_append]
    refine ⟨hp, ?_, ?_⟩ <;> simp [bytesAt, Prog.after, Change.apply, hne]
  intro h hh
  rw [hw.lists_iff, Nat.mod_eq_of_lt hcount, List.take_of_length_le (by simp)]
  exact hh

/-- Deleting the loose file of a hash that a pack lists. -/
theorem Sound.deletePacked (hinj : Set.InjOn (hashBytes c) B) (hw : Sound c s B w)
    {p : Path} (hl : s.Lists (s.view w.disk) p h) :
    Throughout (fun u => Keeps c s B (s.view w.disk) (s.view u.disk)) (s.deletePacked () h) w
      fun _ u => u.caches.Sound c s B ∧
        ∀ p k, s.Lists (s.view w.disk) p k → s.Lists (s.view u.disk) p k := by
  have hfile : s.view w.disk (s.blobPath h) ≠ some .dir := fun hdir => by
    have := hw.stocked.dirs _ hdir
    simp [s.blobPath_eq] at this
  obtain ⟨hkeeps, hlists⟩ := keeps_drop hinj hw.stocked ⟨p, hl⟩
  have hcaches := (BlobStore.deletePacked_uses (s := s)
    (q := fun o => o.SparesBlobs ∧ o.SparesPacks) (fun _ => ⟨trivial, trivial⟩) () h).along
    (h := CasKit.answer) (I := fun u => u.caches.Sound c s B)
    (fun o u ho hu => hu.answer ho.1 ho.2) hw.caches
  have hmoment : ∀ (u : World) (k : ℕ),
      s.view u.disk = changed ([Change.drop (s.blobPath h)].take k) (s.view w.disk) →
        Keeps c s B (s.view w.disk) (s.view u.disk) ∧
          ∀ p k, s.Lists (s.view w.disk) p k → s.Lists (s.view u.disk) p k := by
    intro u k hk
    cases k with
    | zero =>
      rw [hk]
      exact ⟨.refl hw.stocked, fun p k hl => hl⟩
    | succ k =>
      rw [hk, List.take_of_length_le (by simp)]
      exact ⟨hkeeps, hlists⟩
  have hperf := BlobStore.performs_deletePacked (s := s) hfile
  refine Prog.along_iff.mpr ⟨fun n => ?_, hcaches.at_end, ?_⟩
  · obtain ⟨k, hk⟩ := hperf.at_cut n
    exact (hmoment _ k hk).1
  · obtain ⟨k, hk⟩ := hperf.last
    exact (hmoment _ k hk).2

/-- Packing objects away: the pair is written before the first file goes. -/
theorem Sound.packAway (hinj : Set.InjOn (hashBytes c) B) (hw : Sound c s B w)
    {hashes : List Hash} {objects : List (Hash × Bytes)} (hfits : PackFits c B objects)
    (hkeys : objects.map Prod.fst = hashes) (hfiled : ∀ o ∈ objects, Filed c s B o.1 o.2) :
    Lasts c s B (BlobStore.packAway c s hashes objects) w := by
  obtain ⟨hlawful, hdrop⟩ := createChanges_lawful (s := s) hfits hfiled
  have hcreate : Throughout (fun u => Keeps c s B (s.view w.disk) (s.view u.disk))
      (packCas (PackFile.create c s.packDir objects)) w fun r u => u.caches.Sound c s B ∧
        ∀ a, r = .ok a → ∃ p, ∀ h ∈ hashes, s.Lists (s.view u.disk) p h := by
    refine Prog.Along.mapErr ((hw.lasts hinj performs_create
      (BlobStore.create_stores s.packDir objects) hlawful hdrop).mono (fun u hu => hu.1) ?_)
    intro r u hu hok
    refine ⟨hu.2, fun a ha => ?_⟩
    obtain ⟨hview, hr⟩ := hok a (mapError_eq_ok.mp ha)
    rw [hview, ← hkeys]
    exact ⟨a.1, lists_created hfits.count hr _⟩
  -- from here on the pair lists all of `hashes`, whatever else is deleted
  let I : World → Prop := fun u => Keeps c s B (s.view w.disk) (s.view u.disk)
  let L : World → Prop := fun u => u.caches.Sound c s B ∧ ∃ p, ∀ h ∈ hashes,
    s.Lists (s.view u.disk) p h
  have hdelete : ∀ u, I u → L u → Throughout I (hashes.foldlM s.deletePacked ()) u
      fun _ u => u.caches.Sound c s B := by
    intro u hI hL
    refine (Prog.Along.foldlM (h := CasKit.answer) (I := I) (fun _ _ u => L u)
      (E := fun _ u => u.caches.Sound c s B) hI hL ?_).mono (fun u hu => hu) ?_
    · intro done h rest _ u hsplit hI hL
      obtain ⟨hcaches, p, hlists⟩ := hL
      have hone := Sound.deletePacked hinj ⟨hI.stocked, hcaches⟩ (hlists h (by simp [hsplit]))
      refine hone.mono (fun x hx => hI.trans hx) fun r x _ hx => ?_
      cases r with
      | error e => exact hx.1
      | ok _ => exact ⟨hx.1, p, fun k hk => hx.2 p k (hlists k hk)⟩
    · intro r u _ hu
      cases r with
      | error e => exact hu
      | ok _ => exact hu.1
  refine (hcreate.mono (fun u hu => hu) fun r u hI hu => And.intro hI hu).bind ?_
    fun e u hu => hu.2.1
  intro r u hu
  refine ((hdelete u hu.1 ⟨hu.2.1, hu.2.2 r rfl⟩).mono (fun u hu => hu)
    fun r u hI hu => And.intro hI hu).bind ?_ fun e u hu => hu.2
  intro _ u hu
  exact ⟨hu.1, hu.1, hu.1, hu.1, hu.2.blobs, fun pc hpc => by cases hpc⟩

/-- The condition on a repack: what it reads fits a pack. -/
def RepackFits (c : Crates) (s : BlobStore) (B : Set Bytes) (order : HashOrder) (w : World) :
    Prop :=
  ∀ objects, (run ((s.looseOn w.disk).foldlM (s.readObject c order) []) w).1 = .ok objects →
    PackFits c B objects

/-- A repack, whether it is cut off or not, keeps the store in order. -/
theorem Sound.repack (hz : ZstdSound c) (hinj : Set.InjOn (hashBytes c) B) (hw : Sound c s B w)
    (hfits : RepackFits c s B order w) : Lasts c s B (s.repack c order threshold) w := by
  have hstart : Keeps c s B (s.view w.disk) (s.view w.disk) := .refl hw.stocked
  refine (throughout_reads s.listBlobs_reads hstart).bind ?_
    fun e u hu => by rw [hu.1]; exact hw.caches
  rintro hashes u ⟨rfl, hhashes⟩
  have hloose : s.looseOn u.disk = hashes := by simp [BlobStore.looseOn, ← hhashes, Except.toOption]
  rw [RepackFits, hloose] at hfits
  by_cases hle : hashes.length ≤ threshold
  · simp only [hle, if_true]
    exact ⟨hstart, hw.caches⟩
  · simp only [hle, if_false]
    have hread := hw.readAll hz hinj order hashes
    have hread : Throughout (fun x => Keeps c s B (s.view u.disk) (s.view x.disk))
        (hashes.foldlM (s.readObject c order) []) u fun r x => s.view x.disk = s.view u.disk ∧
          Sound c s B x ∧ ∀ objects, r = .ok objects → PackFits c B objects ∧
            objects.map Prod.fst = hashes ∧ ∀ o ∈ objects, Filed c s B o.1 o.2 := by
      refine Prog.along_iff.mpr ⟨fun n => ?_, ?_, hread.at_end.1, fun objects hok => ?_⟩
      · rw [hread.at_cut n]
        exact hstart
      · rw [hread.last]
      · exact ⟨hfits objects hok, hread.at_end.2 objects hok⟩
    refine hread.bind (fun objects x hx => ?_) fun e x hx => hx.2.1.caches
    obtain ⟨hsame, hx, hok⟩ := hx
    obtain ⟨hpack, hkeys, hfiled⟩ := hok objects rfl
    have hlast := hx.packAway hinj hpack hkeys hfiled
    rwa [Lasts, hsame] at hlast

end Calls

/-! ## Histories -/

namespace BlobStore

/-- The world when a call is cut off after `n` requests. -/
def StoreCall.cutAfter (c : Crates) (s : BlobStore) (n : ℕ) (w : World) : StoreCall → World
  | put call => cutOff n (call.action c s) w
  | getBlob order hash => cutOff n (s.getBlob c order hash) w
  | hasBlob order hash => cutOff n (s.hasBlob order hash) w
  | deleteBlob hash => cutOff n (s.deleteBlob hash) w
  | repack order threshold => cutOff n (s.repack c order threshold) w
  | sweep live options => cutOff n (Gc.sweep c s live options) w

/-- The store takes calls on one handle at a time. A handle that is lost in the middle of a call
leaves the disk, and the next one is opened on it. -/
def system (c : Crates) (s : BlobStore) : System World StoreCall where
  after call w := call.after c s w
  moment call n w := call.cutAfter c s n w
  restart w := ⟨w.disk, .empty⟩

/-- The calls that add to a store or move blobs in it, within the limits of the pack format. -/
def StoreCall.Adds (c : Crates) (s : BlobStore) (B : Set Bytes) (w : World) : StoreCall → Prop
  | put call => call.bytes ∈ B
  | getBlob _ _ => True
  | hasBlob _ _ => True
  | deleteBlob _ => False
  | repack order _ => RepackFits c s B order w
  | sweep _ _ => False

end BlobStore

section Histories
variable {c : Crates} {s : BlobStore} {B : Set Bytes} {h : Hash} {d : Bytes} {w u x : World}
  {call : BlobStore.StoreCall}

/-- Each such call keeps the store in order and what is stored, when it completes and wherever it
is cut off. -/
theorem Sound.adds (hz : ZstdSound c) (hinj : Set.InjOn (hashBytes c) B) (hw : Sound c s B w)
    (hadds : call.Adds c s B w) :
    Sound c s B (call.after c s w) ∧
      Keeps c s B (s.view w.disk) (s.view (call.after c s w).disk) ∧
      ∀ n, Keeps c s B (s.view w.disk) (s.view (call.cutAfter c s n w).disk) := by
  have hlasts : ∀ {ε α : Type} {p : Action ε α}, Lasts c s B p w → Sound c s B (run p w).2 ∧
      Keeps c s B (s.view w.disk) (s.view (run p w).2.disk) ∧
      ∀ n, Keeps c s B (s.view w.disk) (s.view (cutOff n p w).disk) := fun hp =>
    ⟨⟨hp.last.stocked, hp.at_end⟩, hp.last, hp.at_cut⟩
  have hlooks : ∀ {ε α : Type} {p : Action ε α}, p.Uses Request.Looks →
      Sound c s B (run p w).2 → Sound c s B (run p w).2 ∧
      Keeps c s B (s.view w.disk) (s.view (run p w).2.disk) ∧
      ∀ n, Keeps c s B (s.view w.disk) (s.view (cutOff n p w).disk) := by
    intro ε α p hp hafter
    have hexec := hp.exec_eq (h := answer) World.disk (fun o u ho => answer_looks ho u) w
    refine ⟨hafter, ?_, fun n => ?_⟩
    · rw [show (run p w).2.disk = w.disk from hexec]
      exact .refl hw.stocked
    · rw [show (cutOff n p w).disk = w.disk from
        hp.cut_eq (h := answer) World.disk (fun o u ho => answer_looks ho u) n w]
      exact .refl hw.stocked
  cases call with
  | put call => exact hlasts (hw.put hinj hadds)
  | getBlob order hash => exact hlooks (BlobStore.getBlob_looks order hash) (hw.getBlob hz hinj order hash).1
  | hasBlob order hash =>
    exact hlooks ((BlobStore.hasBlob_consults order hash).mono fun _ ho => ho.looks)
      (hw.hasBlob hinj order hash)
  | deleteBlob hash => exact hadds.elim
  | repack order threshold => exact hlasts (hw.repack hz hinj hadds)
  | sweep live options => exact hadds.elim

/-- The store stays in order through a history, and everything stays stored. -/
theorem Sound.history (hz : ZstdSound c) (hinj : Set.InjOn (hashBytes c) B) (hw : Sound c s B w)
    (hhist : (s.system c).History (fun w call => call.Adds c s B w) w u) :
    Sound c s B u ∧ ∀ h d, Stored c s B (s.view w.disk) h d → Stored c s B (s.view u.disk) h d := by
  refine hhist.keeps (I := Sound c s B) (R := fun w u => ∀ h d,
    Stored c s B (s.view w.disk) h d → Stored c s B (s.view u.disk) h d)
    (fun t h d hd => hd) (fun t u v h h' k d hd => h' k d (h k d hd)) ?_ ?_ hw
  · intro t call ht hadds
    obtain ⟨hafter, hkeeps, -⟩ := ht.adds hz hinj hadds
    exact ⟨hafter, hkeeps.stored⟩
  · intro t call n ht hadds
    obtain ⟨-, -, hcut⟩ := ht.adds hz hinj hadds
    exact ⟨⟨(hcut n).stocked, Caches.sound_empty c s B⟩, (hcut n).stored⟩

/-- In a history of puts, reads and repacks, in which every call completes or is cut off at any
moment and the store is opened anew, a blob that a freshly opened handle could read once it can
read for ever, and the handle in use never returns other bytes for it. -/
theorem reads_lasting (hz : ZstdSound c) (hinj : Set.InjOn (hashBytes c) B) (hw : Sound c s B w)
    (past : (s.system c).History (fun w call => call.Adds c s B w) w u)
    (future : (s.system c).History (fun w call => call.Adds c s B w) u x)
    (hread : s.Reads c u.disk h d) (hhash : hashBytes c d = h)
    (hlen : d.length ≤ maxDecompressedSize) :
    s.Reads c x.disk h d ∧ ∀ order d', (run (s.getBlob c order h) x).1 = .ok d' → d' = d := by
  obtain ⟨hu, -⟩ := hw.history hz hinj past
  obtain ⟨hx, hstored⟩ := hu.history hz hinj future
  have hd := hu.stocked.stored_of_readsBack hz hinj (s.reads_iff.mp hread)
  refine ⟨s.reads_iff.mpr (hx.stocked.readsBack_of_stored hz hinj (hstored h d hd) hhash hlen), ?_⟩
  intro order d' hd'
  exact ((hx.getBlob hz hinj order h).2.2 d' hd').unique hinj hd.1

/-- A store that has just been created. -/
theorem Stocked.new {t : Tree} (hnew : ∀ p, s.view t p = if p = s.objectsDir then some .dir else none) :
    Stocked c s B (s.view t) where
  files p b hp := by
    rw [hnew] at hp
    split_ifs at hp
    simp at hp
  dirs p hp := by
    rw [hnew] at hp
    split_ifs at hp with heq
    simp [heq]

/-- The blob `a` and the index of the pack that it makes alone. -/
def lastingBytes : List Bytes :=
  [text "a", serializeIndex
    ((packObjects Concrete.crates [(hashBytes Concrete.crates (text "a"), text "a")]).toOption.getD
      ([], [])).2]

theorem lastingBytes_injOn : Set.InjOn (hashBytes Concrete.crates) {b | b ∈ lastingBytes} := by
  have hall : ∀ b ∈ lastingBytes, ∀ b' ∈ lastingBytes,
      hashBytes Concrete.crates b = hashBytes Concrete.crates b' → b = b' := by
    decide +kernel
  exact fun b hb b' hb' => hall b hb b' hb'

/-- Concrete objects fit, as far as it can be computed. -/
def Concrete.Fits (bytes : List Bytes) (objects : List (Hash × Bytes)) : Prop :=
  objects.length < 2 ^ 32 ∧ (∀ o ∈ objects, o.2.length ≤ maxDecompressedSize) ∧
    ∀ packed ∈ (packObjects Concrete.crates objects).toOption, serializeIndex packed.2 ∈ bytes

instance (bytes : List Bytes) (objects : List (Hash × Bytes)) :
    Decidable (Concrete.Fits bytes objects) := inferInstanceAs (Decidable (_ ∧ _ ∧ _))

theorem Concrete.Fits.packFits {bytes : List Bytes} {objects : List (Hash × Bytes)}
    (hfits : Concrete.Fits bytes objects) : PackFits Concrete.crates {b | b ∈ bytes} objects :=
  ⟨hfits.1, fun o ho _ hframe =>
      Concrete.zstdSound.bound _ _ _ (compress_ok.mp hframe) (hfits.2.1 o ho),
    fun packData entries hp => hfits.2.2 (packData, entries) (by simp [hp, Except.toOption])⟩

theorem repackFits_concrete {bytes : List Bytes} {w : World}
    (hfits : ∀ objects ∈ (run (((Concrete.store false).looseOn w.disk).foldlM
      ((Concrete.store false).readObject Concrete.crates .inserted) []) w).1.toOption,
        Concrete.Fits bytes objects) :
    RepackFits Concrete.crates (Concrete.store false) {b | b ∈ bytes} .inserted w :=
  fun objects hobjects => (hfits objects (by simp [hobjects, Except.toOption])).packFits

/-- `a` is stored. -/
def lastingPut : World := BlobStore.StoreCall.after Concrete.crates (Concrete.store false)
  ⟨Concrete.newDisk, .empty⟩ (.put (.putBlob (text "a")))

/-- A repack stops between the two files that it writes. -/
def lastingTorn : World := ⟨(BlobStore.StoreCall.cutAfter Concrete.crates (Concrete.store false) 9
  lastingPut (.repack .inserted 0)).disk, .empty⟩

/-- The next repack completes. -/
theorem lasting_repacked : (Concrete.store false).Reads Concrete.crates
    (BlobStore.StoreCall.after Concrete.crates (Concrete.store false) lastingTorn
      (.repack .inserted 0)).disk (hashBytes Concrete.crates (text "a")) (text "a") := by
  have hstart : Sound Concrete.crates (Concrete.store false) {b | b ∈ lastingBytes}
      ⟨Concrete.newDisk, .empty⟩ :=
    ⟨.new (Concrete.view_newDisk false), Caches.sound_empty _ _ _⟩
  have hput : ((Concrete.store false).system Concrete.crates).History
      (fun w call => call.Adds Concrete.crates (Concrete.store false) {b | b ∈ lastingBytes} w)
      ⟨Concrete.newDisk, .empty⟩ lastingPut :=
    System.History.call .start (BlobStore.StoreCall.put (.putBlob (text "a")))
      (show text "a" ∈ lastingBytes by simp [lastingBytes])
  have htorn : ((Concrete.store false).system Concrete.crates).History
      (fun w call => call.Adds Concrete.crates (Concrete.store false) {b | b ∈ lastingBytes} w)
      lastingPut lastingTorn :=
    System.History.crash .start (BlobStore.StoreCall.repack .inserted 0)
      (repackFits_concrete (by decide +kernel)) 9
  have hread : (Concrete.store false).Reads Concrete.crates lastingPut.disk
      (hashBytes Concrete.crates (text "a")) (text "a") := by
    rw [BlobStore.reads_iff]
    exact .inl ⟨text "a", by decide +kernel⟩
  exact (reads_lasting Concrete.zstdSound lastingBytes_injOn hstart hput
    (htorn.call (BlobStore.StoreCall.repack .inserted 0)
      (repackFits_concrete (by decide +kernel))) hread rfl
    (by decide +kernel)).1

end Histories

end CasKit
