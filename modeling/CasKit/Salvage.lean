import CasKit.Lasting
import CasKit.Modes

/-!
# The store and its trash together

A file that a sweep in trash mode removes turns up at its mirrored path. Laid over the trash, the
store does not change while files are removed, so a blob that was stored once can be got back at
every moment, whatever calls follow and wherever they are cut off.
-/
namespace CasKit
open Effects Files Codec

namespace BlobStore
variable (s : BlobStore)

/-- What the trash holds, under the paths that it had in the store. -/
def trashView (t : Tree) : Nodes :=
  fun p => if s.objectsDir <+: p then t.node (Gc.trashPath s p) else none

/-- The store with what is missing put back from the trash. -/
def salvage (t : Tree) : Nodes := fun p => (s.view t p).or (s.trashView t p)

end BlobStore

/-! ## One stocked view over another -/

section Over
variable {c : Crates} {s : BlobStore} {B : Set Bytes} {v u x : Nodes} {p : Path} {h : Hash}
  {t : Tree}

theorem Stocked.or (hv : Stocked c s B v) (hx : Stocked c s B x) :
    Stocked c s B fun p => (v p).or (x p) where
  files p b hp := by
    rcases Option.or_eq_some_iff.mp hp with hp | ⟨-, hp⟩
    · exact hv.files p b hp
    · exact hx.files p b hp
  dirs p hp := by
    rcases Option.or_eq_some_iff.mp hp with hp | ⟨-, hp⟩
    · exact hv.dirs p hp
    · exact hx.dirs p hp

/-- What keeps a store keeps it over any trash. -/
theorem Keeps.or (hinj : Set.InjOn (hashBytes c) B) (hv : Stocked c s B v) (hx : Stocked c s B x)
    (hkeeps : Keeps c s B v u) :
    Keeps c s B (fun p => (v p).or (x p)) fun p => (u p).or (x p) := by
  have hu := hkeeps.stocked
  have hpacks : ∀ name, ((v (s.packDir ++ [name])).or (x (s.packDir ++ [name]))).isSome →
      ((u (s.packDir ++ [name])).or (x (s.packDir ++ [name]))).isSome := by
    intro name hname
    simp only [Option.isSome_or, Bool.or_eq_true] at hname ⊢
    exact hname.imp_left (hkeeps.packs name)
  have hlists : ∀ {y : Nodes}, Stocked c s B y → (∀ name, (y (s.packDir ++ [name])).isSome →
      ((u (s.packDir ++ [name])).or (x (s.packDir ++ [name]))).isSome) → ∀ p h, s.Lists y p h →
        s.Lists (fun p => (u p).or (x p)) p h := by
    intro y hy hsome p h hl
    obtain ⟨⟨hname, hp⟩, hidx⟩ := hl.indexed
    obtain ⟨file, hfile⟩ := idxOf_of_isPackName hname
    obtain ⟨name, rfl, -⟩ := id hname
    rw [hfile] at hidx
    exact hy.lists_of_isSome hinj (hu.or hx) hl (hsome _ hp) (hfile ▸ hsome _ hidx)
  refine ⟨hu.or hx, fun k d hd => ⟨hd.1, ?_⟩, hpacks⟩
  rcases hd.2 with ⟨b, hb⟩ | ⟨p, hl⟩
  · rcases Option.or_eq_some_iff.mp hb with hb | ⟨-, hb⟩
    · rcases (hkeeps.stored k d ⟨hd.1, .inl ⟨b, hb⟩⟩).2 with ⟨b', hb'⟩ | ⟨p, hl⟩
      · exact .inl ⟨b', by simp [hb']⟩
      · exact .inr ⟨p, hlists hu (fun name hn => by simp [hn]) p k hl⟩
    · have hlen : s.objectsDir.length + 2 ≤ (s.blobPath k).length := by simp [s.blobPath_eq]
      exact .inl ((hu.or hx).file_of_isSome hlen (by simp [hb]))
  · exact .inr ⟨p, hlists (hv.or hx) hpacks p k hl⟩

/-- A blob can be got back: its loose file, or a pack with its index, is in the store or at the
mirrored path in the trash, and its data can be read there. -/
def BlobStore.Recoverable (c : Crates) (s : BlobStore) (t : Tree) (h : Hash) (d : Bytes) : Prop :=
  let kept := fun p b => t.file p = some b ∨ t.file (Gc.trashPath s p) = some b
  (∃ raw, kept (s.blobPath h) raw ∧ s.decodeLoose c raw h = .ok d) ∨
  ∃ p packData indexData index offset, IsPackName s.packDir p ∧ kept p packData ∧
    kept (idxOf p) indexData ∧ PackIndex.parse indexData = .ok index ∧
    index.find h = some offset ∧ decodeRecord c (packData.drop offset) h = .ok d

theorem kept_of_salvage {b : Bytes} (hb : bytesAt (s.salvage t) p = some b) :
    t.file p = some b ∨ t.file (Gc.trashPath s p) = some b := by
  rcases Option.or_eq_some_iff.mp (bytesAt_eq_some.mp hb) with hb | ⟨-, hb⟩
  · left
    by_cases hp : s.objectsDir <+: p
    · rwa [s.view_of_prefix hp, ← Tree.file_eq_some] at hb
    · simp [BlobStore.view, hp] at hb
  · right
    by_cases hp : s.objectsDir <+: p
    · simpa [BlobStore.trashView, hp, ← Tree.file_eq_some] using hb
    · simp [BlobStore.trashView, hp] at hb

/-- What could be read if the trash were put back can be got back. -/
theorem recoverable_of_readsBack {d : Bytes} (hr : s.ReadsBack c (s.salvage t) h d) :
    s.Recoverable c t h d := by
  rcases hr with ⟨raw, hraw, hdec⟩ | ⟨-, -, ⟨p, hl⟩, hall⟩
  · exact .inl ⟨raw, kept_of_salvage hraw, hdec⟩
  · have hd := hall p hl
    simp only [recordAt, Option.bind_eq_bind, Option.bind_eq_some_iff] at hd
    obtain ⟨index, hindex, offset, hfind, packData, hpack, hdec⟩ := hd
    obtain ⟨indexData, hidx, hparse⟩ := Option.bind_eq_some_iff.mp hindex
    refine .inr ⟨p, packData, indexData, index, offset, hl.1.1, kept_of_salvage hpack,
      kept_of_salvage hidx, ?_, hfind, ?_⟩
    · cases hres : PackIndex.parse indexData <;> simp_all [Except.toOption]
    · cases hres : decodeRecord c (packData.drop offset) h <;> simp_all [Except.toOption]

end Over

/-! ## Calls that stay inside the store -/

/-- The requests that change files inside the store only. -/
def Request.Inside (s : BlobStore) : Request → Prop
  | .write p _ | .createDirAll p | .removeFile p => s.objectsDir <+: p
  | .rename _ _ => False
  | _ => True

section Inside
variable {c : Crates} {s : BlobStore} {w : World} {h : Hash} {order : HashOrder} {o : Request}

theorem Request.Looks.inside (ho : o.Looks) : o.Inside s := by
  cases o <;> trivial

theorem Request.Reads.inside (ho : o.Reads) : o.Inside s := ho.looks.inside

/-- A change inside the store leaves the trash alone. -/
theorem trashView_answer (ho : o.Inside s) (w : World) :
    s.trashView (answer o w).2.disk = s.trashView w.disk := by
  have hupdate : ∀ (r : Except ErrorKind Tree),
      (∀ t, r = .ok t → ∀ q, s.objectsDir <+: q →
        t.node (Gc.trashPath s q) = w.disk.node (Gc.trashPath s q)) →
      s.trashView (w.update r).2.disk = s.trashView w.disk := by
    intro r hr
    cases r with
    | error e => rfl
    | ok t =>
      funext q
      by_cases hq : s.objectsDir <+: q
      · simp only [BlobStore.trashView, hq, if_true]
        exact hr t rfl q hq
      · simp [BlobStore.trashView, hq]
  have hapart : ∀ {p : Path} q, s.objectsDir <+: p → ¬ Gc.trashPath s q <+: p := by
    intro p q hp hpre
    exact Gc.not_objects_of_trash ((Gc.trash_prefix_trashPath q).trans hpre) hp
  cases o with
  | write p b =>
    refine hupdate (w.disk.write p b) fun t ht q _ => ?_
    rw [Tree.node_write ht, if_neg]
    rintro rfl
    exact hapart q ho List.prefix_rfl
  | removeFile p =>
    refine hupdate (w.disk.removeFile p) fun t ht q _ => ?_
    rw [Tree.node_removeFile ht, if_neg]
    rintro rfl
    exact hapart q ho List.prefix_rfl
  | createDirAll p =>
    refine hupdate (w.disk.createDirAll p) fun t ht q _ => ?_
    rcases Tree.node_createDirAll ht (Gc.trashPath s q) with hsame | ⟨-, -, hpre⟩
    · exact hsame
    · exact absurd hpre (hapart q ho)
  | rename p q => exact ho.elim
  | _ => rfl

/-- Programs that stay inside the store leave the trash alone throughout. -/
theorem throughout_inside {ε α : Type} {p : Action ε α} (hp : p.Uses (Request.Inside s)) :
    Throughout (fun u => s.trashView u.disk = s.trashView w.disk) p w fun _ _ => True :=
  Prog.along_iff.mpr ⟨fun n => hp.cut_eq (h := answer) (fun w => s.trashView w.disk)
    (fun _ u ho => trashView_answer ho u) n w, trivial⟩

theorem ensureParentDir_inside {p : Path} (hp : s.objectsDir <+: p) :
    (BlobStore.ensureParentDir p).Uses (Request.Inside s) := by
  have hmake : (createDirAll p).Uses (Request.Inside s) := ⟨hp, fun r => Prog.Uses.ofExcept r⟩
  refine ⟨trivial, fun known => ?_⟩
  cases (known : Bool) with
  | true => trivial
  | false => exact hmake.mapErr.bind fun _ => ⟨trivial, fun _ => trivial⟩

theorem writeBlob_inside (data : Bytes) :
    (s.writeBlob c (s.blobPath h) data).Uses (Request.Inside s) := by
  have hparent : s.objectsDir <+: (s.blobPath h).dropLast := by simp [s.blobPath_eq]
  have hwrite : ∀ b, (ioCas (writeFile (s.blobPath h) b)).Uses (Request.Inside s) := fun b =>
    Prog.Uses.mapErr (p := writeFile (s.blobPath h) b)
      ⟨s.objectsDir_prefix_blobPath, fun r => Prog.Uses.ofExcept r⟩
  refine (ensureParentDir_inside hparent).bind fun _ => ?_
  cases s.compress with
  | true => exact (Prog.Uses.ofExcept _).bind fun _ => hwrite _
  | false => exact hwrite _

theorem BlobStore.PutCall.action_inside (call : BlobStore.PutCall) :
    (call.action c s).Uses (Request.Inside s) := by
  cases call with
  | putBlob data =>
    refine Prog.Uses.bind (p := s.putBlob c data) ⟨trivial, fun there => ?_⟩ fun _ => trivial
    cases (there : Bool) with
    | true => trivial
    | false => exact (writeBlob_inside data).bind fun _ => trivial
  | putBlobNew data =>
    refine Prog.Uses.bind (p := s.putBlobNew c data) ⟨trivial, fun there => ?_⟩ fun _ => trivial
    cases (there : Bool) with
    | true => trivial
    | false => exact (writeBlob_inside data).bind fun _ => trivial
  | putBlobWithHash data expected =>
    refine ⟨trivial, fun there => ?_⟩
    cases (there : Bool) with
    | true => trivial
    | false => exact (Prog.Uses.ofExcept _).bind fun _ => writeBlob_inside data

theorem create_inside (objects : List (Hash × Bytes)) :
    (PackFile.create c s.packDir objects).Uses (Request.Inside s) := by
  have hmake : (createDirAll s.packDir).Uses (Request.Inside s) :=
    ⟨s.objectsDir_prefix_packDir, fun r => Prog.Uses.ofExcept r⟩
  have hwrite : ∀ name b, (ioPack (writeFile (s.packDir ++ [name]) b)).Uses (Request.Inside s) :=
    fun name b => Prog.Uses.mapErr (p := writeFile (s.packDir ++ [name]) b)
      ⟨s.objectsDir_prefix_of_packDir _, fun r => Prog.Uses.ofExcept r⟩
  unfold PackFile.create
  split_ifs with hempty
  · trivial
  · refine hmake.mapErr.bind fun _ => (Prog.Uses.ofExcept _).bind fun packed => ?_
    exact (hwrite _ _).bind fun _ => (hwrite _ _).bind fun _ => trivial

theorem repack_inside (order : HashOrder) (threshold : ℕ) :
    (s.repack c order threshold).Uses (Request.Inside s) := by
  have hdelete : ∀ (u : Unit) h, (s.deletePacked u h).Uses (Request.Inside s) := fun u h =>
    Prog.Uses.bind (p := (s.deleteBlob h).attempt) (Prog.Uses.attempt (Prog.Uses.mapErr
      (p := removeFile (s.blobPath h))
      ⟨s.objectsDir_prefix_blobPath, fun r => Prog.Uses.ofExcept r⟩)) fun _ => trivial
  refine (s.listBlobs_reads.mono fun _ ho => ho.inside).bind fun hashes => ?_
  by_cases hle : hashes.length ≤ threshold
  · simp only [hle, if_true]
    trivial
  · simp only [hle, if_false]
    have hread := Prog.Uses.foldlM (BlobStore.readObject_looks (c := c) (s := s) order) hashes []
    refine (hread.mono fun _ ho => ho.inside).bind fun objects => ?_
    refine (create_inside objects).mapErr.bind fun _ => ?_
    refine (Prog.Uses.foldlM hdelete hashes ()).bind fun _ => ?_
    exact ⟨trivial, fun _ => ⟨trivial, fun _ => ⟨trivial, fun _ => trivial⟩⟩⟩

end Inside

/-! ## Moving a file into the trash -/

/-- The state of a run that began when the store over the trash was `x`. -/
structure Salvaged (c : Crates) (s : BlobStore) (B : Set Bytes) (x : Nodes) (u : World) : Prop where
  sound : Sound c s B u
  trash : Stocked c s B (s.trashView u.disk)
  keeps : Keeps c s B x (s.salvage u.disk)

section Moving
variable {c : Crates} {s : BlobStore} {B : Set Bytes} {x : Nodes} {w u : World} {p q : Path}
  {t : Tree}

/-- A step that changes the store over the trash nowhere. -/
theorem Salvaged.step (hw : Salvaged c s B x w) (hstore : Stocked c s B (s.view t))
    (htrash : Stocked c s B (s.trashView t)) (hsame : s.salvage t = s.salvage w.disk) :
    Salvaged c s B x ⟨t, w.caches⟩ :=
  ⟨⟨hstore, hw.sound.caches⟩, htrash, hsame ▸ hw.keeps⟩

/-- Making the directory for a file in the trash. -/
theorem Salvaged.mkdir (hw : Salvaged c s B x w) (hp : s.objectsDir <+: p)
    (hfile : (w.disk.node p).isSome)
    (ht : w.disk.createDirAll (Gc.trashPath s p).dropLast = .ok t) :
    Salvaged c s B x ⟨t, w.caches⟩ := by
  have hdest : ∀ q, q <+: (Gc.trashPath s p).dropLast → ¬ s.objectsDir <+: q := by
    obtain ⟨rest, rfl⟩ := Gc.exists_rest hp
    rw [Gc.trashPath_append]
    exact fun q hq hobj => Gc.not_objectsDir_prefix_trash rest
      (hobj.trans (hq.trans (List.dropLast_prefix _)))
  have hview : s.view t = s.view w.disk := by
    funext q
    by_cases hq : s.objectsDir <+: q
    · rw [s.view_of_prefix hq, s.view_of_prefix hq]
      exact (Tree.node_createDirAll ht q).resolve_right fun hnew => hdest q hnew.2.2 hq
    · simp [BlobStore.view, hq]
  -- a directory that is new in the trash mirrors one that the file lies in
  have hnew : ∀ q, s.trashView t q = s.trashView w.disk q ∨
      s.trashView t q = some .dir ∧ s.view w.disk q = some .dir := by
    intro q
    by_cases hq : s.objectsDir <+: q
    · simp only [BlobStore.trashView, hq, if_true, s.view_of_prefix]
      rcases Tree.node_createDirAll ht (Gc.trashPath s q) with hsame | ⟨-, hdir, hpre⟩
      · exact .inl hsame
      · refine .inr ⟨hdir, ?_⟩
        obtain ⟨rest, rfl⟩ := Gc.exists_rest hp
        obtain ⟨rest', rfl⟩ := Gc.exists_rest hq
        rw [Gc.trashPath_append, Gc.trashPath_append] at hpre
        have hne : rest ≠ [] := by
          rintro rfl
          have := hp.length_le
          simp [BlobStore.objectsDir] at this
        rw [List.dropLast_append_of_ne_nil hne, List.prefix_append_right_inj] at hpre
        have hdir : w.disk.IsDir (s.root ++ rest') := by
          apply Tree.isDir_of_prefix (Tree.isDir_parent hfile)
          rwa [List.dropLast_append_of_ne_nil hne, List.prefix_append_right_inj]
        refine hdir.resolve_left fun hnil => ?_
        have := hq.length_le
        simp [hnil, BlobStore.objectsDir] at this
    · simp [BlobStore.trashView, hq]
  have hsame : s.salvage t = s.salvage w.disk := by
    funext q
    rcases hnew q with h | ⟨h, hdir⟩
    · simp [BlobStore.salvage, hview, h]
    · simp [BlobStore.salvage, hview, hdir]
  refine hw.step (hview ▸ hw.sound.stocked) ⟨fun q b hq => ?_, fun q hq => ?_⟩ hsame
  · rcases hnew q with h | ⟨h, -⟩
    · exact hw.trash.files q b (h ▸ hq)
    · simp [h] at hq
  · rcases hnew q with h | ⟨-, hdir⟩
    · exact hw.trash.dirs q (h ▸ hq)
    · exact hw.sound.stocked.dirs q hdir

/-- Clearing the way for a file in the trash: as long as the file is in the store, nothing is
missing. -/
theorem Salvaged.clear (hw : Salvaged c s B x w) (hp : s.objectsDir <+: p)
    (hfile : (w.disk.node p).isSome) (ht : w.disk.removeFile (Gc.trashPath s p) = .ok t) :
    Salvaged c s B x ⟨t, w.caches⟩ := by
  have hview : s.view t = s.view w.disk := by
    funext q
    by_cases hq : s.objectsDir <+: q
    · rw [s.view_of_prefix hq, s.view_of_prefix hq, Tree.node_removeFile ht, if_neg]
      rintro rfl
      exact Gc.not_objects_of_trash (Gc.trash_prefix_trashPath p) hq
    · simp [BlobStore.view, hq]
  have htrash : ∀ q, s.trashView t q = if q = p then none else s.trashView w.disk q := by
    intro q
    by_cases hq : s.objectsDir <+: q
    · have hiff : Gc.trashPath s q = Gc.trashPath s p ↔ q = p :=
        ⟨Gc.trashPath_inj hq hp, fun h => by rw [h]⟩
      simp [BlobStore.trashView, hq, Tree.node_removeFile ht, hiff]
    · simp [BlobStore.trashView, hq]
  refine hw.step (hview ▸ hw.sound.stocked) ⟨fun q b hq => ?_, fun q hq => ?_⟩ ?_
  · rw [htrash] at hq
    split_ifs at hq
    exact hw.trash.files q b hq
  · rw [htrash] at hq
    split_ifs at hq
    exact hw.trash.dirs q hq
  · funext q
    by_cases hq : q = p
    · rw [← s.view_of_prefix hp] at hfile
      obtain ⟨n, hn⟩ := Option.isSome_iff_exists.mp hfile
      simp [BlobStore.salvage, hview, hq, hn]
    · simp [BlobStore.salvage, hview, htrash, hq]

/-- The move itself. -/
theorem Salvaged.rename (hw : Salvaged c s B x w) (hp : s.objectsDir <+: p)
    (ht : w.disk.rename p (Gc.trashPath s p) = .ok t) : Salvaged c s B x ⟨t, w.caches⟩ := by
  have hne : p ≠ Gc.trashPath s p := by
    intro h
    rw [h] at hp
    exact Gc.not_objects_of_trash (Gc.trash_prefix_trashPath p) hp
  obtain ⟨b, hb, hnode⟩ := Tree.rename_spec ht hne
  have hfile : s.view w.disk p = some (.file b) := by
    rw [s.view_of_prefix hp, Tree.file_eq_some.mp hb]
  have hview : ∀ q, s.view t q = if q = p then none else s.view w.disk q := by
    intro q
    by_cases hq : s.objectsDir <+: q
    · have hdest : q ≠ Gc.trashPath s p := by
        rintro rfl
        exact Gc.not_objects_of_trash (Gc.trash_prefix_trashPath p) hq
      simp only [s.view_of_prefix hq, hnode, hdest, if_false]
    · simp [BlobStore.view, hq]
  have htrash : ∀ q, s.trashView t q = if q = p then some (.file b) else s.trashView w.disk q := by
    intro q
    by_cases hq : s.objectsDir <+: q
    · have hiff : Gc.trashPath s q = Gc.trashPath s p ↔ q = p :=
        ⟨Gc.trashPath_inj hq hp, fun h => by rw [h]⟩
      have hgone : Gc.trashPath s q ≠ p := by
        intro h
        rw [← h] at hp
        exact Gc.not_objects_of_trash (Gc.trash_prefix_trashPath q) hp
      simp [BlobStore.trashView, hq, hnode, hiff, hgone]
    · have hqp : q ≠ p := fun h => hq (h ▸ hp)
      simp [BlobStore.trashView, hq, hqp]
  refine hw.step ⟨fun q b' hq => ?_, fun q hq => ?_⟩ ⟨fun q b' hq => ?_, fun q hq => ?_⟩ ?_
  · rw [hview] at hq
    split_ifs at hq
    exact hw.sound.stocked.files q b' hq
  · rw [hview] at hq
    split_ifs at hq
    exact hw.sound.stocked.dirs q hq
  · rw [htrash] at hq
    split_ifs at hq with hqp
    · rw [hqp, ← Node.file.inj (Option.some.inj hq)]
      exact hw.sound.stocked.files p b hfile
    · exact hw.trash.files q b' hq
  · rw [htrash] at hq
    split_ifs at hq with hqp
    · simp at hq
    · exact hw.trash.dirs q hq
  · funext q
    by_cases hq : q = p
    · simp [BlobStore.salvage, hview, htrash, hq, hfile]
    · simp [BlobStore.salvage, hview, htrash, hq]

end Moving

/-! ## Sweeps in trash mode -/

section Sweeps
variable {c : Crates} {s : BlobStore} {B : Set Bytes} {x : Nodes} {w u : World} {p : Path}
  {plan : Gc.SweepPlan} {options : Gc.SweepOptions} {live : Finset Hash}

/-- A loop keeps what each round keeps. -/
theorem throughout_foldlM {ε α β : Type} {K : World → Prop} {f : β → α → Action ε β} {xs : List α}
    (hstep : ∀ y ∈ xs, ∀ b u, K u → Throughout K (f b y) u fun _ u => K u) (init : β) (hw : K w) :
    Throughout K (xs.foldlM f init) w fun _ u => K u := by
  refine (Prog.Along.foldlM (h := answer) (I := K) (fun _ _ u => K u) (E := fun _ u => K u)
    hw hw ?_).mono (fun u hu => hu) fun r u hu _ => hu
  intro done y rest b u hsplit hu _
  exact (hstep y (by simp [hsplit]) b u hu).mono (fun u hu => hu) fun r u hu _ => by
    cases r <;> exact hu

/-- A change of the file system that keeps `K` where it succeeds. -/
theorem throughout_update {r : World → Except ErrorKind Tree} {o : Request} {K : World → Prop}
    {k : Answer o → Action ErrorKind Unit} (hanswer : (k (answer o w).1, (answer o w).2) =
      (Prog.ofExcept (w.update (r w)).1, (w.update (r w)).2)) (hw : K w)
    (hok : ∀ t, r w = .ok t → K ⟨t, w.caches⟩) : Throughout K (.call o k) w fun _ u => K u := by
  obtain ⟨hk, hnext⟩ := Prod.mk.inj hanswer
  have hlast : K (w.update (r w)).2 := by
    cases hr : r w with
    | error e => exact hw
    | ok t => exact hok t hr
  refine ⟨hw, ?_⟩
  rw [hk, hnext]
  exact Prog.Along.ofExcept hlast hlast

/-- A removal in trash mode, at every moment. -/
theorem Salvaged.removeOrTrash (hw : Salvaged c s B x w) (hp : s.objectsDir <+: p)
    (hlen : s.objectsDir.length + 2 ≤ p.length) :
    Throughout (Salvaged c s B x) (Gc.removeOrTrash s .trash (s.root ++ [Gc.trashDir]) p) w
      fun _ u => Salvaged c s B x u := by
  refine (throughout_reads (ioCas_reads (fileLength_reads p)) hw).bind ?_
    fun e u hu => by rw [hu.1]; exact hw
  rintro len u ⟨rfl, hlength⟩
  -- where the length of the file can be asked, the file is there
  have hfile : (u.disk.node p).isSome := by
    simp only [peek_ioCas, peek_fileLength, Tree.fileLen] at hlength
    by_contra hnone
    have hnone : u.disk.node p = none := by simpa using hnone
    have hne : p ≠ [] := by
      rintro rfl
      simp at hlen
    simp [Tree.IsDir, Tree.file, hnone, hne, Except.mapError] at hlength
  obtain ⟨rest, hrest⟩ := Gc.exists_rest hp
  have hstrip : Gc.stripPrefix s.root p = some rest := by rw [hrest, Gc.stripPrefix_append]
  have hdest : s.root ++ [Gc.trashDir] ++ rest = Gc.trashPath s p := by
    rw [hrest, Gc.trashPath_append]
  simp only [hstrip, hdest]
  have hne : p ≠ Gc.trashPath s p := by
    intro h
    rw [h] at hp
    exact Gc.not_objects_of_trash (Gc.trash_prefix_trashPath p) hp
  let K : World → Prop := fun u => Salvaged c s B x u ∧ (u.disk.node p).isSome
  have hmake : ∀ u, K u → Throughout K (ioCas (createDirAll (Gc.trashPath s p).dropLast)) u
      fun _ u => K u := by
    intro u hu
    refine Prog.Along.mapErr (throughout_update
      (r := fun w => w.disk.createDirAll (Gc.trashPath s p).dropLast) rfl hu fun t ht => ?_)
    refine ⟨hu.1.mkdir hp hu.2 ht, ?_⟩
    rcases Tree.node_createDirAll ht p with hsame | ⟨hnone, -, -⟩
    · rw [hsame]
      exact hu.2
    · have := hu.2
      simp [hnone] at this
  have hclear : ∀ u, K u → Throughout K (Gc.clearDestination (Gc.trashPath s p)) u
      fun _ u => K u := by
    intro u hu
    refine ⟨hu, ?_⟩
    show Throughout K (if u.disk.exists (Gc.trashPath s p) = true then
      (removeFile (Gc.trashPath s p)).attempt >>= fun _ : Except ErrorKind Unit => .ret ()
      else .ret ()) u _
    split_ifs with hex
    · have hremove : Throughout K (removeFile (Gc.trashPath s p)) u fun _ u => K u := by
        refine throughout_update (r := fun w => w.disk.removeFile (Gc.trashPath s p)) rfl hu
          fun t ht => ⟨hu.1.clear hp hu.2 ht, ?_⟩
        rw [Tree.node_removeFile ht, if_neg hne]
        exact hu.2
      have hattempt : Throughout K ((removeFile (Gc.trashPath s p)).attempt :
          Action CasError (Except ErrorKind Unit)) u fun _ u => K u := Prog.Along.attempt hremove
      exact hattempt.bind (fun _ u hu => ⟨hu, hu⟩) fun e u hu => hu
    · exact ⟨hu, hu⟩
  have hmove : ∀ u, K u → Throughout (Salvaged c s B x)
      (ioCas (renameFile p (Gc.trashPath s p))) u fun _ u => Salvaged c s B x u := by
    intro u hu
    exact Prog.Along.mapErr (throughout_update
      (r := fun w => w.disk.rename p (Gc.trashPath s p)) rfl hu.1 fun t ht => hu.1.rename hp ht)
  have hforget : ∀ {ε α : Type} {q : Action ε α} {u : World}, Throughout K q u (fun _ u => K u) →
      Throughout (Salvaged c s B x) q u fun _ u => K u := fun hq =>
    hq.mono (fun _ hu => hu.1) fun _ _ _ hu => hu
  refine (hforget (hmake u ⟨hw, hfile⟩)).bind (fun _ u hu => ?_) fun e u hu => hu.1
  refine (hforget (hclear u hu)).bind (fun _ u hu => ?_) fun e u hu => hu.1
  exact (hmove u hu).bind (fun _ u hu => ⟨hu, hu⟩) fun e u hu => hu

/-- The phases of a sweep that remove, at every moment. -/
theorem Salvaged.discard (hw : Salvaged c s B x w) (tally : Gc.Tally)
    (hmode : options.mode = .trash)
    (horphan : ∀ q ∈ plan.orphanFiles, ∃ name, q = s.packDir ++ [name])
    (hremove : ∀ p ∈ Gc.removals plan options, IsPackName s.packDir p) :
    Throughout (Salvaged c s B x) (Gc.discard s plan options tally) w
      fun _ u => Salvaged c s B x u := by
  have hlen : ∀ name, s.objectsDir.length + 2 ≤ (s.packDir ++ [name]).length := fun name => by
    simp [s.packDir_eq]
  have htrash : ∀ {p : Path} {u : World} (tally : Gc.Tally) (f : Gc.Tally → ℕ → Gc.Tally),
      Salvaged c s B x u → s.objectsDir <+: p → s.objectsDir.length + 2 ≤ p.length →
      Throughout (Salvaged c s B x) (Gc.removeOrTrash s options.mode (s.root ++ [Gc.trashDir]) p >>=
        fun len => .ret (f tally len)) u fun _ u => Salvaged c s B x u := by
    intro p u tally f hu hp hlen
    rw [hmode]
    exact (hu.removeOrTrash hp hlen).bind (fun _ u hu => ⟨hu, hu⟩) fun e u hu => hu
  have horphans : ∀ {name} tally u, Salvaged c s B x u → Throughout (Salvaged c s B x)
      (Gc.removeOrphan s options.mode tally (s.packDir ++ [name])) u
      fun _ u => Salvaged c s B x u := fun tally u hu =>
    htrash tally (fun tally len => { tally with
      bytesReclaimed := tally.bytesReclaimed + len }) hu (s.objectsDir_prefix_of_packDir _) (hlen _)
  have hthere : ∀ {name} tally u, Salvaged c s B x u → Throughout (Salvaged c s B x)
      (Gc.removeIfThere s options.mode tally (s.packDir ++ [name])) u
      fun _ u => Salvaged c s B x u := by
    intro name tally u hu
    refine ⟨hu, ?_⟩
    show Throughout (Salvaged c s B x) (if u.disk.exists (s.packDir ++ [name]) = true then
      Gc.removeOrphan s options.mode tally (s.packDir ++ [name]) else .ret tally) u _
    split_ifs with hex
    · exact horphans tally u hu
    · exact ⟨hu, hu⟩
  refine (throughout_foldlM (fun h _ tally u hu => ?_) tally hw).bind (fun tally u hu => ?_)
    fun e u hu => hu
  · exact htrash tally (fun tally len => { tally with
      bytesReclaimed := tally.bytesReclaimed + len, looseRemoved := tally.looseRemoved + 1 }) hu
      (Gc.loosePath_eq (s := s) h ▸ s.objectsDir_prefix_blobPath)
      (by simp [Gc.loosePath_eq, s.blobPath_eq])
  refine (throughout_foldlM (fun q hq tally u hu => ?_) tally hu).bind (fun tally u hu => ?_)
    fun e u hu => hu
  · obtain ⟨name, rfl⟩ := horphan q hq
    exact horphans tally u hu
  refine (throughout_foldlM (fun p hp tally u hu => ?_) tally hu).bind (fun tally u hu => ?_)
    fun e u hu => hu
  · obtain ⟨file, hfile⟩ := idxOf_of_isPackName (hremove p hp)
    obtain ⟨name, rfl, -⟩ := hremove p hp
    refine (throughout_foldlM (fun q hq tally u hu => ?_) tally hu).bind
      (fun tally u hu => ⟨hu, hu⟩) fun e u hu => hu
    rcases List.mem_cons.mp hq with rfl | hq
    · rw [show withExtension (s.packDir ++ [name]) idxExt = _ from hfile]
      exact hthere tally u hu
    · rw [List.mem_singleton.mp hq]
      exact hthere tally u hu
  · have hlast : Salvaged c s B x { u with caches := { u.caches with packCache := none } } :=
      ⟨⟨hu.sound.stocked, hu.sound.caches.blobs, fun pc hpc => by cases hpc⟩, hu.trash, hu.keeps⟩
    exact ⟨hu, hu, hlast, hlast, hlast⟩

/-- A pack reads the same in two stores in order that both have its files. -/
theorem Stocked.recordAt_eq {v u : Nodes} {h : Hash} (hinj : Set.InjOn (hashBytes c) B)
    (hv : Stocked c s B v) (hu : Stocked c s B u) (hp : s.Indexed v p) (hp' : s.Indexed u p) :
    recordAt c u p h = recordAt c v p h := by
  have hfile : ∀ q, s.objectsDir.length + 2 ≤ q.length → (v q).isSome → (u q).isSome →
      bytesAt u q = bytesAt v q := by
    intro q hlen hq hq'
    obtain ⟨b, hb⟩ := hv.file_of_isSome hlen hq
    obtain ⟨b', hb'⟩ := hu.file_of_isSome hlen hq'
    rw [bytesAt_eq_some.mpr hb, bytesAt_eq_some.mpr hb',
      (hv.files q b hb).unique hinj (hu.files q b' hb')]
  have hname := hp.1.1
  rw [recordAt, recordAt, indexAt, indexAt, hfile p hname.length.ge hp.1.2 hp'.1.2,
    hfile (idxOf p) hname.length_idxOf.ge hp.2 hp'.2]

/-- What happens in the store while the trash stays as it is. -/
theorem Salvaged.of_keeps (hinj : Set.InjOn (hashBytes c) B) (hw : Salvaged c s B x w)
    (hkeeps : Keeps c s B (s.view w.disk) (s.view u.disk)) (hcaches : u.caches.Sound c s B)
    (htrash : s.trashView u.disk = s.trashView w.disk) : Salvaged c s B x u := by
  refine ⟨⟨hkeeps.stocked, hcaches⟩, htrash ▸ hw.trash, hw.keeps.trans ?_⟩
  unfold BlobStore.salvage
  rw [htrash]
  exact hkeeps.or hinj hw.sound.stocked hw.trash

/-- The condition on a sweep: what its rewrites pack fits. -/
def SweepFits (c : Crates) (s : BlobStore) (B : Set Bytes) (live : Finset Hash)
    (options : Gc.SweepOptions) (t : Tree) : Prop :=
  ∀ plan, peek (Gc.planSweep s live) t = .ok plan → ∀ r ∈ Gc.rewrites plan options,
    ∀ objects, Gc.keptObjects c (s.view t) r = some objects → PackFits c B objects

/-- One rewrite, at every moment. -/
theorem Salvaged.rewritePack (hz : ZstdSound c) (hinj : Set.InjOn (hashBytes c) B)
    (hu : Salvaged c s B x u) {r : Gc.PackRewrite} (tally : Gc.Tally) (hr : IsPackName s.packDir r.pack)
    (hfits : ∀ objects, Gc.keptObjects c (s.view u.disk) r = some objects → PackFits c B objects) :
    Throughout (fun t => Salvaged c s B x t ∧ Keeps c s B (s.view u.disk) (s.view t.disk))
      (Gc.rewritePack c s tally r) u fun _ _ => True := by
  have hstart : Salvaged c s B x u ∧ Keeps c s B (s.view u.disk) (s.view u.disk) :=
    ⟨hu, .refl hu.sound.stocked⟩
  refine (throughout_reads (packCas_reads (load_reads _)) hstart).bind ?_ fun _ _ _ => trivial
  rintro index u ⟨rfl, hindex⟩
  refine (throughout_reads (Prog.Uses.foldlM Gc.readKept_reads r.keep []) hstart).bind ?_
    fun _ _ _ => trivial
  rintro objects u ⟨rfl, hobjects⟩
  have hkept := Gc.keptObjects_of_reads hr hindex.symm hobjects.symm
  have hfiled : ∀ o ∈ objects, Filed c s B o.1 o.2 := fun o ho =>
    hu.sound.stocked.filed_of_recordAt hz hinj hr ((Gc.mem_keptObjects hkept).2 o ho)
  obtain ⟨hlawful, hdrop⟩ := createChanges_lawful (s := s) (hfits objects hkept) hfiled
  have hlasts := hu.sound.lasts hinj (@performs_create c s objects u)
    (BlobStore.create_stores s.packDir objects) hlawful hdrop
  have hboth := Prog.Along.and hlasts (throughout_inside (create_inside objects))
  have hcreate : Throughout (fun t => Salvaged c s B x t ∧
      Keeps c s B (s.view u.disk) (s.view t.disk)) (packCas (PackFile.create c s.packDir objects)) u
      fun _ t => Salvaged c s B x t ∧ Keeps c s B (s.view u.disk) (s.view t.disk) :=
    Prog.Along.mapErr ((hboth.mono (fun t ht =>
      ⟨hu.of_keeps hinj ht.1.1 ht.1.2 ht.2, ht.1.1⟩) fun _ _ _ ht => ht).mono
        (fun t ht => ht) fun r t ht _ => ht)
  refine hcreate.bind (fun created t ht => ?_) fun _ _ _ => trivial
  have hlength : ∀ {β : Type} {q : Path} {f : ℕ → Action CasError β},
      (∀ n, Throughout (fun t => Salvaged c s B x t ∧ Keeps c s B (s.view u.disk) (s.view t.disk))
        (f n) t fun _ _ => True) →
      Throughout (fun t => Salvaged c s B x t ∧ Keeps c s B (s.view u.disk) (s.view t.disk))
        (ioCas (fileLength q) >>= f) t fun _ _ => True := by
    intro β q f hf
    refine (throughout_reads (ioCas_reads (fileLength_reads q)) ht).bind ?_ fun _ _ _ => trivial
    rintro n t' ⟨rfl, -⟩
    exact hf n
  exact hlength fun _ => hlength fun _ => hlength fun _ => hlength fun _ => ⟨ht, trivial⟩

/-- A sweep in trash mode or a dry run, at every moment. -/
theorem Salvaged.sweep (hz : ZstdSound c) (hinj : Set.InjOn (hashBytes c) B)
    (hw : Salvaged c s B x w) (hmode : options.mode ≠ .delete)
    (hfits : SweepFits c s B live options w.disk) :
    Throughout (Salvaged c s B x) (Gc.sweep c s live options) w fun _ _ => True := by
  refine (throughout_reads Gc.planSweep_reads hw).bind ?_ fun _ _ _ => trivial
  rintro plan w ⟨rfl, hplan⟩
  have hplanned := Gc.planned hplan.symm
  obtain ⟨hnames, -, hremove⟩ := hplanned.names options
  by_cases hdry : options.mode = .dryRun
  · simp only [hdry, if_true]
    exact ⟨hw, trivial⟩
  · have htrash : options.mode = .trash := by
      cases hcase : options.mode <;> simp_all
    simp only [hdry, if_false]
    let K : World → Prop := fun u => Salvaged c s B x u ∧
      Keeps c s B (s.view w.disk) (s.view u.disk)
    have hrewrites : Throughout K ((Gc.rewrites plan options).foldlM (Gc.rewritePack c s)
        ⟨0, 0, 0, 0⟩) w fun _ u => K u := by
      refine throughout_foldlM (fun r hr tally u hu => ?_) _ ⟨hw, .refl hw.sound.stocked⟩
      have hmem : r ∈ plan.packsToRewrite := by
        unfold Gc.rewrites at hr
        split_ifs at hr
        · exact hr
        · simp at hr
      have hname := (hnames r hmem).1
      -- the pack that is rewritten was there when the sweep was planned
      have hindexed : s.Indexed (s.view w.disk) r.pack := by
        obtain ⟨k, hk⟩ := List.exists_mem_of_ne_nil _ (hplanned.keep_ne_nil r hmem)
        exact ((hplanned.keep r hmem k).mp hk).garbage.indexed
      have hthen : s.Indexed (s.view u.disk) r.pack := by
        obtain ⟨⟨-, hpack⟩, hidx⟩ := hindexed
        obtain ⟨file, hfile⟩ := idxOf_of_isPackName hname
        obtain ⟨name, heq, -⟩ := id hname
        rw [hfile] at hidx
        rw [heq] at hpack
        exact ⟨⟨hname, heq ▸ hu.2.packs _ hpack⟩, hfile ▸ hu.2.packs _ hidx⟩
      have hsame : Gc.keptObjects c (s.view u.disk) r = Gc.keptObjects c (s.view w.disk) r := by
        simp only [Gc.keptObjects,
          hw.sound.stocked.recordAt_eq hinj hu.1.sound.stocked hindexed hthen]
      have hone := hu.1.rewritePack hz hinj tally hname fun objects hobjects =>
        hfits plan hplan.symm r hr objects (hsame ▸ hobjects)
      exact (hone.mono (fun t ht => And.intro ht.1 (hu.2.trans ht.2)) fun _ _ _ h => h).mono
        (fun t ht => ht) fun _ t ht _ => ht
    have hexecute : Throughout (Salvaged c s B x) (Gc.execute c s plan options) w
        fun _ _ => True := by
      rw [Gc.execute_discard]
      refine (hrewrites.mono (fun u hu => hu.1) fun _ _ _ hu => hu).bind ?_ fun _ _ _ => trivial
      intro tally u hu
      refine (hu.1.discard tally htrash (fun q hq => ?_) hremove).mono
        (fun t ht => ht) fun _ _ _ _ => trivial
      exact BlobStore.exists_name_of_orphan ((hplanned.orphanFiles q).mp hq)
    exact (hexecute.mono (fun t ht => ht) fun _ t ht _ => ht).bind
      (fun tally t ht => ⟨ht, trivial⟩) fun _ _ _ => trivial

end Sweeps

/-! ## Histories with a trash -/

/-- The calls that destroy nothing: in trash mode a sweep only moves files. -/
def BlobStore.StoreCall.Salvages (c : Crates) (s : BlobStore) (B : Set Bytes) (w : World) :
    BlobStore.StoreCall → Prop
  | .put call => call.bytes ∈ B
  | .getBlob _ _ => True
  | .hasBlob _ _ => True
  | .deleteBlob _ => False
  | .repack order _ => RepackFits c s B order w
  | .sweep live options => options.mode ≠ .delete ∧ SweepFits c s B live options w.disk

section Histories
variable {c : Crates} {s : BlobStore} {B : Set Bytes} {x : Nodes} {w u z : World} {h : Hash}
  {d : Bytes}

theorem Salvaged.reopen (hw : Salvaged c s B x w) : Salvaged c s B x ⟨w.disk, .empty⟩ :=
  ⟨⟨hw.sound.stocked, Caches.sound_empty c s B⟩, hw.trash, hw.keeps⟩

/-- One call, when it completes and wherever it is cut off. -/
theorem Salvaged.call (hz : ZstdSound c) (hinj : Set.InjOn (hashBytes c) B)
    (hw : Salvaged c s B x w) (call : BlobStore.StoreCall) (hcall : call.Salvages c s B w) :
    Salvaged c s B x (call.after c s w) ∧
      ∀ n, Salvaged c s B x ⟨(call.cutAfter c s n w).disk, .empty⟩ := by
  have hinside : ∀ {ε α : Type} {p : Action ε α}, Lasts c s B p w → p.Uses (Request.Inside s) →
      Salvaged c s B x (run p w).2 ∧ ∀ n, Salvaged c s B x ⟨(cutOff n p w).disk, .empty⟩ := by
    intro ε α p hlasts hp
    have htrash := throughout_inside (w := w) hp
    exact ⟨hw.of_keeps hinj hlasts.last hlasts.at_end htrash.last, fun n =>
      hw.of_keeps hinj (hlasts.at_cut n) (Caches.sound_empty c s B) (htrash.at_cut n)⟩
  have hlooks : ∀ {ε α : Type} {p : Action ε α}, p.Uses Request.Looks →
      Sound c s B (run p w).2 →
      Salvaged c s B x (run p w).2 ∧ ∀ n, Salvaged c s B x ⟨(cutOff n p w).disk, .empty⟩ := by
    intro ε α p hp hafter
    have hend : (run p w).2.disk = w.disk :=
      hp.exec_eq (h := answer) World.disk (fun o u ho => answer_looks ho u) w
    have hcut : ∀ n, (cutOff n p w).disk = w.disk :=
      fun n => hp.cut_eq (h := answer) World.disk (fun o u ho => answer_looks ho u) n w
    exact ⟨⟨hafter, hend ▸ hw.trash, hend ▸ hw.keeps⟩, fun n => hcut n ▸ hw.reopen⟩
  cases call with
  | put call => exact hinside (hw.sound.put hinj hcall) call.action_inside
  | getBlob order hash =>
    exact hlooks (BlobStore.getBlob_looks order hash) (hw.sound.getBlob hz hinj order hash).1
  | hasBlob order hash =>
    exact hlooks ((BlobStore.hasBlob_consults order hash).mono fun _ ho => ho.looks)
      (hw.sound.hasBlob hinj order hash)
  | deleteBlob hash => exact hcall.elim
  | repack order threshold =>
    exact hinside (hw.sound.repack hz hinj hcall) (repack_inside order threshold)
  | sweep live options =>
    have hsweep := hw.sweep hz hinj hcall.1 hcall.2
    exact ⟨hsweep.last, fun n => (hsweep.at_cut n).reopen⟩

/-- Through a history nothing gets lost from the store over its trash. -/
theorem salvaged_history (hz : ZstdSound c) (hinj : Set.InjOn (hashBytes c) B)
    (hw : Sound c s B w) (htrash : Stocked c s B (s.trashView w.disk))
    (hhist : (s.system c).History (fun w call => call.Salvages c s B w) w u) :
    (Sound c s B u ∧ Stocked c s B (s.trashView u.disk)) ∧ ∀ h d,
      Stored c s B (s.salvage w.disk) h d → Stored c s B (s.salvage u.disk) h d := by
  refine hhist.keeps (I := fun u => Sound c s B u ∧ Stocked c s B (s.trashView u.disk))
    (R := fun w u => ∀ h d, Stored c s B (s.salvage w.disk) h d →
      Stored c s B (s.salvage u.disk) h d)
    (fun t h d hd => hd) (fun t u v h h' k d hd => h' k d (h k d hd)) ?_ ?_ ⟨hw, htrash⟩
  · intro t call ht hcall
    have hstart : Salvaged c s B (s.salvage t.disk) t :=
      ⟨ht.1, ht.2, .refl (ht.1.stocked.or ht.2)⟩
    obtain ⟨hafter, -⟩ := hstart.call hz hinj call hcall
    exact ⟨⟨hafter.sound, hafter.trash⟩, hafter.keeps.stored⟩
  · intro t call n ht hcall
    have hstart : Salvaged c s B (s.salvage t.disk) t :=
      ⟨ht.1, ht.2, .refl (ht.1.stocked.or ht.2)⟩
    obtain ⟨-, hcut⟩ := hstart.call hz hinj call hcall
    exact ⟨⟨(hcut n).sound, (hcut n).trash⟩, (hcut n).keeps.stored⟩

/-- What is stored is stored over any trash. -/
theorem Stored.or {v y : Nodes} (hinj : Set.InjOn (hashBytes c) B) (hv : Stocked c s B v)
    (hy : Stocked c s B y) (hd : Stored c s B v h d) :
    Stored c s B (fun p => (v p).or (y p)) h d := by
  refine ⟨hd.1, ?_⟩
  rcases hd.2 with ⟨b, hb⟩ | ⟨p, hl⟩
  · exact .inl ⟨b, by simp [hb]⟩
  · obtain ⟨⟨-, hp⟩, hidx⟩ := hl.indexed
    exact .inr ⟨p, hv.lists_of_isSome hinj (hv.or hy) hl (by simp [hp]) (by simp [hidx])⟩

/-- In a history of puts, reads, repacks, dry runs and sweeps in trash mode with any live sets, in
which every call completes or is cut off at any moment and the store is opened anew, a blob that
could be read once can be got back for ever. -/
theorem recoverable_of_history (hz : ZstdSound c) (hinj : Set.InjOn (hashBytes c) B)
    (hw : Sound c s B w) (htrash : Stocked c s B (s.trashView w.disk))
    (past : (s.system c).History (fun w call => call.Salvages c s B w) w u)
    (future : (s.system c).History (fun w call => call.Salvages c s B w) u z)
    (hread : s.Reads c u.disk h d) (hhash : hashBytes c d = h)
    (hlen : d.length ≤ maxDecompressedSize) : s.Recoverable c z.disk h d := by
  obtain ⟨⟨hu, hutrash⟩, -⟩ := salvaged_history hz hinj hw htrash past
  obtain ⟨⟨hz', hztrash⟩, hstored⟩ := salvaged_history hz hinj hu hutrash future
  have hd := (hu.stocked.stored_of_readsBack hz hinj (s.reads_iff.mp hread)).or hinj hu.stocked
    hutrash
  exact recoverable_of_readsBack ((hz'.stocked.or hztrash).readsBack_of_stored hz hinj
    (hstored h d hd) hhash hlen)

/-- A store without a trash. -/
theorem Stocked.no_trash {t : Tree} (hnone : t.node (s.root ++ [Gc.trashDir]) = none) :
    Stocked c s B (s.trashView t) := by
  have hempty : ∀ q, s.trashView t q = none := by
    intro q
    by_contra hq
    have hobj : s.objectsDir <+: q := by
      by_contra hobj
      simp [BlobStore.trashView, hobj] at hq
    have hsome : (t.node (Gc.trashPath s q)).isSome := by
      simpa [BlobStore.trashView, hobj, Option.isSome_iff_ne_none] using hq
    obtain ⟨rest, rfl⟩ := Gc.exists_rest hobj
    rw [Gc.trashPath_append] at hsome
    rcases List.eq_nil_or_concat rest with rfl | ⟨front, name, rfl⟩
    · simp [hnone] at hsome
    · have hparent := Tree.isDir_parent hsome
      rw [List.concat_eq_append, ← List.append_assoc, List.dropLast_concat] at hparent
      rcases Tree.isDir_of_prefix hparent (List.prefix_append _ _) with hnil | hdir
      · simp at hnil
      · simp [hnone] at hdir
  exact ⟨fun q b hq => by simp [hempty] at hq, fun q hq => by simp [hempty] at hq⟩

/-- `a` and `g` are stored. -/
def salvagePut : World := BlobStore.StoreCall.after Concrete.crates (Concrete.store false)
  lastingPut (.put (.putBlob (text "g")))

/-- A repack packs both. -/
def salvagePacked : World := BlobStore.StoreCall.after Concrete.crates (Concrete.store false)
  salvagePut (.repack .inserted 0)

/-- A sweep for `a` alone stops when the index of that pack is in the trash and the pack is not. -/
def salvageSplit : World := ⟨(BlobStore.StoreCall.cutAfter Concrete.crates (Concrete.store false) 28
  salvagePacked (.sweep {hashBytes Concrete.crates (text "a")} ⟨.trash, true⟩)).disk, .empty⟩

/-- The blobs and what is in the files. -/
def salvageBytes : List Bytes :=
  [text "a", text "g"] ++ Concrete.files salvagePacked.disk ++ Concrete.files salvageSplit.disk

/-- `g` can be got back from the two halves of its pack. -/
theorem recoverable_split : (Concrete.store false).Recoverable Concrete.crates salvageSplit.disk
    (hashBytes Concrete.crates (text "g")) (text "g") := by
  have hinj : Set.InjOn (hashBytes Concrete.crates) {b | b ∈ salvageBytes} := by
    have hall : ∀ b ∈ salvageBytes, ∀ b' ∈ salvageBytes,
        hashBytes Concrete.crates b = hashBytes Concrete.crates b' → b = b' := by
      decide +kernel
    exact fun b hb b' hb' => hall b hb b' hb'
  have hstart : Sound Concrete.crates (Concrete.store false) {b | b ∈ salvageBytes}
      ⟨Concrete.newDisk, .empty⟩ :=
    ⟨.new (Concrete.view_newDisk false), Caches.sound_empty _ _ _⟩
  have htrash : Stocked Concrete.crates (Concrete.store false) {b | b ∈ salvageBytes}
      ((Concrete.store false).trashView Concrete.newDisk) :=
    Stocked.no_trash (by decide +kernel)
  have ha : ((Concrete.store false).system Concrete.crates).History (fun w call =>
      call.Salvages Concrete.crates (Concrete.store false) {b | b ∈ salvageBytes} w)
      ⟨Concrete.newDisk, .empty⟩ lastingPut :=
    System.History.call .start (BlobStore.StoreCall.put (.putBlob (text "a")))
      (show text "a" ∈ salvageBytes by simp [salvageBytes])
  have hg : ((Concrete.store false).system Concrete.crates).History (fun w call =>
      call.Salvages Concrete.crates (Concrete.store false) {b | b ∈ salvageBytes} w)
      ⟨Concrete.newDisk, .empty⟩ salvagePut :=
    ha.call (BlobStore.StoreCall.put (.putBlob (text "g")))
      (show text "g" ∈ salvageBytes by simp [salvageBytes])
  have hpacked : ((Concrete.store false).system Concrete.crates).History (fun w call =>
      call.Salvages Concrete.crates (Concrete.store false) {b | b ∈ salvageBytes} w)
      salvagePut salvagePacked :=
    System.History.call .start (BlobStore.StoreCall.repack .inserted 0)
      (repackFits_concrete (by decide +kernel))
  have hsplit : ((Concrete.store false).system Concrete.crates).History (fun w call =>
      call.Salvages Concrete.crates (Concrete.store false) {b | b ∈ salvageBytes} w)
      salvagePut salvageSplit := by
    refine System.History.crash hpacked (BlobStore.StoreCall.sweep
      {hashBytes Concrete.crates (text "a")} ⟨.trash, true⟩) ⟨by decide, ?_⟩ 28
    have hfits : ∀ plan ∈ (peek (Gc.planSweep (Concrete.store false)
        {hashBytes Concrete.crates (text "a")}) salvagePacked.disk).toOption,
        ∀ r ∈ Gc.rewrites plan ⟨.trash, true⟩, ∀ objects ∈ Gc.keptObjects Concrete.crates
          ((Concrete.store false).view salvagePacked.disk) r,
            Concrete.Fits salvageBytes objects := by
      decide +kernel
    intro plan hplan r hr objects hobjects
    exact (hfits plan (by simp [hplan, Except.toOption]) r hr objects hobjects).packFits
  have hread : (Concrete.store false).Reads Concrete.crates salvagePut.disk
      (hashBytes Concrete.crates (text "g")) (text "g") := by
    rw [BlobStore.reads_iff]
    exact .inl ⟨text "g", by decide +kernel⟩
  exact recoverable_of_history Concrete.zstdSound hinj hstart htrash hg hsplit hread rfl
    (by decide +kernel)

end Histories

end CasKit
