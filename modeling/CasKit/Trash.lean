import CasKit.Accounting
import CasKit.Lib.Lockstep

/-!
# The trash

A sweep in trash mode differs from one in delete mode only in where the removed files go. Each of
them ends at its mirrored path in the trash, with the bytes it had, and whatever else the trash
holds stays.
-/
namespace CasKit
open Effects Files Codec

namespace Gc
variable {c : Crates} {s : BlobStore} {w w' : World} {t u x : Tree} {p q : Path} {b : Bytes}

/-- Where the trash keeps a file of the store. -/
def trashPath (s : BlobStore) (p : Path) : Path := s.root ++ [trashDir] ++ p.drop s.root.length

theorem trashPath_append (rest : Path) :
    trashPath s (s.root ++ rest) = s.root ++ [trashDir] ++ rest := by
  simp [trashPath]

theorem exists_rest (hp : s.objectsDir <+: p) : ∃ rest, p = s.root ++ rest := by
  obtain ⟨rest, hrest⟩ := (List.prefix_append s.root [objectsName]).trans hp
  exact ⟨rest, hrest.symm⟩

theorem trashPath_inj (hp : s.objectsDir <+: p) (hq : s.objectsDir <+: q)
    (h : trashPath s p = trashPath s q) : p = q := by
  obtain ⟨rest, rfl⟩ := exists_rest hp
  obtain ⟨rest', rfl⟩ := exists_rest hq
  rw [trashPath_append, trashPath_append] at h
  rw [List.append_cancel_left h]

/-- The trash and the store proper have no path in common. -/
theorem not_objects_of_trash (hp : s.root ++ [trashDir] <+: p) : ¬ s.objectsDir <+: p := by
  obtain ⟨rest, rfl⟩ := hp
  exact not_objectsDir_prefix_trash rest

theorem trash_prefix_trashPath (p : Path) : s.root ++ [trashDir] <+: trashPath s p :=
  List.prefix_append _ _

/-- What moving files of the store into the trash does to the disk. -/
structure Relocated (s : BlobStore) (t u : Tree) : Prop where
  objects : ∀ q, s.objectsDir <+: q → u.node q = t.node q ∨ u.node q = none
  moved : ∀ q b, s.objectsDir <+: q → t.file q = some b → u.node q = none →
    u.file (trashPath s q) = some b
  kept : ∀ p, s.root ++ [trashDir] <+: p →
    (∀ q b, s.objectsDir <+: q → t.file q = some b → u.node q = none → p ≠ trashPath s q) →
    u.file p = t.file p ∧ ((t.node p).isSome → u.node p = t.node p)

theorem Relocated.refl (t : Tree) : Relocated s t t where
  objects _ _ := .inl rfl
  moved q b _ hfile hnone := by
    rw [Tree.file_eq_some, hnone] at hfile
    cases hfile
  kept _ _ _ := ⟨rfl, fun _ => rfl⟩

/-- A file that is gone stays gone, so nothing moves onto its place in the trash. -/
theorem Relocated.trans (htu : Relocated s t u) (hux : Relocated s u x) : Relocated s t x := by
  have hgone : ∀ q, s.objectsDir <+: q → u.node q = none → x.node q = none := by
    intro q hq hnone
    rcases hux.objects q hq with h | h
    · rw [h, hnone]
    · exact h
  have hback : ∀ q b, s.objectsDir <+: q → u.file q = some b → t.file q = some b := by
    intro q b hq hfile
    rcases htu.objects q hq with h | h
    · rw [← Tree.file_congr h]
      exact hfile
    · rw [Tree.file_eq_some, h] at hfile
      cases hfile
  constructor
  · intro q hq
    rcases hux.objects q hq with h | h
    · rw [h]
      exact htu.objects q hq
    · exact .inr h
  · intro q b hq hfile hnone
    rcases htu.objects q hq with h | h
    · exact hux.moved q b hq ((Tree.file_congr h).trans hfile) hnone
    · have hmoved := htu.moved q b hq hfile h
      have hkept := hux.kept (trashPath s q) (trash_prefix_trashPath q) fun q' b' hq' hfile' _ heq => by
        obtain rfl := trashPath_inj hq hq' heq
        rw [Tree.file_eq_some, h] at hfile'
        cases hfile'
      rw [hkept.1, hmoved]
  · intro p hp hother
    have h1 := htu.kept p hp fun q b hq hfile hnone =>
      hother q b hq hfile (hgone q hq hnone)
    have h2 := hux.kept p hp fun q b hq hfile hnone =>
      hother q b hq (hback q b hq hfile) hnone
    refine ⟨h2.1.trans h1.1, fun hsome => ?_⟩
    have hsame := h1.2 hsome
    exact (h2.2 (by rw [hsame]; exact hsome)).trans hsame

/-! ## One removal -/

/-- An older copy that makes way is the only file that changes. -/
theorem node_clearDestination (hq : q ≠ p) :
    (run (clearDestination p) w).2.disk.node q = w.disk.node q := by
  have huses : (clearDestination p).Uses fun o => o = .exists p ∨ o = .removeFile p := by
    refine ⟨.inl rfl, fun there => ?_⟩
    cases (there : Bool) with
    | false => trivial
    | true =>
      have hremove : (removeFile p).Uses fun o => o = .exists p ∨ o = .removeFile p :=
        ⟨.inr rfl, fun r => Prog.Uses.ofExcept r⟩
      exact hremove.attempt.bind fun _ => trivial
  refine huses.exec_eq (fun w => w.disk.node q) (fun o u ho => ?_) w
  rcases ho with rfl | rfl
  · rfl
  · show (u.update (u.disk.removeFile p)).2.disk.node q = u.disk.node q
    cases hremoved : u.disk.removeFile p with
    | error e => rfl
    | ok t =>
      show t.node q = u.disk.node q
      rw [Tree.node_removeFile hremoved, if_neg hq]

theorem run_update_ok {r : Except ErrorKind Tree} {v : World} (h : w.update r = (.ok (), v)) :
    r = .ok v.disk := by
  cases r with
  | error e => cases (Prod.mk.inj h).1
  | ok t => rw [← (Prod.mk.inj h).2]

/-- A removal in trash mode relocates the file. -/
theorem relocated_of_trash {n : ℕ} (hp : s.objectsDir <+: p)
    (hrun : run (removeOrTrash s .trash (s.root ++ [trashDir]) p) w = (.ok n, w')) :
    Relocated s w.disk w'.disk := by
  obtain ⟨rest, rfl⟩ := exists_rest hp
  obtain ⟨len, w0, hlen, hrun⟩ := run_bind_eq_ok hrun
  rw [run_of_reads (ioCas_reads (fileLength_reads _))] at hlen
  obtain ⟨-, rfl⟩ := Prod.mk.inj hlen
  simp only [stripPrefix_append] at hrun
  obtain ⟨_, w1, hmk, hrun⟩ := run_bind_eq_ok hrun
  obtain ⟨_, w2, hclear, hrun⟩ := run_bind_eq_ok hrun
  obtain ⟨_, w3, hmove, hrun⟩ := run_bind_eq_ok hrun
  obtain ⟨-, rfl⟩ := Prod.mk.inj hrun
  have hmade := run_mapErr_eq_ok hmk
  rw [run_createDirAll] at hmade
  have hmoved := run_mapErr_eq_ok hmove
  rw [run_renameFile] at hmoved
  have hdest : ¬ s.objectsDir <+: s.root ++ [trashDir] ++ rest := not_objectsDir_prefix_trash rest
  have houtside : ∀ r, s.objectsDir <+: r → r ≠ s.root ++ [trashDir] ++ rest := by
    rintro r hr rfl
    exact hdest hr
  have hne := houtside _ hp
  obtain ⟨b, hb, hnode⟩ := Tree.rename_spec (run_update_ok hmoved) hne
  have hcleared : ∀ r, r ≠ s.root ++ [trashDir] ++ rest → w2.disk.node r = w1.disk.node r := by
    intro r hr
    have hsame := node_clearDestination (w := w1) hr
    rw [hclear] at hsame
    exact hsame
  have hobjects : ∀ r, s.objectsDir <+: r → w2.disk.node r = w.disk.node r := by
    intro r hr
    rw [hcleared r (houtside r hr)]
    rcases Tree.node_createDirAll (run_update_ok hmade) r with h | ⟨-, -, hpre⟩
    · exact h
    · exact absurd (hr.trans (hpre.trans (List.dropLast_prefix _))) hdest
  have hwas : w.disk.file (s.root ++ rest) = some b := by
    rw [← hb, Tree.file_congr (hobjects _ hp)]
  constructor
  · intro r hr
    rw [hnode r]
    by_cases hrp : r = s.root ++ rest
    · rw [if_pos hrp]
      exact .inr rfl
    · rw [if_neg hrp, if_neg (houtside r hr)]
      exact .inl (hobjects r hr)
  · intro r b' hr hfile hnone
    have hrp : r = s.root ++ rest := by
      by_contra hrp
      rw [hnode r, if_neg hrp, if_neg (houtside r hr), hobjects r hr,
        Tree.file_eq_some.mp hfile] at hnone
      cases hnone
    subst hrp
    rw [hwas] at hfile
    obtain rfl := Option.some.inj hfile
    rw [trashPath_append, Tree.file_eq_some, hnode, if_neg hne.symm, if_pos rfl]
  · intro r hr hother
    have hrp : r ≠ s.root ++ rest := by
      rintro rfl
      exact not_objects_of_trash hr hp
    have hrd : r ≠ s.root ++ [trashDir] ++ rest := by
      have hgone : w3.disk.node (s.root ++ rest) = none := by rw [hnode, if_pos rfl]
      have hmine := hother _ b hp hwas hgone
      rwa [trashPath_append] at hmine
    have hlast : w3.disk.node r = w1.disk.node r := by
      rw [hnode r, if_neg hrp, if_neg hrd, hcleared r hrd]
    refine ⟨?_, fun hsome => ?_⟩
    · rw [Tree.file_congr hlast, Tree.file_createDirAll (run_update_ok hmade)]
    · rw [hlast]
      rcases Tree.node_createDirAll (run_update_ok hmade) r with h | ⟨hnone, -, -⟩
      · exact h
      · rw [hnone] at hsome
        cases hsome

/-! ## The phases that remove -/

section Discard
variable {plan : SweepPlan} {options : SweepOptions} {rewrite : Bool} {tally tally' : Tally}
  {live : Finset Hash}

theorem relocated_of_orphan (hp : s.objectsDir <+: p)
    (hrun : run (removeOrphan s .trash tally p) w = (.ok tally', w')) :
    Relocated s w.disk w'.disk := by
  obtain ⟨len, w1, hremove, hrest⟩ := run_bind_eq_ok hrun
  obtain ⟨-, rfl⟩ := Prod.mk.inj hrest
  exact relocated_of_trash hp hremove

theorem relocated_of_loose {h : Hash}
    (hrun : run (removeLoose s .trash tally h) w = (.ok tally', w')) :
    Relocated s w.disk w'.disk := by
  obtain ⟨len, w1, hremove, hrest⟩ := run_bind_eq_ok hrun
  obtain ⟨-, rfl⟩ := Prod.mk.inj hrest
  rw [loosePath_eq] at hremove
  exact relocated_of_trash s.objectsDir_prefix_blobPath hremove

theorem relocated_of_ifThere (hp : s.objectsDir <+: p)
    (hrun : run (removeIfThere s .trash tally p) w = (.ok tally', w')) :
    Relocated s w.disk w'.disk := by
  have hstart : run (removeIfThere s .trash tally p) w = run (if w.disk.exists p then
      removeOrphan s .trash tally p else .ret tally : Action CasError Tally) w := rfl
  rw [hstart] at hrun
  cases hex : w.disk.exists p with
  | true =>
    rw [hex] at hrun
    exact relocated_of_orphan hp hrun
  | false =>
    rw [hex] at hrun
    obtain ⟨-, rfl⟩ := Prod.mk.inj hrun
    exact .refl _

/-- A loop of relocations relocates. -/
theorem relocated_of_foldlM {α : Type} {f : Tally → α → Action CasError Tally} {xs : List α}
    (hf : ∀ y ∈ xs, ∀ tally tally' w w', run (f tally y) w = (.ok tally', w') →
      Relocated s w.disk w'.disk)
    (hrun : run (xs.foldlM f tally) w = (.ok tally', w')) : Relocated s w.disk w'.disk :=
  Prog.exec_foldlM_ok answer (I := fun (_ : Tally) (x : World) => Relocated s w.disk x.disk)
    (fun y hy _ _ _ _ hI hstep => hI.trans (hf y hy _ _ _ _ hstep)) (.refl _) hrun

theorem pair_under (hp : IsPackName s.packDir p) (hq : q ∈ [idxOf p, p]) : s.objectsDir <+: q := by
  obtain ⟨name, hname⟩ := idxOf_of_isPackName hp
  obtain ⟨name', rfl, -⟩ := hp
  rcases List.mem_cons.mp hq with rfl | hq
  · rw [hname]
    exact s.objectsDir_prefix_of_packDir _
  · rw [List.mem_singleton.mp hq]
    exact s.objectsDir_prefix_of_packDir _

theorem relocated_of_pack (hp : IsPackName s.packDir p)
    (hrun : run (removePack s .trash tally p) w = (.ok tally', w')) :
    Relocated s w.disk w'.disk := by
  obtain ⟨tally1, w1, hloop, hrest⟩ := run_bind_eq_ok hrun
  obtain ⟨-, rfl⟩ := Prod.mk.inj hrest
  exact relocated_of_foldlM (fun q hq _ _ _ _ hstep => relocated_of_ifThere (pair_under hp hq) hstep)
    hloop

/-- The phases that follow the rewrites only move files into the trash. -/
theorem relocated_of_discard (horphan : ∀ q ∈ plan.orphanFiles, s.objectsDir <+: q)
    (hremove : ∀ p ∈ removals plan options, IsPackName s.packDir p) (hmode : options.mode = .trash)
    (hrun : run (discard s plan options tally) w = (.ok tally', w')) :
    Relocated s w.disk w'.disk := by
  rw [discard, hmode] at hrun
  obtain ⟨tally1, w1, hloose, hrest⟩ := run_bind_eq_ok hrun
  obtain ⟨tally2, w2, horphans, hrest⟩ := run_bind_eq_ok hrest
  obtain ⟨tally3, w3, hpacks, hrest⟩ := run_bind_eq_ok hrest
  obtain ⟨_, w4, hinvalidate, hrest⟩ := run_bind_eq_ok hrest
  obtain ⟨-, rfl⟩ := Prod.mk.inj hrest
  obtain ⟨-, rfl⟩ := Prod.mk.inj hinvalidate
  have h1 := relocated_of_foldlM (fun h _ _ _ _ _ hstep => relocated_of_loose hstep) hloose
  have h2 := relocated_of_foldlM
    (fun q hq _ _ _ _ hstep => relocated_of_orphan (horphan q hq) hstep) horphans
  have h3 := relocated_of_foldlM
    (fun q hq _ _ _ _ hstep => relocated_of_pack (hremove q hq) hstep) hpacks
  exact (h1.trans h2).trans h3

/-! ## The two modes side by side -/

/-- Under `objects/` the two disks are the same. -/
def SameStore (s : BlobStore) (w u : World) : Prop := s.view w.disk = s.view u.disk

/-- Removals of one file in the two modes agree. -/
theorem agree_removeOrTrash {u : World} (hp : s.objectsDir <+: p) (hsame : SameStore s w u) :
    Prog.Agree answer (removeOrTrash s .delete (s.root ++ [trashDir]) p)
      (removeOrTrash s .trash (s.root ++ [trashDir]) p) w u
      fun n w' m u' => n = m ∧ SameStore s w' u' := by
  intro n w' m u' hdelete htrash
  obtain ⟨hn, hview⟩ := run_removeOrTrash_view hp hdelete
  obtain ⟨hm, hview'⟩ := run_removeOrTrash_view hp htrash
  rw [hn, hm, SameStore, hview, hview', hsame]
  exact ⟨rfl, rfl⟩

theorem agree_removeOrphan {u : World} (hp : s.objectsDir <+: p) (hsame : SameStore s w u) :
    Prog.Agree answer (removeOrphan s .delete tally p) (removeOrphan s .trash tally p) w u
      fun a w' b u' => a = b ∧ SameStore s w' u' := by
  refine (agree_removeOrTrash hp hsame).bind fun n w' m u' halike => ?_
  obtain ⟨rfl, hsame'⟩ := halike
  exact .ret ⟨rfl, hsame'⟩

theorem agree_removeLoose {u : World} {h : Hash} (hsame : SameStore s w u) :
    Prog.Agree answer (removeLoose s .delete tally h) (removeLoose s .trash tally h) w u
      fun a w' b u' => a = b ∧ SameStore s w' u' := by
  unfold removeLoose
  rw [loosePath_eq]
  refine (agree_removeOrTrash s.objectsDir_prefix_blobPath hsame).bind fun n w' m u' halike => ?_
  obtain ⟨rfl, hsame'⟩ := halike
  exact .ret ⟨rfl, hsame'⟩

theorem agree_removeIfThere {u : World} (hp : s.objectsDir <+: p) (hsame : SameStore s w u) :
    Prog.Agree answer (removeIfThere s .delete tally p) (removeIfThere s .trash tally p) w u
      fun a w' b u' => a = b ∧ SameStore s w' u' := by
  have hnode : w.disk.node p = u.disk.node p := by
    rw [← s.view_of_prefix hp, ← s.view_of_prefix hp, hsame]
  have hex : w.disk.exists p = u.disk.exists p := Tree.exists_congr hnode
  show Prog.Agree answer (if w.disk.exists p = true then _ else _)
    (if u.disk.exists p = true then _ else _) w u _
  rw [← hex]
  cases w.disk.exists p with
  | true => exact agree_removeOrphan hp hsame
  | false => exact .ret ⟨rfl, hsame⟩

theorem agree_removePack {u : World} (hp : IsPackName s.packDir p) (hsame : SameStore s w u) :
    Prog.Agree answer (removePack s .delete tally p) (removePack s .trash tally p) w u
      fun a w' b u' => a = b ∧ SameStore s w' u' := by
  have hloop : Prog.Agree answer ([idxOf p, p].foldlM (removeIfThere s .delete) tally)
      ([idxOf p, p].foldlM (removeIfThere s .trash) tally) w u
      fun a w' b u' => a = b ∧ SameStore s w' u' :=
    Prog.Agree.foldlM (fun q hq _ _ _ hwu => agree_removeIfThere (pair_under hp hq) hwu) hsame
  refine hloop.bind fun a w' b u' halike => ?_
  obtain ⟨rfl, hsame'⟩ := halike
  exact .ret ⟨rfl, hsame'⟩

theorem agree_discard {u : World} (horphan : ∀ q ∈ plan.orphanFiles, s.objectsDir <+: q)
    (hremove : ∀ p ∈ removals plan ⟨.delete, rewrite⟩, IsPackName s.packDir p)
    (hsame : SameStore s w u) :
    Prog.Agree answer (discard s plan ⟨.delete, rewrite⟩ tally)
      (discard s plan ⟨.trash, rewrite⟩ tally) w u
      fun a w' b u' => a = b ∧ SameStore s w' u' := by
  have hloose : Prog.Agree answer (plan.looseGarbage.foldlM (removeLoose s .delete) tally)
      (plan.looseGarbage.foldlM (removeLoose s .trash) tally) w u
      fun a w' b u' => a = b ∧ SameStore s w' u' :=
    Prog.Agree.foldlM (fun _ _ _ _ _ hwu => agree_removeLoose hwu) hsame
  refine hloose.bind fun a1 w1 b1 u1 halike => ?_
  obtain ⟨rfl, hsame1⟩ := halike
  have horphans : Prog.Agree answer (plan.orphanFiles.foldlM (removeOrphan s .delete) a1)
      (plan.orphanFiles.foldlM (removeOrphan s .trash) a1) w1 u1
      fun a w' b u' => a = b ∧ SameStore s w' u' :=
    Prog.Agree.foldlM (fun q hq _ _ _ hwu => agree_removeOrphan (horphan q hq) hwu) hsame1
  refine horphans.bind fun a2 w2 b2 u2 halike => ?_
  obtain ⟨rfl, hsame2⟩ := halike
  have hpacks : Prog.Agree answer
      ((removals plan ⟨.delete, rewrite⟩).foldlM (removePack s .delete) a2)
      ((removals plan ⟨.delete, rewrite⟩).foldlM (removePack s .trash) a2) w2 u2
      fun a w' b u' => a = b ∧ SameStore s w' u' :=
    Prog.Agree.foldlM (fun p hp _ _ _ hwu => agree_removePack (hremove p hp) hwu) hsame2
  refine hpacks.bind fun a3 w3 b3 u3 halike => ?_
  obtain ⟨rfl, hsame3⟩ := halike
  intro a w' b u' hdelete htrash
  obtain ⟨ha, rfl⟩ := Prod.mk.inj hdelete
  obtain ⟨hb, rfl⟩ := Prod.mk.inj htrash
  rw [← Except.ok.inj ha, ← Except.ok.inj hb]
  exact ⟨rfl, hsame3⟩

end Discard

end Gc

end CasKit
