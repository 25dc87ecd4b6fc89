import CasKit.Reading

/-!
# Changes of a store directory

What a request can do to the part of the disk under `objects/`: put a file, drop one, make
a directory. A program of the store performs a list of such changes, one at a time; what is
outside `objects/`, the trash included, does not show.
-/
namespace CasKit
open Effects Files Codec

inductive Change where
  | put (p : Path) (b : Bytes)
  | drop (p : Path)
  | mkdir (p : Path)
  deriving DecidableEq

namespace Change

def apply : Change → Nodes → Nodes
  | put p b, v => fun q => if q = p then some (.file b) else v q
  | drop p, v => fun q => if q = p then none else v q
  | mkdir p, v => fun q => if q = p ∧ v q = none then some .dir else v q

/-- The path that a change is about. -/
def path : Change → Path
  | put p _ => p
  | drop p => p
  | mkdir p => p

theorem apply_of_ne {ch : Change} {v : Nodes} {q : Path} (h : q ≠ ch.path) :
    ch.apply v q = v q := by
  cases ch <;> simp_all [apply, path]

theorem apply_mkdir_of_some {v : Nodes} {p : Path} {n : Node} (h : v p = some n) :
    (mkdir p).apply v = v := by
  funext q
  by_cases hq : q = p
  · subst hq; simp [apply, h]
  · simp [apply, hq]

end Change

/-- The view after a list of changes. -/
abbrev changed (cs : List Change) (v : Nodes) : Nodes := Prog.after Change.apply cs v

theorem changed_of_forall_ne {cs : List Change} {v : Nodes} {q : Path}
    (h : ∀ ch ∈ cs, q ≠ ch.path) : changed cs v q = v q := by
  induction cs generalizing v with
  | nil => rfl
  | cons ch cs ih =>
    have hrest := ih (v := ch.apply v) fun ch' h' => h ch' (List.mem_cons_of_mem _ h')
    rw [Change.apply_of_ne (h ch List.mem_cons_self)] at hrest
    exact hrest

/-- Dropping files takes away exactly those. -/
theorem changed_drops {ps : List Path} {v : Nodes} {q : Path} :
    changed (ps.map Change.drop) v q = if q ∈ ps then none else v q := by
  induction ps generalizing v with
  | nil => simp
  | cons p ps ih =>
    show changed (ps.map Change.drop) ((Change.drop p).apply v) q = _
    rw [ih]
    by_cases hq : q ∈ ps
    · simp [hq]
    · by_cases hqp : q = p
      · subst hqp; simp [hq, Change.apply]
      · simp [hq, hqp, Change.apply]

namespace BlobStore
variable (s : BlobStore)

/-- The program makes the changes `cs` under `objects/`, one at a time. -/
abbrev Performs {ε α : Type} (cs : List Change) (Q : α → Prop) (p : Action ε α) (w : World) :
    Prop := Prog.Performs answer Change.apply (fun w => s.view w.disk) cs Q p w

variable {s} {ε α β : Type} {Q : α → Prop} {w : World} {p q : Path} {cs : List Change}

/-- A file call that succeeds with the given changes. -/
theorem performs_update {r : World → Except ErrorKind Tree} {o : Request}
    {k : Answer o → Action ErrorKind Unit} (hanswer : (k (answer o w).1, (answer o w).2) =
      (Prog.ofExcept (w.update (r w)).1, (w.update (r w)).2))
    (hr : ∀ t, r w = .ok t → s.view t = changed cs (s.view w.disk)) :
    s.Performs cs (fun _ => True) (.call o k) w := by
  obtain ⟨h1, h2⟩ := Prod.mk.inj hanswer
  refine ⟨⟨0, rfl⟩, ?_⟩
  rw [h1, h2]
  cases ht : r w with
  | error e => exact ⟨⟨0, rfl⟩, fun _ hr => by cases hr⟩
  | ok t =>
    have hview := hr t ht
    exact ⟨⟨cs.length, by rw [List.take_length]; exact hview⟩, fun _ _ => ⟨hview, trivial⟩⟩

theorem view_eq_changed {t u : Tree} {ch : Change}
    (h : ∀ q, s.objectsDir <+: q → u.node q = ch.apply (s.view t) q)
    (hpath : s.objectsDir <+: ch.path) : s.view u = changed [ch] (s.view t) := by
  funext q
  show s.view u q = ch.apply (s.view t) q
  by_cases hq : s.objectsDir <+: q
  · rw [s.view_of_prefix hq, h q hq]
  · have hne : q ≠ ch.path := fun heq => hq (heq ▸ hpath)
    rw [Change.apply_of_ne hne]
    simp [view, hq]

theorem performs_writeFile (hp : s.objectsDir <+: p) (b : Bytes) :
    s.Performs [.put p b] (fun _ => True) (writeFile p b) w := by
  refine performs_update (r := fun w => w.disk.write p b) rfl fun t ht => ?_
  refine view_eq_changed (fun q hq => ?_) hp
  rw [Tree.node_write ht q]
  simp only [Change.apply, s.view_of_prefix hq]

theorem performs_removeFile (hp : s.objectsDir <+: p) :
    s.Performs [.drop p] (fun _ => True) (removeFile p) w := by
  refine performs_update (r := fun w => w.disk.removeFile p) rfl fun t ht => ?_
  refine view_eq_changed (fun q hq => ?_) hp
  rw [Tree.node_removeFile ht q]
  simp only [Change.apply, s.view_of_prefix hq]

/-- Moving a file out of the store drops it there. -/
theorem performs_renameFile (hp : s.objectsDir <+: p) (hq : ¬ s.objectsDir <+: q) :
    s.Performs [.drop p] (fun _ => True) (renameFile p q) w := by
  refine performs_update (r := fun w => w.disk.rename p q) rfl fun t ht => ?_
  have hpq : p ≠ q := fun h => hq (h ▸ hp)
  obtain ⟨b, -, hnode⟩ := Tree.rename_spec ht hpq
  refine view_eq_changed (fun r hr => ?_) hp
  have hrq : r ≠ q := fun h => hq (h ▸ hr)
  rw [hnode r]
  simp only [Change.apply, s.view_of_prefix hr, hrq, if_false]

/-- A call that stays outside the store changes nothing there. -/
theorem performs_outside {r : World → Except ErrorKind Tree} {o : Request}
    {k : Answer o → Action ErrorKind Unit} (hanswer : (k (answer o w).1, (answer o w).2) =
      (Prog.ofExcept (w.update (r w)).1, (w.update (r w)).2))
    (hr : ∀ t, r w = .ok t → ∀ q, s.objectsDir <+: q → t.node q = w.disk.node q) :
    s.Performs [] (fun _ => True) (.call o k) w := by
  refine performs_update hanswer fun t ht => ?_
  funext q
  by_cases hq : s.objectsDir <+: q
  · show s.view t q = s.view w.disk q
    rw [s.view_of_prefix hq, s.view_of_prefix hq, hr t ht q hq]
  · simp [view, hq]

theorem performs_reads {p : Action ε α} (hp : p.Uses Request.Reads) :
    s.Performs [] (fun a => peek p w.disk = .ok a) p w := by
  refine Prog.Performs.mono (Prog.Performs.nothing hp fun o u ho => ?_) fun a ha => ?_
  · rw [answer_reads ho u]
  · rwa [show p.exec answer w = (peek p w.disk, w) from run_of_reads hp w] at ha

/-- A write that cannot succeed changes nothing. -/
theorem performs_writeFile_error {b : Bytes} {e : ErrorKind} {Q : Unit → Prop}
    (h : w.disk.write p b = .error e) : s.Performs cs Q (writeFile p b) w := by
  refine ⟨⟨0, rfl⟩, ?_⟩
  rw [show answer (.write p b) w = (.error e, w) by simp only [answer, h]; rfl]
  exact ⟨⟨0, rfl⟩, fun _ hr => by cases hr⟩

/-- Creating a directory directly under `objects/`. -/
theorem performs_createDirAll (name : Name) :
    s.Performs [.mkdir s.objectsDir, .mkdir (s.objectsDir ++ [name])] (fun _ => True)
      (createDirAll (s.objectsDir ++ [name])) w := by
  refine performs_update (r := fun w => w.disk.createDirAll (s.objectsDir ++ [name])) rfl
    fun t ht => ?_
  have hdir := Tree.isDir_createDirAll ht
  have hobj : t.IsDir s.objectsDir := Tree.isDir_of_prefix hdir (List.prefix_append _ _)
  have hne : s.objectsDir ++ [name] ≠ s.objectsDir := by simp
  have hnode : t.node (s.objectsDir ++ [name]) = some .dir := (isDir_iff_node (by simp)).mp hdir
  have hnode' : t.node s.objectsDir = some .dir := (isDir_iff_node s.objectsDir_ne_nil).mp hobj
  funext q
  show s.view t q = (Change.mkdir _).apply ((Change.mkdir _).apply (s.view w.disk)) q
  by_cases hq : s.objectsDir <+: q
  · rw [s.view_of_prefix hq]
    have hcase := Tree.node_createDirAll ht q
    by_cases h1 : q = s.objectsDir
    · subst h1
      have hv := s.view_of_prefix (t := w.disk) hq
      rw [hnode'] at hcase
      rw [hnode']
      rcases hcase with h | ⟨h, -, -⟩
      · simp [Change.apply, hne.symm, hv, ← h]
      · simp [Change.apply, hne.symm, hv, h]
    · by_cases h2 : q = s.objectsDir ++ [name]
      · subst h2
        have hv := s.view_of_prefix (t := w.disk) hq
        rw [hnode] at hcase
        rw [hnode]
        rcases hcase with h | ⟨h, -, -⟩
        · simp [Change.apply, hv, ← h]
        · simp [Change.apply, hv, h]
      · have hv := s.view_of_prefix (t := w.disk) hq
        rcases hcase with h | ⟨-, -, hpre⟩
        · simp [Change.apply, h1, h2, hv, h]
        · obtain ⟨rest, rfl⟩ := hq
          have hrest := (List.prefix_append_right_inj _).mp hpre
          rcases List.prefix_cons_iff.mp hrest with rfl | ⟨l, rfl, hl⟩
          · simp at h1
          · rw [List.prefix_nil.mp hl] at h2
            exact absurd rfl h2
  · have h1 : q ≠ s.objectsDir := fun h => hq (h ▸ List.prefix_rfl)
    have h2 : q ≠ s.objectsDir ++ [name] := fun h => hq (h ▸ List.prefix_append _ _)
    simp [Change.apply, h1, h2, view, hq]

end BlobStore

end CasKit
