import Mathlib.Data.List.AList
import Mathlib.Order.Basic
import Mathlib.Data.List.Lex
import Mathlib.Tactic

/-!
# A file system as a tree of named nodes

Names are byte strings, a path is the list of names from the top, and a tree stores every
directory and every regular file under its path. A tree carries the proof that each node
lies in a directory, so a file below a file cannot be built. The operations follow the
calls of a POSIX file system on regular files: they fail when the parent is missing and
never touch another path.
-/
namespace Files

abbrev Name := List UInt8
abbrev Path := List Name

instance lawfulBEqPath : LawfulBEq Path := inferInstance

instance linearOrderUInt8 : LinearOrder UInt8 where
  le_refl := UInt8.le_refl
  le_trans _ _ _ := UInt8.le_trans
  le_antisymm _ _ := UInt8.le_antisymm
  le_total := UInt8.le_total
  lt_iff_le_not_ge a b := by rw [UInt8.lt_iff_toNat_lt, UInt8.le_iff_toNat_le, UInt8.le_iff_toNat_le]; omega
  toDecidableLE := inferInstance

inductive Node where
  | dir
  | file (bytes : List UInt8)
  deriving DecidableEq

/-- Why a file operation failed. -/
inductive ErrorKind where
  | notFound
  | notADirectory
  | isADirectory
  | unexpectedEof
  deriving DecidableEq

structure DirEntry where
  name : Name
  isDir : Bool
  deriving DecidableEq

/-- All directories and regular files, each under its path. The top directory `[]` always
exists and is not listed. -/
structure Tree where
  nodes : AList (fun _ : Path => Node)
  parents : ∀ p ∈ nodes, p.dropLast = [] ∨ nodes.lookup p.dropLast = some .dir

namespace Tree

/-- Nothing but the top directory. -/
def empty : Tree := ⟨∅, fun p hp => absurd hp (AList.notMem_empty p)⟩

def node (t : Tree) (p : Path) : Option Node := t.nodes.lookup p

/-- The bytes of the regular file at `p`. -/
def file (t : Tree) (p : Path) : Option (List UInt8) :=
  match t.node p with
  | some (.file b) => some b
  | _ => none

def IsDir (t : Tree) (p : Path) : Prop := p = [] ∨ t.node p = some .dir

instance (t : Tree) (p : Path) : Decidable (t.IsDir p) := inferInstanceAs (Decidable (_ ∨ _))

def «exists» (t : Tree) (p : Path) : Bool := p = [] || (t.node p).isSome

theorem mem_nodes {t : Tree} {p : Path} : p ∈ t.nodes ↔ (t.node p).isSome :=
  AList.lookup_isSome.symm

theorem isDir_parent {t : Tree} {p : Path} (hp : (t.node p).isSome) : t.IsDir p.dropLast :=
  t.parents p (mem_nodes.mpr hp)

theorem file_eq_some {t : Tree} {p : Path} {b : List UInt8} :
    t.file p = some b ↔ t.node p = some (.file b) := by
  unfold file
  cases h : t.node p with
  | none => simp
  | some n => cases n <;> simp

theorem file_eq_none_of_node {t : Tree} {p : Path} (h : t.node p = none) : t.file p = none := by
  simp [file, h]

theorem exists_of_file {t : Tree} {p : Path} {b : List UInt8} (h : t.file p = some b) :
    t.exists p = true := by simp [«exists», file_eq_some.mp h]

theorem exists_eq_false {t : Tree} {p : Path} (hp : p ≠ []) :
    t.exists p = false ↔ t.node p = none := by
  simp [«exists», hp]

theorem file_congr {t u : Tree} {p : Path} (h : t.node p = u.node p) : t.file p = u.file p := by
  simp only [file, h]

theorem exists_congr {t u : Tree} {p : Path} (h : t.node p = u.node p) :
    t.exists p = u.exists p := by
  simp only [«exists», h]

theorem isDir_congr {t u : Tree} {p : Path} (h : t.node p = u.node p) :
    t.IsDir p ↔ u.IsDir p := by
  simp only [IsDir, h]

theorem not_isDir_of_file {t : Tree} {p : Path} {b : List UInt8} (hp : p ≠ [])
    (h : t.file p = some b) : ¬ t.IsDir p := by
  simp [IsDir, hp, file_eq_some.mp h]

theorem dropLast_ne_self {p : Path} (hp : p ≠ []) : p.dropLast ≠ p := by
  intro h
  have hl := congrArg List.length h
  have := List.length_pos_iff.mpr hp
  simp only [List.length_dropLast] at hl
  omega

section Insert
variable (t : Tree) {p : Path}

/-- Put a node at a path that lies in a directory and is none itself. -/
def insert (p : Path) (n : Node) (hp : p ≠ []) (hdir : t.IsDir p.dropLast)
    (hnot : t.node p ≠ some .dir) : Tree where
  nodes := t.nodes.insert p n
  parents := by
    intro q hq
    by_cases hqp : q.dropLast = p
    · have hqp' : q ≠ p := by
        rintro rfl
        exact dropLast_ne_self hp hqp
      have hq' : q ∈ t.nodes := by simpa [hqp'] using hq
      rcases t.parents q hq' with h | h
      · exact absurd (hqp ▸ h) hp
      · exact absurd (hqp ▸ h) hnot
    · rw [AList.lookup_insert_ne hqp]
      rcases (AList.mem_insert _).mp hq with rfl | hq
      · exact hdir
      · exact t.parents q hq

@[simp] theorem node_insert (n : Node) (hp : p ≠ []) (hdir : t.IsDir p.dropLast)
    (hnot : t.node p ≠ some .dir) (q : Path) :
    (t.insert p n hp hdir hnot).node q = if q = p then some n else t.node q := by
  unfold node insert
  split_ifs with h
  · subst h; exact AList.lookup_insert _
  · exact AList.lookup_insert_ne h

/-- Take away a regular file. -/
def erase (p : Path) (hp : p ≠ []) (hnot : t.node p ≠ some .dir) : Tree where
  nodes := t.nodes.erase p
  parents := by
    intro q hq
    have hq' := AList.mem_erase.mp hq
    by_cases hqp : q.dropLast = p
    · rcases t.parents q hq'.2 with h | h
      · exact absurd (hqp ▸ h) hp
      · exact absurd (hqp ▸ h) hnot
    · rw [AList.lookup_erase_ne hqp]
      exact t.parents q hq'.2

@[simp] theorem node_erase (hp : p ≠ []) (hnot : t.node p ≠ some .dir) (q : Path) :
    (t.erase p hp hnot).node q = if q = p then none else t.node q := by
  unfold node erase
  split_ifs with h
  · subst h; exact AList.lookup_erase _ _
  · exact AList.lookup_erase_ne h

end Insert

/-- Create the file or replace its contents. -/
def write (t : Tree) (p : Path) (b : List UInt8) : Except ErrorKind Tree :=
  if hp : p = [] then .error .isADirectory
  else if hnot : t.node p = some .dir then .error .isADirectory
  else if hdir : t.IsDir p.dropLast then .ok (t.insert p (.file b) hp hdir hnot)
  else .error .notFound

def removeFile (t : Tree) (p : Path) : Except ErrorKind Tree :=
  if hp : p = [] then .error .isADirectory
  else if hnot : t.node p = some .dir then .error .isADirectory
  else if t.node p = none then .error .notFound
  else .ok (t.erase p hp hnot)

/-- Move a regular file, replacing a regular file that is in the way. A directory is not
moved: the store only renames files. -/
def rename (t : Tree) (p q : Path) : Except ErrorKind Tree :=
  match t.file p with
  | none => .error .notFound
  | some b =>
    if p = q then .ok t
    else do
      let moved ← t.write q (b)
      moved.removeFile p

def mkdir (t : Tree) (p : Path) : Except ErrorKind Tree :=
  if hp : p = [] then .ok t
  else if hn : t.node p = none then
    if hdir : t.IsDir p.dropLast then .ok (t.insert p .dir hp hdir (by simp [hn]))
    else .error .notADirectory
  else if t.node p = some .dir then .ok t
  else .error .notADirectory

/-- Create the directories of the path that are missing, the outermost first. -/
def createDirAllFrom (t : Tree) (done : Path) : Path → Except ErrorKind Tree
  | [] => .ok t
  | n :: rest => do
      let t' ← t.mkdir (done ++ [n])
      t'.createDirAllFrom (done ++ [n]) rest

def createDirAll (t : Tree) (p : Path) : Except ErrorKind Tree := t.createDirAllFrom [] p

/-- The entries of a directory, in no particular order. -/
def readDir (t : Tree) (p : Path) : Except ErrorKind (List DirEntry) :=
  if t.IsDir p then
    .ok (t.nodes.entries.filterMap fun e =>
      match e.1.getLast? with
      | some n => if e.1.dropLast = p then some ⟨n, e.2 == .dir⟩ else none
      | none => none)
  else if t.node p = none then .error .notFound
  else .error .notADirectory

/-- The length of a file. The length of a directory is the file system's own affair and
counts as zero. -/
def fileLen (t : Tree) (p : Path) : Except ErrorKind ℕ :=
  if t.IsDir p then .ok 0
  else match t.file p with
    | some b => .ok b.length
    | none => .error .notFound

def read (t : Tree) (p : Path) : Except ErrorKind (List UInt8) :=
  match t.file p with
  | some b => .ok b
  | none => if t.IsDir p then .error .isADirectory else .error .notFound

section Lemmas
variable {t u : Tree} {p q : Path} {b : List UInt8}

theorem node_write (h : t.write p b = .ok u) (q : Path) :
    u.node q = if q = p then some (.file b) else t.node q := by
  unfold write at h
  split_ifs at h with hp hnot hdir
  obtain rfl := Except.ok.inj h
  simp

/-- Where a file can be written, any bytes can. -/
theorem write_of_write {t t' : Tree} {p : Path} {a : List UInt8} (h : t.write p a = .ok t')
    (b : List UInt8) : ∃ u, t.write p b = .ok u := by
  unfold write at h ⊢
  split_ifs at h ⊢ with h1 h2 h3
  exact ⟨_, rfl⟩

theorem write_error {t : Tree} {p : Path} {a : List UInt8} {e : ErrorKind}
    (h : t.write p a = .error e) (b : List UInt8) : t.write p b = .error e := by
  unfold write at h ⊢
  split_ifs at h ⊢ with h1 h2 h3
  · exact h
  · exact h
  · exact h

/-- A second write of a file leaves what it alone would have left. -/
theorem write_write {t t' : Tree} {p : Path} {a : List UInt8} (h : t.write p a = .ok t')
    (b : List UInt8) : t'.write p b = t.write p b := by
  have hnode := node_write h
  unfold write at h
  split_ifs at h with h1 h2 h3
  obtain rfl := Except.ok.inj h
  have hnot : (t.insert p (.file a) h1 h3 h2).node p ≠ some .dir := by
    rw [hnode, if_pos rfl]
    simp
  have hdir : (t.insert p (.file a) h1 h3 h2).IsDir p.dropLast := by
    rcases h3 with htop | hd
    · exact .inl htop
    · right
      rw [hnode, if_neg (dropLast_ne_self h1), hd]
  have hthen : (t.insert p (.file a) h1 h3 h2).insert p (.file b) h1 hdir hnot =
      t.insert p (.file b) h1 h3 h2 := by
    simp only [insert, AList.insert_insert]
  simp only [write, dif_neg h1, dif_neg h2, dif_neg hnot, dif_pos hdir, dif_pos h3, hthen]

theorem file_write (h : t.write p b = .ok u) (q : Path) :
    u.file q = if q = p then some b else t.file q := by
  unfold file
  rw [node_write h]
  split_ifs <;> rfl

theorem write_ne_nil (h : t.write p b = .ok u) : p ≠ [] := by
  rintro rfl
  simp [write] at h

/-- Writing succeeds exactly where the parent is a directory and the path is none. -/
theorem write_ok_iff : (∃ u, t.write p b = .ok u) ↔
    p ≠ [] ∧ t.node p ≠ some .dir ∧ t.IsDir p.dropLast := by
  unfold write
  split_ifs with hp hnot hdir <;> simp [*]

theorem node_removeFile (h : t.removeFile p = .ok u) (q : Path) :
    u.node q = if q = p then none else t.node q := by
  unfold removeFile at h
  split_ifs at h with hp hnot hn
  obtain rfl := Except.ok.inj h
  simp

theorem file_removeFile (h : t.removeFile p = .ok u) (q : Path) :
    u.file q = if q = p then none else t.file q := by
  unfold file
  rw [node_removeFile h]
  split_ifs <;> rfl

theorem exists_removeFile (hp : p ≠ []) (hf : t.file p = some b) :
    ∃ u, t.removeFile p = .ok u := by
  have hn := file_eq_some.mp hf
  simp [removeFile, hp, hn]

theorem file_of_removeFile (h : t.removeFile p = .ok u) : ∃ b, t.file p = some b := by
  unfold removeFile at h
  split_ifs at h with hp hnot hn
  unfold file
  cases hx : t.node p with
  | none => exact absurd hx hn
  | some n => cases n with
    | dir => exact absurd hx hnot
    | file b => exact ⟨b, rfl⟩

theorem removeFile_error (hp : p ≠ []) (hn : t.node p = none) :
    t.removeFile p = .error .notFound := by
  simp [removeFile, hp, hn]

theorem rename_spec (h : t.rename p q = .ok u) (hpq : p ≠ q) :
    ∃ b, t.file p = some b ∧
      ∀ r, u.node r = if r = p then none else if r = q then some (.file b) else t.node r := by
  unfold rename at h
  cases hf : t.file p with
  | none => simp [hf] at h
  | some b =>
    simp only [hf, if_neg hpq] at h
    cases hw : t.write q b with
    | error e => simp [hw, bind, Except.bind] at h
    | ok v =>
      rw [hw] at h
      refine ⟨b, rfl, fun r => ?_⟩
      rw [node_removeFile h, node_write hw]

theorem mem_readDir {es : List DirEntry} (h : t.readDir p = .ok es) (e : DirEntry) :
    e ∈ es ↔ ∃ n, t.node (p ++ [e.name]) = some n ∧ e.isDir = (n == .dir) := by
  unfold readDir at h
  split_ifs at h with hd hn
  obtain rfl := Except.ok.inj h
  simp only [List.mem_filterMap]
  constructor
  · rintro ⟨⟨k, n⟩, hk, he⟩
    cases hl : k.getLast? with
    | none => simp [hl] at he
    | some m =>
      simp only [hl] at he
      split_ifs at he with hpk
      obtain rfl := Option.some.inj he
      have hkm : p ++ [m] = k := by
        rw [← hpk]
        exact List.dropLast_append_getLast? m hl
      refine ⟨n, ?_, rfl⟩
      rw [hkm]
      exact AList.mem_lookup_iff.mpr hk
  · rintro ⟨n, hn, he⟩
    refine ⟨⟨p ++ [e.name], n⟩, AList.mem_lookup_iff.mp hn, ?_⟩
    simp [← he]

/-- A directory has each name once. -/
theorem nodup_readDir {es : List DirEntry} (h : t.readDir p = .ok es) :
    (es.map DirEntry.name).Nodup := by
  unfold readDir at h
  split_ifs at h with hd hn
  obtain rfl := Except.ok.inj h
  have hkeys : t.nodes.entries.Pairwise fun a b => a.1 ≠ b.1 :=
    List.pairwise_map.mp t.nodes.nodupKeys
  have hkey : ∀ (e : Sigma fun _ : Path => Node) (d : DirEntry), (match e.1.getLast? with
      | some n => if e.1.dropLast = p then some (⟨n, e.2 == .dir⟩ : DirEntry) else none
      | none => none) = some d → e.1 = p ++ [d.name] := by
    intro e d hd
    cases hl : e.1.getLast? with
    | none => simp [hl] at hd
    | some m =>
      simp only [hl] at hd
      split_ifs at hd with hpe
      obtain rfl := Option.some.inj hd
      rw [← hpe]
      exact (List.dropLast_append_getLast? m hl).symm
  refine List.pairwise_map.mpr (hkeys.filterMap _ ?_)
  intro a b hab d hd d' hd' hname
  apply hab
  rw [hkey a d hd, hkey b d' hd', hname]

theorem readDir_ok (h : t.IsDir p) : ∃ es, t.readDir p = .ok es := by
  unfold readDir
  rw [if_pos h]
  exact ⟨_, rfl⟩

theorem isDir_of_readDir {es : List DirEntry} (h : t.readDir p = .ok es) : t.IsDir p := by
  unfold readDir at h
  split_ifs at h with hd
  exact hd

theorem node_mkdir (h : t.mkdir p = .ok u) (q : Path) :
    u.node q = t.node q ∨ (t.node q = none ∧ u.node q = some .dir ∧ q = p) := by
  unfold mkdir at h
  split_ifs at h with hp hn hdir hd
  · exact .inl (Except.ok.inj h ▸ rfl)
  · obtain rfl := Except.ok.inj h
    by_cases hq : q = p
    · subst hq; right; simp [hn]
    · left; simp [hq]
  · exact .inl (Except.ok.inj h ▸ rfl)

theorem isDir_mkdir (h : t.mkdir p = .ok u) : u.IsDir p := by
  unfold mkdir at h
  split_ifs at h with hp hn hdir hd
  · exact .inl hp
  · obtain rfl := Except.ok.inj h
    right; simp
  · exact .inr (Except.ok.inj h ▸ hd)

theorem node_createDirAllFrom {done : Path} (h : t.createDirAllFrom done p = .ok u) (q : Path) :
    u.node q = t.node q ∨
      (t.node q = none ∧ u.node q = some .dir ∧ q <+: done ++ p ∧ ¬ q <+: done) := by
  induction p generalizing t done with
  | nil => exact .inl (Except.ok.inj h ▸ rfl)
  | cons n rest ih =>
    unfold createDirAllFrom at h
    cases hm : t.mkdir (done ++ [n]) with
    | error e => simp [hm, bind, Except.bind] at h
    | ok v =>
      rw [hm] at h
      have hdone : done ++ n :: rest = done ++ [n] ++ rest := by simp
      rw [hdone]
      rcases ih h with h1 | ⟨h1, h2, h3, h4⟩ <;> rcases node_mkdir hm q with h5 | ⟨h5, h6, h7⟩
      · exact .inl (h1.trans h5)
      · right
        refine ⟨h5, h1.trans h6, h7 ▸ List.prefix_append _ _, fun hq => ?_⟩
        have := hq.length_le
        rw [h7, List.length_append] at this
        simp at this
      · exact .inr ⟨h5 ▸ h1, h2, h3, fun hq => h4 (hq.trans (List.prefix_append _ _))⟩
      · rw [h6] at h1
        cases h1

theorem node_createDirAll (h : t.createDirAll p = .ok u) (q : Path) :
    u.node q = t.node q ∨ (t.node q = none ∧ u.node q = some .dir ∧ q <+: p) := by
  rcases node_createDirAllFrom h q with h1 | ⟨h1, h2, h3, -⟩
  · exact .inl h1
  · exact .inr ⟨h1, h2, by simpa using h3⟩

theorem isDir_createDirAllFrom {done : Path} (h : t.createDirAllFrom done p = .ok u)
    (hdone : t.IsDir done) : u.IsDir (done ++ p) := by
  induction p generalizing t done with
  | nil => rw [List.append_nil]; exact Except.ok.inj h ▸ hdone
  | cons n rest ih =>
    unfold createDirAllFrom at h
    cases hm : t.mkdir (done ++ [n]) with
    | error e => simp [hm, bind, Except.bind] at h
    | ok v =>
      rw [hm] at h
      have hlast := ih h (isDir_mkdir hm)
      rwa [List.append_assoc] at hlast

/-- The directory is there afterwards, and with it all directories above. -/
theorem isDir_createDirAll (h : t.createDirAll p = .ok u) : u.IsDir p := by
  have hlast := isDir_createDirAllFrom h (Or.inl rfl)
  simpa using hlast

/-- Every directory on the way to a directory is one. -/
theorem isDir_of_prefix (hp : t.IsDir p) (hq : q <+: p) : t.IsDir q := by
  obtain ⟨rest, rfl⟩ := hq
  induction rest using List.reverseRecOn with
  | nil => simpa using hp
  | append_singleton rest n ih =>
    apply ih
    rw [← List.append_assoc] at hp
    rcases hp with hp | hp
    · simp at hp
    · have hparent := isDir_parent (t := t) (p := q ++ rest ++ [n]) (by rw [hp]; rfl)
      rwa [List.dropLast_concat] at hparent

/-- Creating directories changes no file. -/
theorem file_createDirAll (h : t.createDirAll p = .ok u) (q : Path) : u.file q = t.file q := by
  rcases node_createDirAll h q with h1 | ⟨h1, h2, -⟩
  · exact file_congr h1
  · simp [file, h1, h2]

end Lemmas

end Tree

end Files
