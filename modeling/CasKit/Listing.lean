import CasKit.View

/-!
# Listing the loose blobs

`list_blobs` fails only where a file stands in the way of the objects directory. It glues the
names of the files two levels down to those of their buckets and lists, sorted, the hashes
that the results parse to.
-/
namespace CasKit
open Effects Files Codec

/-- The hash that the names of a bucket and of a file in it make together. -/
def glued (n : Name × Name) : Option Hash :=
  (Hash.fromHex (fromUtf8Lossy n.1 ++ fromUtf8Lossy n.2)).toOption

theorem glued_eq_some {n : Name × Name} {h : Hash} :
    glued n = some h ↔ Hash.fromHex (fromUtf8Lossy n.1 ++ fromUtf8Lossy n.2) = .ok h := by
  unfold glued
  cases Hash.fromHex (fromUtf8Lossy n.1 ++ fromUtf8Lossy n.2) <;> simp [Except.toOption]

namespace BlobStore
variable (s : BlobStore) {t : Tree} {h : Hash}

theorem listStep_reads (hashes : List Hash) (entry : DirEntry) :
    (s.listStep hashes entry).Uses Request.Reads := by
  unfold listStep
  split_ifs with hdir hpack
  · trivial
  · exact (ioCas_reads (readDirectory_reads _)).bind fun _ => trivial
  · trivial

theorem listBlobs_reads : s.listBlobs.Uses Request.Reads := by
  refine (pathExists_reads _).bind fun there => ?_
  cases there with
  | false => trivial
  | true =>
    refine (ioCas_reads (readDirectory_reads _)).bind fun entries => ?_
    exact (Prog.Uses.foldlM s.listStep_reads entries []).bind fun _ => trivial

/-- The regular files among the entries of a bucket, with the name of the bucket. -/
def filesOf (bucket : Name) (subs : List DirEntry) : List (Name × Name) :=
  (subs.filter fun sub => !sub.isDir).map fun sub => (bucket, sub.name)

theorem listBucket_eq (bucket : Name) (hashes : List Hash) (subs : List DirEntry) :
    listBucket bucket hashes subs = hashes ++ (filesOf bucket subs).filterMap glued := by
  unfold listBucket filesOf
  induction subs generalizing hashes with
  | nil => simp
  | cons sub subs ih =>
    rw [List.foldl_cons, ih]
    cases hd : sub.isDir with
    | true => simp [hd]
    | false =>
      cases hx : Hash.fromHex (fromUtf8Lossy bucket ++ fromUtf8Lossy sub.name) with
      | error e => simp [hd, hx, glued, Except.toOption]
      | ok h' => simp [hd, hx, glued, Except.toOption]

/-- The entries of a directory, none where there is no directory. -/
def entriesOn (t : Tree) (p : Path) : List DirEntry := (t.readDir p).toOption.getD []

/-- The files that one entry of the objects directory leads to. -/
def filesBelow (t : Tree) (entry : DirEntry) : List (Name × Name) :=
  if entry.isDir ∧ entry.name ≠ packDirName then
    filesOf entry.name (entriesOn t (s.objectsDir ++ [entry.name]))
  else []

/-- The files two levels below the objects directory, in the order in which they are met. -/
def twoDown (t : Tree) : List (Name × Name) :=
  (entriesOn t s.objectsDir).flatMap (s.filesBelow t)

theorem mem_entriesOn {p : Path} (hp : t.IsDir p) (e : DirEntry) :
    e ∈ entriesOn t p ↔ ∃ n, t.node (p ++ [e.name]) = some n ∧ e.isDir = (n == .dir) := by
  obtain ⟨es, hes⟩ := Tree.readDir_ok hp
  rw [entriesOn, hes]
  exact Tree.mem_readDir hes e

theorem nodup_entriesOn (p : Path) : ((entriesOn t p).map DirEntry.name).Nodup := by
  unfold entriesOn
  cases hes : t.readDir p with
  | error e => exact List.nodup_nil
  | ok es => exact Tree.nodup_readDir hes

/-- A directory entry that counts as a directory is one. -/
theorem node_of_entry {p : Path} {e : DirEntry} (he : e ∈ entriesOn t p) (hd : e.isDir = true) :
    t.node (p ++ [e.name]) = some .dir := by
  unfold entriesOn at he
  cases hes : t.readDir p with
  | error e => rw [hes] at he; cases he
  | ok es =>
    rw [hes] at he
    obtain ⟨n, hn, hnd⟩ := (Tree.mem_readDir hes e).mp he
    cases n with
    | dir => exact hn
    | file b => rw [hd] at hnd; cases hnd

theorem mem_filesBelow {e : DirEntry} (he : e ∈ entriesOn t s.objectsDir) (n : Name × Name) :
    n ∈ s.filesBelow t e ↔ e.isDir = true ∧ e.name ≠ packDirName ∧ n.1 = e.name ∧
      ∃ b, t.node (s.objectsDir ++ [n.1, n.2]) = some (.file b) := by
  unfold filesBelow
  by_cases hcond : e.isDir ∧ e.name ≠ packDirName
  · rw [if_pos hcond]
    have hdir := node_of_entry he hcond.1
    unfold filesOf
    simp only [List.mem_map, List.mem_filter, mem_entriesOn (Or.inr hdir)]
    constructor
    · rintro ⟨sub, ⟨⟨m, hm, hmd⟩, hsub⟩, rfl⟩
      refine ⟨hcond.1, hcond.2, rfl, ?_⟩
      cases m with
      | dir => rw [hmd] at hsub; cases hsub
      | file b => exact ⟨b, by simpa using hm⟩
    · rintro ⟨-, -, hname, b, hb⟩
      refine ⟨⟨n.2, false⟩, ⟨⟨.file b, ?_, rfl⟩, rfl⟩, Prod.ext hname.symm rfl⟩
      rw [← hname]
      simpa using hb
  · rw [if_neg hcond]
    constructor
    · intro hn
      cases hn
    · rintro ⟨hd, hpack, -⟩
      exact absurd ⟨hd, hpack⟩ hcond

/-- The bucket of a file is a directory. -/
theorem node_bucket {bucket name : Name} {b : Bytes}
    (hfile : t.node (s.objectsDir ++ [bucket, name]) = some (.file b)) :
    t.node (s.objectsDir ++ [bucket]) = some .dir := by
  have hsplit : s.objectsDir ++ [bucket, name] = s.objectsDir ++ [bucket] ++ [name] := by simp
  have hparent := Tree.isDir_parent (t := t) (p := s.objectsDir ++ [bucket, name])
    (by rw [hfile]; rfl)
  rwa [hsplit, List.dropLast_concat, isDir_iff_node (by simp)] at hparent

theorem mem_twoDown (n : Name × Name) : n ∈ s.twoDown t ↔
    n.1 ≠ packDirName ∧ ∃ b, t.node (s.objectsDir ++ [n.1, n.2]) = some (.file b) := by
  unfold twoDown
  rw [List.mem_flatMap]
  constructor
  · rintro ⟨e, he, hn⟩
    obtain ⟨-, hpack, hname, hfile⟩ := (s.mem_filesBelow he n).mp hn
    exact ⟨hname ▸ hpack, hfile⟩
  · rintro ⟨hpack, b, hb⟩
    have hbucket := s.node_bucket hb
    have htop : t.IsDir s.objectsDir := by
      have hparent := Tree.isDir_parent (t := t) (p := s.objectsDir ++ [n.1]) (by rw [hbucket]; rfl)
      rwa [List.dropLast_concat] at hparent
    have he : (⟨n.1, true⟩ : DirEntry) ∈ entriesOn t s.objectsDir :=
      (mem_entriesOn htop _).mpr ⟨.dir, hbucket, rfl⟩
    exact ⟨_, he, (s.mem_filesBelow he n).mpr ⟨rfl, hpack, rfl, b, hb⟩⟩

theorem nodup_filesOf (bucket : Name) {subs : List DirEntry}
    (hsubs : (subs.map DirEntry.name).Nodup) : (filesOf bucket subs).Nodup := by
  have hmap : (filesOf bucket subs).map Prod.snd =
      (subs.filter fun sub => !sub.isDir).map DirEntry.name := by
    simp [filesOf]
  have hsub : ((subs.filter fun sub => !sub.isDir).map DirEntry.name).Nodup :=
    hsubs.sublist ((List.filter_sublist).map _)
  exact List.Nodup.of_map Prod.snd (hmap ▸ hsub)

/-- No file is met twice. -/
theorem nodup_twoDown (t : Tree) : (s.twoDown t).Nodup := by
  unfold twoDown
  rw [List.nodup_flatMap]
  refine ⟨fun e _ => ?_, ?_⟩
  · unfold filesBelow
    split_ifs
    · exact nodup_filesOf _ (nodup_entriesOn _)
    · exact List.nodup_nil
  · have hnames := List.pairwise_map.mp (nodup_entriesOn (t := t) s.objectsDir)
    refine hnames.imp_of_mem fun {a b} ha hb hne => ?_
    intro n hna hnb
    have ha' := ((s.mem_filesBelow ha n).mp hna).2.2.1
    have hb' := ((s.mem_filesBelow hb n).mp hnb).2.2.1
    exact hne (ha'.symm.trans hb')

theorem peek_listStep {e : DirEntry} (hashes : List Hash) (he : e ∈ entriesOn t s.objectsDir) :
    peek (s.listStep hashes e) t = .ok (hashes ++ (s.filesBelow t e).filterMap glued) := by
  unfold listStep filesBelow
  cases hdir : e.isDir with
  | false => simp
  | true =>
    by_cases hpack : e.name = packDirName
    · simp [hpack]
    · obtain ⟨subs, hsubs⟩ := Tree.readDir_ok (.inr (node_of_entry he hdir))
      rw [if_pos rfl, if_neg hpack, peek_bind (ioCas_reads (readDirectory_reads _)),
        peek_ioCas, peek_readDirectory, hsubs, if_pos ⟨rfl, hpack⟩, entriesOn, hsubs]
      show Except.ok (listBucket e.name hashes subs) = _
      rw [listBucket_eq]
      rfl

theorem peek_foldlM_listStep {entries : List DirEntry} (hashes : List Hash)
    (hentries : ∀ e ∈ entries, e ∈ entriesOn t s.objectsDir) :
    peek (entries.foldlM s.listStep hashes) t =
      .ok (hashes ++ (entries.flatMap (s.filesBelow t)).filterMap glued) := by
  induction entries generalizing hashes with
  | nil => simp
  | cons e entries ih =>
    have hrest := ih (hashes ++ (s.filesBelow t e).filterMap glued)
      fun e' he' => hentries e' (List.mem_cons_of_mem _ he')
    rw [List.foldlM_cons, peek_bind (s.listStep_reads _ _),
      s.peek_listStep hashes (hentries e List.mem_cons_self)]
    show peek (entries.foldlM s.listStep _) t = _
    rw [hrest, List.flatMap_cons, List.filterMap_append, List.append_assoc]

/-- The result of `list_blobs`, where nothing is in the way. -/
theorem peek_listBlobs (hdir : t.file s.objectsDir = none) :
    peek s.listBlobs t = .ok (((s.twoDown t).filterMap glued).insertionSort (· ≤ ·)) := by
  rw [listBlobs, peek_bind (pathExists_reads _), peek_pathExists]
  show peek (if _ then _ else _) t = _
  cases hn : t.node s.objectsDir with
  | none =>
    have hex : t.exists s.objectsDir = false := (Tree.exists_eq_false s.objectsDir_ne_nil).mpr hn
    have hnot : ¬ t.IsDir s.objectsDir := by simp [Tree.IsDir, objectsDir_ne_nil, hn]
    have hread : t.readDir s.objectsDir = .error .notFound := by simp [Tree.readDir, hnot, hn]
    rw [hex, twoDown, entriesOn, hread]
    rfl
  | some n =>
    cases n with
    | file b => rw [Tree.file_eq_some.mpr hn] at hdir; cases hdir
    | dir =>
      have hex : t.exists s.objectsDir = true := by simp [Tree.exists, hn]
      obtain ⟨entries, hes⟩ := Tree.readDir_ok (.inr hn)
      have hon : entriesOn t s.objectsDir = entries := by rw [entriesOn, hes]; rfl
      have hfold := @peek_foldlM_listStep s t entries [] (by simp [hon])
      rw [hex]
      show peek (ioCas (readDirectory s.objectsDir) >>= _) t = _
      rw [peek_bind (ioCas_reads (readDirectory_reads _)), peek_ioCas, peek_readDirectory, hes]
      show peek (entries.foldlM s.listStep [] >>= _) t = _
      rw [peek_bind (Prog.Uses.foldlM s.listStep_reads _ _), hfold, twoDown, hon]
      rfl

theorem namedLoose_iff : s.NamedLoose (s.view t) h ↔ ∃ n ∈ s.twoDown t, glued n = some h := by
  unfold NamedLoose
  simp only [view_objectsDir_append, mem_twoDown, glued_eq_some, Prod.exists]
  constructor
  · rintro ⟨bucket, name, b, hpack, -, hfile, hhex⟩
    exact ⟨bucket, name, ⟨hpack, b, hfile⟩, hhex⟩
  · rintro ⟨bucket, name, ⟨hpack, b, hfile⟩, hhex⟩
    exact ⟨bucket, name, b, hpack, s.node_bucket hfile, hfile, hhex⟩

/-- A listing says that nothing is in the way, and lists the hashes that files name. -/
theorem listBlobs_mem {s : BlobStore} {hashes : List Hash}
    (hlist : peek s.listBlobs t = .ok hashes) :
    t.file s.objectsDir = none ∧ ∀ h, h ∈ hashes ↔ s.NamedLoose (s.view t) h := by
  cases hdir : t.file s.objectsDir with
  | none =>
    obtain rfl := Except.ok.inj (hlist.symm.trans (s.peek_listBlobs hdir))
    refine ⟨rfl, fun h => ?_⟩
    rw [List.mem_insertionSort, List.mem_filterMap, s.namedLoose_iff]
  | some b =>
    have hnode := Tree.file_eq_some.mp hdir
    have hnot : ¬ t.IsDir s.objectsDir := by simp [Tree.IsDir, objectsDir_ne_nil, hnode]
    have hread : t.readDir s.objectsDir = .error .notADirectory := by
      simp [Tree.readDir, hnot, hnode]
    rw [listBlobs, peek_bind (pathExists_reads _), peek_pathExists, Tree.exists_of_file hdir]
      at hlist
    change peek (ioCas (readDirectory s.objectsDir) >>= _) t = _ at hlist
    rw [peek_bind (ioCas_reads (readDirectory_reads _)), peek_ioCas, peek_readDirectory, hread]
      at hlist
    cases hlist

/-- The hashes that count as loose. -/
def looseOn (t : Tree) : List Hash := (peek s.listBlobs t).toOption.getD []

theorem mem_looseOn (hdir : t.file s.objectsDir = none) (h : Hash) :
    h ∈ s.looseOn t ↔ s.NamedLoose (s.view t) h := by
  have hlist := s.peek_listBlobs hdir
  rw [looseOn, hlist]
  exact (listBlobs_mem hlist).2 h

end BlobStore

end CasKit
