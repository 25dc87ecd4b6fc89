import CasKit.Lib.Prog
import CasKit.PackFormat

/-!
# What the store's programs ask for

A store function is a program over file calls and over the short critical sections on the
handle's caches. `answer` gives the calls their meaning on a world, which is the file
system together with the caches of one open handle. Each request is one atomic step.
-/
namespace CasKit
open Effects Files

/-- Loaded pack indices, in the iteration order of the hash map that holds them. -/
structure PackCache where
  indices : List (Path × PackIndex)

/-- A hash map iterates in an order of its own: any rearrangement of what was inserted. -/
structure HashOrder where
  arrange : List (Path × PackIndex) → List (Path × PackIndex)
  perm : ∀ l, (arrange l).Perm l

/-- The iteration order that happens to be the insertion order. -/
def HashOrder.inserted : HashOrder := ⟨id, fun _ => .refl _⟩

/-- The interior-mutable part of a handle. -/
structure Caches where
  packCache : Option PackCache
  blobCache : List (Hash × Bytes)
  knownDirs : List Path

/-- The caches of a handle that was just opened. -/
def Caches.empty : Caches := ⟨none, [], []⟩

@[simp] theorem Caches.empty_packCache : Caches.empty.packCache = none := rfl

@[simp] theorem Caches.empty_blobCache : Caches.empty.blobCache = [] := rfl

structure World where
  disk : Tree
  caches : Caches

inductive Request where
  | exists (p : Path)
  | read (p : Path)
  | readDir (p : Path)
  | fileLen (p : Path)
  | createDirAll (p : Path)
  | write (p : Path) (b : Bytes)
  | removeFile (p : Path)
  | rename (p q : Path)
  | blobLookup (h : Hash)
  | blobInsert (h : Hash) (data : Bytes)
  | packLock
  | packUnlock
  | packGet
  | packSet (cache : Option PackCache)
  | dirKnown (p : Path)
  | dirLearn (p : Path)

def Answer : Request → Type
  | .exists _ => Bool
  | .read _ => Except ErrorKind Bytes
  | .readDir _ => Except ErrorKind (List DirEntry)
  | .fileLen _ => Except ErrorKind ℕ
  | .createDirAll _ => Except ErrorKind Unit
  | .write _ _ => Except ErrorKind Unit
  | .removeFile _ => Except ErrorKind Unit
  | .rename _ _ => Except ErrorKind Unit
  | .blobLookup _ => Option Bytes
  | .blobInsert _ _ => Unit
  | .packLock => Unit
  | .packUnlock => Unit
  | .packGet => Option PackCache
  | .packSet _ => Unit
  | .dirKnown _ => Bool
  | .dirLearn _ => Unit

def blobCacheCapacity : ℕ := 1024

/-- The hit section of `get_blob`: a hit moves to the front. -/
def lookupBlob (cache : List (Hash × Bytes)) (hash : Hash) : Option Bytes × List (Hash × Bytes) :=
  match cache.findIdx? (fun e => e.1 = hash) with
  | none => (none, cache)
  | some pos =>
    match cache[pos]? with
    | none => (none, cache)
    | some (_, data) => (some data, (hash, data) :: cache.eraseIdx pos)

/-- `cache_blob`: at capacity the last entry goes first. -/
def insertBlob (cache : List (Hash × Bytes)) (hash : Hash) (data : Bytes) :
    List (Hash × Bytes) :=
  let kept := if cache.length ≥ blobCacheCapacity then cache.dropLast else cache
  (hash, data) :: kept

section LookupInsert
variable {cache : List (Hash × Bytes)} {h : Hash} {data : Bytes}

/-- A hit is an entry of the cache, and the cache keeps its entries. -/
theorem lookupBlob_spec (cache : List (Hash × Bytes)) (h : Hash) :
    (∀ data, (lookupBlob cache h).1 = some data → (h, data) ∈ cache) ∧
      ∀ e ∈ (lookupBlob cache h).2, e ∈ cache := by
  unfold lookupBlob
  cases hpos : cache.findIdx? (fun e => e.1 = h) with
  | none => exact ⟨fun data hd => (by cases hd), fun e he => he⟩
  | some pos =>
    obtain ⟨hlt, hkey, -⟩ := List.findIdx?_eq_some_iff_getElem.mp hpos
    have hget : cache[pos]? = some cache[pos] := List.getElem?_eq_getElem hlt
    rcases hentry : cache[pos] with ⟨key, data⟩
    have hk : key = h := by simpa [hentry] using hkey
    have hmem : (h, data) ∈ cache := by
      rw [← hk, ← hentry]
      exact List.getElem_mem hlt
    simp only [hget, hentry]
    refine ⟨fun d hd => Option.some.inj hd ▸ hmem, fun e he => ?_⟩
    rcases List.mem_cons.mp he with rfl | he
    · exact hmem
    · exact List.mem_of_mem_eraseIdx he

/-- A miss leaves the cache alone. -/
theorem lookupBlob_eq_none (hnone : (lookupBlob cache h).1 = none) :
    (lookupBlob cache h).2 = cache ∧ ∀ data, (h, data) ∉ cache := by
  unfold lookupBlob at hnone ⊢
  cases hpos : cache.findIdx? (fun e => e.1 = h) with
  | none =>
    refine ⟨rfl, fun data hmem => ?_⟩
    have hkeys := List.findIdx?_eq_none_iff.mp hpos (h, data) hmem
    simp at hkeys
  | some pos =>
    obtain ⟨hlt, -, -⟩ := List.findIdx?_eq_some_iff_getElem.mp hpos
    have hget : cache[pos]? = some cache[pos] := List.getElem?_eq_getElem hlt
    rw [hpos] at hnone
    simp [hget] at hnone

theorem mem_insertBlob {e : Hash × Bytes} (he : e ∈ insertBlob cache h data) :
    e = (h, data) ∨ e ∈ cache := by
  rcases List.mem_cons.mp he with rfl | he
  · exact .inl rfl
  · right
    split_ifs at he with hcap
    · exact List.mem_of_mem_dropLast he
    · exact he

end LookupInsert

namespace World

/-- A change of the file system that may fail, in which case nothing changes. -/
def update (w : World) (r : Except ErrorKind Tree) : Except ErrorKind Unit × World :=
  match r with
  | .ok t => (.ok (), { w with disk := t })
  | .error e => (.error e, w)

end World

/-- The meaning of each request. A lock is free whenever one handle runs alone. -/
def answer : Prog.Handler Request Answer World
  | .exists p, w => (w.disk.exists p, w)
  | .read p, w => (w.disk.read p, w)
  | .readDir p, w => (w.disk.readDir p, w)
  | .fileLen p, w => (w.disk.fileLen p, w)
  | .createDirAll p, w => w.update (w.disk.createDirAll p)
  | .write p b, w => w.update (w.disk.write p b)
  | .removeFile p, w => w.update (w.disk.removeFile p)
  | .rename p q, w => w.update (w.disk.rename p q)
  | .blobLookup h, w =>
    let r := lookupBlob w.caches.blobCache h
    (r.1, { w with caches := { w.caches with blobCache := r.2 } })
  | .blobInsert h data, w =>
    ((), { w with caches := { w.caches with blobCache := insertBlob w.caches.blobCache h data } })
  | .packLock, w => ((), w)
  | .packUnlock, w => ((), w)
  | .packGet, w => (w.caches.packCache, w)
  | .packSet cache, w => ((), { w with caches := { w.caches with packCache := cache } })
  | .dirKnown p, w => (decide (p ∈ w.caches.knownDirs), w)
  | .dirLearn p, w =>
    ((), { w with caches := { w.caches with knownDirs := p :: w.caches.knownDirs } })

abbrev Action (ε α : Type) := Prog Request Answer ε α

section Calls
variable {ε : Type}

def pathExists (p : Path) : Action ε Bool := .call (.exists p) .ret

def readFile (p : Path) : Action ErrorKind Bytes := .call (.read p) Prog.ofExcept

def readDirectory (p : Path) : Action ErrorKind (List DirEntry) :=
  .call (.readDir p) Prog.ofExcept

def fileLength (p : Path) : Action ErrorKind ℕ := .call (.fileLen p) Prog.ofExcept

def createDirAll (p : Path) : Action ErrorKind Unit := .call (.createDirAll p) Prog.ofExcept

def writeFile (p : Path) (b : Bytes) : Action ErrorKind Unit := .call (.write p b) Prog.ofExcept

def removeFile (p : Path) : Action ErrorKind Unit := .call (.removeFile p) Prog.ofExcept

def renameFile (p q : Path) : Action ErrorKind Unit := .call (.rename p q) Prog.ofExcept

end Calls

/-- Run an action to its end. -/
abbrev run {ε α : Type} (p : Action ε α) (w : World) : Except ε α × World := p.exec answer w

/-- The world left behind when an action is cut off after `n` requests. -/
abbrev cutOff {ε α : Type} (n : ℕ) (p : Action ε α) (w : World) : World := p.cut answer n w

/-- `I` holds at every point of the run, and `Q` of its outcome and last world. -/
abbrev Throughout {ε α : Type} (I : World → Prop) (p : Action ε α) (w : World)
    (Q : Except ε α → World → Prop) : Prop := p.Along answer I Q w

section Run
variable (w : World) (p q : Path) {ε : Type}

@[simp] theorem run_pathExists : run (pathExists p : Action ε Bool) w = (.ok (w.disk.exists p), w) :=
  rfl

@[simp] theorem run_readFile : run (readFile p) w = (w.disk.read p, w) :=
  Prog.exec_ofExcept _ _ _

@[simp] theorem run_readDirectory : run (readDirectory p) w = (w.disk.readDir p, w) :=
  Prog.exec_ofExcept _ _ _

@[simp] theorem run_fileLength : run (fileLength p) w = (w.disk.fileLen p, w) :=
  Prog.exec_ofExcept _ _ _

@[simp] theorem run_createDirAll :
    run (createDirAll p) w = w.update (w.disk.createDirAll p) := Prog.exec_ofExcept _ _ _

@[simp] theorem run_writeFile (b : Bytes) :
    run (writeFile p b) w = w.update (w.disk.write p b) := Prog.exec_ofExcept _ _ _

@[simp] theorem run_removeFile : run (removeFile p) w = w.update (w.disk.removeFile p) :=
  Prog.exec_ofExcept _ _ _

@[simp] theorem run_renameFile : run (renameFile p q) w = w.update (w.disk.rename p q) :=
  Prog.exec_ofExcept _ _ _

end Run

/-- Converting an error converts no result. -/
theorem mapError_eq_ok {ε ε' α : Type} {g : ε → ε'} {x : Except ε α} {a : α} :
    x.mapError g = .ok a ↔ x = .ok a := by
  cases x <;> simp [Except.mapError]

section Sequence
variable {ε ε' α β : Type} {w w' : World}

theorem run_bind_ok {p : Action ε α} {f : α → Action ε β} {a : α} (hp : run p w = (.ok a, w')) :
    run (p >>= f) w = run (f a) w' := Prog.exec_bind_ok answer hp

theorem run_bind_error {p : Action ε α} {f : α → Action ε β} {e : ε}
    (hp : run p w = (.error e, w')) : run (p >>= f) w = (.error e, w') :=
  Prog.exec_bind_error answer hp

theorem run_bind_eq_ok {p : Action ε α} {f : α → Action ε β} {b : β}
    (hrun : run (p >>= f) w = (.ok b, w')) :
    ∃ a u, run p w = (.ok a, u) ∧ run (f a) u = (.ok b, w') := Prog.exec_bind_eq_ok answer hrun

theorem run_mapErr_eq_ok {g : ε → ε'} {p : Action ε α} {a : α}
    (hrun : run (p.mapErr g) w = (.ok a, w')) : run p w = (.ok a, w') := by
  rw [run, Prog.exec_mapErr] at hrun
  obtain ⟨hres, hw⟩ := Prod.mk.inj hrun
  exact Prod.ext (mapError_eq_ok.mp hres) hw

theorem run_eq_ok (p : Action ε α) (w : World) (h : (run p w).1.isOk = true) : ∃ a, run p w = (.ok a, (run p w).2) := by
  cases hres : (run p w).1 with
  | error e =>
    rw [hres] at h
    cases h
  | ok a => exact ⟨a, Prod.ext hres rfl⟩

theorem run_mapErr (g : ε → ε') (p : Action ε α) :
    run (p.mapErr g) w = ((run p w).1.mapError g, (run p w).2) := Prog.exec_mapErr answer g p w

theorem run_attempt (p : Action ε α) :
    run (p.attempt : Action ε' (Except ε α)) w = (.ok (run p w).1, (run p w).2) :=
  Prog.exec_attempt answer p w

end Sequence

/-- The requests that look at the file system and change nothing. -/
def Request.Reads : Request → Prop
  | .exists _ | .read _ | .readDir _ | .fileLen _ => True
  | _ => False

theorem answer_reads {o : Request} (ho : o.Reads) (w : World) : (answer o w).2 = w := by
  cases o <;> first | rfl | exact ho.elim

theorem answer_reads_congr {o : Request} (ho : o.Reads) {w w' : World} (hw : w.disk = w'.disk) :
    (answer o w).1 = (answer o w').1 := by
  cases o <;> first | exact ho.elim | (simp only [answer, hw]; rfl)

/-- What an action that only looks at the file system finds there. -/
def peek {ε α : Type} (p : Action ε α) (t : Tree) : Except ε α := (run p ⟨t, .empty⟩).1

section Peek
variable {ε ε' α β : Type} {p : Action ε α} {t : Tree}

theorem run_of_reads (hp : p.Uses Request.Reads) (w : World) : run p w = (peek p w.disk, w) := by
  have hcongr := hp.exec_congr (h := answer) (fun o u ho => answer_reads ho u) World.disk
    (fun o u u' ho hu => answer_reads_congr ho hu) (s := w) (t := ⟨w.disk, .empty⟩) rfl
  rw [run, hp.exec_pure (fun o u ho => answer_reads ho u) w, hcongr]
  rfl

theorem peek_bind (hp : p.Uses Request.Reads) (f : α → Action ε β) :
    peek (p >>= f) t = peek p t >>= fun a => peek (f a) t := by
  have hrun := run_of_reads hp ⟨t, .empty⟩
  unfold peek
  rw [run, Prog.exec_bind, show p.exec answer ⟨t, .empty⟩ = (peek p t, ⟨t, .empty⟩) from hrun]
  show _ = peek p t >>= _
  cases peek p t <;> rfl

theorem peek_mapErr (g : ε → ε') (p : Action ε α) : peek (p.mapErr g) t = (peek p t).mapError g := by
  unfold peek
  rw [run, Prog.exec_mapErr]

theorem peek_attempt (p : Action ε α) :
    peek (p.attempt : Action ε' (Except ε α)) t = .ok (peek p t) := by
  unfold peek
  rw [run, Prog.exec_attempt]

@[simp] theorem peek_ret (a : α) : peek (.ret a : Action ε α) t = .ok a := rfl

@[simp] theorem peek_throw (e : ε) : peek (.throw e : Action ε α) t = .error e := rfl

@[simp] theorem peek_ofExcept (x : Except ε α) : peek (Prog.ofExcept x) t = x := by
  cases x <;> rfl

@[simp] theorem peek_pathExists (q : Path) :
    peek (pathExists q : Action ε Bool) t = .ok (t.exists q) := rfl

@[simp] theorem peek_readFile (q : Path) : peek (readFile q) t = t.read q := by
  rw [peek, run_readFile]

@[simp] theorem peek_readDirectory (q : Path) : peek (readDirectory q) t = t.readDir q := by
  rw [peek, run_readDirectory]

@[simp] theorem peek_fileLength (q : Path) : peek (fileLength q) t = t.fileLen q := by
  rw [peek, run_fileLength]

end Peek

section Reads
variable {ε : Type} (q : Path)

theorem pathExists_reads : (pathExists q : Action ε Bool).Uses Request.Reads :=
  ⟨trivial, fun _ => trivial⟩

theorem readFile_reads : (readFile q).Uses Request.Reads :=
  ⟨trivial, fun r => Prog.Uses.ofExcept r⟩

theorem readDirectory_reads : (readDirectory q).Uses Request.Reads :=
  ⟨trivial, fun r => Prog.Uses.ofExcept r⟩

theorem fileLength_reads : (fileLength q).Uses Request.Reads :=
  ⟨trivial, fun r => Prog.Uses.ofExcept r⟩

end Reads

end CasKit
