import CasKit.Compressor

/-!
# The pack and index formats

The pure part of pack files: how the objects of a pack are laid out, how the index is
written, parsed and searched, and how one record is read back. A parsed index carries the
proof that it is sorted, which is what its binary search needs.
-/
namespace CasKit
open Codec Files

def packMagic : Bytes := text "SPCK"
def indexMagic : Bytes := text "SIDX"
def packVersion : ℕ := 1
def typeBlob : UInt8 := 1

/-- No byte buffer outgrows `isize::MAX`. -/
def isizeMax : ℕ := 2 ^ 63 - 1

structure PackIndexEntry where
  hash : Hash
  offset : ℕ
  deriving DecidableEq

/-- The sort key of the index. -/
def ByHash (a b : PackIndexEntry) : Prop := a.hash ≤ b.hash

instance : DecidableRel ByHash := fun a b => inferInstanceAs (Decidable (a.hash ≤ b.hash))

instance : Std.Total ByHash := ⟨fun a b => le_total a.hash b.hash⟩

instance : IsTrans PackIndexEntry ByHash := ⟨fun _ _ _ h h' => le_trans (α := Hash) h h'⟩

structure PackIndex where
  entries : List PackIndexEntry
  sorted : entries.Pairwise ByHash

namespace PackIndex

/-- The stable sort by digest that ends every load. -/
def ofEntries (entries : List PackIndexEntry) : PackIndex :=
  ⟨entries.insertionSort ByHash, List.pairwise_insertionSort _ _⟩

def compareAt (index : PackIndex) (hash : Hash) (i : ℕ) : Ordering :=
  match index.entries[i]? with
  | some e => compare e.hash hash
  | none => .gt

def find (index : PackIndex) (hash : Hash) : Option ℕ :=
  (binarySearch index.entries.length (index.compareAt hash)).bind fun i =>
    index.entries[i]?.map PackIndexEntry.offset

def hashes (index : PackIndex) : List Hash := index.entries.map PackIndexEntry.hash

def len (index : PackIndex) : ℕ := index.entries.length

def isEmpty (index : PackIndex) : Bool := index.entries.isEmpty

@[simp] theorem mem_ofEntries {entries : List PackIndexEntry} {e : PackIndexEntry} :
    e ∈ (ofEntries entries).entries ↔ e ∈ entries := List.mem_insertionSort _

theorem mem_hashes {index : PackIndex} {h : Hash} :
    h ∈ index.hashes ↔ ∃ e ∈ index.entries, e.hash = h := List.mem_map

@[simp] theorem mem_hashes_ofEntries {entries : List PackIndexEntry} {h : Hash} :
    h ∈ (ofEntries entries).hashes ↔ h ∈ entries.map PackIndexEntry.hash := by
  simp [hashes]

section Find
variable {index : PackIndex} {h : Hash}

theorem find_eq_some {o : ℕ} (hf : index.find h = some o) :
    ∃ e ∈ index.entries, e.hash = h ∧ e.offset = o := by
  obtain ⟨i, hi, ho⟩ := Option.bind_eq_some_iff.mp hf
  obtain ⟨e, he, rfl⟩ := Option.map_eq_some_iff.mp ho
  have hcmp := (binarySearch_some hi).2
  simp only [compareAt, he, compare_eq_iff_eq] at hcmp
  exact ⟨e, List.mem_of_getElem? he, hcmp, rfl⟩

theorem find_isSome : (index.find h).isSome ↔ h ∈ index.hashes := by
  have hle : ∀ i j (hi : i < index.entries.length) (hj : j < index.entries.length), i ≤ j →
      (index.entries[i]).hash ≤ (index.entries[j]).hash := by
    intro i j hi hj hij
    rcases Nat.eq_or_lt_of_le hij with rfl | hlt
    · exact le_rfl
    · exact List.pairwise_iff_getElem.mp index.sorted i j hi hj hlt
  have hat : ∀ i (hi : i < index.entries.length),
      index.compareAt h i = compare (index.entries[i]).hash h := by
    intro i hi
    simp [compareAt, List.getElem?_eq_getElem hi]
  have hsearch := @binarySearch_isSome (index.compareAt h) index.entries.length
    (fun i j hij hj hc => by
      rw [hat j hj, compare_lt_iff_lt] at hc
      rw [hat i (by omega), compare_lt_iff_lt]
      exact lt_of_le_of_lt (hle i j (by omega) hj hij) hc)
    (fun i j hij hj hc => by
      rw [hat i (by omega), compare_gt_iff_gt] at hc
      rw [hat j hj, compare_gt_iff_gt]
      exact lt_of_lt_of_le hc (hle i j (by omega) hj hij))
  constructor
  · intro hf
    obtain ⟨o, ho⟩ := Option.isSome_iff_exists.mp hf
    obtain ⟨e, he, heq, -⟩ := find_eq_some ho
    exact mem_hashes.mpr ⟨e, he, heq⟩
  · intro hm
    obtain ⟨e, he, rfl⟩ := mem_hashes.mp hm
    obtain ⟨i, hi, rfl⟩ := List.getElem_of_mem he
    have hs := hsearch.mpr ⟨i, hi, by rw [hat i hi]; exact compare_eq_iff_eq.mpr rfl⟩
    obtain ⟨j, hj⟩ := Option.isSome_iff_exists.mp hs
    simp [find, hj, List.getElem?_eq_getElem (binarySearch_some hj).1]

theorem find_eq_none : index.find h = none ↔ h ∉ index.hashes := by
  rw [← find_isSome]
  simp

end Find

end PackIndex

/-- `read_exact`, with the end of the file as its error. -/
def readBytes (n : ℕ) (bs : Bytes) : Except PackError (Bytes × Bytes) :=
  match readExact n bs with
  | some r => .ok r
  | none => .error (.io .unexpectedEof)

def readHash (bs : Bytes) : Except PackError (Hash × Bytes) :=
  if h : 32 ≤ bs.length then .ok (⟨bs.take 32, by simp [h]⟩, bs.drop 32)
  else .error (.io .unexpectedEof)

@[simp] theorem readBytes_append {n : ℕ} {xs : Bytes} (ys : Bytes) (h : xs.length = n) :
    readBytes n (xs ++ ys) = .ok (xs, ys) := by
  simp [readBytes, readExact_append ys h]

@[simp] theorem readBytes_one (b : UInt8) (bs : Bytes) : readBytes 1 (b :: bs) = .ok ([b], bs) :=
  readBytes_append bs (rfl : [b].length = 1)

theorem length_of_readBytes {n : ℕ} {bs : Bytes} {r : Bytes × Bytes}
    (h : readBytes n bs = .ok r) : bs.length = n + r.2.length := by
  unfold readBytes at h
  cases hx : readExact n bs with
  | none => simp [hx] at h
  | some r' =>
    rw [hx] at h
    obtain rfl := Except.ok.inj h
    obtain ⟨rfl, hl⟩ := readExact_eq_some hx
    simp [hl]

@[simp] theorem readHash_append (h : Hash) (bs : Bytes) :
    readHash (h.bytes ++ bs) = .ok (h, bs) := by
  have hlen : 32 ≤ (h.bytes ++ bs).length := by simp [h.size]
  rw [readHash, dif_pos hlen]
  congr 2
  · exact Hash.ext (List.take_left' h.size)
  · exact List.drop_left' h.size

/-! ## The index file -/

def serializeEntry (e : PackIndexEntry) : Bytes := e.hash.bytes ++ leBytes 8 e.offset

def serializeIndex (entries : List PackIndexEntry) : Bytes :=
  indexMagic ++ leBytes 4 packVersion ++ leBytes 4 entries.length ++
    entries.flatMap serializeEntry

def readEntries : ℕ → Bytes → Except PackError (List PackIndexEntry)
  | 0, _ => .ok []
  | n + 1, bs => do
    let (hash, bs) ← readHash bs
    let (offset, bs) ← readBytes 8 bs
    let rest ← readEntries n bs
    return ⟨hash, leNat offset⟩ :: rest

/-- The contents of an index file as `PackIndex::load` reads them. Bytes after the last
entry are not looked at. -/
def PackIndex.parse (bs : Bytes) : Except PackError PackIndex := do
  let (magic, bs) ← readBytes 4 bs
  if magic ≠ indexMagic then .error (.invalidIndexMagic (fromUtf8Lossy magic))
  else
    let (version, bs) ← readBytes 4 bs
    if leNat version ≠ packVersion then .error (.unsupportedVersion (leNat version))
    else
      let (count, bs) ← readBytes 4 bs
      let entries ← readEntries (leNat count) bs
      return PackIndex.ofEntries entries

section Index
variable {entries : List PackIndexEntry}

@[simp] theorem length_serializeEntry (e : PackIndexEntry) : (serializeEntry e).length = 40 := by
  simp [serializeEntry, e.hash.size]

theorem length_flatMap_serializeEntry (entries : List PackIndexEntry) :
    (entries.flatMap serializeEntry).length = 40 * entries.length := by
  induction entries with
  | nil => rfl
  | cons e es ih => simp only [List.flatMap_cons, List.length_append, length_serializeEntry, ih,
      List.length_cons]; omega

@[simp] theorem length_indexMagic : indexMagic.length = 4 := by decide +kernel

@[simp] theorem length_packMagic : packMagic.length = 4 := by decide +kernel

@[simp] theorem length_serializeIndex (entries : List PackIndexEntry) :
    (serializeIndex entries).length = 12 + 40 * entries.length := by
  simp only [serializeIndex, List.length_append, length_indexMagic, length_leBytes,
    length_flatMap_serializeEntry]

theorem readEntries_serialize (extra : Bytes) (n : ℕ) (hn : n ≤ entries.length)
    (hoff : ∀ e ∈ entries, e.offset < 2 ^ 64) :
    readEntries n (entries.flatMap serializeEntry ++ extra) = .ok (entries.take n) := by
  induction n generalizing entries with
  | zero => rfl
  | succ n ih =>
    match entries, hn with
    | e :: es, hn =>
      have he : leNat (leBytes 8 e.offset) = e.offset :=
        leNat_leBytes_of_lt (lt_of_lt_of_le (hoff e List.mem_cons_self) (by norm_num))
      have hes : readEntries n (es.flatMap serializeEntry ++ extra) = .ok (es.take n) :=
        ih (by simpa using hn) (fun x hx => hoff x (List.mem_cons_of_mem _ hx))
      simp [readEntries, serializeEntry, hes, he, bind, Except.bind, pure, Except.pure]

/-- Too few bytes for the announced entries. -/
theorem readEntries_short {n : ℕ} {bs : Bytes} (h : bs.length < 40 * n) :
    ∃ e, readEntries n bs = .error e := by
  induction n generalizing bs with
  | zero => omega
  | succ n ih =>
    by_cases h32 : 32 ≤ bs.length
    · by_cases h40 : 40 ≤ bs.length
      · have hlen : ((bs.drop 32).drop 8).length < 40 * n := by
          simp only [List.length_drop]; omega
        obtain ⟨e, he⟩ := ih hlen
        have h8 : 8 ≤ bs.length - 32 := by omega
        have hx : readEntries n (List.drop (32 + 8) bs) = .error e := by simpa using he
        exact ⟨e, by simp [readEntries, readHash, h32, readBytes, readExact, h8, hx, bind,
          Except.bind]⟩
      · have h8 : ¬ 8 ≤ bs.length - 32 := by omega
        exact ⟨.io .unexpectedEof, by simp [readEntries, readHash, h32, readBytes, readExact, h8,
          bind, Except.bind]⟩
    · exact ⟨.io .unexpectedEof, by simp [readEntries, readHash, h32, bind, Except.bind]⟩

/-- Parsing past an intact header leaves the entries to be read. -/
theorem parse_header (count : ℕ) (body : Bytes) :
    PackIndex.parse (indexMagic ++ leBytes 4 packVersion ++ leBytes 4 count ++ body) =
      (readEntries (count % 2 ^ 32) body).map PackIndex.ofEntries := by
  have hv : leNat (leBytes 4 packVersion) = packVersion :=
    leNat_leBytes_of_lt (by decide)
  have hc : leNat (leBytes 4 count) = count % 2 ^ 32 := by
    rw [leNat_leBytes]; norm_num
  simp only [PackIndex.parse, List.append_assoc, readBytes_append _ length_indexMagic,
    readBytes_append _ (length_leBytes 4 packVersion), readBytes_append _ (length_leBytes 4 count),
    bind, Except.bind, ne_eq, not_true_eq_false, if_false, hv, hc]
  cases readEntries (count % 2 ^ 32) body <;> rfl

theorem parse_short {bs : Bytes} (h : bs.length < 12) : ∃ e, PackIndex.parse bs = .error e := by
  cases hp : PackIndex.parse bs with
  | error e => exact ⟨e, rfl⟩
  | ok idx =>
    exfalso
    simp only [PackIndex.parse, bind, Except.bind] at hp
    cases h1 : readBytes 4 bs with
    | error e => simp [h1] at hp
    | ok r1 =>
      simp only [h1] at hp
      split_ifs at hp
      cases h2 : readBytes 4 r1.2 with
      | error e => simp [h2] at hp
      | ok r2 =>
        simp only [h2] at hp
        split_ifs at hp
        cases h3 : readBytes 4 r2.2 with
        | error e => simp [h3] at hp
        | ok r3 =>
          have := length_of_readBytes h1
          have := length_of_readBytes h2
          have := length_of_readBytes h3
          omega

theorem length_readEntries {n : ℕ} {bs : Bytes} (h : readEntries n bs = .ok entries) :
    entries.length = n := by
  induction n generalizing bs entries with
  | zero => rw [← Except.ok.inj h]; rfl
  | succ n ih =>
    simp only [readEntries, bind, Except.bind] at h
    cases h1 : readHash bs with
    | error e => simp [h1] at h
    | ok r1 =>
      simp only [h1] at h
      cases h2 : readBytes 8 r1.2 with
      | error e => simp [h2] at h
      | ok r2 =>
        simp only [h2] at h
        cases h3 : readEntries n r2.2 with
        | error e => simp [h3] at h
        | ok rest =>
          simp only [h3, pure, Except.pure] at h
          rw [← Except.ok.inj h, List.length_cons, ih h3]

/-- An index never holds more entries than its 32-bit count can say. -/
theorem length_parse {bs : Bytes} {index : PackIndex} (h : PackIndex.parse bs = .ok index) :
    index.entries.length < 2 ^ 32 := by
  simp only [PackIndex.parse, bind, Except.bind] at h
  cases h1 : readBytes 4 bs with
  | error e => simp [h1] at h
  | ok r1 =>
    simp only [h1] at h
    split_ifs at h
    cases h2 : readBytes 4 r1.2 with
    | error e => simp [h2] at h
    | ok r2 =>
      simp only [h2] at h
      split_ifs at h
      cases h3 : readBytes 4 r2.2 with
      | error e => simp [h3] at h
      | ok r3 =>
        simp only [h3] at h
        cases h4 : readEntries (leNat r3.1) r3.2 with
        | error e => simp [h4] at h
        | ok entries =>
          simp only [h4, pure, Except.pure] at h
          have hlen : r3.1.length = 4 := by
            unfold readBytes at h3
            cases hx : readExact 4 r2.2 with
            | none => simp [hx] at h3
            | some r =>
              rw [hx] at h3
              obtain rfl := Except.ok.inj h3
              exact (readExact_eq_some hx).2
          have hlt := leNat_lt r3.1
          rw [hlen] at hlt
          rw [← Except.ok.inj h]
          simp only [PackIndex.ofEntries, List.length_insertionSort, length_readEntries h4]
          omega

/-- The index read back from its own file, whatever follows: the entries that the 32-bit
count announces. -/
theorem parse_serializeIndex (extra : Bytes) (hoff : ∀ e ∈ entries, e.offset < 2 ^ 64) :
    PackIndex.parse (serializeIndex entries ++ extra) =
      .ok (PackIndex.ofEntries (entries.take (entries.length % 2 ^ 32))) := by
  rw [serializeIndex, List.append_assoc, parse_header,
    readEntries_serialize extra _ (Nat.mod_le _ _) hoff]
  rfl

/-- A torn index file: the bytes decide alone whether the announced entries are there. -/
theorem parse_take_serializeIndex (k : ℕ) (hoff : ∀ e ∈ entries, e.offset < 2 ^ 64) :
    (12 + 40 * (entries.length % 2 ^ 32) ≤ k →
      PackIndex.parse ((serializeIndex entries).take k) =
        .ok (PackIndex.ofEntries (entries.take (entries.length % 2 ^ 32)))) ∧
    (k < 12 + 40 * (entries.length % 2 ^ 32) →
      ∃ e, PackIndex.parse ((serializeIndex entries).take k) = .error e) := by
  have hm : entries.length % 2 ^ 32 ≤ entries.length := Nat.mod_le _ _
  generalize hmdef : entries.length % 2 ^ 32 = m at hm
  have hhead : (indexMagic ++ leBytes 4 packVersion ++ leBytes 4 entries.length).length = 12 := by
    simp
  have htake : 12 ≤ k → (serializeIndex entries).take k =
      indexMagic ++ leBytes 4 packVersion ++ leBytes 4 entries.length ++
        (entries.flatMap serializeEntry).take (k - 12) := by
    intro hk
    rw [serializeIndex, List.take_append, hhead, List.take_of_length_le (by omega)]
  constructor
  · intro hk
    have hsplit : entries.flatMap serializeEntry =
        (entries.take m).flatMap serializeEntry ++ (entries.drop m).flatMap serializeEntry := by
      rw [← List.flatMap_append, List.take_append_drop]
    have hlen : ((entries.take m).flatMap serializeEntry).length = 40 * m := by
      rw [length_flatMap_serializeEntry, List.length_take, Nat.min_eq_left hm]
    have hbody := readEntries_serialize
      (((entries.drop m).flatMap serializeEntry).take (k - 12 - 40 * m)) m
      (show m ≤ (entries.take m).length by simp [hm])
      (fun e he => hoff e (List.mem_of_mem_take he))
    rw [htake (by omega), parse_header, hmdef, hsplit, List.take_append, hlen,
      List.take_of_length_le (by omega), hbody, List.take_take, Nat.min_self]
    rfl
  · intro hk
    by_cases h12 : 12 ≤ k
    · have hlen : ((entries.flatMap serializeEntry).take (k - 12)).length < 40 * m := by
        rw [List.length_take]; omega
      obtain ⟨e, he⟩ := readEntries_short hlen
      exact ⟨e, by rw [htake h12, parse_header, hmdef, he]; rfl⟩
    · exact parse_short (by rw [List.length_take]; omega)

theorem serializeEntry_injective {a b : PackIndexEntry} (ha : a.offset < 2 ^ 64)
    (hb : b.offset < 2 ^ 64) (h : serializeEntry a = serializeEntry b) : a = b := by
  obtain ⟨h1, h2⟩ := List.append_inj h (a.hash.size.trans b.hash.size.symm)
  have ho := congrArg leNat h2
  rw [leNat_leBytes_of_lt (lt_of_lt_of_le ha (by norm_num)),
    leNat_leBytes_of_lt (lt_of_lt_of_le hb (by norm_num))] at ho
  cases a; cases b
  simp only [PackIndexEntry.mk.injEq]
  exact ⟨Hash.ext h1, ho⟩

/-- Equal index files come from equal entry lists. -/
theorem serializeIndex_injective {as bs : List PackIndexEntry}
    (ha : ∀ e ∈ as, e.offset < 2 ^ 64) (hb : ∀ e ∈ bs, e.offset < 2 ^ 64)
    (h : serializeIndex as = serializeIndex bs) : as = bs := by
  have hlen := congrArg List.length h
  simp only [length_serializeIndex] at hlen
  have hflat := (List.append_inj h (by simp)).2
  clear h
  induction as generalizing bs with
  | nil => cases bs with
    | nil => rfl
    | cons b bs => simp only [List.length_nil, List.length_cons] at hlen; omega
  | cons a as ih => cases bs with
    | nil => simp only [List.length_nil, List.length_cons] at hlen; omega
    | cons b bs =>
      simp only [List.flatMap_cons] at hflat
      obtain ⟨h1, h2⟩ := List.append_inj hflat (by simp)
      have := serializeEntry_injective (ha a List.mem_cons_self) (hb b List.mem_cons_self) h1
      rw [this, ih (fun e he => ha e (List.mem_cons_of_mem _ he))
        (fun e he => hb e (List.mem_cons_of_mem _ he))
        (by simp only [List.length_cons] at hlen; omega) h2]

end Index

/-! ## The pack file -/

section Pack
variable (c : Crates)

/-- The record of one object: type, both lengths as `u32`, digest, payload. -/
def objectRecord (hash : Hash) (size : ℕ) (compressed : Bytes) : Bytes :=
  typeBlob :: (leBytes 4 size ++ leBytes 4 compressed.length ++ hash.bytes ++ compressed)

/-- The loop of `PackFile::create` over the objects. -/
def appendObjects : List (Hash × Bytes) → Bytes → List PackIndexEntry →
    Except PackError (Bytes × List PackIndexEntry)
  | [], packData, indexEntries => .ok (packData, indexEntries)
  | (hash, data) :: objects, packData, indexEntries => do
    let offset := packData.length
    let compressed ← (compressDefault c data).mapError fun e => .compressionError e.display
    let packData' := packData ++ objectRecord hash data.length compressed
    if packData'.length > isizeMax then .error .capacityOverflow
    else appendObjects objects packData' (indexEntries ++ [⟨hash, offset⟩])

def packHeader (count : ℕ) : Bytes := packMagic ++ leBytes 4 packVersion ++ leBytes 4 count

/-- The contents of the pack and the entries of its index. -/
def packObjects (objects : List (Hash × Bytes)) :
    Except PackError (Bytes × List PackIndexEntry) :=
  appendObjects c objects (packHeader objects.length) []

/-- The payload of the record at the front of `bs`. -/
def readPayload (bs : Bytes) : Except PackError Bytes := do
  let (typeByte, bs) ← readBytes 1 bs
  if typeByte ≠ [typeBlob] then .error (.unexpectedObjectType (typeByte.headD 0))
  else
    let (_uncompSize, bs) ← readBytes 4 bs
    let (compSize, bs) ← readBytes 4 bs
    let (_storedHash, bs) ← readBytes 32 bs
    let (compressed, _) ← readBytes (leNat compSize) bs
    return compressed

/-- What `PackFile::read_blob` makes of the bytes from the record's offset on. -/
def decodeRecord (bs : Bytes) (hash : Hash) : Except PackError Bytes := do
  let compressed ← readPayload bs
  let data ← (decompress c compressed).mapError fun e => .decompressionError e.display
  let actualHash := hashBytes c data
  if actualHash ≠ hash then .error (.hashMismatch hash.toHex actualHash.toHex)
  else return data

variable {c}

theorem readPayload_objectRecord {hash : Hash} {size : ℕ} {compressed : Bytes} (tail : Bytes)
    (h : compressed.length < 2 ^ 32) :
    readPayload (objectRecord hash size compressed ++ tail) = .ok compressed := by
  have hc : leNat (leBytes 4 compressed.length) = compressed.length :=
    leNat_leBytes_of_lt (lt_of_lt_of_le h (by norm_num))
  simp only [readPayload, objectRecord, List.cons_append, List.append_assoc, readBytes_one,
    readBytes_append _ (length_leBytes 4 size), readBytes_append _ hash.size, hc,
    readBytes_append _ (length_leBytes 4 compressed.length),
    readBytes_append tail (rfl : compressed.length = compressed.length), bind, Except.bind, ne_eq,
    not_true_eq_false, if_false, pure, Except.pure]

theorem decodeRecord_hash {bs data : Bytes} {hash : Hash}
    (h : decodeRecord c bs hash = .ok data) :
    hashBytes c data = hash ∧ data.length ≤ maxDecompressedSize := by
  simp only [decodeRecord, bind, Except.bind] at h
  cases hp : readPayload bs with
  | error e => simp [hp] at h
  | ok comp =>
    cases hd : decompress c comp with
    | error e => simp [hp, hd, Except.mapError] at h
    | ok d =>
      by_cases hh : hashBytes c d = hash
      · simp only [hp, hd, Except.mapError, hh, ne_eq, not_true_eq_false, if_false, pure,
          Except.pure] at h
        obtain rfl := Except.ok.inj h
        exact ⟨hh, length_decompress c hd⟩
      · simp [hp, hd, Except.mapError, hh] at h

/-- A record reads back if its payload fits the length field and decompresses. -/
theorem decodeRecord_payload {hash : Hash} {data compressed : Bytes} (size : ℕ) (tail : Bytes)
    (hbound : compressed.length < 2 ^ 32) (hdec : decompress c compressed = .ok data)
    (hhash : hashBytes c data = hash) :
    decodeRecord c (objectRecord hash size compressed ++ tail) hash = .ok data := by
  simp [decodeRecord, readPayload_objectRecord tail hbound, hdec, hhash, bind, Except.bind,
    Except.mapError, pure, Except.pure]

/-- A record written from data within the cap reads back. -/
theorem decodeRecord_objectRecord (hz : ZstdSound c) {hash : Hash} {data compressed : Bytes}
    (tail : Bytes) (hcomp : compressDefault c data = .ok compressed)
    (hlen : data.length ≤ maxDecompressedSize) (hhash : hashBytes c data = hash) :
    decodeRecord c (objectRecord hash data.length compressed ++ tail) hash = .ok data := by
  have hbound := hz.bound _ _ _ (compress_ok.mp hcomp) hlen
  have hdec := decompress_compress hz hcomp
  rw [if_pos hlen] at hdec
  exact decodeRecord_payload data.length tail hbound hdec hhash

/-- Where each object ends up: the entry's offset points at its record. -/
structure Packed (c : Crates) (packData : Bytes) (object : Hash × Bytes)
    (entry : PackIndexEntry) : Prop where
  hash : entry.hash = object.1
  offset : entry.offset < 2 ^ 64
  record : ∃ compressed tail, compressDefault c object.2 = .ok compressed ∧
    packData.drop entry.offset = objectRecord object.1 object.2.length compressed ++ tail

theorem Packed.append {packData : Bytes} {object : Hash × Bytes} {entry : PackIndexEntry}
    (h : Packed c packData object entry) (hlt : entry.offset ≤ packData.length) (more : Bytes) :
    Packed c (packData ++ more) object entry := by
  obtain ⟨compressed, tail, hc, hd⟩ := h.record
  refine ⟨h.hash, h.offset, compressed, tail ++ more, hc, ?_⟩
  rw [List.drop_append_of_le_length hlt, hd, List.append_assoc]

theorem appendObjects_spec {objects done : List (Hash × Bytes)} {packData packData' : Bytes}
    {entries entries' : List PackIndexEntry} (hlen : packData.length ≤ isizeMax)
    (hdone : List.Forall₂ (fun o e => Packed c packData o e ∧ e.offset ≤ packData.length)
      done entries)
    (h : appendObjects c objects packData entries = .ok (packData', entries')) :
    List.Forall₂ (Packed c packData') (done ++ objects) entries' ∧
      packData'.length ≤ isizeMax := by
  induction objects generalizing done packData entries with
  | nil =>
    obtain ⟨rfl, rfl⟩ := Prod.mk.inj (Except.ok.inj h)
    rw [List.append_nil]
    exact ⟨hdone.imp fun _ _ h => h.1, hlen⟩
  | cons o objects ih =>
    obtain ⟨hash, data⟩ := o
    simp only [appendObjects, bind, Except.bind] at h
    cases hc : compressDefault c data with
    | error e => simp [hc, Except.mapError] at h
    | ok compressed =>
      simp only [hc, Except.mapError] at h
      split_ifs at h with hcap
      have hnew : List.Forall₂ (fun o e => Packed c
          (packData ++ objectRecord hash data.length compressed) o e ∧
          e.offset ≤ (packData ++ objectRecord hash data.length compressed).length)
          (done ++ [(hash, data)]) (entries ++ [⟨hash, packData.length⟩]) := by
        have hlast : Packed c (packData ++ objectRecord hash data.length compressed) (hash, data)
            ⟨hash, packData.length⟩ := by
          refine ⟨rfl, ?_, compressed, [], hc, by simp⟩
          show packData.length < 2 ^ 64
          have : isizeMax < 2 ^ 64 := by decide
          omega
        refine List.rel_append (hdone.imp fun o e hoe => ?_) (.cons ⟨hlast, by simp⟩ .nil)
        have hle := hoe.2
        exact ⟨hoe.1.append hle _, by rw [List.length_append]; omega⟩
      have := ih (by omega) hnew h
      simpa using this

theorem packObjects_spec {objects : List (Hash × Bytes)} {packData : Bytes}
    {entries : List PackIndexEntry} (h : packObjects c objects = .ok (packData, entries)) :
    List.Forall₂ (Packed c packData) objects entries := by
  have hhead : (packHeader objects.length).length ≤ isizeMax := by
    simp only [packHeader, List.length_append, length_packMagic, length_leBytes]
    decide
  simpa using (appendObjects_spec hhead .nil h).1

end Pack

end CasKit
