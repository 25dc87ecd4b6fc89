import CasKit.Store

/-!
# Concrete crates

An instance of `Crates` that computes: BLAKE3 as the real function on inputs of at most one
chunk, and Zstd frames that consist of one raw block, which is what the real encoder emits
for a few bytes it cannot shorten. Runs on small stores can be evaluated with it.
-/
namespace CasKit
open Effects Files Codec

namespace Concrete

/-! ## BLAKE3 on one chunk -/

def rotr (x n : ℕ) : ℕ := (x >>> n) ||| ((x <<< (32 - n)) % 2 ^ 32)

def initVector : List ℕ :=
  [0x6A09E667, 0xBB67AE85, 0x3C6EF372, 0xA54FF53A, 0x510E527F, 0x9B05688C, 0x1F83D9AB, 0x5BE0CD19]

def permutation : List ℕ := [2, 6, 3, 10, 7, 0, 4, 13, 1, 11, 12, 5, 9, 14, 15, 8]

/-- The quarter round on four words with two message words. -/
def mix (a b c d mx my : ℕ) : ℕ × ℕ × ℕ × ℕ :=
  let a := (a + b + mx) % 2 ^ 32
  let d := rotr (d ^^^ a) 16
  let c := (c + d) % 2 ^ 32
  let b := rotr (b ^^^ c) 12
  let a := (a + b + my) % 2 ^ 32
  let d := rotr (d ^^^ a) 8
  let c := (c + d) % 2 ^ 32
  let b := rotr (b ^^^ c) 7
  (a, b, c, d)

def round (s m : List ℕ) : List ℕ :=
  match s, m with
  | [s0, s1, s2, s3, s4, s5, s6, s7, s8, s9, s10, s11, s12, s13, s14, s15],
    [m0, m1, m2, m3, m4, m5, m6, m7, m8, m9, m10, m11, m12, m13, m14, m15] =>
    let (s0, s4, s8, s12) := mix s0 s4 s8 s12 m0 m1
    let (s1, s5, s9, s13) := mix s1 s5 s9 s13 m2 m3
    let (s2, s6, s10, s14) := mix s2 s6 s10 s14 m4 m5
    let (s3, s7, s11, s15) := mix s3 s7 s11 s15 m6 m7
    let (s0, s5, s10, s15) := mix s0 s5 s10 s15 m8 m9
    let (s1, s6, s11, s12) := mix s1 s6 s11 s12 m10 m11
    let (s2, s7, s8, s13) := mix s2 s7 s8 s13 m12 m13
    let (s3, s4, s9, s14) := mix s3 s4 s9 s14 m14 m15
    [s0, s1, s2, s3, s4, s5, s6, s7, s8, s9, s10, s11, s12, s13, s14, s15]
  | s, _ => s

def rounds : ℕ → List ℕ → List ℕ → List ℕ
  | 0, s, _ => s
  | n + 1, s, m => rounds n (round s m) (permutation.map fun i => m.getD i 0)

/-- The compression function at counter zero. -/
def compressBlock (cv block : List ℕ) (len flags : ℕ) : List ℕ :=
  let s := rounds 7 (cv ++ initVector.take 4 ++ [0, 0, len, flags]) block
  List.zipWith (· ^^^ ·) (s.take 8) (s.drop 8)

def wordsOf : ℕ → Bytes → List ℕ
  | 0, _ => []
  | n + 1, bs => leNat (bs.take 4) :: wordsOf n (bs.drop 4)

/-- The blocks of the chunk that is the whole input: the first one starts it, the last one
ends it and is the root. -/
def chunk : ℕ → Bool → List ℕ → Bytes → List ℕ
  | 0, _, cv, _ => cv
  | n + 1, first, cv, bs =>
    let flags := if first then 1 else 0
    if bs.length ≤ 64 then compressBlock cv (wordsOf 16 bs) bs.length (flags + 10)
    else chunk n false (compressBlock cv (wordsOf 16 (bs.take 64)) 64 flags) (bs.drop 64)

def blake3Bytes (data : Bytes) : Bytes :=
  ((chunk 16 true initVector data).flatMap fun w => leBytes 4 w)

/-- The digest of an input of at most 1024 bytes. -/
def blake3 (data : Bytes) : Hash :=
  if h : (blake3Bytes data).length = 32 then ⟨blake3Bytes data, h⟩ else Hash.zero

example : (blake3 (text "abc")).toHex =
    text "6437b3ac38465133ffb63b75273a8db548c558465d79db03fd359c6cd5bd9d85" := by decide +kernel

/-! ## Zstd frames of one raw block -/

/-- The frame magic, the frame header descriptor and the window descriptor. -/
def frameHeader : Bytes := [0x28, 0xB5, 0x2F, 0xFD, 0x00, 0x58]

/-- A block holds at most 128 KiB. -/
def maxBlockSize : ℕ := 128 * 1024

def rawFrame (data : Bytes) : Bytes := frameHeader ++ leBytes 3 (8 * data.length + 1) ++ data

def encodeRaw (data : Bytes) (_level : ℤ) : Except Text Bytes :=
  if data.length ≤ maxBlockSize then .ok (rawFrame data) else .error (text "more than one block")

def decodeRaw (frame : Bytes) : Decoder :=
  if frame.take 4 ≠ frameHeader.take 4 then .fail (text "Unknown frame descriptor")
  else if frame.take 6 ≠ frameHeader ∨ frame.length < 9 then .fail (text "incomplete frame")
  else
    let data := frame.drop 9
    if leNat ((frame.drop 6).take 3) ≠ 8 * data.length + 1 then .fail (text "incomplete frame")
    else if data = [] then .eof
    else .chunk data .eof

def crates : Crates := ⟨blake3, encodeRaw, fun frame => .ok (decodeRaw frame)⟩

theorem decodeRaw_rawFrame {data : Bytes} (h : data.length ≤ maxBlockSize) :
    (decodeRaw (rawFrame data)).Delivers data := by
  have hsize : leNat (leBytes 3 (8 * data.length + 1)) = 8 * data.length + 1 := by
    refine leNat_leBytes_of_lt ?_
    have : maxBlockSize = 131072 := rfl
    omega
  have h6 : (rawFrame data).take 6 = frameHeader := by simp [rawFrame, frameHeader]
  have h4 : (rawFrame data).take 4 = frameHeader.take 4 := by simp [rawFrame, frameHeader]
  have h9 : (rawFrame data).drop 9 = data := by
    have hlen : (frameHeader ++ leBytes 3 (8 * data.length + 1)).length = 9 := by
      simp [frameHeader]
    rw [rawFrame, ← hlen, List.drop_left]
  have h69 : ((rawFrame data).drop 6).take 3 = leBytes 3 (8 * data.length + 1) := by
    have hlen : frameHeader.length = 6 := rfl
    rw [rawFrame, List.append_assoc, ← hlen, List.drop_left]
    exact List.take_left' (length_leBytes 3 _)
  have hlen : ¬ (rawFrame data).length < 9 := by
    simp only [rawFrame, frameHeader, List.length_append, List.length_cons, length_leBytes]
    omega
  simp only [decodeRaw, h4, h6, h9, h69, hsize, hlen, ne_eq, not_true_eq_false, if_false, or_self]
  by_cases hnil : data = []
  · rw [if_pos hnil]
    exact hnil
  · rw [if_neg hnil]
    exact ⟨hnil, [], (List.append_nil data).symm, rfl⟩

/-- The concrete frames behave as the store relies on. -/
theorem zstdSound : ZstdSound crates := by
  have hok : ∀ data level frame, crates.zstdEncode data level = .ok frame →
      data.length ≤ maxBlockSize ∧ frame = rawFrame data := by
    intro data level frame h
    change encodeRaw data level = .ok frame at h
    unfold encodeRaw at h
    split_ifs at h with hlen
    exact ⟨hlen, (Except.ok.inj h).symm⟩
  constructor
  · intro data level frame h
    obtain ⟨-, rfl⟩ := hok data level frame h
    simp [rawFrame, frameHeader]
  · intro data level frame h
    obtain ⟨hlen, rfl⟩ := hok data level frame h
    exact ⟨_, rfl, decodeRaw_rawFrame hlen⟩
  · intro data level frame h _
    obtain ⟨hlen, rfl⟩ := hok data level frame h
    have hsize : (rawFrame data).length = 9 + data.length := by
      simp only [rawFrame, frameHeader, List.length_append, List.length_cons, length_leBytes,
        List.length_nil]
    have : maxBlockSize = 131072 := rfl
    omega

/-! ## Stores on an empty file system -/

/-- A store in the directory `s`, with the default level. -/
def store (compress : Bool) : BlobStore :=
  ⟨[text "s"], compress, defaultCompressionLevel, true⟩

/-- The file system on which a store has just been created. -/
def newDisk : Tree := (run (BlobStore.new [text "s"]) ⟨Tree.empty, .empty⟩).2.disk

/-- Run calls one after another on fresh handles, and keep the disk. -/
def after {α : Type} (p : Action CasError α) (t : Tree) : Tree := (run p ⟨t, .empty⟩).2.disk

/-- What is in the files of a disk. -/
def files (t : Tree) : List Bytes := t.nodes.entries.filterMap fun e =>
  match e.2 with
  | .file b => some b
  | .dir => none

end Concrete

end CasKit
