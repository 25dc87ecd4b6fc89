import CasKit.Error

/-!
# Hashing and compression

BLAKE3 and Zstd are other crates and enter as the fields of `Crates`: a digest function, an
encoder, and a decoder that delivers the bytes of a frame read by read. What is used of
them is stated once, in `ZstdSound` and in the collision-freeness of a given set of byte
strings. The bounded decompression loop is the store's own and is followed here.
-/
namespace CasKit

/-- The reads of a decoder: each delivers some bytes, until the end of the stream or an
error. -/
inductive Decoder where
  | eof
  | fail (message : Text)
  | chunk (bytes : Bytes) (next : Decoder)

structure Crates where
  blake3 : Bytes → Hash
  /-- The whole stream encoder: the data, the level, and the finished frame. -/
  zstdEncode : Bytes → ℤ → Except Text Bytes
  /-- Opening a decoder over a byte string. -/
  zstdDecoder : Bytes → Except Text Decoder

def defaultCompressionLevel : ℤ := 3

/-- The zip-bomb cap, 1 GiB. -/
def maxDecompressedSize : ℕ := 1024 * 1024 * 1024

/-- Every read is non-empty and together they deliver `data`, without an error. -/
def Decoder.Delivers : Decoder → Bytes → Prop
  | .eof, data => data = []
  | .fail _, _ => False
  | .chunk c next, data => c ≠ [] ∧ ∃ rest, data = c ++ rest ∧ next.Delivers rest

/-- The documented behaviour of Zstd that the store relies on. The size bound is the one of
`ZSTD_compressBound`, far below `2 ^ 32` for data within the cap. -/
structure ZstdSound (c : Crates) : Prop where
  magic : ∀ data level frame, c.zstdEncode data level = .ok frame →
    frame.take 4 = [0x28, 0xB5, 0x2F, 0xFD]
  roundTrip : ∀ data level frame, c.zstdEncode data level = .ok frame →
    ∃ d, c.zstdDecoder frame = .ok d ∧ d.Delivers data
  bound : ∀ data level frame, c.zstdEncode data level = .ok frame →
    data.length ≤ maxDecompressedSize → frame.length < 2 ^ 32

variable (c : Crates)

def hashBytes (data : Bytes) : Hash := c.blake3 data

def verifyHash (data : Bytes) (expected : Hash) : Except CasError Unit :=
  let actual := hashBytes c data
  if actual = expected then .ok ()
  else .error (.hashMismatch expected.toHex actual.toHex)

def compress (data : Bytes) (level : ℤ) : Except CasError Bytes :=
  (c.zstdEncode data level).mapError .compressionError

def compressDefault (data : Bytes) : Except CasError Bytes :=
  compress c data defaultCompressionLevel

/-- The read loop: `output` is what has been collected so far. -/
def decompressLoop : Decoder → Bytes → Except CasError Bytes
  | .eof, output => .ok output
  | .fail m, _ => .error (.decompressionError m)
  | .chunk buffer next, output =>
    if buffer.length = 0 then .ok output
    else if output.length + buffer.length > maxDecompressedSize then
      .error (.decompressionTooLarge maxDecompressedSize)
    else decompressLoop next (output ++ buffer)

def decompress (data : Bytes) : Except CasError Bytes :=
  match c.zstdDecoder data with
  | .error m => .error (.decompressionError m)
  | .ok decoder => decompressLoop decoder []

theorem verifyHash_ok {data : Bytes} {h : Hash} :
    verifyHash c data h = .ok () ↔ hashBytes c data = h := by
  by_cases heq : hashBytes c data = h <;> simp [verifyHash, heq]

/-- A result of the loop stays within the cap, whatever the decoder delivers. -/
theorem length_decompressLoop {d : Decoder} {out data : Bytes}
    (hout : out.length ≤ maxDecompressedSize) (h : decompressLoop d out = .ok data) :
    data.length ≤ maxDecompressedSize := by
  induction d generalizing out with
  | eof => obtain rfl := Except.ok.inj h; exact hout
  | fail m => cases h
  | chunk buffer next ih =>
    simp only [decompressLoop] at h
    split_ifs at h with h0 hcap
    · obtain rfl := Except.ok.inj h; exact hout
    · exact ih (by simp only [List.length_append]; omega) h

theorem length_decompress {frame data : Bytes} (h : decompress c frame = .ok data) :
    data.length ≤ maxDecompressedSize := by
  unfold decompress at h
  cases hd : c.zstdDecoder frame with
  | error m => simp [hd] at h
  | ok d =>
    rw [hd] at h
    exact length_decompressLoop (by simp) h

/-- Where the decoder delivers `data`, the loop collects it as long as it fits the cap. -/
theorem decompressLoop_of_delivers {d : Decoder} {out data : Bytes} (hd : d.Delivers data)
    (hout : out.length ≤ maxDecompressedSize) :
    decompressLoop d out =
      if out.length + data.length ≤ maxDecompressedSize then .ok (out ++ data)
      else .error (.decompressionTooLarge maxDecompressedSize) := by
  induction d generalizing out data with
  | eof =>
    have hnil : data = [] := hd
    simp [decompressLoop, hnil, hout]
  | fail m => exact hd.elim
  | chunk buffer next ih =>
    obtain ⟨hne, rest, rfl, hrest⟩ := hd
    have hlen : buffer.length ≠ 0 := fun h => hne (List.length_eq_zero_iff.mp h)
    simp only [decompressLoop, if_neg hlen, List.length_append]
    by_cases hcap : out.length + buffer.length > maxDecompressedSize
    · rw [if_pos hcap, if_neg (by omega)]
    · rw [if_neg hcap, ih hrest (by simp only [List.length_append]; omega)]
      simp only [List.length_append, List.append_assoc, Nat.add_assoc]

variable {c}

theorem compress_ok {data frame : Bytes} {level : ℤ} :
    compress c data level = .ok frame ↔ c.zstdEncode data level = .ok frame := by
  unfold compress
  cases c.zstdEncode data level <;> simp [Except.mapError]

/-- Decompression undoes compression up to the cap, and reports data beyond it. -/
theorem decompress_compress (hz : ZstdSound c) {data frame : Bytes} {level : ℤ}
    (h : compress c data level = .ok frame) :
    decompress c frame =
      if data.length ≤ maxDecompressedSize then .ok data
      else .error (.decompressionTooLarge maxDecompressedSize) := by
  obtain ⟨d, hd, hdel⟩ := hz.roundTrip data level frame (compress_ok.mp h)
  have hnil : ([] : Bytes).length ≤ maxDecompressedSize := Nat.zero_le _
  have hloop := decompressLoop_of_delivers hdel hnil
  simpa [decompress, hd] using hloop

end CasKit
