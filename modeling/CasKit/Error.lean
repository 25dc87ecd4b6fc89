import CasKit.Hash

/-!
# Errors

The two error types of the crate with their display texts. A text carried by an error is
itself the display of what caused it, as `to_string` makes it.
-/
namespace CasKit
open Files

def text (s : String) : Text := s.toUTF8.toList

def natText (n : ℕ) : Text := text (toString n)

/-- What `std::io::Error` prints for the failures of the file calls. -/
def ioText : ErrorKind → Text
  | .notFound => text "No such file or directory (os error 2)"
  | .notADirectory => text "Not a directory (os error 20)"
  | .isADirectory => text "Is a directory (os error 21)"
  | .unexpectedEof => text "failed to fill whole buffer"

inductive PackError where
  | invalidMagic (magic : Text)
  | unsupportedVersion (version : ℕ)
  | invalidIndexMagic (magic : Text)
  | blobNotFound (hex : Text)
  | io (e : ErrorKind)
  | compressionError (message : Text)
  | decompressionError (message : Text)
  | emptyPack
  | unexpectedObjectType (type : UInt8)
  | hashMismatch (expected actual : Text)
  /-- Not a value of the source: a `Vec` that would outgrow `isize::MAX` bytes panics. -/
  | capacityOverflow
  deriving DecidableEq

def PackError.display : PackError → Text
  | invalidMagic m => text "invalid pack magic: " ++ m
  | unsupportedVersion v => text "unsupported pack version: " ++ natText v
  | invalidIndexMagic m => text "invalid index magic: " ++ m
  | blobNotFound hex => text "blob not found in pack: " ++ hex
  | io e => text "I/O error: " ++ ioText e
  | compressionError m => text "compression error: " ++ m
  | decompressionError m => text "decompression error: " ++ m
  | emptyPack => text "cannot create empty pack"
  | unexpectedObjectType b => text "unexpected object type: " ++ natText b.toNat
  | hashMismatch e a => text "hash mismatch in pack: expected " ++ e ++ text ", got " ++ a
  | capacityOverflow => text "capacity overflow"

inductive CasError where
  | blobNotFound (hex : Text)
  | hashMismatch (expected actual : Text)
  | lockPoisoned (message : Text)
  | io (e : ErrorKind)
  | compressionError (message : Text)
  | decompressionError (message : Text)
  | decompressionTooLarge (max : ℕ)
  | alreadyExists (hex : Text)
  | invalidPath (path : Text)
  | pack (e : PackError)
  | gcPathEscape (path : Text)
  | taskJoin (message : Text)
  /-- Not a value of the source: the message of a panic. -/
  | panicked (message : Text)
  deriving DecidableEq

def CasError.display : CasError → Text
  | blobNotFound hex => text "blob not found: " ++ hex
  | hashMismatch e a => text "hash mismatch: expected " ++ e ++ text ", got " ++ a
  | lockPoisoned m => text "lock poisoned: " ++ m
  | io e => text "I/O error: " ++ ioText e
  | compressionError m => text "compression error: " ++ m
  | decompressionError m => text "decompression error: " ++ m
  | decompressionTooLarge max =>
    text "decompressed data too large: " ++ natText max ++ text " bytes max"
  | alreadyExists hex => text "blob already exists: " ++ hex
  | invalidPath p => text "invalid path: " ++ p
  | pack e => text "pack error: " ++ e.display
  | gcPathEscape p => text "gc path outside store root: " ++ p
  | taskJoin m => text "background gc task failed: " ++ m
  | panicked m => m

end CasKit
