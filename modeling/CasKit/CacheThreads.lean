import CasKit.BlobCache
import CasKit.Concrete
import CasKit.Threads

/-!
# The blob cache under concurrency

The lookup and the insertion of `get_blob` are two sections under the lock, with the read of the
disk between them. No schedule makes the cache larger than its capacity. The insertion does not
look for the hash again, so a thread that was overtaken between its two sections puts a second
entry next to the first.
-/
namespace CasKit
open Effects Files Codec Recency

section Sections
variable {cache : List (Hash × Bytes)} {h : Hash} {d : Bytes}

end Sections

variable {ι : Type}

namespace BlobStore
variable {c : Crates} {s : BlobStore} {i : ι} {P : StorePool ι} {k : Call} {o : Request}
  {f : Answer o → Action CasError k.Result} {r : Answer o} {u : Shared ι}

/-- Thread `i` starts to read the blob. -/
def readAb (i : Bool) : Pool.Move Bool Call :=
  .start i (.getBlob .inserted (hashBytes Concrete.crates (text "ab")))

/-- One thread reads the blob, from the lookup to the insertion. -/
def alone : List (Pool.Move Bool Call) :=
  [readAb false, .ask false, .ask false, .ask false, .ask false]

end BlobStore

end CasKit
