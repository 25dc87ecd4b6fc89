import CasKit.Concrete
import CasKit.Layout

/-!
# Listed and addressable

Lookups go from a hash to a path, the listing goes from names to a hash. The two agree where
every file whose glued names parse is at the path of what they parse to.
-/
namespace CasKit
open Effects Files Codec

namespace BlobStore
variable (s : BlobStore) {t : Tree} {h : Hash}

/-- The path of the file with these names. -/
def pathOf (n : Name × Name) : Path := s.objectsDir ++ [n.1, n.2]

theorem pathOf_injective : Function.Injective s.pathOf := by
  intro n m hnm
  have htail := List.append_cancel_left hnm
  simp only [List.cons.injEq, and_true] at htail
  exact Prod.ext htail.1 htail.2

/-- The names of a canonical path. -/
theorem blobPath_eq_pathOf (h : Hash) :
    s.blobPath h = s.pathOf (h.toHex.take 2, h.toHex.drop 2) := s.blobPath_eq

theorem glued_toHex (h : Hash) : glued (h.toHex.take 2, h.toHex.drop 2) = some h := by
  have hascii := Hash.toHex_ascii h
  have htake : fromUtf8Lossy (h.toHex.take 2) = h.toHex.take 2 :=
    fromUtf8Lossy_ascii fun b hb => hascii b (List.mem_of_mem_take hb)
  have hdrop : fromUtf8Lossy (h.toHex.drop 2) = h.toHex.drop 2 :=
    fromUtf8Lossy_ascii fun b hb => hascii b (List.mem_of_mem_drop hb)
  rw [glued_eq_some, htake, hdrop, List.take_append_drop, Hash.fromHex_toHex]

/-- The names of a loose blob at its own path are met by the listing. -/
theorem mem_twoDown_blobPath :
    (h.toHex.take 2, h.toHex.drop 2) ∈ s.twoDown t ↔ (t.file (s.blobPath h)).isSome := by
  rw [mem_twoDown, s.blobPath_eq, Option.isSome_iff_exists]
  simp only [Tree.file_eq_some]
  constructor
  · rintro ⟨-, hfile⟩
    exact hfile
  · intro hfile
    exact ⟨bucket_ne_packDirName h, hfile⟩

/-- Every file two levels down whose glued names parse is at the path of the result. -/
def AtOwnPath (t : Tree) : Prop :=
  ∀ bucket name b h, bucket ≠ packDirName →
    t.file (s.objectsDir ++ [bucket, name]) = some b →
    Hash.fromHex (fromUtf8Lossy bucket ++ fromUtf8Lossy name) = .ok h →
    s.objectsDir ++ [bucket, name] = s.blobPath h

theorem atOwnPath_iff : s.AtOwnPath t ↔
    ∀ n ∈ s.twoDown t, ∀ h, glued n = some h → s.pathOf n = s.blobPath h := by
  unfold AtOwnPath
  simp only [mem_twoDown, glued_eq_some, Prod.forall, Tree.file_eq_some]
  constructor
  · rintro hown bucket name ⟨hpack, b, hb⟩ h hh
    exact hown bucket name b h hpack hb hh
  · intro hown bucket name b h hpack hb hh
    exact hown bucket name ⟨hpack, b, hb⟩ h hh

/-- Two files that name the same hash are the same file. -/
theorem listed_nodup_iff : ((s.twoDown t).filterMap glued).Nodup ↔
    ∀ n ∈ s.twoDown t, ∀ m ∈ s.twoDown t, ∀ h, glued n = some h → glued m = some h → n = m := by
  constructor
  · intro hnodup n hn m hm h hnh hmh
    by_contra hne
    have hpair := List.pairwise_filterMap.mp hnodup
    have hsymm : Std.Symm fun a a' : Name × Name =>
        ∀ b, glued a = some b → ∀ b', glued a' = some b' → b ≠ b' :=
      ⟨fun a a' hab b hb b' hb' hbb => hab b' hb' b hb hbb.symm⟩
    exact hpair.forall hn hm hne h hnh h hmh rfl
  · intro honly
    have hmem : (s.twoDown t).Pairwise fun n m => n ∈ s.twoDown t ∧ m ∈ s.twoDown t ∧ n ≠ m :=
      List.Pairwise.imp_of_mem (fun ha hb hne => ⟨ha, hb, hne⟩) (s.nodup_twoDown t)
    refine List.pairwise_filterMap.mpr (hmem.imp ?_)
    rintro n m ⟨hn, hm, hne⟩ h hnh h' hmh rfl
    exact hne (honly n hn m hm h hnh hmh)

/-- The files name each hash once, and exactly the hashes with a file of their own, if and
only if they are all at their own paths. -/
theorem listed_iff_atOwnPath :
    (((s.twoDown t).filterMap glued).Nodup ∧ ∀ h, h ∈ (s.twoDown t).filterMap glued ↔
      (t.file (s.blobPath h)).isSome) ↔ s.AtOwnPath t := by
  rw [listed_nodup_iff, atOwnPath_iff]
  constructor
  · rintro ⟨honly, hexact⟩ n hn h hh
    -- the file at the path of the hash names it too
    have hfile := (hexact h).mp (List.mem_filterMap.mpr ⟨n, hn, hh⟩)
    have hown := s.mem_twoDown_blobPath.mpr hfile
    rw [blobPath_eq_pathOf, honly n hn _ hown h hh (glued_toHex h)]
  · intro hown
    refine ⟨fun n hn m hm h hnh hmh => ?_, fun h => ?_⟩
    · exact s.pathOf_injective ((hown n hn h hnh).trans (hown m hm h hmh).symm)
    · rw [List.mem_filterMap, ← s.mem_twoDown_blobPath]
      constructor
      · rintro ⟨n, hn, hh⟩
        have hpath := hown n hn h hh
        rw [blobPath_eq_pathOf] at hpath
        exact s.pathOf_injective hpath ▸ hn
      · intro hn
        exact ⟨_, hn, glued_toHex h⟩

/-- `list_blobs` returns, strictly increasing, exactly the hashes with a file at their own
path, if and only if no file stands at the place of the objects directory and every file
whose glued names parse is at the path of the result. -/
theorem listBlobs_addressable (caches : Caches) :
    (∃ hashes, (run s.listBlobs ⟨t, caches⟩).1 = .ok hashes ∧ hashes.Pairwise (· < ·) ∧
      ∀ h, h ∈ hashes ↔ (t.file (s.blobPath h)).isSome) ↔
    t.file s.objectsDir = none ∧ s.AtOwnPath t := by
  have hrun : (run s.listBlobs ⟨t, caches⟩).1 = peek s.listBlobs t := by
    rw [run_of_reads s.listBlobs_reads]
  rw [hrun, ← listed_iff_atOwnPath]
  -- a sorted list is strictly increasing where nothing occurs twice
  have hsorted : ∀ l : List Hash, (l.insertionSort (· ≤ ·)).Pairwise (· < ·) ↔ l.Nodup := by
    intro l
    rw [← (List.perm_insertionSort (· ≤ ·) l).nodup_iff]
    constructor
    · intro hlt
      exact hlt.imp fun hab => ne_of_lt hab
    · intro hnodup
      have hle := List.pairwise_insertionSort (· ≤ ·) l
      exact (hle.and hnodup).imp fun hab => lt_of_le_of_ne hab.1 hab.2
  constructor
  · rintro ⟨hashes, hlist, hlt, hexact⟩
    have hdir := (listBlobs_mem hlist).1
    obtain rfl := Except.ok.inj (hlist.symm.trans (s.peek_listBlobs hdir))
    refine ⟨hdir, (hsorted _).mp hlt, fun h => ?_⟩
    rw [← hexact, List.mem_insertionSort]
  · rintro ⟨hdir, hnodup, hexact⟩
    refine ⟨_, s.peek_listBlobs hdir, (hsorted _).mpr hnodup, fun h => ?_⟩
    rw [List.mem_insertionSort]
    exact hexact h

/-- A blob whose bucket and file are written in upper case. -/
def upperDisk : Tree :=
  Concrete.after (ioCas (writeFile ((Concrete.store false).objectsDir ++
      [text "AB", text (String.ofList (List.replicate 62 '0'))]) (text "x")))
    (Concrete.after (ioCas (createDirAll ((Concrete.store false).objectsDir ++ [text "AB"])))
      Concrete.newDisk)

/-- A file in upper case is listed, and nothing is at the path that the listed hash has. -/
theorem listBlobs_upper :
    ¬ ∃ hashes, (run (Concrete.store false).listBlobs ⟨upperDisk, .empty⟩).1 = .ok hashes ∧
      hashes.Pairwise (· < ·) ∧
        ∀ h, h ∈ hashes ↔ (upperDisk.file ((Concrete.store false).blobPath h)).isSome := by
  rintro ⟨hashes, hrun, -, hexact⟩
  have hlisted : (run (Concrete.store false).listBlobs ⟨upperDisk, .empty⟩).1.toOption.map
      (fun hashes => hashes.map fun h =>
        (upperDisk.file ((Concrete.store false).blobPath h)).isSome) = some [false] := by
    decide +kernel
  rw [hrun] at hlisted
  have hmap := Option.some.inj hlisted
  obtain ⟨h, hh, hnone⟩ := List.mem_map.mp (hmap ▸ List.mem_singleton_self false)
  rw [(hexact h).mp hh] at hnone
  cases hnone

end BlobStore

end CasKit
