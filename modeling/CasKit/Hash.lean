import CasKit.Lib.ByteCodec
import CasKit.Lib.FileTree

/-!
# Content hashes and their text form

A `Hash` is a 32-byte digest that carries the proof of its length. Strings are their UTF-8
bytes, so the parser sees what `as_bytes` and `len` see. `fromHex` follows the standard
library's `u8::from_str_radix` on each two-byte chunk, sign included.
-/
namespace CasKit
open Codec Files

abbrev Bytes := List UInt8

/-- A string, as its UTF-8 bytes. -/
abbrev Text := List UInt8

structure Hash where
  bytes : Bytes
  size : bytes.length = 32
  deriving DecidableEq

namespace Hash

@[ext] theorem ext {a b : Hash} (h : a.bytes = b.bytes) : a = b := by
  cases a; cases b; simpa using h

theorem bytes_injective : Function.Injective Hash.bytes := fun _ _ => ext

/-- Byte-lexicographic, as the derived `Ord` of `[u8; 32]`. -/
instance : LinearOrder Hash := LinearOrder.lift' Hash.bytes bytes_injective

end Hash

inductive HashError where
  | invalidLength (n : ℕ)
  | invalidHex
  deriving DecidableEq

/-- The value of one digit of radix 16, either case. -/
def hexDigit (b : UInt8) : Option UInt8 :=
  if 0x30 ≤ b && b ≤ 0x39 then some (b - 0x30)
  else if 0x61 ≤ b && b ≤ 0x66 then some (b - 0x61 + 10)
  else if 0x41 ≤ b && b ≤ 0x46 then some (b - 0x41 + 10)
  else none

def radixDigits : List UInt8 → UInt8 → Option UInt8
  | [], acc => some acc
  | d :: ds, acc =>
    match hexDigit d with
    | none => none
    | some v =>
      let next := acc.toNat * 16 + v.toNat
      if next < 256 then radixDigits ds (UInt8.ofNat next) else none

/-- `u8::from_str_radix(s, 16)`: a leading `+` is skipped, a lone sign is no number. -/
def u8FromStrRadix16 (s : Text) : Option UInt8 :=
  match s with
  | [] => none
  | [0x2B] => none
  | 0x2B :: ds => radixDigits ds 0
  | ds => radixDigits ds 0

/-- Parse the two-byte chunks from left to right. -/
def parseChunks : Text → Option Bytes
  | a :: b :: rest =>
    if isUtf8 [a, b] then
      match u8FromStrRadix16 [a, b] with
      | none => none
      | some v => (parseChunks rest).map (v :: ·)
    else none
  | _ => some []

theorem length_parseChunks {s : Text} {bs : Bytes} (h : parseChunks s = some bs) :
    bs.length = s.length / 2 := by
  induction s using parseChunks.induct generalizing bs with
  | case1 a b rest hu hv => simp [parseChunks, hu, hv] at h
  | case2 a b rest hu v hv ih =>
    simp only [parseChunks, hu, hv, if_true] at h
    obtain ⟨vs, hvs, rfl⟩ := Option.map_eq_some_iff.mp h
    simp only [List.length_cons, ih hvs]
    omega
  | case3 a b rest hu => simp [parseChunks, hu] at h
  | case4 s hs =>
    match s, hs with
    | [], _ => simp only [parseChunks] at h; simp [← Option.some.inj h]
    | [a], _ => simp only [parseChunks] at h; simp [← Option.some.inj h]
    | a :: b :: rest, hs => exact absurd rfl (hs a b rest)

namespace Hash

def fromHex (hex : Text) : Except HashError Hash :=
  if hlen : hex.length = 64 then
    match h : parseChunks hex with
    | some bs => .ok ⟨bs, by rw [length_parseChunks h, hlen]⟩
    | none => .error .invalidHex
  else .error (.invalidLength hex.length)

def hexChars : Bytes := "0123456789abcdef".toUTF8.toList

def hexChar (n : UInt8) : UInt8 := hexChars.getD n.toNat 0

def hexPair (b : UInt8) : Text := [hexChar (b >>> 4), hexChar (b &&& 0x0f)]

/-- The 64 lowercase hex digits of the digest. -/
def toHex (h : Hash) : Text := h.bytes.flatMap hexPair

/-- The all-zero sentinel. -/
def zero : Hash := ⟨List.replicate 32 0, rfl⟩

end Hash

/-- A statement about every byte is a statement about 256 numbers. -/
theorem forall_byte {P : UInt8 → Prop} (h : ∀ n : Fin 256, P (UInt8.ofNat n.val)) (b : UInt8) :
    P b := by
  have := h ⟨b.toNat, b.toNat_lt⟩
  simpa using this

namespace Hash

theorem hexPair_parse (b : UInt8) :
    isUtf8 (hexPair b) = true ∧ u8FromStrRadix16 (hexPair b) = some b :=
  forall_byte (P := fun b => isUtf8 (hexPair b) = true ∧ u8FromStrRadix16 (hexPair b) = some b)
    (by decide +kernel) b

theorem hexPair_ascii (b : UInt8) : ∀ c ∈ hexPair b, c < 0x80 ∧ c ≠ 0x2E := by
  have hdigits := forall_byte (P := fun b =>
    (hexChar (b >>> 4) < 0x80 ∧ hexChar (b >>> 4) ≠ 0x2E) ∧
      hexChar (b &&& 0x0f) < 0x80 ∧ hexChar (b &&& 0x0f) ≠ 0x2E) (by decide +kernel) b
  intro c hc
  rcases List.mem_pair.mp hc with rfl | rfl
  · exact hdigits.1
  · exact hdigits.2

theorem parseChunks_hexPairs (bs : Bytes) : parseChunks (bs.flatMap hexPair) = some bs := by
  induction bs with
  | nil => rfl
  | cons b bs ih =>
    obtain ⟨h1, h2⟩ := hexPair_parse b
    simp only [hexPair] at h1 h2
    simp [hexPair, parseChunks, h1, h2, ih]

@[simp] theorem length_toHex (h : Hash) : h.toHex.length = 64 := by
  have : ∀ bs : Bytes, (bs.flatMap hexPair).length = 2 * bs.length := by
    intro bs
    induction bs with
    | nil => rfl
    | cons b bs ih => simp only [List.flatMap_cons, List.length_append, ih, hexPair,
        List.length_cons, List.length_nil]; omega
  rw [toHex, this, h.size]

theorem fromHex_toHex (h : Hash) : fromHex h.toHex = .ok h := by
  unfold fromHex
  rw [dif_pos (length_toHex h)]
  split
  · rename_i bs hbs
    have : some bs = some h.bytes := hbs.symm.trans (parseChunks_hexPairs h.bytes)
    congr 1
    exact Hash.ext (Option.some.inj this)
  · rename_i hbs
    exact absurd (hbs.symm.trans (parseChunks_hexPairs h.bytes)) (by simp)

theorem toHex_injective : Function.Injective toHex := by
  intro a b h
  have := (fromHex_toHex a).symm.trans (h ▸ fromHex_toHex b)
  exact Except.ok.inj this

theorem toHex_ascii (h : Hash) : ∀ c ∈ h.toHex, c < 0x80 := by
  intro c hc
  obtain ⟨b, -, hb⟩ := List.mem_flatMap.mp hc
  exact (hexPair_ascii b c hb).1

theorem toHex_no_dot (h : Hash) : (0x2E : UInt8) ∉ h.toHex := by
  intro hc
  obtain ⟨b, -, hb⟩ := List.mem_flatMap.mp hc
  exact (hexPair_ascii b _ hb).2 rfl

end Hash

end CasKit
