import CasKit.Error

/-!
# What the hex parser accepts

`from_hex` hands each chunk of two bytes to `u8::from_str_radix`, whose grammar allows a leading
plus sign. A chunk is therefore accepted as two digits, or as a sign and one digit.
-/
namespace CasKit

/-- An ASCII hexadecimal digit, either case. -/
def IsHexDigit (b : UInt8) : Prop :=
  (0x30 ≤ b ∧ b ≤ 0x39) ∨ (0x61 ≤ b ∧ b ≤ 0x66) ∨ (0x41 ≤ b ∧ b ≤ 0x46)

instance (b : UInt8) : Decidable (IsHexDigit b) := inferInstanceAs (Decidable (_ ∨ _ ∨ _))

def plus : UInt8 := 0x2B

/-- `u8::to_ascii_lowercase`. -/
def lowerByte (b : UInt8) : UInt8 := if 0x41 ≤ b ∧ b ≤ 0x5A then b + 0x20 else b

def lower (s : Text) : Text := s.map lowerByte

/-- Exactly 64 hexadecimal digits. -/
def HexText (s : Text) : Prop := s.length = 64 ∧ ∀ b ∈ s, IsHexDigit b

/-- The chunks that the integer parser takes: two digits, or a plus sign and a digit. -/
def ChunksTaken : Text → Prop
  | a :: b :: rest => (IsHexDigit a ∨ a = plus) ∧ IsHexDigit b ∧ ChunksTaken rest
  | _ => True

instance decidableChunksTaken : (s : Text) → Decidable (ChunksTaken s)
  | [] => isTrue trivial
  | [_] => isTrue trivial
  | a :: b :: rest =>
    have := decidableChunksTaken rest
    inferInstanceAs (Decidable ((IsHexDigit a ∨ a = plus) ∧ IsHexDigit b ∧ ChunksTaken rest))

instance (s : Text) : Decidable (HexText s) := inferInstanceAs (Decidable (_ ∧ _))

/-- 64 bytes in such chunks, with a sign in at least one. -/
def SignedHex (s : Text) : Prop := s.length = 64 ∧ ChunksTaken s ∧ plus ∈ s

namespace Hash
variable {a b x y : UInt8} {s : Text} {bs : Bytes}

/-- A digit has a value below 16, and the value is written as the digit in lower case. -/
theorem hexDigit_spec (b : UInt8) : (IsHexDigit b → (hexDigit b).isSome = true) ∧
    ∀ x ∈ hexDigit b, IsHexDigit b ∧ x.toNat < 16 ∧ hexChar x = lowerByte b :=
  forall_byte (P := fun b => (IsHexDigit b → (hexDigit b).isSome = true) ∧
    ∀ x ∈ hexDigit b, IsHexDigit b ∧ x.toNat < 16 ∧ hexChar x = lowerByte b) (by decide +kernel) b

theorem not_isHexDigit_plus : ¬ IsHexDigit plus := by decide

theorem ascii_of_isHexDigit (h : IsHexDigit b) : b < 0x80 := by
  unfold IsHexDigit at h
  rcases h with h | h | h
  · exact lt_of_le_of_lt h.2 (by decide)
  · exact lt_of_le_of_lt h.2 (by decide)
  · exact lt_of_le_of_lt h.2 (by decide)

theorem radixDigits_pair (hx : hexDigit a = some x) (hy : hexDigit b = some y) :
    radixDigits [a, b] 0 = some (UInt8.ofNat (x.toNat * 16 + y.toNat)) := by
  have hx16 := ((hexDigit_spec a).2 x hx).2.1
  have hy16 := ((hexDigit_spec b).2 y hy).2.1
  have hfirst : x.toNat < 256 := by omega
  have hboth : x.toNat * 16 + y.toNat < 256 := by omega
  simp [radixDigits, hx, hy, hfirst, hboth]

/-- A chunk of two digits is a number, which is written as the chunk in lower case. -/
theorem chunk_of_digits (ha : IsHexDigit a) (hb : IsHexDigit b) :
    ∃ v, u8FromStrRadix16 [a, b] = some v ∧ hexPair v = [lowerByte a, lowerByte b] := by
  obtain ⟨x, hx⟩ := Option.isSome_iff_exists.mp ((hexDigit_spec a).1 ha)
  obtain ⟨y, hy⟩ := Option.isSome_iff_exists.mp ((hexDigit_spec b).1 hb)
  obtain ⟨-, hx16, hxchar⟩ := (hexDigit_spec a).2 x hx
  obtain ⟨-, hy16, hychar⟩ := (hexDigit_spec b).2 y hy
  have hsplit : ∀ m n : Fin 16, UInt8.ofNat (m.val * 16 + n.val) >>> 4 = UInt8.ofNat m.val ∧
      UInt8.ofNat (m.val * 16 + n.val) &&& 0x0f = UInt8.ofNat n.val := by
    decide
  have hnibbles := hsplit ⟨x.toNat, hx16⟩ ⟨y.toNat, hy16⟩
  simp only [UInt8.ofNat_toNat] at hnibbles
  refine ⟨UInt8.ofNat (x.toNat * 16 + y.toNat), ?_, ?_⟩
  · rw [← radixDigits_pair hx hy]
    have hsign : a ≠ 0x2B := by
      rintro rfl
      exact not_isHexDigit_plus ha
    simp [u8FromStrRadix16, hsign]
  · rw [hexPair, hnibbles.1, hnibbles.2, hxchar, hychar]

/-- A sign and a digit are a number too. -/
theorem chunk_of_sign (hb : IsHexDigit b) : ∃ v, u8FromStrRadix16 [plus, b] = some v := by
  obtain ⟨y, hy⟩ := Option.isSome_iff_exists.mp ((hexDigit_spec b).1 hb)
  have hy16 := ((hexDigit_spec b).2 y hy).2.1
  have hsmall : y.toNat < 256 := by omega
  exact ⟨y, by simp [u8FromStrRadix16, plus, radixDigits, hy, hsmall]⟩

/-- The chunks that are numbers. -/
theorem chunk_iff : (∃ v, u8FromStrRadix16 [a, b] = some v) ↔
    (IsHexDigit a ∨ a = plus) ∧ IsHexDigit b := by
  constructor
  · rintro ⟨v, hv⟩
    by_cases hsign : a = plus
    · subst hsign
      refine ⟨.inr rfl, ?_⟩
      cases hy : hexDigit b with
      | none => simp [u8FromStrRadix16, plus, radixDigits, hy] at hv
      | some y => exact ((hexDigit_spec b).2 y hy).1
    · have hne : a ≠ 0x2B := hsign
      have hdigits : radixDigits [a, b] 0 = some v := by simpa [u8FromStrRadix16, hne] using hv
      cases hx : hexDigit a with
      | none => simp [radixDigits, hx] at hdigits
      | some x =>
        cases hy : hexDigit b with
        | none => simp [radixDigits, hx, hy] at hdigits
        | some y =>
          exact ⟨.inl ((hexDigit_spec a).2 x hx).1, ((hexDigit_spec b).2 y hy).1⟩
  · rintro ⟨ha | rfl, hb⟩
    · obtain ⟨v, hv, -⟩ := chunk_of_digits ha hb
      exact ⟨v, hv⟩
    · exact chunk_of_sign hb

theorem isUtf8_chunk (ha : IsHexDigit a ∨ a = plus) (hb : IsHexDigit b) :
    Codec.isUtf8 [a, b] = true := by
  apply Codec.isUtf8_ascii
  intro c hc
  rcases List.mem_pair.mp hc with rfl | rfl
  · rcases ha with ha | rfl
    · exact ascii_of_isHexDigit ha
    · decide
  · exact ascii_of_isHexDigit hb

/-- Parsing succeeds on the chunks that are taken, and on no others. -/
theorem parseChunks_isSome (s : Text) : (∃ bs, parseChunks s = some bs) ↔ ChunksTaken s := by
  induction s using parseChunks.induct with
  | case1 a b rest hutf8 hnone =>
    have hnot : ¬ ∃ v, u8FromStrRadix16 [a, b] = some v := by simp [hnone]
    rw [chunk_iff] at hnot
    simp only [parseChunks, hutf8, hnone, ChunksTaken]
    simp only [if_true, reduceCtorEq, exists_false, false_iff]
    exact fun htaken => hnot ⟨htaken.1, htaken.2.1⟩
  | case2 a b rest hutf8 v hv ih =>
    have hchunk := chunk_iff.mp ⟨v, hv⟩
    simp only [parseChunks, hutf8, hv, ChunksTaken, ← ih, if_true]
    simp [hchunk.1, hchunk.2]
  | case3 a b rest hutf8 =>
    rw [parseChunks, if_neg hutf8]
    simp only [reduceCtorEq, exists_false, false_iff, ChunksTaken]
    exact fun htaken => hutf8 (isUtf8_chunk htaken.1 htaken.2.1)
  | case4 s hs =>
    rcases s with _ | ⟨a, _ | ⟨b, rest⟩⟩
    · simp [parseChunks, ChunksTaken]
    · simp [parseChunks, ChunksTaken]
    · exact absurd rfl (hs a b rest)

/-- On digits alone the bytes read are written as the text in lower case. -/
theorem flatMap_hexPair_parseChunks (hlen : s.length % 2 = 0) (hs : ∀ b ∈ s, IsHexDigit b)
    (h : parseChunks s = some bs) : bs.flatMap hexPair = lower s := by
  induction s using parseChunks.induct generalizing bs with
  | case1 a b rest hutf8 hnone => simp [parseChunks, hutf8, hnone] at h
  | case2 a b rest hutf8 v hv ih =>
    simp only [parseChunks, hutf8, hv, if_true] at h
    obtain ⟨vs, hvs, rfl⟩ := Option.map_eq_some_iff.mp h
    have ha := hs a (by simp)
    have hb := hs b (by simp)
    obtain ⟨v', hv', hpair⟩ := chunk_of_digits ha hb
    have heq : v = v' := Option.some.inj (hv.symm.trans hv')
    have hrest := ih (by simp only [List.length_cons] at hlen; omega)
      (fun c hc => hs c (by simp [hc])) hvs
    simp [lower, heq, hpair, hrest]
  | case3 a b rest hutf8 => simp [parseChunks, hutf8] at h
  | case4 s hs' =>
    rcases s with _ | ⟨a, _ | ⟨b, rest⟩⟩
    · have heq := Option.some.inj h
      simp [lower, ← heq]
    · simp at hlen
    · exact absurd rfl (hs' a b rest)

theorem chunksTaken_of_digits (hs : ∀ b ∈ s, IsHexDigit b) : ChunksTaken s := by
  induction s using ChunksTaken.induct with
  | case1 a b rest ih =>
    refine ⟨.inl (hs a (by simp)), hs b (by simp), ih fun c hc => hs c (by simp [hc])⟩
  | case2 s hs' =>
    rcases s with _ | ⟨a, _ | ⟨b, rest⟩⟩
    · trivial
    · trivial
    · exact absurd rfl (hs' a b rest)

/-- Taken chunks without a sign are digits. -/
theorem digits_of_chunksTaken (hlen : s.length % 2 = 0) (htaken : ChunksTaken s)
    (hsign : plus ∉ s) : ∀ b ∈ s, IsHexDigit b := by
  induction s using ChunksTaken.induct with
  | case1 a b rest ih =>
    obtain ⟨ha, hb, hrest⟩ := htaken
    have hdigit : IsHexDigit a := ha.resolve_right fun heq => hsign (by simp [heq])
    have hmore := ih (by simp only [List.length_cons] at hlen; omega) hrest
      fun hmem => hsign (by simp [hmem])
    intro c hc
    rcases List.mem_cons.mp hc with rfl | hc
    · exact hdigit
    · rcases List.mem_cons.mp hc with rfl | hc
      · exact hb
      · exact hmore c hc
  | case2 s hs' =>
    rcases s with _ | ⟨a, _ | ⟨b, rest⟩⟩
    · simp
    · simp at hlen
    · exact absurd rfl (hs' a b rest)

/-- What `from_hex` reads, and when. -/
theorem fromHex_eq_ok {h : Hash} : fromHex s = .ok h ↔ s.length = 64 ∧ parseChunks s = some h.bytes := by
  unfold fromHex
  by_cases hlen : s.length = 64
  · rw [dif_pos hlen]
    split
    · next bs hbs =>
      simp only [hbs, hlen, true_and, Option.some.injEq, Except.ok.injEq]
      exact ⟨fun heq => by rw [← heq], fun heq => Hash.ext heq⟩
    · next hbs => simp [hbs]
  · simp [hlen]

theorem fromHex_isOk : (∃ h, fromHex s = .ok h) ↔ s.length = 64 ∧ ChunksTaken s := by
  constructor
  · rintro ⟨h, hok⟩
    obtain ⟨hlen, hparse⟩ := fromHex_eq_ok.mp hok
    exact ⟨hlen, (parseChunks_isSome s).mp ⟨_, hparse⟩⟩
  · rintro ⟨hlen, htaken⟩
    obtain ⟨bs, hparse⟩ := (parseChunks_isSome s).mpr htaken
    have hsize : bs.length = 32 := by rw [length_parseChunks hparse, hlen]
    exact ⟨⟨bs, hsize⟩, fromHex_eq_ok.mpr ⟨hlen, hparse⟩⟩

/-- The parser reads back what `to_hex` writes, and it accepts exactly 64 hexadecimal digits, of
either case, on every text that is not 64 bytes of taken chunks with a plus sign among them. -/
theorem fromHex_accepts_hex (s : Text) :
    (((∃ h, fromHex s = .ok h) ↔ HexText s) ∧ (∀ h, fromHex s = .ok h → h.toHex = lower s) ∧
      ∀ h, fromHex (toHex h) = .ok h) ↔ ¬ SignedHex s := by
  rw [fromHex_isOk]
  constructor
  · rintro ⟨haccepts, -⟩ ⟨hlen, htaken, hsign⟩
    have hdigits := (haccepts.mp ⟨hlen, htaken⟩).2
    exact not_isHexDigit_plus (hdigits plus hsign)
  · intro hunsigned
    have hdigits : s.length = 64 → ChunksTaken s → ∀ b ∈ s, IsHexDigit b := by
      intro hlen htaken
      exact digits_of_chunksTaken (by omega) htaken fun hsign => hunsigned ⟨hlen, htaken, hsign⟩
    refine ⟨⟨fun h => ⟨h.1, hdigits h.1 h.2⟩, fun h => ⟨h.1, chunksTaken_of_digits h.2⟩⟩, ?_,
      fromHex_toHex⟩
    intro h hok
    obtain ⟨hlen, hparse⟩ := fromHex_eq_ok.mp hok
    have htaken := (parseChunks_isSome s).mp ⟨_, hparse⟩
    exact flatMap_hexPair_parseChunks (by omega) (hdigits hlen htaken) hparse

/-- 32 chunks of a plus sign and the digit `a` are read as 32 bytes. -/
theorem fromHex_takes_signs : ¬ ((∃ h, fromHex ((List.replicate 32 [plus, 0x61]).flatten) = .ok h) ↔
    HexText ((List.replicate 32 [plus, 0x61]).flatten)) := by
  rw [fromHex_isOk]
  decide

end Hash

end CasKit
