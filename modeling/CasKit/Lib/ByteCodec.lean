import Mathlib.Data.List.Basic
import Mathlib.Order.Compare
import Mathlib.Tactic

/-!
# Byte-level codecs

Fixed-width little-endian numbers, reading an exact number of bytes, the lossy decoding of
UTF-8, and binary search over a sorted sequence. The encoders wrap as a narrowing cast
does, so a number survives the round trip exactly when it fits the width.
-/
namespace Codec

/-- The `k` low bytes of `n`, least significant first. -/
def leBytes : ℕ → ℕ → List UInt8
  | 0, _ => []
  | k + 1, n => UInt8.ofNat n :: leBytes k (n / 256)

def leNat : List UInt8 → ℕ
  | [] => 0
  | b :: bs => b.toNat + 256 * leNat bs

@[simp] theorem length_leBytes (k n : ℕ) : (leBytes k n).length = k := by
  induction k generalizing n with
  | zero => rfl
  | succ k ih => simp [leBytes, ih]

theorem leNat_leBytes (k n : ℕ) : leNat (leBytes k n) = n % 256 ^ k := by
  induction k generalizing n with
  | zero => simp [leBytes, leNat, Nat.mod_one]
  | succ k ih =>
    have hb : (UInt8.ofNat n).toNat = n % 256 := UInt8.toNat_ofNat'
    simp only [leBytes, leNat, ih, hb]
    rw [pow_succ', Nat.mod_mul]

theorem leNat_leBytes_of_lt {k n : ℕ} (h : n < 256 ^ k) : leNat (leBytes k n) = n := by
  rw [leNat_leBytes, Nat.mod_eq_of_lt h]

theorem leNat_lt (bs : List UInt8) : leNat bs < 256 ^ bs.length := by
  induction bs with
  | nil => simp [leNat]
  | cons b bs ih =>
    have hb : b.toNat < 256 := b.toNat_lt
    have hpow : 256 ^ (b :: bs).length = 256 * 256 ^ bs.length := by
      rw [List.length_cons, pow_succ, mul_comm]
    rw [leNat, hpow]
    omega

/-- Read exactly `n` bytes off the front. -/
def readExact (n : ℕ) (bs : List UInt8) : Option (List UInt8 × List UInt8) :=
  if n ≤ bs.length then some (bs.take n, bs.drop n) else none

@[simp] theorem readExact_append {n : ℕ} {xs : List UInt8} (ys : List UInt8)
    (h : xs.length = n) : readExact n (xs ++ ys) = some (xs, ys) := by
  subst h
  simp [readExact]

theorem readExact_eq_none {n : ℕ} {bs : List UInt8} : readExact n bs = none ↔ bs.length < n := by
  simp [readExact]

theorem readExact_eq_some {n : ℕ} {bs xs ys : List UInt8} (h : readExact n bs = some (xs, ys)) :
    bs = xs ++ ys ∧ xs.length = n := by
  unfold readExact at h
  split_ifs at h with hn
  obtain ⟨rfl, rfl⟩ := Prod.mk.inj (Option.some.inj h)
  exact ⟨(List.take_append_drop n bs).symm, by simp [hn]⟩

/-! ## UTF-8 -/

def isContinuation (b : Option UInt8) : Bool :=
  match b with
  | some b => 0x80 ≤ b && b ≤ 0xBF
  | none => false

/-- The second byte that a three-byte or four-byte lead admits. -/
def secondByteOk (lead : UInt8) (b : Option UInt8) : Bool :=
  match b with
  | none => false
  | some b =>
    if lead = 0xE0 then 0xA0 ≤ b && b ≤ 0xBF
    else if lead = 0xED then 0x80 ≤ b && b ≤ 0x9F
    else if lead = 0xF0 then 0x90 ≤ b && b ≤ 0xBF
    else if lead = 0xF4 then 0x80 ≤ b && b ≤ 0x8F
    else 0x80 ≤ b && b ≤ 0xBF

/-- How many bytes the sequence at the front takes, and whether it is well formed. -/
def utf8Step (b : UInt8) (rest : List UInt8) : ℕ × Bool :=
  if b < 0x80 then (1, true)
  else if 0xC2 ≤ b && b ≤ 0xDF then
    if isContinuation rest[0]? then (2, true) else (1, false)
  else if 0xE0 ≤ b && b ≤ 0xEF then
    if !secondByteOk b rest[0]? then (1, false)
    else if isContinuation rest[1]? then (3, true) else (2, false)
  else if 0xF0 ≤ b && b ≤ 0xF4 then
    if !secondByteOk b rest[0]? then (1, false)
    else if !isContinuation rest[1]? then (2, false)
    else if isContinuation rest[2]? then (4, true) else (3, false)
  else (1, false)

/-- Decode with each ill-formed sequence replaced by U+FFFD; the budget is the length. -/
def lossyFuel : ℕ → List UInt8 → List UInt8
  | 0, _ => []
  | _ + 1, [] => []
  | fuel + 1, b :: rest =>
    let step := utf8Step b rest
    (if step.2 then (b :: rest).take step.1 else [0xEF, 0xBF, 0xBD]) ++
      lossyFuel fuel ((b :: rest).drop step.1)

def fromUtf8Lossy (bs : List UInt8) : List UInt8 := lossyFuel bs.length bs

def validFuel : ℕ → List UInt8 → Bool
  | 0, bs => bs.isEmpty
  | _ + 1, [] => true
  | fuel + 1, b :: rest =>
    let step := utf8Step b rest
    step.2 && validFuel fuel ((b :: rest).drop step.1)

def isUtf8 (bs : List UInt8) : Bool := validFuel bs.length bs

theorem fromUtf8Lossy_ascii {bs : List UInt8} (h : ∀ b ∈ bs, b < 0x80) :
    fromUtf8Lossy bs = bs := by
  unfold fromUtf8Lossy
  induction bs with
  | nil => rfl
  | cons b rest ih =>
    have hb : b < 0x80 := h b List.mem_cons_self
    have := ih (fun x hx => h x (List.mem_cons_of_mem _ hx))
    simp [lossyFuel, utf8Step, hb, this]

/-- Well-formed text is decoded as it is. -/
theorem fromUtf8Lossy_of_isUtf8 {bs : List UInt8} (h : isUtf8 bs = true) :
    fromUtf8Lossy bs = bs := by
  have hfuel : ∀ fuel bs, validFuel fuel bs = true → lossyFuel fuel bs = bs := by
    intro fuel
    induction fuel with
    | zero =>
      intro bs hv
      exact (List.isEmpty_iff.mp hv).symm
    | succ fuel ih =>
      intro bs hv
      cases bs with
      | nil => rfl
      | cons b rest =>
        simp only [validFuel, Bool.and_eq_true] at hv
        simp only [lossyFuel, hv.1, if_true]
        rw [ih _ hv.2, List.take_append_drop]
  exact hfuel _ _ h

theorem isUtf8_ascii {bs : List UInt8} (h : ∀ b ∈ bs, b < 0x80) : isUtf8 bs = true := by
  unfold isUtf8
  induction bs with
  | nil => rfl
  | cons b rest ih =>
    have hb : b < 0x80 := h b List.mem_cons_self
    have := ih (fun x hx => h x (List.mem_cons_of_mem _ hx))
    simp [validFuel, utf8Step, hb, this]

/-! ## Binary search -/

/-- The halving loop of `slice::binary_search_by`: `cmp i` compares the element at `i` with
the key. The budget is the initial size. -/
def searchLoop (cmp : ℕ → Ordering) : (fuel size base : ℕ) → ℕ
  | 0, _, base => base
  | fuel + 1, size, base =>
    if size ≤ 1 then base
    else
      let half := size / 2
      let mid := base + half
      searchLoop cmp fuel (size - half) (if cmp mid = .gt then base else mid)

/-- The index of an element equal to the key, if the search meets one. -/
def binarySearch (n : ℕ) (cmp : ℕ → Ordering) : Option ℕ :=
  if n = 0 then none
  else
    let base := searchLoop cmp n n 0
    if cmp base = .eq then some base else none

theorem searchLoop_bounds (cmp : ℕ → Ordering) (fuel size base : ℕ) (h : 0 < size) :
    base ≤ searchLoop cmp fuel size base ∧ searchLoop cmp fuel size base < base + size := by
  induction fuel generalizing size base with
  | zero => simp only [searchLoop]; omega
  | succ fuel ih =>
    simp only [searchLoop]
    split_ifs with h1 h2
    · omega
    · have := ih (size - size / 2) base (by omega); omega
    · have := ih (size - size / 2) (base + size / 2) (by omega); omega

theorem binarySearch_some {n i : ℕ} {cmp : ℕ → Ordering} (h : binarySearch n cmp = some i) :
    i < n ∧ cmp i = .eq := by
  by_cases hn : n = 0
  · simp [binarySearch, hn] at h
  have hb := searchLoop_bounds cmp n n 0 (by omega)
  by_cases he : cmp (searchLoop cmp n n 0) = .eq
  · simp only [binarySearch, hn, he, if_true, if_false, Option.some.injEq] at h
    subst h
    exact ⟨by omega, he⟩
  · simp [binarySearch, hn, he] at h

/-- Once an element equal to the key lies in the window, the loop ends on one. -/
theorem searchLoop_eq {cmp : ℕ → Ordering} {n : ℕ}
    (hlt : ∀ i j, i ≤ j → j < n → cmp j = .lt → cmp i = .lt)
    (hgt : ∀ i j, i ≤ j → j < n → cmp i = .gt → cmp j = .gt)
    (fuel size base : ℕ) (hf : size ≤ fuel + 1) (hn : base + size ≤ n)
    (hex : ∃ i, base ≤ i ∧ i < base + size ∧ cmp i = .eq) :
    cmp (searchLoop cmp fuel size base) = .eq := by
  induction fuel generalizing size base with
  | zero =>
    obtain ⟨i, h1, h2, h3⟩ := hex
    have : i = base := by omega
    simpa [searchLoop, ← this] using h3
  | succ fuel ih =>
    obtain ⟨i, h1, h2, h3⟩ := hex
    simp only [searchLoop]
    split_ifs with hs hc
    · have : i = base := by omega
      simpa [← this] using h3
    · refine ih _ _ (by omega) (by omega) ⟨i, h1, ?_, h3⟩
      by_contra hge
      have := hgt (base + size / 2) i (by omega) (by omega) hc
      rw [h3] at this
      cases this
    · refine ih _ _ (by omega) (by omega) ?_
      by_cases hi : base + size / 2 ≤ i
      · exact ⟨i, hi, by omega, h3⟩
      · refine ⟨base + size / 2, le_rfl, by omega, ?_⟩
        cases hm : cmp (base + size / 2) with
        | eq => rfl
        | gt => exact absurd hm hc
        | lt =>
          have := hlt i (base + size / 2) (by omega) (by omega) hm
          rw [h3] at this
          cases this

theorem binarySearch_isSome {cmp : ℕ → Ordering} {n : ℕ}
    (hlt : ∀ i j, i ≤ j → j < n → cmp j = .lt → cmp i = .lt)
    (hgt : ∀ i j, i ≤ j → j < n → cmp i = .gt → cmp j = .gt) :
    (binarySearch n cmp).isSome ↔ ∃ i < n, cmp i = .eq := by
  constructor
  · intro h
    obtain ⟨i, hi⟩ := Option.isSome_iff_exists.mp h
    exact ⟨i, binarySearch_some hi⟩
  · rintro ⟨i, hi, he⟩
    have hpos : n ≠ 0 := by omega
    have := searchLoop_eq hlt hgt n n 0 (by omega) (by omega) ⟨i, by omega, by omega, he⟩
    simp [binarySearch, hpos, this]

end Codec
