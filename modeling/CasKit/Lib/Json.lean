import CasKit.Lib.TextLines

/-!
# Flat JSON objects

A reader for objects whose members are strings, natural numbers, booleans and `null`, over UTF-8
bytes, and the printer whose texts it reads back. What a string escapes and how is open: a text
`Encodes` a string if the reader takes it for that string, and such texts can be put together.
-/
namespace Json

inductive Value where
  | null
  | bool (b : Bool)
  | number (n : ℕ)
  | string (s : List UInt8)
  deriving DecidableEq

/-! ## Strings -/

def hexValue (b : UInt8) : Option ℕ :=
  if 0x30 ≤ b ∧ b ≤ 0x39 then some (b.toNat - 0x30)
  else if 0x61 ≤ b ∧ b ≤ 0x66 then some (b.toNat - 0x57)
  else if 0x41 ≤ b ∧ b ≤ 0x46 then some (b.toNat - 0x37)
  else none

def codeUnit (a b c d : UInt8) : Option ℕ := do
  let a ← hexValue a
  let b ← hexValue b
  let c ← hexValue c
  let d ← hexValue d
  return ((a * 16 + b) * 16 + c) * 16 + d

/-- The bytes of a code unit; a surrogate is no character by itself. -/
def encodeUnit (n : ℕ) : Option (List UInt8) :=
  if n < 0x80 then some [n.toUInt8]
  else if n < 0x800 then some [(0xC0 + n / 64).toUInt8, (0x80 + n % 64).toUInt8]
  else if 0xD800 ≤ n ∧ n < 0xE000 then none
  else some [(0xE0 + n / 4096).toUInt8, (0x80 + n / 64 % 64).toUInt8, (0x80 + n % 64).toUInt8]

/-- What a backslash and one more character stand for. -/
def shortEscape (b : UInt8) : Option UInt8 :=
  if b = 0x22 ∨ b = 0x5C ∨ b = 0x2F then some b
  else if b = 0x62 then some 0x08
  else if b = 0x66 then some 0x0C
  else if b = 0x6E then some 0x0A
  else if b = 0x72 then some 0x0D
  else if b = 0x74 then some 0x09
  else none

/-- The characters up to the closing quote, and what follows it. -/
def readString : List UInt8 → Option (List UInt8 × List UInt8)
  | [] => none
  | b :: rest =>
    if b = 0x22 then some ([], rest)
    else if b = 0x5C then
      match rest with
      | [] => none
      | e :: rest =>
        if e = 0x75 then
          match rest with
          | a :: b :: c :: d :: rest =>
            ((codeUnit a b c d).bind encodeUnit).bind fun ch =>
              (readString rest).map fun r => (ch ++ r.1, r.2)
          | _ => none
        else (shortEscape e).bind fun ch => (readString rest).map fun r => (ch :: r.1, r.2)
    else if b < 0x20 then none
    else (readString rest).map fun r => (b :: r.1, r.2)

/-- Between quotes, `e` is read as `s`. -/
def Encodes (e s : List UInt8) : Prop :=
  ∀ rest, readString (e ++ rest) = (readString rest).map fun r => (s ++ r.1, r.2)

section Strings
variable {e e' s s' : List UInt8} {a b c d : UInt8}

theorem encodes_nil : Encodes [] [] := by
  intro rest
  simp

theorem Encodes.append (h : Encodes e s) (h' : Encodes e' s') : Encodes (e ++ e') (s ++ s') := by
  intro rest
  rw [List.append_assoc, h, h', Option.map_map]
  simp [Function.comp_def]

/-- Characters one by one. -/
theorem encodes_flatMap {l : List (List UInt8)} {f : List UInt8 → List UInt8}
    (h : ∀ ch ∈ l, Encodes (f ch) ch) : Encodes (l.flatMap f) l.flatten := by
  induction l with
  | nil => exact encodes_nil
  | cons ch l ih =>
    have hrest := ih fun ch' hch' => h ch' (by simp [hch'])
    simpa using (h ch (by simp)).append hrest

theorem encodes_plain (hquote : b ≠ 0x22) (hslash : b ≠ 0x5C) (hcontrol : ¬ b < 0x20) :
    Encodes [b] [b] := by
  intro rest
  rw [List.singleton_append, readString.eq_def]
  simp [hquote, hslash, hcontrol]

/-- Text without quotes, backslashes and control characters stands for itself. -/
theorem encodes_self (h : ∀ b ∈ s, b ≠ 0x22 ∧ b ≠ 0x5C ∧ ¬ b < 0x20) : Encodes s s := by
  induction s with
  | nil => exact encodes_nil
  | cons b s ih =>
    have hb := h b (by simp)
    have hrest := ih fun b' hb' => h b' (by simp [hb'])
    exact (encodes_plain hb.1 hb.2.1 hb.2.2).append hrest

theorem encodes_short (h : shortEscape b = some c) : Encodes [0x5C, b] [c] := by
  intro rest
  have hb : b ≠ 0x75 := by
    rintro rfl
    simp [shortEscape] at h
  rw [List.cons_append, List.singleton_append, readString.eq_def]
  simp [hb, h]

theorem encodes_unit {n : ℕ} (hunit : codeUnit a b c d = some n) (hchar : encodeUnit n = some s) :
    Encodes [0x5C, 0x75, a, b, c, d] s := by
  intro rest
  simp only [List.cons_append, List.nil_append]
  rw [readString.eq_def]
  simp [hunit, hchar]

theorem readString_quoted (h : Encodes e s) (rest : List UInt8) :
    readString (e ++ 0x22 :: rest) = some (s, rest) := by
  have hclose : readString (0x22 :: rest) = some ([], rest) := by
    rw [readString.eq_def]
    simp
  simp [h (0x22 :: rest), hclose]

end Strings

/-! ## Numbers -/

def isDigit (b : UInt8) : Bool := 0x30 ≤ b && b ≤ 0x39

def digitText (l : List Char) : List UInt8 := l.map fun ch => UInt8.ofNat ch.toNat

def decimal (n : ℕ) : List UInt8 := digitText (Nat.toDigits 10 n)

/-- The digits at the front as a number; it has no leading zero. -/
def readNumber (bs : List UInt8) : Option (ℕ × List UInt8) :=
  let digits := bs.takeWhile isDigit
  if digits.isEmpty ∨ (1 < digits.length ∧ digits.head? = some 0x30) then none
  else some (Nat.ofDigitChars 10 (digits.map fun b => Char.ofNat b.toNat) 0, bs.dropWhile isDigit)

section Numbers
variable {n : ℕ} {rest : List UInt8} {ch : Char}

theorem digit_range (h : ch.isDigit = true) : 48 ≤ ch.toNat ∧ ch.toNat ≤ 57 := by
  simp only [Char.isDigit, Bool.and_eq_true, decide_eq_true_eq, ge_iff_le,
    UInt32.le_iff_toNat_le] at h
  exact h

theorem isDigit_of_char (h : ch.isDigit = true) : isDigit (UInt8.ofNat ch.toNat) = true := by
  have hrange := digit_range h
  simp only [isDigit, Bool.and_eq_true, decide_eq_true_eq, UInt8.le_iff_toNat_le,
    UInt8.toNat_ofNat']
  constructor <;> simp <;> omega

theorem char_of_digit (h : ch.isDigit = true) : Char.ofNat (UInt8.ofNat ch.toNat).toNat = ch := by
  have hrange := digit_range h
  have hnat : (UInt8.ofNat ch.toNat).toNat = ch.toNat := by
    rw [UInt8.toNat_ofNat']
    omega
  rw [hnat, Char.ofNat_toNat]

/-- The first digit of a number with several is not zero. -/
theorem head_toDigits (h : 10 ≤ n) : (Nat.toDigits 10 n).head? ≠ some '0' := by
  induction n using Nat.strong_induction_on with
  | _ n ih =>
    rw [Nat.toDigits_of_base_le (by omega) h, List.head?_append]
    by_cases hsmall : n / 10 < 10
    · have hone : ∀ k < 10, 0 < k → Nat.digitChar k ≠ '0' := by decide
      have hne := hone (n / 10) hsmall (by omega)
      simp [Nat.toDigits_of_lt_base hsmall, hne]
    · have hne := ih (n / 10) (by omega) (by omega)
      cases hhead : (Nat.toDigits 10 (n / 10)).head? with
      | none => exact absurd (List.head?_eq_none_iff.mp hhead) Nat.toDigits_ne_nil
      | some first =>
        rw [hhead] at hne
        simpa using hne

/-- A number is read back, where no digit follows. -/
theorem readNumber_decimal (n : ℕ) (hrest : ∀ b ∈ rest.head?, isDigit b = false) :
    readNumber (decimal n ++ rest) = some (n, rest) := by
  have hdigit : ∀ ch ∈ Nat.toDigits 10 n, ch.isDigit = true := fun ch hch =>
    Nat.isDigit_of_mem_toDigits (by omega) (by omega) hch
  have hall : ∀ b ∈ decimal n, isDigit b = true := by
    intro b hb
    obtain ⟨ch, hch, rfl⟩ := List.mem_map.mp hb
    exact isDigit_of_char (hdigit ch hch)
  have hstop : rest.takeWhile isDigit = [] ∧ rest.dropWhile isDigit = rest := by
    cases rest with
    | nil => simp
    | cons b rest => simp [hrest b (by simp)]
  have htake : (decimal n ++ rest).takeWhile isDigit = decimal n := by
    rw [List.takeWhile_append_of_pos hall, hstop.1, List.append_nil]
  have hdrop : (decimal n ++ rest).dropWhile isDigit = rest := by
    rw [List.dropWhile_append_of_pos hall, hstop.2]
  have hchars : (decimal n).map (fun b => Char.ofNat b.toNat) = Nat.toDigits 10 n := by
    rw [decimal, digitText, List.map_map]
    exact (List.map_congr_left fun ch hch => char_of_digit (hdigit ch hch)).trans (List.map_id _)
  have hlead : ¬ (1 < (decimal n).length ∧ (decimal n).head? = some 0x30) := by
    rintro ⟨hlen, hhead⟩
    by_cases hsmall : n < 10
    · simp [decimal, digitText, Nat.toDigits_of_lt_base hsmall] at hlen
    · obtain ⟨ch, hch, hzero⟩ : ∃ ch, (Nat.toDigits 10 n).head? = some ch ∧
          UInt8.ofNat ch.toNat = 0x30 := by
        simpa [decimal, digitText] using hhead
      have hback := char_of_digit (hdigit ch (List.mem_of_mem_head? hch))
      rw [hzero] at hback
      exact head_toDigits (by omega) (hch.trans (congrArg some hback.symm))
  have hempty : (decimal n).isEmpty = false := by
    simp [decimal, digitText, Nat.toDigits_ne_nil]
  simp only [readNumber, htake, hdrop, hchars, hempty, Bool.false_eq_true, false_or, if_neg hlead,
    Nat.ofDigitChars_ten_toDigits]

end Numbers

/-! ## Values and objects -/

def nullText : List UInt8 := [0x6E, 0x75, 0x6C, 0x6C]
def trueText : List UInt8 := [0x74, 0x72, 0x75, 0x65]
def falseText : List UInt8 := [0x66, 0x61, 0x6C, 0x73, 0x65]

/-- The rest of the input behind a word. -/
def dropWord (word bs : List UInt8) : Option (List UInt8) :=
  if word.isPrefixOf bs then some (bs.drop word.length) else none

def readValue (bs : List UInt8) : Option (Value × List UInt8) :=
  match bs with
  | [] => none
  | b :: rest =>
    if b = 0x22 then (readString rest).map fun r => (.string r.1, r.2)
    else if isDigit b then (readNumber bs).map fun r => (.number r.1, r.2)
    else if b = 0x6E then (dropWord nullText bs).map fun r => (.null, r)
    else if b = 0x74 then (dropWord trueText bs).map fun r => (.bool true, r)
    else (dropWord falseText bs).map fun r => (.bool false, r)

/-- One member: a name, a colon and a value. -/
def readMember : List UInt8 → Option ((List UInt8 × Value) × List UInt8)
  | [] => none
  | b :: rest =>
    if b = 0x22 then
      (readString rest).bind fun name =>
        match name.2 with
        | [] => none
        | colon :: rest =>
          if colon = 0x3A then (readValue rest).map fun r => ((name.1, r.1), r.2) else none
    else none

/-- Members with commas between them, up to the closing brace; the budget bounds their number. -/
def readMembers : ℕ → List UInt8 → Option (List (List UInt8 × Value) × List UInt8)
  | 0, _ => none
  | budget + 1, bs =>
    (readMember bs).bind fun member =>
      match member.2 with
      | [] => none
      | b :: rest =>
        if b = 0x7D then some ([member.1], rest)
        else if b = 0x2C then (readMembers budget rest).map fun r => (member.1 :: r.1, r.2)
        else none

/-- A text that is one object with at least one member. -/
def readObject : List UInt8 → Option (List (List UInt8 × Value))
  | [] => none
  | b :: rest =>
    if b = 0x7B then
      match readMembers rest.length rest with
      | some (members, []) => some members
      | _ => none
    else none

/-- A text for the value, whatever closes the member behind it. -/
def Renders (e : List UInt8) (v : Value) : Prop :=
  ∀ b rest, (b = 0x2C ∨ b = 0x7D) → readValue (e ++ b :: rest) = some (v, b :: rest)

section Values
variable {e s : List UInt8}

theorem renders_null : Renders nullText .null := by
  intro b rest _
  simp [readValue, nullText, isDigit, dropWord]

theorem renders_bool (b : Bool) : Renders (if b then trueText else falseText) (.bool b) := by
  intro close rest _
  cases b <;> simp [readValue, trueText, falseText, isDigit, dropWord]

theorem renders_string (h : Encodes e s) : Renders (0x22 :: e ++ [0x22]) (.string s) := by
  intro b rest _
  simp [readValue, readString_quoted h]

theorem renders_number (n : ℕ) : Renders (decimal n) (.number n) := by
  intro b rest hb
  have hstop : ∀ x ∈ (b :: rest).head?, isDigit x = false := by
    rcases hb with rfl | rfl <;> simp [isDigit]
  have hread := readNumber_decimal n hstop
  cases hdigits : decimal n with
  | nil => simp [decimal, digitText, Nat.toDigits_ne_nil] at hdigits
  | cons first more =>
    have hfirst : isDigit first = true := by
      obtain ⟨ch, hch, rfl⟩ := List.mem_map.mp (show first ∈ decimal n by simp [hdigits])
      exact isDigit_of_char (Nat.isDigit_of_mem_toDigits (by omega) (by omega) hch)
    have hquote : first ≠ 0x22 := by
      rintro rfl
      simp [isDigit] at hfirst
    rw [hdigits] at hread
    rw [List.cons_append] at hread ⊢
    simp [readValue, hquote, hfirst, hread]

end Values

/-- A member as it is printed: the encoded name and the text of the value. -/
def memberText (m : List UInt8 × List UInt8) : List UInt8 :=
  0x22 :: m.1 ++ 0x22 :: 0x3A :: m.2

/-- Printed members with commas between them. -/
def membersText : List (List UInt8 × List UInt8) → List UInt8
  | [] => []
  | [m] => memberText m
  | m :: m' :: members => memberText m ++ 0x2C :: membersText (m' :: members)

/-- Printed members in braces. -/
def objectText (members : List (List UInt8 × List UInt8)) : List UInt8 :=
  0x7B :: membersText members ++ [0x7D]

section Objects
variable {name : List UInt8} {m : List UInt8 × List UInt8} {v : Value}

theorem readMember_memberText (hname : Encodes m.1 name) (hvalue : Renders m.2 v) {b : UInt8}
    (hb : b = 0x2C ∨ b = 0x7D) (rest : List UInt8) :
    readMember (memberText m ++ b :: rest) = some ((name, v), b :: rest) := by
  have hread := readString_quoted hname (0x3A :: (m.2 ++ b :: rest))
  simp [readMember, memberText, hread, hvalue b rest hb]

theorem length_membersText (members : List (List UInt8 × List UInt8)) :
    members.length ≤ (membersText members).length := by
  induction members with
  | nil => simp
  | cons m members ih =>
    cases members with
    | nil => simp [membersText, memberText]
    | cons m' members =>
      simp only [membersText, memberText, List.length_append, List.length_cons] at ih ⊢
      omega

/-- Members that are printed are read back, in order. -/
theorem readMembers_text {members : List (List UInt8 × List UInt8)}
    {values : List (List UInt8 × Value)} (hne : members ≠ [])
    (h : List.Forall₂ (fun m v => Encodes m.1 v.1 ∧ Renders m.2 v.2) members values)
    {budget : ℕ} (hbudget : members.length ≤ budget) (rest : List UInt8) :
    readMembers budget (membersText members ++ 0x7D :: rest) = some (values, rest) := by
  induction h generalizing budget with
  | nil => exact absurd rfl hne
  | @cons m v members values hm h ih =>
    obtain ⟨budget, rfl⟩ : ∃ k, budget = k + 1 := ⟨budget - 1, by simp at hbudget; omega⟩
    cases h with
    | nil =>
      have hread := readMember_memberText hm.1 hm.2 (.inr rfl) rest
      simp [readMembers, membersText, hread]
    | @cons m' v' members values hm' h =>
      have hmore := @ih (by simp) budget (by simpa using hbudget)
      have hread := readMember_memberText hm.1 hm.2 (.inl rfl)
        (membersText (m' :: members) ++ 0x7D :: rest)
      rw [membersText, List.append_assoc, List.cons_append, readMembers, hread]
      simp [hmore]

/-- An object that is printed is read back. -/
theorem readObject_objectText {members : List (List UInt8 × List UInt8)}
    {values : List (List UInt8 × Value)} (hne : members ≠ [])
    (h : List.Forall₂ (fun m v => Encodes m.1 v.1 ∧ Renders m.2 v.2) members values) :
    readObject (objectText members) = some values := by
  have hlen : members.length ≤ (membersText members ++ [0x7D]).length := by
    have hmembers := length_membersText members
    simp only [List.length_append]
    omega
  rw [objectText, List.cons_append, readObject, if_pos rfl, readMembers_text hne h hlen []]

end Objects

end Json
