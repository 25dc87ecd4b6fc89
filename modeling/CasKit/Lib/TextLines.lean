import CasKit.Lib.ByteCodec
import Mathlib.Data.List.DropRight

/-!
# Lines and characters of UTF-8 text

Text as bytes: how `BufRead::lines` cuts it, the characters of a well-formed string, and
`str::trim`, which drops the characters with the Unicode property `White_Space` from both ends.
-/
namespace Codec

/-! ## Characters -/

section Step
variable {b c : UInt8} {rest more : List UInt8}

/-- A well-formed sequence lies within the bytes that are there, and is the same with more bytes
behind it. -/
theorem utf8Step_append (h : (utf8Step b rest).2 = true) (more : List UInt8) :
    utf8Step b (rest ++ more) = utf8Step b rest ∧ 1 ≤ (utf8Step b rest).1 ∧
      (utf8Step b rest).1 ≤ rest.length + 1 := by
  have hcont : ∀ i, isContinuation rest[i]? = true → i < rest.length := by
    intro i hi
    by_contra hlt
    rw [List.getElem?_eq_none (by omega)] at hi
    cases hi
  have hsecond : secondByteOk b rest[0]? = true → 0 < rest.length := by
    intro hi
    by_contra hlt
    rw [List.getElem?_eq_none (by omega)] at hi
    cases hi
  have hsame : ∀ i, i < rest.length → (rest ++ more)[i]? = rest[i]? :=
    fun i hi => List.getElem?_append_left hi
  unfold utf8Step at h ⊢
  split_ifs at h ⊢ <;> grind

/-- A byte of ASCII is no part of a longer sequence. -/
theorem utf8Step_concat (hc : c < 0x80) : utf8Step b (rest ++ [c]) = utf8Step b rest := by
  have hat : ∀ i : ℕ, (rest ++ [c])[i]? = rest[i]? ∨ (rest ++ [c])[i]? = some c ∧ rest[i]? = none := by
    intro i
    rcases Nat.lt_trichotomy i rest.length with hi | hi | hi
    · exact .inl (List.getElem?_append_left hi)
    · exact .inr ⟨by simp [hi], List.getElem?_eq_none (by omega)⟩
    · left
      rw [List.getElem?_eq_none (by simp; omega), List.getElem?_eq_none (by omega)]
  have hcont : ∀ i : ℕ, isContinuation (rest ++ [c])[i]? = isContinuation rest[i]? := by
    intro i
    rcases hat i with heq | ⟨hsome, hnone⟩
    · rw [heq]
    · rw [hsome, hnone]
      simp only [isContinuation]
      grind
  have hsecond : secondByteOk b (rest ++ [c])[0]? = secondByteOk b rest[0]? := by
    rcases hat 0 with heq | ⟨hsome, hnone⟩
    · rw [heq]
    · rw [hsome, hnone]
      simp only [secondByteOk]
      grind
  unfold utf8Step
  rw [hcont, hcont, hcont, hsecond]

end Step

/-- The encoded characters at the front, up to the budget. -/
def charsFuel : ℕ → List UInt8 → List (List UInt8)
  | 0, _ => []
  | _ + 1, [] => []
  | fuel + 1, b :: rest =>
    let step := utf8Step b rest
    (b :: rest).take step.1 :: charsFuel fuel ((b :: rest).drop step.1)

/-- The characters of a well-formed string, each as its bytes. -/
def chars (bs : List UInt8) : List (List UInt8) := charsFuel bs.length bs

section Chars
variable {a b bs : List UInt8} {c : UInt8}

theorem one_le_utf8Step (b : UInt8) (rest : List UInt8) : 1 ≤ (utf8Step b rest).1 := by
  unfold utf8Step
  split_ifs <;> simp

/-- Induction along the sequences of a text. -/
theorem sequences_induct {P : List UInt8 → Prop} (nil : P [])
    (cons : ∀ b rest, P ((b :: rest).drop (utf8Step b rest).1) → P (b :: rest))
    (bs : List UInt8) : P bs := by
  induction h : bs.length using Nat.strong_induction_on generalizing bs with
  | _ n ih =>
    cases bs with
    | nil => exact nil
    | cons b rest =>
      apply cons
      have hpos := one_le_utf8Step b rest
      refine ih _ ?_ _ rfl
      rw [List.length_drop, ← h, List.length_cons]
      omega

theorem charsFuel_eq {n : ℕ} (h : bs.length ≤ n) : charsFuel n bs = chars bs := by
  have hboth : ∀ m n, bs.length ≤ m → bs.length ≤ n → charsFuel m bs = charsFuel n bs := by
    clear h
    induction bs using sequences_induct with
    | nil =>
      intro m n _ _
      cases m <;> cases n <;> rfl
    | cons b rest ih =>
      intro m n hm hn
      have hpos := one_le_utf8Step b rest
      simp only [List.length_drop, List.length_cons] at ih hm hn
      obtain ⟨m, rfl⟩ : ∃ k, m = k + 1 := ⟨m - 1, by omega⟩
      obtain ⟨n, rfl⟩ : ∃ k, n = k + 1 := ⟨n - 1, by omega⟩
      simp only [charsFuel]
      rw [ih m n (by omega) (by omega)]
  exact hboth n bs.length h le_rfl

theorem validFuel_eq {n : ℕ} (h : bs.length ≤ n) : validFuel n bs = isUtf8 bs := by
  have hboth : ∀ m n, bs.length ≤ m → bs.length ≤ n → validFuel m bs = validFuel n bs := by
    clear h
    induction bs using sequences_induct with
    | nil =>
      intro m n _ _
      cases m <;> cases n <;> rfl
    | cons b rest ih =>
      intro m n hm hn
      have hpos := one_le_utf8Step b rest
      simp only [List.length_drop, List.length_cons] at ih hm hn
      obtain ⟨m, rfl⟩ : ∃ k, m = k + 1 := ⟨m - 1, by omega⟩
      obtain ⟨n, rfl⟩ : ∃ k, n = k + 1 := ⟨n - 1, by omega⟩
      simp only [validFuel]
      rw [ih m n (by omega) (by omega)]
  exact hboth n bs.length h le_rfl

@[simp] theorem chars_nil : chars [] = [] := rfl

@[simp] theorem isUtf8_nil : isUtf8 [] = true := rfl

theorem chars_cons (b : UInt8) (rest : List UInt8) : chars (b :: rest) =
    (b :: rest).take (utf8Step b rest).1 :: chars ((b :: rest).drop (utf8Step b rest).1) := by
  have hpos := one_le_utf8Step b rest
  have hlen : ((b :: rest).drop (utf8Step b rest).1).length ≤ rest.length := by
    rw [List.length_drop, List.length_cons]
    omega
  rw [← charsFuel_eq hlen]
  rfl

theorem isUtf8_cons (b : UInt8) (rest : List UInt8) : isUtf8 (b :: rest) =
    ((utf8Step b rest).2 && isUtf8 ((b :: rest).drop (utf8Step b rest).1)) := by
  have hpos := one_le_utf8Step b rest
  have hlen : ((b :: rest).drop (utf8Step b rest).1).length ≤ rest.length := by
    rw [List.length_drop, List.length_cons]
    omega
  rw [← validFuel_eq hlen]
  rfl

/-- The characters of a well-formed text come first, whatever follows it. -/
theorem chars_append (ha : isUtf8 a = true) : chars (a ++ b) = chars a ++ chars b := by
  induction a using sequences_induct with
  | nil => rfl
  | cons x rest ih =>
    rw [isUtf8_cons, Bool.and_eq_true] at ha
    obtain ⟨hstep, -, hle⟩ := utf8Step_append ha.1 b
    have hlen : (utf8Step x rest).1 ≤ (x :: rest).length := by simpa using hle
    rw [List.cons_append, chars_cons, hstep, ← List.cons_append, List.take_append_of_le_length hlen,
      List.drop_append_of_le_length hlen, ih ha.2, chars_cons x rest, List.cons_append]

theorem isUtf8_append (ha : isUtf8 a = true) : isUtf8 (a ++ b) = isUtf8 b := by
  induction a using sequences_induct with
  | nil => rfl
  | cons x rest ih =>
    rw [isUtf8_cons, Bool.and_eq_true] at ha
    obtain ⟨hstep, -, hle⟩ := utf8Step_append ha.1 b
    have hlen : (utf8Step x rest).1 ≤ (x :: rest).length := by simpa using hle
    rw [List.cons_append, isUtf8_cons, hstep, ← List.cons_append,
      List.drop_append_of_le_length hlen, ih ha.2, ha.1, Bool.true_and]

/-- A byte of ASCII at the end of a text leaves the rest as well formed as it was. -/
theorem isUtf8_concat (hc : c < 0x80) : isUtf8 (a ++ [c]) = isUtf8 a := by
  induction a using sequences_induct with
  | nil => exact isUtf8_ascii (by simpa using hc)
  | cons x rest ih =>
    rw [List.cons_append, isUtf8_cons, utf8Step_concat hc, isUtf8_cons x rest]
    cases hstep : (utf8Step x rest).2 with
    | false => rfl
    | true =>
      have hle := (utf8Step_append hstep []).2.2
      have hlen : (utf8Step x rest).1 ≤ (x :: rest).length := by simpa using hle
      rw [← List.cons_append, List.drop_append_of_le_length hlen, ih]

@[simp] theorem chars_singleton (hc : c < 0x80) : chars [c] = [[c]] := by
  have hone : utf8Step c [] = (1, true) := by simp [utf8Step, hc]
  rw [chars_cons, hone]
  rfl

/-- The characters of ASCII text are its bytes. -/
theorem chars_ascii (ha : ∀ c ∈ a, c < 0x80) : chars a = a.map fun c => [c] := by
  induction a with
  | nil => rfl
  | cons x rest ih =>
    have hx := ha x List.mem_cons_self
    have hrest := ih fun c hc => ha c (List.mem_cons_of_mem _ hc)
    have hone : utf8Step x rest = (1, true) := by simp [utf8Step, hx]
    rw [chars_cons, hone, List.map_cons, ← hrest]
    rfl

end Chars

/-! ## White space -/

/-- The characters with the property `White_Space`. -/
def whiteSpace : List (List UInt8) :=
  [[0x09], [0x0A], [0x0B], [0x0C], [0x0D], [0x20], [0xC2, 0x85], [0xC2, 0xA0], [0xE1, 0x9A, 0x80],
    [0xE2, 0x80, 0x80], [0xE2, 0x80, 0x81], [0xE2, 0x80, 0x82], [0xE2, 0x80, 0x83],
    [0xE2, 0x80, 0x84], [0xE2, 0x80, 0x85], [0xE2, 0x80, 0x86], [0xE2, 0x80, 0x87],
    [0xE2, 0x80, 0x88], [0xE2, 0x80, 0x89], [0xE2, 0x80, 0x8A], [0xE2, 0x80, 0xA8],
    [0xE2, 0x80, 0xA9], [0xE2, 0x80, 0xAF], [0xE2, 0x81, 0x9F], [0xE3, 0x80, 0x80]]

def isWhiteSpace (ch : List UInt8) : Bool := whiteSpace.contains ch

/-- `str::trim`. -/
def trim (bs : List UInt8) : List UInt8 :=
  (((chars bs).dropWhile isWhiteSpace).rdropWhile isWhiteSpace).flatten

/-- A text of white space alone. -/
def IsSpace (bs : List UInt8) : Prop :=
  isUtf8 bs = true ∧ ∀ ch ∈ chars bs, isWhiteSpace ch = true

instance (bs : List UInt8) : Decidable (IsSpace bs) := inferInstanceAs (Decidable (_ ∧ _))

section Trim
variable {a b mid : List UInt8}

theorem flatten_chars (bs : List UInt8) : (chars bs).flatten = bs := by
  induction bs using sequences_induct with
  | nil => rfl
  | cons b rest ih => rw [chars_cons, List.flatten_cons, ih, List.take_append_drop]

theorem rdropWhile_append_of_pos {α : Type} {p : α → Bool} {l m : List α} (h : ∀ x ∈ m, p x = true) :
    (l ++ m).rdropWhile p = l.rdropWhile p := by
  have hrev : ∀ x ∈ m.reverse, p x = true := fun x hx => h x (List.mem_reverse.mp hx)
  rw [List.rdropWhile, List.reverse_append, List.dropWhile_append_of_pos hrev, List.rdropWhile]

/-- White space around a text without any is all that goes. -/
theorem trim_surround (ha : IsSpace a) (hb : IsSpace b) (hutf8 : isUtf8 mid = true)
    (hmid : ∀ ch ∈ chars mid, isWhiteSpace ch = false) : trim (a ++ mid ++ b) = mid := by
  have hnot : ∀ l : List (List UInt8), (∀ ch ∈ l, isWhiteSpace ch = false) →
      l.dropWhile isWhiteSpace = l := by
    intro l hl
    rw [List.dropWhile_eq_self_iff]
    intro hpos
    simp [hl _ (List.getElem_mem hpos)]
  have hstart : (chars mid ++ chars b).dropWhile isWhiteSpace = chars mid ++ chars b ∨
      chars mid = [] := by
    cases hchars : chars mid with
    | nil => exact .inr rfl
    | cons ch rest =>
      have hch := hmid ch (by simp [hchars])
      left
      simp [hch]
  rw [trim, List.append_assoc, chars_append ha.1, List.dropWhile_append_of_pos ha.2,
    chars_append hutf8]
  rcases hstart with hkeep | hnil
  · have hend : (chars mid).rdropWhile isWhiteSpace = chars mid := by
      rw [List.rdropWhile, hnot _ fun ch hch => hmid ch (List.mem_reverse.mp hch),
        List.reverse_reverse]
    rw [hkeep, rdropWhile_append_of_pos hb.2, hend, flatten_chars]
  · rw [hnil, List.nil_append, List.dropWhile_eq_nil_iff.mpr hb.2]
    rw [← flatten_chars mid, hnil]
    rfl

theorem trim_space (ha : IsSpace a) : trim a = [] := by
  rw [trim, List.dropWhile_eq_nil_iff.mpr ha.2]
  rfl

/-- White space at the end goes, one ASCII character of it too. -/
theorem trim_concat {c : UInt8} (ha : isUtf8 a = true) (hc : c < 0x80)
    (hspace : isWhiteSpace [c] = true) : trim (a ++ [c]) = trim a := by
  rw [trim, chars_append ha, chars_singleton hc, List.dropWhile_append]
  cases hdrop : (chars a).dropWhile isWhiteSpace with
  | nil => simp [hspace, trim, hdrop]
  | cons ch rest =>
    rw [trim, hdrop, if_neg (by simp), rdropWhile_append_of_pos (by simpa using hspace)]

end Trim

/-! ## Lines -/

def lineFeed : UInt8 := 0x0A

def carriageReturn : UInt8 := 0x0D

def stripReturn (line : List UInt8) : List UInt8 :=
  if line.getLast? = some carriageReturn then line.dropLast else line

/-- The lines of the rest, where `line` is what has been read of the first one. -/
def splitLines : (line rest : List UInt8) → List (List UInt8)
  | line, [] => if line.isEmpty then [] else [line]
  | line, b :: rest =>
    if b = lineFeed then stripReturn line :: splitLines [] rest else splitLines (line ++ [b]) rest

/-- `BufRead::lines`: a line ends with a line feed, and a carriage return before it goes too. The
last line needs no line feed, and there is no line where there are no bytes. -/
def lines (bs : List UInt8) : List (List UInt8) := splitLines [] bs

section Lines
variable {line body rest : List UInt8}

/-- Bytes without a line feed extend the line that has not ended. -/
theorem splitLines_open (line : List UInt8) (hbody : lineFeed ∉ body) (rest : List UInt8) :
    splitLines line (body ++ rest) = splitLines (line ++ body) rest := by
  induction body generalizing line with
  | nil => simp
  | cons b more ih =>
    have hb : b ≠ lineFeed := fun h => hbody (by simp [h])
    have hmore := ih (line ++ [b]) fun h => hbody (by simp [h])
    rw [List.cons_append, splitLines, if_neg hb, hmore, List.append_assoc, List.singleton_append]

@[simp] theorem lines_nil : lines [] = [] := rfl

/-- A line and its line feed at the front. -/
theorem lines_cons (hbody : lineFeed ∉ body) (rest : List UInt8) :
    lines (body ++ lineFeed :: rest) = stripReturn body :: lines rest := by
  rw [lines, splitLines_open [] hbody, List.nil_append, splitLines, if_pos rfl]
  rfl

/-- A last line without a line feed. -/
theorem lines_last (hbody : lineFeed ∉ body) (hne : body ≠ []) : lines body = [body] := by
  have hopen := splitLines_open [] hbody []
  rw [List.append_nil, List.nil_append] at hopen
  rw [lines, hopen, splitLines, if_neg (by simpa using hne)]

@[simp] theorem stripReturn_concat (line : List UInt8) :
    stripReturn (line ++ [carriageReturn]) = line := by
  simp [stripReturn]

/-- A line is left as it is, or it ended with a carriage return. -/
theorem stripReturn_cases (line : List UInt8) :
    stripReturn line = line ∨ line = stripReturn line ++ [carriageReturn] := by
  unfold stripReturn
  split_ifs with hlast
  · right
    obtain ⟨init, rfl⟩ := List.getLast?_eq_some_iff.mp hlast
    simp
  · exact .inl rfl

/-- Each stretch of bytes between two line feeds, or an end of the text, is a line. -/
theorem mem_lines {pre post : List UInt8} (hbody : lineFeed ∉ body) (hne : body ≠ [])
    (hpre : pre = [] ∨ ∃ q, pre = q ++ [lineFeed]) (hpost : post = [] ∨ ∃ q, post = lineFeed :: q) :
    body ∈ lines (pre ++ body ++ post) ∨ stripReturn body ∈ lines (pre ++ body ++ post) := by
  have hhead : body ∈ lines (body ++ post) ∨ stripReturn body ∈ lines (body ++ post) := by
    rcases hpost with rfl | ⟨q, rfl⟩
    · left
      rw [List.append_nil, lines_last hbody hne]
      exact List.mem_singleton_self body
    · right
      rw [lines_cons hbody]
      exact List.mem_cons_self
  -- the lines before it are split off one by one
  have hskip : ∀ n (q : List UInt8), q.length = n → ∀ tail l, l ∈ lines tail →
      l ∈ lines (q ++ lineFeed :: tail) := by
    intro n
    induction n using Nat.strong_induction_on with
    | _ n ih =>
      intro q hq tail l hl
      by_cases hmem : lineFeed ∈ q
      · obtain ⟨first, more, rfl, hfirst⟩ := List.eq_append_cons_of_mem hmem
        have hmore := ih more.length (by simp [← hq]; omega) more rfl tail l hl
        rw [List.append_assoc, List.cons_append, lines_cons hfirst]
        exact List.mem_cons_of_mem _ hmore
      · rw [lines_cons hmem]
        exact List.mem_cons_of_mem _ hl
  rcases hpre with rfl | ⟨q, rfl⟩
  · exact hhead
  · simp only [List.append_assoc, List.singleton_append]
    exact hhead.imp (hskip q.length q rfl _ _) (hskip q.length q rfl _ _)

end Lines

end Codec
