import CasKit.HexParser
import CasKit.Lib.TextLines

/-!
# The roots file

`parse_roots` of the `cas-gc` binary: one hash a line, blank lines and comments skipped. What it
leaves out is what a sweep deletes, so the two results are that every hash that a file lists is
found, however the file is laid out, and that a line that is no hash stops the parse.
-/
namespace CasKit
open Codec

def HashError.display : HashError → Text
  | .invalidLength n => text "invalid hash length: expected 64 hex chars, got " ++ natText n
  | .invalidHex => text "invalid hex in hash"

def hashSign : UInt8 := 0x23

/-- The text of a line before its first `#`, trimmed. -/
def rootText (line : Text) : Text := trim (line.takeWhile (· ≠ hashSign))

/-- What one line says, with its number for the error: nothing, or a hash. -/
def rootOf (path : Text) (index : ℕ) (line : Text) : Except Text (Option Hash) :=
  if isUtf8 line then
    if (rootText line).isEmpty then .ok none
    else
      match Hash.fromHex (rootText line) with
      | .error e => .error (path ++ text ":" ++ natText (index + 1) ++ text ": " ++ e.display)
      | .ok hash => .ok (some hash)
  else .error (text "cannot read roots file: stream did not contain valid UTF-8")

def addRoots (path : Text) : ℕ → List Text → Finset Hash → Except Text (Finset Hash)
  | _, [], roots => .ok roots
  | index, line :: rest, roots =>
    match rootOf path index line with
    | .error e => .error e
    | .ok none => addRoots path (index + 1) rest roots
    | .ok (some hash) => addRoots path (index + 1) rest (insert hash roots)

/-- The bytes that are read: `-` is the standard input, anything else a file. -/
def openRoots (stdin : Bytes) (files : Text → Except Text Bytes) (path : Text) :
    Except Text Bytes :=
  if path = text "-" then .ok stdin
  else (files path).mapError fun e => text "cannot open roots file " ++ path ++ text ": " ++ e

def parseRoots (stdin : Bytes) (files : Text → Except Text Bytes) (path : Text) :
    Except Text (Finset Hash) :=
  match openRoots stdin files path with
  | .error e => .error e
  | .ok input => addRoots path 0 (lines input) ∅

/-! ## Layouts of a roots file -/

/-- White space within a line. -/
structure Gap where
  text : Text
  space : IsSpace text
  oneLine : lineFeed ∉ text

/-- The rest of a line behind a `#`. -/
structure Comment where
  text : Text
  utf8 : isUtf8 text = true
  oneLine : lineFeed ∉ text

inductive RootLine where
  | blank (gap : Gap)
  | comment (gap : Gap) (body : Comment)
  | root (before : Gap) (hash : Hash) (after : Gap) (comment : Option Comment)

inductive Ending where
  | lf
  | crlf

namespace RootLine

def text : RootLine → Text
  | blank gap => gap.text
  | comment gap body => gap.text ++ hashSign :: body.text
  | root before hash after none => before.text ++ hash.toHex ++ after.text
  | root before hash after (some body) =>
    before.text ++ hash.toHex ++ after.text ++ hashSign :: body.text

/-- The hash that is written in the line. -/
def hash? : RootLine → Option Hash
  | blank _ => none
  | comment _ _ => none
  | root _ hash _ _ => some hash

end RootLine

def Ending.text : Ending → Text
  | lf => [lineFeed]
  | crlf => [carriageReturn, lineFeed]

/-- Lines with their endings, and perhaps a last line without one. -/
def layout (rows : List (RootLine × Ending)) (last : Option RootLine) : Text :=
  rows.flatMap (fun row => row.1.text ++ row.2.text) ++ (last.map RootLine.text).getD []

def written (rows : List (RootLine × Ending)) (last : Option RootLine) : Finset Hash :=
  ((rows.map Prod.fst ++ last.toList).filterMap RootLine.hash?).toFinset

/-! ## One line -/

section Line
variable {path : Text} {index : ℕ} {b : UInt8} {a line : Text} {h : Hash}

/-- A byte that no white space contains is not in white space. -/
theorem not_mem_space (hb : ∀ ch ∈ whiteSpace, b ∉ ch) (ha : IsSpace a) : b ∉ a := by
  rw [← flatten_chars a]
  intro hmem
  obtain ⟨ch, hch, hb'⟩ := List.mem_flatten.mp hmem
  have hspace : ch ∈ whiteSpace := by simpa [isWhiteSpace] using ha.2 ch hch
  exact hb ch hspace hb'

theorem hashSign_not_mem_space (ha : IsSpace a) : hashSign ∉ a :=
  not_mem_space (by decide) ha

/-- The digits of a hash are neither a comment sign, nor a line feed, nor white space. -/
theorem toHex_plain (h : Hash) : ∀ c ∈ h.toHex,
    c < 0x80 ∧ c ≠ hashSign ∧ c ≠ lineFeed ∧ isWhiteSpace [c] = false := by
  have hdigits : ∀ b : UInt8, ∀ c ∈ Hash.hexPair b,
      c < 0x80 ∧ c ≠ hashSign ∧ c ≠ lineFeed ∧ isWhiteSpace [c] = false := by
    intro b
    have hpair := forall_byte (P := fun b =>
      (Hash.hexChar (b >>> 4) < 0x80 ∧ Hash.hexChar (b >>> 4) ≠ hashSign ∧
        Hash.hexChar (b >>> 4) ≠ lineFeed ∧ isWhiteSpace [Hash.hexChar (b >>> 4)] = false) ∧
      Hash.hexChar (b &&& 0x0f) < 0x80 ∧ Hash.hexChar (b &&& 0x0f) ≠ hashSign ∧
        Hash.hexChar (b &&& 0x0f) ≠ lineFeed ∧ isWhiteSpace [Hash.hexChar (b &&& 0x0f)] = false)
      (by decide +kernel) b
    intro c hc
    rcases List.mem_pair.mp hc with rfl | rfl
    · exact hpair.1
    · exact hpair.2
  intro c hc
  obtain ⟨b, -, hb⟩ := List.mem_flatMap.mp hc
  exact hdigits b c hb

theorem takeWhile_hashSign (ha : hashSign ∉ a) (more : Text) :
    (a ++ hashSign :: more).takeWhile (· ≠ hashSign) = a := by
  have hall : ∀ c ∈ a, decide (c ≠ hashSign) = true := by
    intro c hc
    exact decide_eq_true fun heq => ha (heq ▸ hc)
  rw [List.takeWhile_append_of_pos hall, List.takeWhile_cons_of_neg (by simp), List.append_nil]

theorem takeWhile_no_hashSign (ha : hashSign ∉ a) : a.takeWhile (· ≠ hashSign) = a := by
  rw [List.takeWhile_eq_self_iff]
  intro c hc
  exact decide_eq_true fun heq => ha (heq ▸ hc)

/-- A carriage return at the end of a line makes no difference. -/
theorem rootOf_concat_return (path : Text) (index : ℕ) (line : Text) :
    rootOf path index (line ++ [carriageReturn]) = rootOf path index line := by
  have hutf8 : isUtf8 (line ++ [carriageReturn]) = isUtf8 line := isUtf8_concat (by decide)
  unfold rootOf
  rw [hutf8]
  by_cases hline : isUtf8 line = true
  · have htext : rootText (line ++ [carriageReturn]) = rootText line := by
      unfold rootText
      by_cases hsign : hashSign ∈ line
      · obtain ⟨first, more, rfl, hfirst⟩ := List.eq_append_cons_of_mem hsign
        rw [List.append_assoc, List.cons_append, takeWhile_hashSign hfirst,
          takeWhile_hashSign hfirst]
      · have hsign' : hashSign ∉ line ++ [carriageReturn] := by
          simpa [hsign] using show hashSign ≠ carriageReturn by decide
        rw [takeWhile_no_hashSign hsign', takeWhile_no_hashSign hsign,
          trim_concat hline (by decide) (by decide)]
    rw [htext]
  · rw [if_neg hline, if_neg hline]

theorem rootOf_stripReturn (path : Text) (index : ℕ) (line : Text) :
    rootOf path index (stripReturn line) = rootOf path index line := by
  rcases stripReturn_cases line with heq | heq
  · rw [heq]
  · conv_rhs => rw [heq, rootOf_concat_return]

/-- The text before a comment is a hash between white space. -/
theorem rootOf_root {before after : Text} (hbefore : IsSpace before) (hafter : IsSpace after)
    (hutf8 : isUtf8 line = true)
    (hline : line.takeWhile (· ≠ hashSign) = before ++ h.toHex ++ after) :
    rootOf path index line = .ok (some h) := by
  have hascii : ∀ c ∈ h.toHex, c < 0x80 := fun c hc => (toHex_plain h c hc).1
  have hplain : ∀ ch ∈ chars h.toHex, isWhiteSpace ch = false := by
    rw [chars_ascii hascii]
    intro ch hch
    obtain ⟨c, hc, rfl⟩ := List.mem_map.mp hch
    exact (toHex_plain h c hc).2.2.2
  have htext : rootText line = h.toHex := by
    rw [rootText, hline, trim_surround hbefore hafter (isUtf8_ascii hascii) hplain]
  have hne : h.toHex.isEmpty = false := by
    have hlen := Hash.length_toHex h
    cases hhex : h.toHex with
    | nil => simp [hhex] at hlen
    | cons c rest => rfl
  simp [rootOf, hutf8, htext, hne, Hash.fromHex_toHex]

theorem rootOf_skip (hutf8 : isUtf8 line = true)
    (hline : IsSpace (line.takeWhile (· ≠ hashSign))) : rootOf path index line = .ok none := by
  have htext : rootText line = [] := trim_space hline
  simp [rootOf, hutf8, htext]

end Line

/-! ## The file -/

namespace RootLine

theorem isUtf8_text (l : RootLine) : isUtf8 l.text = true := by
  have hhex : ∀ h : Hash, isUtf8 h.toHex = true :=
    fun h => isUtf8_ascii fun c hc => (toHex_plain h c hc).1
  have hsign : ∀ body : Comment, isUtf8 (hashSign :: body.text) = true := by
    intro body
    have hone : isUtf8 [hashSign] = true := by decide
    rw [← List.singleton_append, isUtf8_append hone, body.utf8]
  cases l with
  | blank gap => exact gap.space.1
  | comment gap body => rw [text, isUtf8_append gap.space.1, hsign]
  | root before hash after comment =>
    cases comment with
    | none =>
      rw [text, List.append_assoc, isUtf8_append before.space.1, isUtf8_append (hhex hash),
        after.space.1]
    | some body =>
      rw [text, List.append_assoc, List.append_assoc, isUtf8_append before.space.1,
        isUtf8_append (hhex hash), isUtf8_append after.space.1, hsign]

theorem oneLine (l : RootLine) : lineFeed ∉ l.text := by
  have hhex : ∀ h : Hash, lineFeed ∉ h.toHex := by
    intro h hmem
    exact (toHex_plain h _ hmem).2.2.1 rfl
  have hne : lineFeed ≠ hashSign := by decide
  cases l with
  | blank gap => exact gap.oneLine
  | comment gap body => simp [text, gap.oneLine, body.oneLine, hne]
  | root before hash after comment =>
    cases comment with
    | none => simp [text, before.oneLine, after.oneLine, hhex hash]
    | some body => simp [text, before.oneLine, after.oneLine, body.oneLine, hhex hash, hne]

/-- Each line says the hash that is written in it. -/
theorem rootOf_text (l : RootLine) (path : Text) (index : ℕ) :
    rootOf path index l.text = .ok l.hash? := by
  have hutf8 := l.isUtf8_text
  have hgap : ∀ gap : Gap, hashSign ∉ gap.text := fun gap => hashSign_not_mem_space gap.space
  have hhex : ∀ h : Hash, hashSign ∉ h.toHex := by
    intro h hmem
    exact (toHex_plain h _ hmem).2.1 rfl
  cases l with
  | blank gap =>
    apply rootOf_skip hutf8
    rw [text, takeWhile_no_hashSign (hgap gap)]
    exact gap.space
  | comment gap body =>
    apply rootOf_skip hutf8
    rw [text, takeWhile_hashSign (hgap gap)]
    exact gap.space
  | root before hash after comment =>
    have hplain : hashSign ∉ before.text ++ hash.toHex ++ after.text := by
      simp [hgap before, hgap after, hhex hash]
    cases comment with
    | none =>
      exact rootOf_root before.space after.space hutf8 (takeWhile_no_hashSign hplain)
    | some body =>
      exact rootOf_root before.space after.space hutf8 (takeWhile_hashSign hplain _)

end RootLine

/-- One line that is read after the others. -/
theorem addRoots_cons {path line : Text} {index : ℕ} {rest : List Text} {roots : Finset Hash}
    {found : Option Hash} (h : rootOf path index line = .ok found) :
    addRoots path index (line :: rest) roots =
      addRoots path (index + 1) rest (found.toFinset ∪ roots) := by
  cases found with
  | none => simp [addRoots, h]
  | some hash => simp [addRoots, h]

/-- The hashes that a layout lists are added to those that are there. -/
theorem addRoots_layout (path : Text) (rows : List (RootLine × Ending)) (last : Option RootLine)
    (index : ℕ) (roots : Finset Hash) :
    addRoots path index (lines (layout rows last)) roots = .ok (roots ∪ written rows last) := by
  induction rows generalizing index roots with
  | nil =>
    cases last with
    | none => simp [layout, written, addRoots]
    | some l =>
      have hlayout : layout [] (some l) = l.text := by simp [layout]
      rw [hlayout]
      by_cases hempty : l.text = []
      · -- an empty last line is no line at all
        have hsays := l.rootOf_text path index
        have hnone : l.hash? = none := by
          rw [hempty] at hsays
          have hskip : rootOf path index [] = .ok none := rfl
          exact (Except.ok.inj (hskip.symm.trans hsays)).symm
        simp [hempty, addRoots, written, hnone]
      · rw [lines_last l.oneLine hempty, addRoots_cons (l.rootOf_text path index)]
        cases hfound : l.hash? with
        | none => simp [addRoots, written, hfound]
        | some hash => simp [addRoots, written, hfound, Finset.union_comm]
  | cons row rows ih =>
    obtain ⟨l, ending⟩ := row
    have hline : ∃ line, lines (layout ((l, ending) :: rows) last) = line :: lines (layout rows last) ∧
        rootOf path index line = .ok l.hash? := by
      cases ending with
      | lf =>
        refine ⟨stripReturn l.text, ?_, ?_⟩
        · rw [← lines_cons l.oneLine]
          simp [layout, Ending.text]
        · rw [rootOf_stripReturn, l.rootOf_text]
      | crlf =>
        have hone : lineFeed ∉ l.text ++ [carriageReturn] := by
          simpa [l.oneLine] using show lineFeed ≠ carriageReturn by decide
        refine ⟨l.text, ?_, l.rootOf_text path index⟩
        have hcons := lines_cons hone (layout rows last)
        rw [stripReturn_concat] at hcons
        rw [← hcons]
        simp [layout, Ending.text]
    obtain ⟨line, hlines, hsays⟩ := hline
    rw [hlines, addRoots_cons hsays, ih]
    have hwritten : written ((l, ending) :: rows) last = l.hash?.toFinset ∪ written rows last := by
      cases hfound : l.hash? with
      | none => simp [written, hfound]
      | some hash => simp [written, hfound]
    rw [hwritten, Finset.union_comm l.hash?.toFinset roots, Finset.union_assoc]

/-- A line that fails stops the parse. -/
theorem addRoots_error {path : Text} {all : List Text} {line : Text} (hline : line ∈ all)
    (hfails : ∀ index, ∃ e, rootOf path index line = .error e) (index : ℕ) (roots : Finset Hash) :
    ∃ e, addRoots path index all roots = .error e := by
  induction all generalizing index roots with
  | nil => cases hline
  | cons first rest ih =>
    cases hfirst : rootOf path index first with
    | error e => exact ⟨e, by simp [addRoots, hfirst]⟩
    | ok found =>
      rcases List.mem_cons.mp hline with rfl | hline
      · obtain ⟨e, he⟩ := hfails index
        rw [hfirst] at he
        cases he
      · rw [addRoots_cons hfirst]
        exact ih hline _ _

/-- The roots file never loses a root: every layout of hashes, comments and blank lines gives
exactly the hashes written, and a line whose text is no hash gives an error. -/
theorem roots_never_lost {stdin input : Bytes} {files : Text → Except Text Bytes} {path : Text}
    (hopen : openRoots stdin files path = .ok input) :
    (∀ rows last, input = layout rows last →
      parseRoots stdin files path = .ok (written rows last)) ∧
    ∀ pre line post, input = pre ++ line ++ post → lineFeed ∉ line →
      (pre = [] ∨ ∃ q, pre = q ++ [lineFeed]) → (post = [] ∨ ∃ q, post = lineFeed :: q) →
      rootText line ≠ [] → (∀ h, Hash.fromHex (rootText line) ≠ .ok h) →
        ∃ e, parseRoots stdin files path = .error e := by
  have hparse : parseRoots stdin files path = addRoots path 0 (lines input) ∅ := by
    simp [parseRoots, hopen]
  constructor
  · rintro rows last rfl
    rw [hparse, addRoots_layout, Finset.empty_union]
  · rintro pre line post rfl hone hpre hpost htext hnot
    have hfails : ∀ index, ∃ e, rootOf path index line = .error e := by
      intro index
      unfold rootOf
      by_cases hutf8 : isUtf8 line = true
      · have hempty : (rootText line).isEmpty = false := by simpa using htext
        cases hhex : Hash.fromHex (rootText line) with
        | ok h => exact absurd hhex (hnot h)
        | error e => exact ⟨_, by rw [if_pos hutf8, hempty]; rfl⟩
      · exact ⟨_, by rw [if_neg hutf8]⟩
    have hne : line ≠ [] := by
      rintro rfl
      exact htext rfl
    rw [hparse]
    rcases mem_lines hone hne hpre hpost with hmem | hmem
    · exact addRoots_error hmem hfails 0 ∅
    · refine addRoots_error hmem (fun index => ?_) 0 ∅
      rw [rootOf_stripReturn]
      exact hfails index

/-- A hash with a comment behind it, and a carriage return and a line feed. -/
def commentedRow : RootLine × Ending :=
  (.root ⟨[], by decide, by decide⟩ .zero ⟨[0x20], by decide, by decide⟩
    (some ⟨[0x78], by decide, by decide⟩), .crlf)

/-- It is read from the standard input. -/
theorem roots_never_lost_stdin : parseRoots (layout [commentedRow] none) (fun _ => .ok [])
    (text "-") = .ok {Hash.zero} := by
  have hopen : openRoots (layout [commentedRow] none) (fun _ => .ok []) (text "-") =
      .ok (layout [commentedRow] none) := if_pos rfl
  exact (roots_never_lost hopen).1 [commentedRow] none rfl

end CasKit
