import CasKit.CasGc
import CasKit.Lib.Json

/-!
# What is printed reads back

The report that `cas-gc --json` prints is one JSON object, and a reader of JSON gets out of it what
the sweep reported.
-/
namespace CasKit
open Effects Files Codec

namespace CasGc

section Text
variable {s : Text} {ch : Text}

theorem toList_byteArray (bs : ByteArray) : bs.toList = bs.data.toList := by
  have hloop : ∀ n i r, bs.size - i = n →
      ByteArray.toList.loop bs i r = r.reverse ++ bs.data.toList.drop i := by
    intro n
    induction n with
    | zero =>
      intro i r hn
      have hi : ¬ i < bs.size := by omega
      have hlen : bs.data.toList.length ≤ i := by simpa using hi
      rw [ByteArray.toList.loop]
      simp [hi, List.drop_eq_nil_of_le hlen]
    | succ n ih =>
      intro i r hn
      have hi : i < bs.size := by omega
      have hlen : i < bs.data.toList.length := by simpa using hi
      have hget : bs.get! i = bs.data.toList[i] := by simp [ByteArray.get!, getElem!_pos, hi]
      rw [ByteArray.toList.loop, if_pos hi, ih (i + 1) _ (by omega),
        List.drop_eq_getElem_cons hlen]
      simp [hget]
  simpa [ByteArray.toList] using hloop _ 0 [] rfl

theorem text_eq (s : String) : text s = s.toList.flatMap String.utf8EncodeChar := by
  rw [text, String.toUTF8_eq_toByteArray, toList_byteArray, ← String.utf8Encode_toList]
  simp [List.utf8Encode]

theorem natText_eq (n : ℕ) : natText n = Json.decimal n := by
  have hdigit : ∀ ch ∈ Nat.toDigits 10 n, String.utf8EncodeChar ch = [UInt8.ofNat ch.toNat] := by
    intro ch hch
    have hrange := Json.digit_range (Nat.isDigit_of_mem_toDigits (by omega) (by omega) hch)
    have hsmall : ch.toNat ≤ 127 := by omega
    simp [String.utf8EncodeChar, hsmall]
  have hchars : ∀ l : List Char, (∀ ch ∈ l, String.utf8EncodeChar ch = [UInt8.ofNat ch.toNat]) →
      l.flatMap String.utf8EncodeChar = Json.digitText l := by
    intro l hl
    induction l with
    | nil => rfl
    | cons ch l ih =>
      have hrest := ih fun ch' hch' => hl ch' (by simp [hch'])
      simp [hl ch (by simp), hrest, Json.digitText]
  rw [natText, text_eq, Json.decimal, ← hchars _ hdigit]
  simp

/-- A sequence of several bytes has none of ASCII. -/
theorem utf8Step_high {b x : UInt8} {rest : List UInt8} (hone : (utf8Step b rest).1 ≠ 1)
    (hx : x ∈ (b :: rest).take (utf8Step b rest).1) : 0x80 ≤ x := by
  have hcont : ∀ i : ℕ, isContinuation rest[i]? = true → ∀ y, rest[i]? = some y → 0x80 ≤ y := by
    intro i hi y hy
    simp only [hy, isContinuation] at hi
    grind
  have hsecond : secondByteOk b rest[0]? = true → ∀ y, rest[0]? = some y → 0x80 ≤ y := by
    intro hi y hy
    simp only [hy, secondByteOk] at hi
    grind
  obtain ⟨j, hj⟩ := List.mem_iff_getElem?.mp hx
  rw [List.getElem?_take] at hj
  have h0 := hcont 0
  have h1 := hcont 1
  have h2 := hcont 2
  unfold utf8Step at hone hj
  split_ifs at hone hj <;> first | (exact absurd rfl hone) | grind

/-- A character is a byte, or bytes outside of ASCII. -/
theorem mem_chars (hch : ch ∈ chars s) : (∃ b, ch = [b]) ∨ ∀ b ∈ ch, 0x80 ≤ b := by
  induction s using sequences_induct with
  | nil => simp at hch
  | cons b rest ih =>
    rw [chars_cons, List.mem_cons] at hch
    rcases hch with rfl | hch
    · by_cases hone : (utf8Step b rest).1 = 1
      · simp [hone]
      · exact .inr fun x hx => utf8Step_high hone hx
    · exact ih hch

/-- The escapes and the literals, byte by byte. -/
theorem escape_words : text "\\\"" = [0x5C, 0x22] ∧ text "\\\\" = [0x5C, 0x5C] ∧
    text "\\n" = [0x5C, 0x6E] ∧ text "\\r" = [0x5C, 0x72] ∧ text "\\t" = [0x5C, 0x74] ∧
    text "\\u00" = [0x5C, 0x75, 0x30, 0x30] ∧ text "\"" = [0x22] ∧
    text "true" = Json.trueText ∧ text "false" = Json.falseText ∧ text "null" = Json.nullText := by
  simp [text_eq, String.utf8EncodeChar, Json.trueText, Json.falseText, Json.nullText]

theorem encodes_control {b : UInt8} (hb : b < 0x20) :
    Json.Encodes (text "\\u00" ++ Hash.hexPair b) [b] := by
  have hdigits := forall_byte (P := fun b => b < 0x20 →
    Json.codeUnit 0x30 0x30 (Hash.hexChar (b >>> 4)) (Hash.hexChar (b &&& 0x0f)) = some b.toNat ∧
      Json.encodeUnit b.toNat = some [b]) (by decide +kernel) b hb
  obtain ⟨_, _, _, _, _, htext, _⟩ := escape_words
  rw [htext]
  exact Json.encodes_unit hdigits.1 hdigits.2

/-- Each character is escaped so that it reads back as itself. -/
theorem encodes_jsonEscapeChar (hch : ch ∈ chars s) : Json.Encodes (jsonEscapeChar ch) ch := by
  obtain ⟨hquote, hslash, hfeed, hreturn, htab, _⟩ := escape_words
  unfold jsonEscapeChar
  split_ifs with h1 h2 h3 h4 h5
  · rw [h1, hquote]
    exact Json.encodes_short rfl
  · rw [h2, hslash]
    exact Json.encodes_short rfl
  · rw [h3, hfeed]
    exact Json.encodes_short rfl
  · rw [h4, hreturn]
    exact Json.encodes_short rfl
  · rw [h5, htab]
    exact Json.encodes_short rfl
  · rcases mem_chars hch with ⟨b, rfl⟩ | hhigh
    · by_cases hb : b < 0x20
      · simpa [hb] using encodes_control hb
      · have hself : b ≠ 0x22 ∧ b ≠ 0x5C := by simpa using And.intro h1 h2
        simpa [hb] using Json.encodes_plain hself.1 hself.2 hb
    · have hself : Json.Encodes ch ch := Json.encodes_self fun b hb => by
        have hge := hhigh b hb
        grind
      split
      · next b =>
        have hb : ¬ b < 0x20 := by
          have hge := hhigh b (by simp)
          grind
        simpa [hb] using hself
      · exact hself

theorem encodes_jsonEscape (s : Text) : Json.Encodes (jsonEscape s) s := by
  have hall := Json.encodes_flatMap fun ch (hch : ch ∈ chars s) => encodes_jsonEscapeChar hch
  rwa [flatten_chars] at hall

end Text

section Report
variable (command : Text) (report : Gc.SweepReport) (missingRoots : ℕ)

/-- What the report says, key by key. -/
def reportValues : List (Text × Json.Value) := [
  (text "command", .string command),
  (text "dry_run", .bool (report.mode = .dryRun)),
  (text "scanned", .number report.plan.scanned),
  (text "live", .number report.plan.live),
  (text "garbage", .number report.plan.garbage),
  (text "missing_roots", .number missingRoots),
  (text "loose_garbage", .number report.plan.looseGarbage.length),
  (text "packed_garbage", .number report.plan.packedGarbageObjects),
  (text "packs_with_garbage", .number report.plan.packsWithGarbage),
  (text "packs_removed", .number report.packsRemoved),
  (text "packs_rewritten", .number report.packsRewritten),
  (text "orphan_files", .number report.plan.orphanFiles.length),
  (text "unreadable_packs", .number report.plan.unreadablePacks.length),
  (text "bytes_reclaimable", .number report.plan.bytesReclaimable),
  (text "bytes_reclaimed", .number report.bytesReclaimed),
  (text "executed", .bool report.executed),
  (text "trash", match report.trash with
    | some p => .string (fromUtf8Lossy (Gc.displayPath p))
    | none => .null)]

/-- The keys of the report. -/
def reportKeys : List String := [
  "command", "dry_run", "scanned", "live", "garbage", "missing_roots", "loose_garbage",
  "packed_garbage", "packs_with_garbage", "packs_removed", "packs_rewritten", "orphan_files",
  "unreadable_packs", "bytes_reclaimable", "bytes_reclaimed", "executed", "trash"]

/-- The keys and the names of the commands are letters and underscores. -/
theorem encodes_word : ∀ k ∈ "mark" :: "sweep" :: reportKeys, Json.Encodes (text k) (text k) := by
  have hplain : ∀ k ∈ "mark" :: "sweep" :: reportKeys, ∀ b ∈ text k,
      b ≠ 0x22 ∧ b ≠ 0x5C ∧ ¬ b < 0x20 := by
    decide +kernel
  intro k hk
  exact Json.encodes_self (hplain k hk)

theorem encodes_key : ∀ v ∈ reportValues command report missingRoots, Json.Encodes v.1 v.1 := by
  have hfst : (reportValues command report missingRoots).map Prod.fst = reportKeys.map text := rfl
  intro v hv
  obtain ⟨k, hk, heq⟩ := List.mem_map.mp (hfst ▸ List.mem_map_of_mem hv)
  rw [← heq]
  exact encodes_word k (by simp [hk])

theorem renders_boolText (b : Bool) : Json.Renders (boolText b) (.bool b) := by
  obtain ⟨_, _, _, _, _, _, _, htrue, hfalse, _⟩ := escape_words
  rw [boolText, htrue, hfalse]
  exact Json.renders_bool b

theorem renders_natText (n : ℕ) : Json.Renders (natText n) (.number n) := by
  rw [natText_eq]
  exact Json.renders_number n

/-- The text of the last member. -/
def trashText (trash : Option Path) : Text :=
  match trash with
  | some p => text "\"" ++ jsonEscape (fromUtf8Lossy (Gc.displayPath p)) ++ text "\""
  | none => text "null"

theorem renders_trashText (trash : Option Path) : Json.Renders (trashText trash)
    (match trash with
      | some p => .string (fromUtf8Lossy (Gc.displayPath p))
      | none => .null) := by
  obtain ⟨_, _, _, _, _, _, hquote, _, _, hnull⟩ := escape_words
  cases trash with
  | none =>
    rw [trashText, hnull]
    exact Json.renders_null
  | some p =>
    rw [trashText, hquote]
    exact Json.renders_string (encodes_jsonEscape _)

/-- The members as they are printed. -/
def reportTexts : List (Text × Text) := [
  (text "command", 0x22 :: command ++ [0x22]),
  (text "dry_run", boolText (report.mode = .dryRun)),
  (text "scanned", natText report.plan.scanned),
  (text "live", natText report.plan.live),
  (text "garbage", natText report.plan.garbage),
  (text "missing_roots", natText missingRoots),
  (text "loose_garbage", natText report.plan.looseGarbage.length),
  (text "packed_garbage", natText report.plan.packedGarbageObjects),
  (text "packs_with_garbage", natText report.plan.packsWithGarbage),
  (text "packs_removed", natText report.packsRemoved),
  (text "packs_rewritten", natText report.packsRewritten),
  (text "orphan_files", natText report.plan.orphanFiles.length),
  (text "unreadable_packs", natText report.plan.unreadablePacks.length),
  (text "bytes_reclaimable", natText report.plan.bytesReclaimable),
  (text "bytes_reclaimed", natText report.bytesReclaimed),
  (text "executed", boolText report.executed),
  (text "trash", trashText report.trash)]

/-- The pieces of the format string, taken apart. -/
theorem format_pieces : text "\x7b\"command\":\"" = 0x7B :: 0x22 :: text "command" ++ [0x22, 0x3A, 0x22] ∧
    text "\",\"dry_run\":" = 0x22 :: 0x2C :: 0x22 :: text "dry_run" ++ [0x22, 0x3A] ∧
    text "\x7d" = [0x7D] ∧
    [text ",\"scanned\":", text ",\"live\":", text ",\"garbage\":", text ",\"missing_roots\":",
      text ",\"loose_garbage\":", text ",\"packed_garbage\":", text ",\"packs_with_garbage\":",
      text ",\"packs_removed\":", text ",\"packs_rewritten\":", text ",\"orphan_files\":",
      text ",\"unreadable_packs\":", text ",\"bytes_reclaimable\":", text ",\"bytes_reclaimed\":",
      text ",\"executed\":", text ",\"trash\":"] =
    ["scanned", "live", "garbage", "missing_roots", "loose_garbage", "packed_garbage",
      "packs_with_garbage", "packs_removed", "packs_rewritten", "orphan_files", "unreadable_packs",
      "bytes_reclaimable", "bytes_reclaimed", "executed", "trash"].map fun k =>
        0x2C :: 0x22 :: text k ++ [0x22, 0x3A] := by
  simp [text_eq, String.utf8EncodeChar]

theorem printJson_eq : printJson command report missingRoots =
    Json.objectText (reportTexts command report missingRoots) := by
  obtain ⟨hfirst, hsecond, hlast, hrest⟩ := format_pieces
  simp only [List.map_cons, List.map_nil, List.cons.injEq, and_true] at hrest
  obtain ⟨h1, h2, h3, h4, h5, h6, h7, h8, h9, h10, h11, h12, h13, h14, h15⟩ := hrest
  unfold printJson reportTexts trashText
  cases report.trash <;>
    simp only [hfirst, hsecond, hlast, h1, h2, h3, h4, h5, h6, h7, h8, h9, h10, h11, h12, h13, h14,
      h15, Json.objectText, Json.membersText, Json.memberText, List.cons_append,
      List.append_assoc, List.nil_append]

theorem encodes_name (command : Command) : Json.Encodes command.name command.name := by
  cases command with
  | mark rootsFile => exact encodes_word "mark" (by simp)
  | sweep rootsFile mode delete => exact encodes_word "sweep" (by simp)

theorem readObject_reportTexts (command : Command) (report : Gc.SweepReport) (missingRoots : ℕ) :
    Json.readObject (Json.objectText (reportTexts command.name report missingRoots)) =
      some (reportValues command.name report missingRoots) := by
  have hvalues : List.Forall₂ (fun m v => m.1 = v.1 ∧ Json.Renders m.2 v.2)
      (reportTexts command.name report missingRoots)
      (reportValues command.name report missingRoots) := by
    simp only [reportTexts, reportValues, List.forall₂_cons, List.forall₂_nil_left_iff, and_true,
      true_and, renders_natText, renders_boolText, renders_trashText]
    exact Json.renders_string (encodes_name command)
  have hkeys := encodes_key command.name report missingRoots
  rw [List.forall₂_iff_zip] at hvalues
  have hmembers : List.Forall₂ (fun m v => Json.Encodes m.1 v.1 ∧ Json.Renders m.2 v.2)
      (reportTexts command.name report missingRoots)
      (reportValues command.name report missingRoots) := by
    rw [List.forall₂_iff_zip]
    refine ⟨hvalues.1, fun {m v} hmem => ?_⟩
    obtain ⟨hkey, hvalue⟩ := hvalues.2 hmem
    exact ⟨hkey ▸ hkeys v (List.of_mem_zip hmem).2, hvalue⟩
  exact Json.readObject_objectText (by simp [reportTexts]) hmembers

/-- What `--json` prints is one object, and it reads back as the report, whatever the path of the
trash is. -/
theorem readObject_printJson (command : Command) (report : Gc.SweepReport) (missingRoots : ℕ) :
    Json.readObject (printJson command.name report missingRoots) =
      some (reportValues command.name report missingRoots) := by
  rw [printJson_eq]
  exact readObject_reportTexts command report missingRoots

end Report

end CasGc

end CasKit
