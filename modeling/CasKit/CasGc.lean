import CasKit.Gc
import CasKit.Roots

/-!
# The garbage collector's command line

`cas-gc` reads a roots file, marks, sweeps in the mode that its flags choose, and prints a report.
-/
namespace CasKit
open Effects Files Codec

namespace CasGc

/-- Exactly one of the two flags is given: the argument parser sees to that. -/
inductive ModeArgs where
  | dryRun
  | apply
  deriving DecidableEq

inductive Command where
  | mark (rootsFile : Text)
  | sweep (rootsFile : Text) (mode : ModeArgs) (delete : Bool)

structure Cli where
  root : Path
  json : Bool
  command : Command

def Command.name : Command → Text
  | mark _ => text "mark"
  | sweep _ _ _ => text "sweep"

def Command.rootsFile : Command → Text
  | mark rootsFile => rootsFile
  | sweep rootsFile _ _ => rootsFile

/-- Marking is a dry run; applying moves to the trash unless told to delete. -/
def Command.mode : Command → Gc.SweepMode
  | mark _ => .dryRun
  | sweep _ .dryRun _ => .dryRun
  | sweep _ .apply true => .delete
  | sweep _ .apply false => .trash

/-! ## Reports -/

def boolText (b : Bool) : Text := if b then text "true" else text "false"

def jsonEscapeChar (ch : Text) : Text :=
  if ch = [0x22] then text "\\\""
  else if ch = [0x5C] then text "\\\\"
  else if ch = [0x0A] then text "\\n"
  else if ch = [0x0D] then text "\\r"
  else if ch = [0x09] then text "\\t"
  else
    match ch with
    | [b] => if b < 0x20 then text "\\u00" ++ Hash.hexPair b else ch
    | _ => ch

def jsonEscape (s : Text) : Text := (chars s).flatMap jsonEscapeChar

/-- One object on one line, with its keys in a fixed order. -/
def printJson (command : Text) (report : Gc.SweepReport) (missingRoots : ℕ) : Text :=
  let plan := report.plan
  let trash : Text :=
    match report.trash with
    | some p => text "\"" ++ jsonEscape (fromUtf8Lossy (Gc.displayPath p)) ++ text "\""
    | none => text "null"
  text "\x7b\"command\":\"" ++ command ++
    text "\",\"dry_run\":" ++ boolText (report.mode = .dryRun) ++
    text ",\"scanned\":" ++ natText plan.scanned ++
    text ",\"live\":" ++ natText plan.live ++
    text ",\"garbage\":" ++ natText plan.garbage ++
    text ",\"missing_roots\":" ++ natText missingRoots ++
    text ",\"loose_garbage\":" ++ natText plan.looseGarbage.length ++
    text ",\"packed_garbage\":" ++ natText plan.packedGarbageObjects ++
    text ",\"packs_with_garbage\":" ++ natText plan.packsWithGarbage ++
    text ",\"packs_removed\":" ++ natText report.packsRemoved ++
    text ",\"packs_rewritten\":" ++ natText report.packsRewritten ++
    text ",\"orphan_files\":" ++ natText plan.orphanFiles.length ++
    text ",\"unreadable_packs\":" ++ natText plan.unreadablePacks.length ++
    text ",\"bytes_reclaimable\":" ++ natText plan.bytesReclaimable ++
    text ",\"bytes_reclaimed\":" ++ natText report.bytesReclaimed ++
    text ",\"executed\":" ++ boolText report.executed ++
    text ",\"trash\":" ++ trash ++ text "\x7d"

def plural (count : ℕ) : Text := if count = 1 then [] else text "s"

/-- Right-aligned in nine columns. -/
def padded (n : ℕ) : Text := List.replicate (9 - (natText n).length) 0x20 ++ natText n

/-- The report for a reader, line by line; `humanBytes` renders a size. -/
def printHuman (humanBytes : ℕ → Text) (root : Path) (command : Text) (report : Gc.SweepReport)
    (liveSet : Gc.LiveSet) : Text :=
  let plan := report.plan
  let head : List Text := [
    text "cas-gc " ++ command ++ text " — root: " ++ fromUtf8Lossy (Gc.displayPath root),
    text "scanned:  " ++ padded plan.scanned ++ text " objects (loose " ++
      natText plan.loosePresent ++ text ", packed " ++ natText plan.packedPresent ++ text ")",
    text "live:     " ++ padded plan.live ++ text " (roots " ++ natText liveSet.roots ++
      text ", missing " ++ natText liveSet.missing.length ++ text ")",
    text "garbage:  " ++ padded plan.garbage ++ text " (loose " ++
      natText plan.looseGarbage.length ++ text ", packed in " ++ natText plan.packsWithGarbage ++
      text " pack" ++ plural plan.packsWithGarbage ++ text ")",
    text "reclaimable: " ++ humanBytes plan.bytesReclaimable ++
      text " (estimate; pack rewrites excluded)"]
  let unreadable : List Text :=
    if plan.unreadablePacks.isEmpty then [text "unreadable packs: 0"]
    else
      (text "unreadable packs: " ++ natText plan.unreadablePacks.length ++
        text " — left untouched:") ::
      plan.unreadablePacks.map fun pack => text "  " ++ fromUtf8Lossy (Gc.displayPath pack)
  let outcome : List Text :=
    if command = text "mark" ∨ report.executed = false then
      [text "mode:     dry run (nothing changed)"]
    else [
      text "removed:  " ++ natText report.looseRemoved ++ text " loose object" ++
        plural report.looseRemoved ++ text ", " ++ natText report.packsRemoved ++ text " pack" ++
        plural report.packsRemoved ++ text " removed, " ++ natText report.packsRewritten ++
        text " pack" ++ plural report.packsRewritten ++ text " rewritten",
      text "reclaimed: " ++ humanBytes report.bytesReclaimed,
      match report.trash with
      | some trash => text "trash:    " ++ fromUtf8Lossy (Gc.displayPath trash) ++
          text " (restore by moving files back)"
      | none => text "trash:    none (permanently deleted)"]
  (head ++ unreadable ++ outcome).flatMap fun line => line ++ [lineFeed]

/-! ## The program -/

section Program
variable (c : Crates) (humanBytes : ℕ → Text) (stdin : Bytes) (files : Text → Except Text Bytes)
  (order : HashOrder) (cli : Cli)

/-- What the program prints, or why it stops. -/
def run : Action Text Text := do
  let store ← (BlobStore.new cli.root).mapErr CasError.display
  let roots ← Prog.ofExcept (parseRoots stdin files cli.command.rootsFile)
  let liveSet ← (Gc.mark store order roots).mapErr CasError.display
  let report ← (Gc.sweep c store liveSet.live ⟨cli.command.mode, true⟩).mapErr CasError.display
  if cli.json then
    return printJson cli.command.name report liveSet.missing.length ++ [lineFeed]
  else return printHuman humanBytes cli.root cli.command.name report liveSet

/-- The exit code, the standard output and the standard error. -/
def main (w : World) : (ℕ × Text × Text) × World :=
  match CasKit.run (run c humanBytes stdin files order cli) w with
  | (.ok out, w') => ((0, out, []), w')
  | (.error e, w') => ((1, [], text "error: " ++ e ++ [lineFeed]), w')

end Program

end CasGc

end CasKit
