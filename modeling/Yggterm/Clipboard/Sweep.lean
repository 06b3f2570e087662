import Mathlib.Algebra.BigOperators.Group.List.Basic
import Mathlib.Data.List.Sort
import Yggterm.Clipboard.References
import Yggterm.Library.Lines

/-!
# The sweep of the clipboard directory

`run_clipboard_sweep`: old trash is deleted, and staged files that are too old, or too many, go
to the trash unless a transcript names them.
-/

namespace Yggterm.Clipboard

open Text

def clipboardStageTtlMs : Nat := 45 * 24 * 60 * 60 * 1000

def clipboardTrashTtlMs : Nat := 45 * 24 * 60 * 60 * 1000

def clipboardLiveDirMaxBytes : Nat := 1024 * 1024 * 1024

/-! ## Names -/

def stagedPrefix : List Char := "clipboard-".toList

def trashedMark : List Char := ".trashed-".toList

/-- The moment at which a file was staged, by its name. -/
def stagedEpochMs (fileName : List Char) : Option Nat :=
  (stagedPrefix.isPrefixOf? fileName).bind fun digits =>
    if digits.all Char.isDigit then none
    else
      let millis := digits.takeWhile Char.isDigit
      if millis = [] then none else parseUnsigned 64 millis

/-- The moment at which a file entered the trash, by its name. -/
def trashedEpochMs (fileName : List Char) : Option Nat :=
  (findLast trashedMark fileName).bind fun parts => parseUnsigned 64 parts.2

def trashName (nowMs : Nat) (name : List Char) : List Char :=
  name ++ (trashedMark ++ Nat.toDigits 10 nowMs)

/-! ## The directories -/

/-- An entry of a directory; its size may be unknown. -/
structure Entry where
  name : FileName
  inode : Nat
  isDir : Bool
  size : Option Nat
  deriving DecidableEq

def Entry.bytes (entry : Entry) : Nat := entry.size.getD 0

/-- The live directory and its trash, where they can be listed.  A name stands once in the live
directory, and a file in one place. -/
structure ClipboardDir where
  live : Option (List Entry)
  trash : Option (List Entry)
  names_nodup : ((live.getD []).map Entry.name).Nodup
  inodes_nodup : ((live.getD [] ++ trash.getD []).map Entry.inode).Nodup

namespace ClipboardDir

def liveEntries (dir : ClipboardDir) : List Entry := dir.live.getD []

def trashEntries (dir : ClipboardDir) : List Entry := dir.trash.getD []

/-- What the files in the live directory take, whatever they are named. -/
def liveBytes (dir : ClipboardDir) : Nat :=
  ((dir.liveEntries.filter fun entry => !entry.isDir).map Entry.bytes).sum

end ClipboardDir

structure Staged where
  name : List Char
  epoch : Nat
  size : Nat
  deriving DecidableEq

def Entry.staged (entry : Entry) : Option Staged :=
  if entry.isDir then none
  else entry.name.toStr.bind fun name =>
    (stagedEpochMs name).map fun epoch => ⟨name, epoch, entry.bytes⟩

/-- The staged files, oldest first. -/
def ClipboardDir.staged (dir : ClipboardDir) : List Staged :=
  (dir.liveEntries.filterMap Entry.staged).mergeSort fun first second => first.epoch ≤ second.epoch

/-! ## Candidates -/

def isExpired (nowMs : Nat) (file : Staged) : Bool :=
  decide (clipboardStageTtlMs < nowMs - file.epoch)

/-- The picks of the size backstop, oldest first, added to the candidates. -/
def backstop : Nat → List Staged → List Staged → List Staged
  | _, candidates, [] => candidates
  | projected, candidates, file :: rest =>
      if projected ≤ clipboardLiveDirMaxBytes then candidates
      else
        let picked := if candidates.any fun other => other.name = file.name then candidates
          else candidates ++ [file]
        backstop (projected - file.size) picked rest

def ClipboardDir.candidates (dir : ClipboardDir) (nowMs : Nat) : List Staged :=
  let expired := dir.staged.filter (isExpired nowMs)
  if clipboardLiveDirMaxBytes < dir.liveBytes then backstop dir.liveBytes expired dir.staged
  else expired

/-! ## The run -/

/-- What the file system answers. -/
structure Answers where
  removes : FileName → Bool
  createsTrash : Bool
  renames : List Char → Bool

structure ClipboardSweepOutcome where
  trashed : Nat
  deleted : Nat
  keptReferenced : Nat
  liveBytesAfter : Nat
  degraded : Bool
  deriving DecidableEq

def isDeletable (nowMs : Nat) (entry : Entry) : Bool :=
  (entry.name.toStr.bind trashedEpochMs).any fun entered =>
    decide (clipboardTrashTtlMs < nowMs - entered)

namespace ClipboardDir

def purge (dir : ClipboardDir) (answers : Answers) (nowMs : Nat) : ClipboardDir where
  live := dir.live
  trash := dir.trash.map fun entries =>
    entries.filter fun entry => !(isDeletable nowMs entry && answers.removes entry.name)
  names_nodup := dir.names_nodup
  inodes_nodup := by
    refine dir.inodes_nodup.sublist (List.Sublist.map _ ((List.Sublist.refl _).append ?_))
    cases dir.trash with
    | none => exact List.Sublist.refl _
    | some entries => exact List.filter_sublist

/-- `create_dir_all` of the trash. -/
def createTrash (dir : ClipboardDir) : ClipboardDir where
  live := dir.live
  trash := some dir.trashEntries
  names_nodup := dir.names_nodup
  inodes_nodup := dir.inodes_nodup

theorem inode_notMem_of_found {dir : ClipboardDir} {name : FileName} {entry : Entry}
    (found : dir.liveEntries.find? (fun other => other.name = name) = some entry) :
    entry.inode ∉ (dir.liveEntries.filter fun other => other.name ≠ name).map Entry.inode := by
  intro member
  obtain ⟨other, isOther, same⟩ := List.mem_map.mp member
  obtain ⟨inLive, different⟩ := List.mem_filter.mp isOther
  have distinct : (dir.liveEntries.map Entry.inode).Nodup := by
    have both := dir.inodes_nodup
    rw [List.map_append] at both
    exact both.of_append_left
  have equal := List.inj_on_of_nodup_map distinct inLive (List.mem_of_find?_eq_some found) same
  have isName : entry.name = name := by simpa using List.find?_some found
  simp [equal, isName] at different

/-- `fs::rename` into the trash, where it replaces a file of the same name. -/
def moveToTrash (dir : ClipboardDir) (nowMs : Nat) (name : List Char) : ClipboardDir :=
  match found : dir.liveEntries.find? fun entry => entry.name = .text name with
  | none => dir
  | some entry =>
      { live := dir.live.map fun entries => entries.filter fun other => other.name ≠ .text name
        trash := some ((dir.trashEntries.filter fun other =>
            other.name ≠ .text (trashName nowMs name)) ++
          [{ entry with name := .text (trashName nowMs name) }])
        names_nodup := by
          refine dir.names_nodup.sublist (List.Sublist.map _ ?_)
          cases dir.live with
          | none => exact List.Sublist.refl _
          | some entries => exact List.filter_sublist
        inodes_nodup := by
          have isLive : (dir.live.map fun entries => entries.filter fun other =>
              other.name ≠ .text name).getD [] =
                dir.liveEntries.filter fun other => other.name ≠ .text name := by
            rw [liveEntries]
            cases dir.live with
            | none => rfl
            | some entries => rfl
          have both :
              (dir.liveEntries.map Entry.inode ++ dir.trashEntries.map Entry.inode).Nodup := by
            rw [← List.map_append]
            exact dir.inodes_nodup
          rw [isLive, Option.getD_some, ← List.append_assoc, List.map_append, List.map_append,
            List.map_singleton]
          have rest : ((dir.liveEntries.filter fun other => other.name ≠ .text name).map
              Entry.inode ++ (dir.trashEntries.filter fun other =>
                other.name ≠ .text (trashName nowMs name)).map Entry.inode).Nodup :=
            both.sublist ((List.filter_sublist.map _).append (List.filter_sublist.map _))
          refine List.nodup_append.mpr ⟨rest, List.nodup_singleton _, ?_⟩
          rintro inode member _ isEntry rfl
          rw [List.mem_singleton] at isEntry
          subst isEntry
          rcases List.mem_append.mp member with inLive | inTrash
          · exact inode_notMem_of_found found inLive
          · have isLiveInode : entry.inode ∈ dir.liveEntries.map Entry.inode :=
              List.mem_map_of_mem (List.mem_of_find?_eq_some found)
            exact (List.nodup_append.mp both).2.2 _ isLiveInode _
              ((List.filter_sublist.map _).subset inTrash) rfl }

end ClipboardDir

/-- The candidates that no transcript names move into the trash, one after the other. -/
def hop (answers : Answers) (referenced : Finset (List Char)) (nowMs : Nat) :
    List Staged → ClipboardSweepOutcome × ClipboardDir → ClipboardSweepOutcome × ClipboardDir
  | [], state => state
  | file :: rest, (outcome, dir) =>
      if file.name ∈ referenced then
        hop answers referenced nowMs rest
          ({ outcome with keptReferenced := outcome.keptReferenced + 1 }, dir)
      else if answers.createsTrash then
        if answers.renames file.name then
          hop answers referenced nowMs rest
            ({ outcome with
              trashed := outcome.trashed + 1
              liveBytesAfter := outcome.liveBytesAfter - file.size },
            dir.moveToTrash nowMs file.name)
        else hop answers referenced nowMs rest (outcome, dir.createTrash)
      else (outcome, dir)

/-- What was deleted from the trash. -/
def ClipboardDir.deletedCount (dir : ClipboardDir) (answers : Answers) (nowMs : Nat) : Nat :=
  dir.trashEntries.countP fun entry => isDeletable nowMs entry && answers.removes entry.name

/-- The roots of the transcript stores are missing where the home directory of the user is not
known. -/
def runClipboardSweep (answers : Answers) (roots : Option (List (Option Listing))) (nowMs : Nat)
    (dir : ClipboardDir) : ClipboardSweepOutcome × ClipboardDir :=
  let deleted := dir.deletedCount answers nowMs
  let purged := dir.purge answers nowMs
  match purged.live with
  | none => (⟨0, deleted, 0, 0, false⟩, purged)
  | some _ =>
      let candidates := purged.candidates nowMs
      if candidates = [] then (⟨0, deleted, 0, purged.liveBytes, false⟩, purged)
      else
        match roots.bind (referencedCandidates (candidates.map Staged.name).toFinset) with
        | none => (⟨0, deleted, candidates.length, purged.liveBytes, true⟩, purged)
        | some referenced =>
            hop answers referenced nowMs candidates
              (⟨0, deleted, 0, purged.liveBytes, false⟩, purged)

end Yggterm.Clipboard
