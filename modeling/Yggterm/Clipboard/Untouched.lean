import Yggterm.Clipboard.Trashing

/-!
# What a sweep leaves in place

A name that only begins like a staged one is read as staged, and a file that enters the trash
replaces one of the same name there.
-/

namespace Yggterm.Clipboard

open Text Search

/-- `clipboard-<millis>.png` or `clipboard-<millis>-<id>.png`. -/
def IsStagerName (name : List Char) : Prop :=
  ∃ millis rest, name = stagedPrefix ++ (millis ++ rest) ∧ millis ≠ [] ∧
    (∀ digit ∈ millis, digit.isDigit = true) ∧
    (rest = ".png".toList ∨ ∃ id, id ≠ [] ∧
      (∀ char ∈ id, char.isAlphanum = true ∨ char = '-') ∧ rest = '-' :: (id ++ ".png".toList))

/-- A run touches staged files and old trash only, and moves nothing when it is degraded. -/
structure TouchesOnlyStaged (roots : Option (List (Option Listing))) (nowMs : Nat)
    (before : ClipboardDir) (outcome : ClipboardSweepOutcome) (after : ClipboardDir) : Prop where
  live : ∀ entry ∈ after.liveEntries, entry ∈ before.liveEntries
  trash : ∀ entry ∈ after.trashEntries, entry ∈ before.trashEntries ∨
    ∃ moved ∈ before.liveEntries, moved ∉ after.liveEntries ∧ moved.inode = entry.inode
  trashed : ∀ entry ∈ before.liveEntries, entry ∉ after.liveEntries →
    ∃ file, entry.staged = some file ∧ IsStagerName file.name ∧
      ¬ Named (roots.getD []) file.name ∧ (isExpired nowMs file = true ∨ before.Picked file) ∧
      { entry with name := .text (trashName nowMs file.name) } ∈ after.trashEntries
  deleted : ∀ entry ∈ before.trashEntries, entry ∉ after.trashEntries →
    ∃ name entered, entry.name = .text name ∧ trashedEpochMs name = some entered ∧
      clipboardTrashTtlMs < nowMs - entered
  degraded : outcome.degraded = true → after.liveEntries = before.liveEntries

theorem isDeletable_iff {nowMs : Nat} {entry : Entry} : isDeletable nowMs entry = true ↔
    ∃ name entered, entry.name = .text name ∧ trashedEpochMs name = some entered ∧
      clipboardTrashTtlMs < nowMs - entered := by
  obtain ⟨name, inode, isDir, size⟩ := entry
  cases name with
  | raw bytes => simp [isDeletable, FileName.toStr]
  | text name =>
      cases parsed : trashedEpochMs name with
      | none => simp [isDeletable, FileName.toStr, parsed]
      | some entered => simp [isDeletable, FileName.toStr, parsed]

/-- What enters the trash now is not old there. -/
theorem eq_of_trashedEpochMs_trashName {nowMs entered : Nat} {name : List Char}
    (parsed : trashedEpochMs (trashName nowMs name) = some entered) : entered = nowMs := by
  have digits : '-' ∉ (Nat.toDigits 10 nowMs).reverse := by
    intro member
    exact absurd (Nat.isDigit_of_mem_toDigits (by decide) (by decide) (List.mem_reverse.mp member))
      (by decide)
  have found : findLast trashedMark (trashName nowMs name) =
      some (name, Nat.toDigits 10 nowMs) := by
    have isReverse : trashedMark.reverse = '-' :: "dehsart.".toList := by decide
    have clear : Clear trashedMark.reverse (Nat.toDigits 10 nowMs).reverse := by
      rw [isReverse]
      exact clear_of_not_mem digits
    rw [findLast, trashName, List.reverse_append, List.reverse_append, List.append_assoc,
      findText_append_of_clear clear, findText_append_self (by rw [isReverse]; simp)]
    simp
  rw [trashedEpochMs, found, Option.bind_some, parseUnsigned_toDigits] at parsed
  split at parsed
  · exact (Option.some.inj parsed).symm
  · cases parsed

/-- A file that goes replaces what has its name in the trash. -/
theorem notMem_trashEntries_of_clash {answers : Answers} {roots : Option (List (Option Listing))}
    {nowMs : Nat} {dir : ClipboardDir} {file : Staged} (goes : Goes answers roots nowMs dir file)
    {entry : Entry} (inTrash : entry ∈ dir.trashEntries)
    (clash : entry.name = .text (trashName nowMs file.name)) :
    entry ∉ (runClipboardSweep answers roots nowMs dir).2.trashEntries := by
  rw [ClipboardDir.mem_trashEntries_run]
  rintro (⟨_, _, foreign⟩ | ⟨_, _, still, stillLive, _, rfl⟩)
  · exact foreign file goes clash
  · have distinct := dir.inodes_nodup
    rw [List.map_append, List.nodup_append] at distinct
    exact distinct.2.2 _ (List.mem_map_of_mem stillLive) _ (List.mem_map_of_mem inTrash) rfl

/-- A run touches staged files and old trash only, just where every file that goes is named like a
staged one and takes no name that the trash already has. -/
theorem touchesOnlyStaged_iff (answers : Answers) (roots : Option (List (Option Listing)))
    (nowMs : Nat) (dir : ClipboardDir) :
    TouchesOnlyStaged roots nowMs dir (runClipboardSweep answers roots nowMs dir).1
        (runClipboardSweep answers roots nowMs dir).2 ↔
      ∀ file, Goes answers roots nowMs dir file → IsStagerName file.name ∧
        ∀ entry ∈ dir.trashEntries, entry.name ≠ .text (trashName nowMs file.name) := by
  constructor
  · intro touches file goes
    obtain ⟨moved, inLive, isFile⟩ := ClipboardDir.mem_staged_iff.mp goes.isStaged
    have gone := (dir.goes_iff_notMem roots inLive).mpr ⟨file, isFile, goes⟩
    obtain ⟨other, isOther, named, _⟩ := touches.trashed moved inLive gone
    rw [isFile] at isOther
    cases isOther
    refine ⟨named, fun entry inTrash clash => ?_⟩
    obtain ⟨name, entered, isName, parsed, old⟩ :=
      touches.deleted entry inTrash (notMem_trashEntries_of_clash goes inTrash clash)
    rw [clash, FileName.text.injEq] at isName
    rw [← isName] at parsed
    rw [eq_of_trashedEpochMs_trashName parsed, Nat.sub_self] at old
    exact absurd old (Nat.not_lt_zero _)
  · intro shaped
    exact
      { live := fun entry member => ((dir.mem_liveEntries_run roots).mp member).1
        trash := by
          intro entry member
          rcases (dir.mem_trashEntries_run roots).mp member with
            old | ⟨file, goes, moved, inLive, isName, rfl⟩
          · exact .inl old.1
          · refine .inr ⟨moved, inLive, fun stays => ?_, rfl⟩
            exact ((dir.mem_liveEntries_run roots).mp stays).2 file goes isName
        trashed := by
          intro entry inLive gone
          obtain ⟨file, isFile, goes⟩ := (dir.goes_iff_notMem roots inLive).mp gone
          refine ⟨file, isFile, (shaped file goes).1, goes.unnamed, goes.due, ?_⟩
          exact (dir.mem_trashEntries_run roots).mpr (.inr ⟨file, goes, entry, inLive,
            (Entry.staged_eq_some_iff.mp isFile).2.1, rfl⟩)
        deleted := by
          intro entry inTrash gone
          apply isDeletable_iff.mp
          by_contra young
          refine gone ((dir.mem_trashEntries_run roots).mpr (.inl ⟨inTrash, ?_, ?_⟩))
          · exact fun deletable => young deletable.1
          · exact fun file goes => (shaped file goes).2 entry inTrash
        degraded := by
          intro degraded
          have unchecked := ((dir.degraded_iff roots).mp degraded).2
          rw [dir.run_eq_purge roots answers nowMs unchecked]
          rfl }

theorem IsStagerName.getLast? {name : List Char} (named : IsStagerName name) :
    name.getLast? = some 'g' := by
  have ends : ∀ front : List Char, (front ++ ".png".toList).getLast? = some 'g' := by simp
  obtain ⟨millis, rest, rfl, _, _, rfl | ⟨id, _, _, rfl⟩⟩ := named
  · rw [← List.append_assoc]
    exact ends _
  · rw [← List.cons_append, ← List.append_assoc, ← List.append_assoc]
    exact ends _

/-- Notes of the user, under a name that begins like a staged one. -/
def notes : Entry := ⟨.text "clipboard-1700000000000-my_notes.txt".toList, 1, false, some 12⟩

def notesDir : ClipboardDir where
  live := some [notes]
  trash := none
  names_nodup := List.nodup_singleton _
  inodes_nodup := List.nodup_singleton _

theorem not_touchesOnlyStaged_notes : ¬ ∀ (answers : Answers)
    (roots : Option (List (Option Listing))) (nowMs : Nat) (dir : ClipboardDir),
      TouchesOnlyStaged roots nowMs dir (runClipboardSweep answers roots nowMs dir).1
        (runClipboardSweep answers roots nowMs dir).2 := by
  intro claimed
  have touches := claimed ⟨fun _ => true, true, fun _ => true⟩ (some []) 1800000000000 notesDir
  have inLive : notes ∈ notesDir.liveEntries := List.mem_singleton.mpr rfl
  have isFile : notes.staged = some ⟨"clipboard-1700000000000-my_notes.txt".toList, 1700000000000,
      12⟩ := by decide
  have goes : Goes ⟨fun _ => true, true, fun _ => true⟩ (some []) 1800000000000 notesDir
      ⟨"clipboard-1700000000000-my_notes.txt".toList, 1700000000000, 12⟩ :=
    { isStaged := ClipboardDir.mem_staged_iff.mpr ⟨notes, inLive, isFile⟩
      due := .inl (by decide)
      complete := by
        rw [ClipboardDir.checked, Option.bind_some, referencedCandidates]
        split
        · exact Option.some_ne_none _
        · rw [show ([] : List (Option Listing)).reduceOption.reverse = [] from rfl, search]
          exact Option.some_ne_none _
      unnamed := by
        rintro ⟨_, member, _⟩
        cases member
      creates := rfl
      renames := rfl }
  obtain ⟨file, isOther, named, _⟩ := touches.trashed notes inLive
    ((notesDir.goes_iff_notMem _ inLive).mpr ⟨_, isFile, goes⟩)
  rw [isFile] at isOther
  cases isOther
  exact absurd named.getLast? (by decide)

end Yggterm.Clipboard
