import Mathlib.Algebra.Order.BigOperators.Group.List
import Mathlib.Algebra.Order.Ring.Nat
import Yggterm.Clipboard.Trashing

/-!
# How far the size backstop gets

The files it picks are the oldest ones that together bring the directory under the cap, whether
a transcript names them or not.
-/

namespace Yggterm.Clipboard

open scoped Classical in
/-- What the files take that no transcript names. -/
noncomputable def unreferencedBytes (roots : Option (List (Option Listing)))
    (files : List Staged) : Nat :=
  stagedBytes (files.filter fun file => ¬ Named (roots.getD []) file.name)

/-- The live directory is under the cap unless all that is left is named, and no younger file went
before an older one. -/
structure ReachesCap (roots : Option (List (Option Listing))) (nowMs : Nat)
    (before after : ClipboardDir) : Prop where
  capped : after.liveBytes ≤ clipboardLiveDirMaxBytes ∨
    ∀ file ∈ after.staged, Named (roots.getD []) file.name
  oldestFirst : ∀ file ∈ before.staged, file ∉ after.staged → isExpired nowMs file = false →
    ¬ Named (roots.getD []) file.name → ∀ older ∈ after.staged,
      ¬ Named (roots.getD []) older.name → file.epoch ≤ older.epoch

/-- Where the backstop would stop, the files that are named fit as well. -/
def NamedFit (roots : Option (List (Option Listing))) (nowMs : Nat) (dir : ClipboardDir) : Prop :=
  ∀ front file back, dir.staged = front ++ file :: back → isExpired nowMs file = false →
    ¬ Named (roots.getD []) file.name →
    dir.liveBytes - stagedBytes front ≤ clipboardLiveDirMaxBytes →
    dir.liveBytes - unreferencedBytes roots front ≤ clipboardLiveDirMaxBytes

section Bytes

variable {answers : Answers} {roots : Option (List (Option Listing))} {nowMs : Nat}
  {dir : ClipboardDir}

theorem mem_staged_run {file : Staged} :
    file ∈ (runClipboardSweep answers roots nowMs dir).2.staged ↔
      file ∈ dir.staged ∧ ¬ Goes answers roots nowMs dir file := by
  rw [ClipboardDir.mem_staged_iff, ClipboardDir.mem_staged_iff]
  constructor
  · rintro ⟨entry, stays, isFile⟩
    obtain ⟨inLive, foreign⟩ := (dir.mem_liveEntries_run roots).mp stays
    exact ⟨⟨entry, inLive, isFile⟩,
      fun goes => foreign file goes (Entry.staged_eq_some_iff.mp isFile).2.1⟩
  · rintro ⟨⟨entry, inLive, isFile⟩, stays⟩
    refine ⟨entry, ?_, isFile⟩
    by_contra gone
    obtain ⟨other, isOther, goes⟩ := (dir.goes_iff_notMem roots inLive).mp gone
    rw [isFile] at isOther
    cases isOther
    exact stays goes

/-- A file is counted with the directory or with those that go. -/
theorem bytes_add_stagedBytes (goes : Staged → Bool) (entries : List Entry) :
    (((entries.filter fun entry => !entry.staged.any goes).filter
        fun entry => !entry.isDir).map Entry.bytes).sum +
      stagedBytes ((entries.filterMap Entry.staged).filter goes) =
        ((entries.filter fun entry => !entry.isDir).map Entry.bytes).sum := by
  induction entries with
  | nil => rfl
  | cons entry rest inductionHypothesis =>
      rw [stagedBytes] at inductionHypothesis ⊢
      cases isStaged : entry.staged with
      | none =>
          rw [List.filterMap_cons_none isStaged]
          cases isDir : entry.isDir with
          | true => simpa [isStaged, isDir] using inductionHypothesis
          | false =>
              simp only [List.filter_cons, isStaged, isDir, Option.any_none, Bool.not_false,
                if_true, List.map_cons, List.sum_cons]
              omega
      | some file =>
          obtain ⟨isFile, _, _, isSize⟩ := Entry.staged_eq_some_iff.mp isStaged
          rw [List.filterMap_cons_some isStaged]
          cases leaves : goes file with
          | true =>
              simp only [List.filter_cons, isStaged, isFile, leaves, Option.any_some, Bool.not_true,
                Bool.false_eq_true, Bool.not_false, if_true, if_false, List.map_cons, List.sum_cons,
                isSize]
              omega
          | false =>
              simp only [List.filter_cons, isStaged, isFile, leaves, Option.any_some,
                Bool.not_false, Bool.false_eq_true, if_true, if_false, List.map_cons,
                List.sum_cons]
              omega

theorem stagedBytes_perm {files others : List Staged} (isPerm : files.Perm others) :
    stagedBytes files = stagedBytes others :=
  (isPerm.map _).sum_eq

theorem stagedBytes_sublist {files others : List Staged} (isPart : files.Sublist others) :
    stagedBytes files ≤ stagedBytes others :=
  (isPart.map _).sum_le_sum fun _ _ => Nat.zero_le _

open scoped Classical in
/-- What stays and what goes are all there was. -/
theorem liveBytes_run (answers : Answers) (roots : Option (List (Option Listing))) (nowMs : Nat)
    (dir : ClipboardDir) : (runClipboardSweep answers roots nowMs dir).2.liveBytes +
      stagedBytes (dir.staged.filter fun file => Goes answers roots nowMs dir file) =
        dir.liveBytes := by
  have remains : (runClipboardSweep answers roots nowMs dir).2.liveEntries.Perm
      (dir.liveEntries.filter fun entry =>
        !entry.staged.any fun file => Goes answers roots nowMs dir file) := by
    refine (List.perm_ext_iff_of_nodup (.of_map _ (ClipboardDir.names_nodup _))
      (.filter _ (.of_map _ dir.names_nodup))).mpr fun entry => ?_
    have stays : entry ∈ dir.liveEntries →
        (entry ∈ (runClipboardSweep answers roots nowMs dir).2.liveEntries ↔
          (!entry.staged.any fun file => Goes answers roots nowMs dir file) = true) := by
      intro inLive
      rw [← not_iff_not, dir.goes_iff_notMem roots inLive, Bool.not_eq_true', Bool.not_eq_false]
      simp [Option.any_eq_true]
    rw [List.mem_filter]
    constructor
    · intro member
      have inLive := ((dir.mem_liveEntries_run roots).mp member).1
      exact ⟨inLive, (stays inLive).mp member⟩
    · rintro ⟨inLive, remains⟩
      exact (stays inLive).mpr remains
  have sorted : dir.staged.Perm (dir.liveEntries.filterMap Entry.staged) :=
    List.mergeSort_perm _ _
  rw [ClipboardDir.liveBytes, (((remains.filter _).map _).sum_eq : _ = _),
    stagedBytes_perm (sorted.filter _), bytes_add_stagedBytes]
  rfl

end Bytes

/-! ## Files that are due -/

section Due

variable {answers : Answers} {roots : Option (List (Option Listing))} {nowMs : Nat}
  {dir : ClipboardDir} {front back : List Staged} {file : Staged}

theorem picked_iff (isStaged : dir.staged = front ++ file :: back) :
    dir.Picked file ↔ clipboardLiveDirMaxBytes < dir.liveBytes - stagedBytes front := by
  constructor
  · rintro ⟨others, rest, isOther, crowded⟩
    have distinct := dir.nodup_staged
    rw [isStaged] at distinct
    obtain ⟨_, restDistinct, apart⟩ := List.nodup_append.mp distinct
    have notBefore : file ∉ front := fun member => apart _ member _ List.mem_cons_self rfl
    have notBehind : file ∉ back := (List.nodup_cons.mp restDistinct).1
    have same := (List.append_cons_inj_of_notMem notBefore notBehind).mp
      (isStaged.symm.trans isOther)
    rw [same.1]
    exact crowded
  · exact fun crowded => ⟨front, back, isStaged, crowded⟩

/-- What is older than a file that is due is due. -/
theorem due_of_older (isStaged : dir.staged = front ++ file :: back) {older : Staged}
    (member : older ∈ front) (due : isExpired nowMs file = true ∨ dir.Picked file) :
    isExpired nowMs older = true ∨ dir.Picked older := by
  have sorted := dir.pairwise_staged
  rw [isStaged] at sorted
  have notYounger := (List.pairwise_append.mp sorted).2.2 older member file List.mem_cons_self
  rcases due with expired | picked
  · left
    rw [isExpired, decide_eq_true_iff] at expired ⊢
    omega
  · right
    obtain ⟨before, between, rfl⟩ := List.append_of_mem member
    have crowded := (picked_iff isStaged).mp picked
    have fewer : stagedBytes before ≤ stagedBytes (before ++ older :: between) :=
      stagedBytes_sublist (List.sublist_append_left _ _)
    refine ⟨before, between ++ file :: back, by rw [isStaged]; simp, ?_⟩
    omega

/-- Where the file system lets everything go, what is due and not named goes. -/
theorem goes_iff (succeeds : answers.createsTrash = true ∧ ∀ name, answers.renames name = true)
    (complete : (runClipboardSweep answers roots nowMs dir).1.degraded = false) :
    Goes answers roots nowMs dir file ↔ file ∈ dir.staged ∧
      (isExpired nowMs file = true ∨ dir.Picked file) ∧ ¬ Named (roots.getD []) file.name := by
  constructor
  · exact fun goes => ⟨goes.isStaged, goes.due, goes.unnamed⟩
  · rintro ⟨isStaged, due, unnamed⟩
    refine ⟨isStaged, due, fun unchecked => ?_, unnamed, succeeds.1, succeeds.2 _⟩
    have isCandidate := ClipboardDir.mem_candidates_iff.mpr ⟨isStaged, due⟩
    rw [(dir.degraded_iff roots).mpr ⟨List.ne_nil_of_mem isCandidate, unchecked⟩] at complete
    cases complete

end Due

/-! ## Where every file can be moved -/

section Complete

variable {answers : Answers} {roots : Option (List (Option Listing))} {nowMs : Nat}
  {dir : ClipboardDir} {front back : List Staged} {file : Staged}
  (succeeds : answers.createsTrash = true ∧ ∀ name, answers.renames name = true)
  (complete : (runClipboardSweep answers roots nowMs dir).1.degraded = false)

include succeeds complete

open scoped Classical in
/-- What goes stands in front of a file that is not due. -/
theorem bytesOfGoing_le (isStaged : dir.staged = front ++ file :: back)
    (notDue : ¬ (isExpired nowMs file = true ∨ dir.Picked file)) :
    stagedBytes (dir.staged.filter fun other => Goes answers roots nowMs dir other) ≤
      unreferencedBytes roots front := by
  have noneBehind : (file :: back).filter (fun other => Goes answers roots nowMs dir other) =
      [] := by
    refine List.filter_eq_nil_iff.mpr fun other member goes => notDue ?_
    have due := ((goes_iff succeeds complete).mp (of_decide_eq_true goes)).2.1
    rcases List.mem_cons.mp member with rfl | behind
    · exact due
    · obtain ⟨between, rest, rfl⟩ := List.append_of_mem behind
      have later : dir.staged = (front ++ file :: between) ++ other :: rest := by
        rw [isStaged]
        simp
      exact due_of_older later (List.mem_append_right _ List.mem_cons_self) due
  rw [isStaged, List.filter_append, noneBehind, List.append_nil]
  refine stagedBytes_sublist (List.monotone_filter_right front fun other goes => ?_)
  exact decide_eq_true ((goes_iff succeeds complete).mp (of_decide_eq_true goes)).2.2

open scoped Classical in
/-- Where all in front of a file that are not named are due, they go. -/
theorem le_bytesOfGoing (isStaged : dir.staged = front ++ file :: back)
    (due : ∀ other ∈ front, ¬ Named (roots.getD []) other.name →
      isExpired nowMs other = true ∨ dir.Picked other) :
    unreferencedBytes roots front ≤
      stagedBytes (dir.staged.filter fun other => Goes answers roots nowMs dir other) := by
  have unnamedGo : front.filter (fun other => ¬ Named (roots.getD []) other.name) =
      front.filter fun other => Goes answers roots nowMs dir other := by
    refine List.filter_congr fun other member => decide_eq_decide.mpr ?_
    have inside : other ∈ dir.staged := isStaged ▸ List.mem_append_left _ member
    rw [goes_iff succeeds complete]
    exact ⟨fun unnamed => ⟨inside, due other member unnamed, unnamed⟩, fun goes => goes.2.2⟩
  rw [unreferencedBytes, unnamedGo, isStaged]
  exact stagedBytes_sublist ((List.sublist_append_left _ _).filter _)

/-- Of the files that no transcript names and that are not due, there is an oldest one. -/
theorem exists_first_notDue {kept : Staged}
    (stays : kept ∈ (runClipboardSweep answers roots nowMs dir).2.staged)
    (unnamed : ¬ Named (roots.getD []) kept.name) :
    ∃ file front back, dir.staged = front ++ file :: back ∧
      ¬ Named (roots.getD []) file.name ∧ ¬ (isExpired nowMs file = true ∨ dir.Picked file) ∧
      ∀ other ∈ front, ¬ Named (roots.getD []) other.name →
        isExpired nowMs other = true ∨ dir.Picked other := by
  classical
  obtain ⟨inStaged, notGoes⟩ := mem_staged_run.mp stays
  have notDue : ¬ (isExpired nowMs kept = true ∨ dir.Picked kept) :=
    fun due => notGoes ((goes_iff succeeds complete).mpr ⟨inStaged, due, unnamed⟩)
  have found : (dir.staged.find? fun file => ¬ Named (roots.getD []) file.name ∧
      ¬ (isExpired nowMs file = true ∨ dir.Picked file)).isSome :=
    List.find?_isSome.mpr ⟨kept, inStaged, decide_eq_true ⟨unnamed, notDue⟩⟩
  obtain ⟨file, isFirst⟩ := Option.isSome_iff_exists.mp found
  obtain ⟨isFile, front, back, isStaged, others⟩ := List.find?_eq_some_iff_append.mp isFirst
  obtain ⟨fileUnnamed, fileNotDue⟩ := of_decide_eq_true isFile
  refine ⟨file, front, back, isStaged, fileUnnamed, fileNotDue, fun other member otherUnnamed => ?_⟩
  by_contra otherNotDue
  have rejected := others other member
  simp [otherUnnamed, otherNotDue] at rejected

/-- No file that is not named stays behind a younger one that went. -/
theorem epoch_le_of_goes (goes : Goes answers roots nowMs dir file) {older : Staged}
    (olderStays : older ∈ (runClipboardSweep answers roots nowMs dir).2.staged)
    (unnamed : ¬ Named (roots.getD []) older.name) : file.epoch ≤ older.epoch := by
  obtain ⟨olderStaged, notGoes⟩ := mem_staged_run.mp olderStays
  obtain ⟨front, back, isStaged⟩ := List.append_of_mem goes.isStaged
  have sorted := dir.pairwise_staged
  rw [isStaged] at sorted olderStaged
  rcases List.mem_append.mp olderStaged with before | notBefore
  · refine absurd ((goes_iff succeeds complete).mpr ⟨?_, ?_, unnamed⟩) notGoes
    · exact isStaged ▸ List.mem_append_left _ before
    · exact due_of_older isStaged before goes.due
  · rcases List.mem_cons.mp notBefore with rfl | behind
    · exact Nat.le_refl _
    · exact (List.pairwise_cons.mp (List.pairwise_append.mp sorted).2.1).1 older behind

end Complete

/-- Where every file can be moved, the backstop reaches its cap just where the files that are named
leave room. -/
theorem reachesCap_iff {answers : Answers} {roots : Option (List (Option Listing))} {nowMs : Nat}
    {dir : ClipboardDir}
    (succeeds : answers.createsTrash = true ∧ ∀ name, answers.renames name = true)
    (complete : (runClipboardSweep answers roots nowMs dir).1.degraded = false) :
    ReachesCap roots nowMs dir (runClipboardSweep answers roots nowMs dir).2 ↔
      NamedFit roots nowMs dir := by
  have parts := liveBytes_run answers roots nowMs dir
  constructor
  · intro reaches front file back isStaged young unnamed stops
    have notDue : ¬ (isExpired nowMs file = true ∨ dir.Picked file) := by
      rw [picked_iff isStaged, young]
      simpa using stops
    have inStaged : file ∈ dir.staged := by
      rw [isStaged]
      exact List.mem_append_right _ List.mem_cons_self
    have stays := mem_staged_run.mpr
      ⟨inStaged, fun goes => notDue ((goes_iff succeeds complete).mp goes).2.1⟩
    have capped := reaches.capped.resolve_right fun all => unnamed (all file stays)
    have fewer := bytesOfGoing_le succeeds complete isStaged notDue
    omega
  · intro fit
    constructor
    · by_contra neither
      obtain ⟨crowded, someUnnamed⟩ := not_or.mp neither
      push Not at someUnnamed
      obtain ⟨kept, stays, keptUnnamed⟩ := someUnnamed
      obtain ⟨file, front, back, isStaged, unnamed, notDue, due⟩ :=
        exists_first_notDue succeeds complete stays keptUnnamed
      obtain ⟨young, notPicked⟩ := not_or.mp notDue
      have fits := fit front file back isStaged (Bool.eq_false_of_not_eq_true young) unnamed
        (Nat.le_of_not_lt (mt (picked_iff isStaged).mpr notPicked))
      have more := le_bytesOfGoing succeeds complete isStaged due
      omega
    · intro file inStaged gone _ _ older olderStays olderUnnamed
      have goes : Goes answers roots nowMs dir file := by
        by_contra stays
        exact gone (mem_staged_run.mpr ⟨inStaged, stays⟩)
      exact epoch_le_of_goes succeeds complete goes olderStays olderUnnamed

/-! ## Two images, of which a transcript names the older one -/

def olderImage : Staged :=
  ⟨"clipboard-1700000000000.png".toList, 1700000000000, 1024 * 1024 * 1024⟩

def newerImage : Staged :=
  ⟨"clipboard-1700000000001.png".toList, 1700000000001, 1024 * 1024 * 1024⟩

def crowdedDir : ClipboardDir where
  live := some [⟨.text olderImage.name, 1, false, some olderImage.size⟩,
    ⟨.text newerImage.name, 2, false, some newerImage.size⟩]
  trash := none
  names_nodup := by decide
  inodes_nodup := by decide

/-- A transcript that names the older image. -/
def transcript : StoreEntry := .file (.text "s.jsonl".toList) [olderImage.name] false

def allowing : Answers := ⟨fun _ => true, true, fun _ => true⟩

theorem staged_crowdedDir : crowdedDir.staged = [olderImage, newerImage] := by
  have files : crowdedDir.liveEntries.filterMap Entry.staged = [olderImage, newerImage] := by
    decide
  rw [ClipboardDir.staged, files]
  exact List.mergeSort_of_pairwise (by decide)

theorem named_transcript_iff {name : List Char} :
    Named [some (some [transcript])] name ↔ name <:+: olderImage.name := by
  constructor
  · rintro ⟨listing, member, line, holds, isInfix⟩
    cases List.mem_singleton.mp member
    cases holds with
    | directory inListing entryHolds =>
        cases List.mem_singleton.mp inListing
        cases entryHolds with
        | file _ inLines =>
            rw [List.mem_singleton.mp inLines] at isInfix
            exact isInfix
  · intro isInfix
    exact ⟨_, List.mem_singleton_self _, _, .directory (List.mem_singleton_self _)
      (.file (by decide) (List.mem_singleton_self _)), isInfix⟩

theorem readEntry_transcript_ne_io (candidates : Finset (List Char)) :
    readEntry candidates ∅ transcript ≠ .error .io := by
  rw [transcript, readEntry, if_pos (by decide), List.foldlM_cons, readLine]
  intro fails
  split at fails
  · dsimp only at fails
    split at fails
    · cases fails
    · cases fails
  · cases fails

theorem degraded_crowdedDir : (runClipboardSweep allowing (some [some (some [transcript])])
    1700000000002 crowdedDir).1.degraded = false := by
  apply Bool.eq_false_of_not_eq_true
  intro degraded
  have unchecked := ((crowdedDir.degraded_iff _).mp degraded).2
  rw [ClipboardDir.checked, Option.bind_some, referencedCandidates] at unchecked
  split at unchecked
  · cases unchecked
  · have one : [some (some [transcript])].reduceOption.reverse = [some [transcript]] := rfl
    rw [one, search, List.foldlM_cons] at unchecked
    generalize (List.map Staged.name (crowdedDir.candidates 1700000000002)).toFinset =
      candidates at unchecked
    have reads := readEntry_transcript_ne_io candidates
    cases isRead : readEntry candidates ∅ transcript with
    | error stop =>
        cases stop with
        | io => exact reads isRead
        | allReferenced referenced =>
            rw [isRead] at unchecked
            cases unchecked
    | ok referenced =>
        rw [isRead] at unchecked
        have finished : search candidates (subdirectories [transcript]).reverse referenced =
            .ok referenced := by
          rw [show (subdirectories [transcript]).reverse = [] from rfl, search]
        simp [bind, Except.bind, pure, Except.pure, finished] at unchecked

theorem reachesCap_crowdedDir : ReachesCap (some [some (some [transcript])]) 1700000000002
    crowdedDir
      (runClipboardSweep allowing (some [some (some [transcript])]) 1700000000002 crowdedDir).2 ↔
      NamedFit (some [some (some [transcript])]) 1700000000002 crowdedDir :=
  reachesCap_iff ⟨rfl, fun _ => rfl⟩ degraded_crowdedDir

/-- The image that is kept was counted as gone, and the other one is not picked. -/
theorem not_reachesCap_crowded : ¬ ∀ (answers : Answers)
    (roots : Option (List (Option Listing))) (nowMs : Nat) (dir : ClipboardDir),
      (answers.createsTrash = true ∧ ∀ name, answers.renames name = true) →
        (runClipboardSweep answers roots nowMs dir).1.degraded = false →
          ReachesCap roots nowMs dir (runClipboardSweep answers roots nowMs dir).2 := by
  intro claimed
  have reaches := claimed allowing (some [some (some [transcript])]) 1700000000002
    crowdedDir ⟨rfl, fun _ => rfl⟩ degraded_crowdedDir
  have noneGoes : ∀ file ∈ crowdedDir.staged,
      ¬ Goes allowing (some [some (some [transcript])]) 1700000000002 crowdedDir file := by
    intro file member goes
    rw [staged_crowdedDir] at member
    rcases List.mem_cons.mp member with rfl | member
    · exact goes.unnamed (named_transcript_iff.mpr (List.infix_refl _))
    · cases List.mem_singleton.mp member
      rcases goes.due with expired | picked
      · exact absurd expired (by decide)
      · have isStaged : crowdedDir.staged = [olderImage] ++ newerImage :: [] := staged_crowdedDir
        have crowded := (picked_iff isStaged).mp picked
        exact absurd crowded (by decide)
  rcases reaches.capped with capped | allNamed
  · have parts := liveBytes_run allowing (some [some (some [transcript])]) 1700000000002 crowdedDir
    rw [List.filter_eq_nil_iff.mpr fun file member => by simpa using noneGoes file member] at parts
    have before : crowdedDir.liveBytes = 2 * clipboardLiveDirMaxBytes := by decide
    have empty : stagedBytes [] = 0 := rfl
    have positive : 0 < clipboardLiveDirMaxBytes := by decide
    omega
  · have inStaged : newerImage ∈ crowdedDir.staged := by
      rw [staged_crowdedDir]
      exact List.mem_cons_of_mem _ (List.mem_singleton_self _)
    have isNamed := allNamed _ (mem_staged_run.mpr ⟨inStaged, noneGoes _ inStaged⟩)
    exact absurd (named_transcript_iff.mp isNamed) (by decide)

end Yggterm.Clipboard
