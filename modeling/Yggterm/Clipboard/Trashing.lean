import Yggterm.Clipboard.Sweep

/-!
# What a sweep moves into the trash

The candidates are the staged files that are too old and those that the backstop picks; those
that no transcript names go, as far as the file system lets them.
-/

namespace Yggterm.Clipboard

open Text

/-! ## Staged files -/

def stagedBytes (files : List Staged) : Nat := (files.map Staged.size).sum

theorem Entry.staged_eq_some_iff {entry : Entry} {file : Staged} :
    entry.staged = some file ↔ entry.isDir = false ∧ entry.name = .text file.name ∧
      stagedEpochMs file.name = some file.epoch ∧ entry.bytes = file.size := by
  obtain ⟨name, inode, isDir, size⟩ := entry
  obtain ⟨fileName, epoch, fileSize⟩ := file
  cases isDir with
  | true => simp [Entry.staged]
  | false =>
      cases name with
      | raw bytes => simp [Entry.staged, FileName.toStr]
      | text name =>
          simp only [Entry.staged, FileName.toStr, Option.bind_some, Option.map_eq_some_iff,
            Staged.mk.injEq, FileName.text.injEq, Bool.false_eq_true, if_false, true_and]
          constructor
          · rintro ⟨_, isEpoch, rfl, rfl, isSize⟩
            exact ⟨rfl, isEpoch, isSize⟩
          · rintro ⟨rfl, isEpoch, isSize⟩
            exact ⟨epoch, isEpoch, rfl, rfl, isSize⟩

namespace ClipboardDir

variable {dir : ClipboardDir}

theorem mem_staged_iff {file : Staged} :
    file ∈ dir.staged ↔ ∃ entry ∈ dir.liveEntries, entry.staged = some file := by
  rw [staged, List.mem_mergeSort, List.mem_filterMap]

theorem entry_eq_of_name {entry other : Entry} (inLive : entry ∈ dir.liveEntries)
    (otherInLive : other ∈ dir.liveEntries) (same : entry.name = other.name) : entry = other :=
  List.inj_on_of_nodup_map dir.names_nodup inLive otherInLive same

theorem staged_eq_of_name {file other : Staged} (isStaged : file ∈ dir.staged)
    (otherStaged : other ∈ dir.staged) (same : file.name = other.name) : file = other := by
  obtain ⟨entry, inLive, isFile⟩ := mem_staged_iff.mp isStaged
  obtain ⟨otherEntry, otherInLive, isOther⟩ := mem_staged_iff.mp otherStaged
  have equal : entry = otherEntry := by
    apply entry_eq_of_name inLive otherInLive
    rw [(Entry.staged_eq_some_iff.mp isFile).2.1, (Entry.staged_eq_some_iff.mp isOther).2.1, same]
  rw [equal, isOther] at isFile
  exact (Option.some.inj isFile).symm

theorem nodup_staged_names (dir : ClipboardDir) : (dir.staged.map Staged.name).Nodup := by
  have sorted : (dir.staged.map Staged.name).Perm
      ((dir.liveEntries.filterMap Entry.staged).map Staged.name) :=
    (List.mergeSort_perm _ _).map _
  rw [sorted.nodup_iff]
  have names : ∀ entries : List Entry, (entries.map Entry.name).Nodup →
      ((entries.filterMap Entry.staged).map Staged.name).Nodup := by
    intro entries
    induction entries with
    | nil => exact fun _ => List.nodup_nil
    | cons entry rest inductionHypothesis =>
        intro distinct
        rw [List.map_cons, List.nodup_cons] at distinct
        cases isStaged : entry.staged with
        | none =>
            rw [List.filterMap_cons_none isStaged]
            exact inductionHypothesis distinct.2
        | some file =>
            rw [List.filterMap_cons_some isStaged, List.map_cons, List.nodup_cons]
            refine ⟨fun member => distinct.1 ?_, inductionHypothesis distinct.2⟩
            obtain ⟨other, isOther, same⟩ := List.mem_map.mp member
            obtain ⟨otherEntry, inRest, otherStaged⟩ := List.mem_filterMap.mp isOther
            rw [(Entry.staged_eq_some_iff.mp isStaged).2.1, ← same,
              ← (Entry.staged_eq_some_iff.mp otherStaged).2.1]
            exact List.mem_map_of_mem inRest
  exact names _ dir.names_nodup

theorem nodup_staged (dir : ClipboardDir) : dir.staged.Nodup := .of_map _ dir.nodup_staged_names

theorem pairwise_staged (dir : ClipboardDir) :
    dir.staged.Pairwise fun first second => first.epoch ≤ second.epoch := by
  have transitive : ∀ first second third : Staged,
      decide (first.epoch ≤ second.epoch) = true → decide (second.epoch ≤ third.epoch) = true →
        decide (first.epoch ≤ third.epoch) = true := by
    intro first second third below above
    exact decide_eq_true ((of_decide_eq_true below).trans (of_decide_eq_true above))
  have total : ∀ first second : Staged, (decide (first.epoch ≤ second.epoch) ||
      decide (second.epoch ≤ first.epoch)) = true := by
    intro first second
    rcases Nat.le_total first.epoch second.epoch with older | newer
    · simp [older]
    · simp [newer]
  have sorted := List.pairwise_mergeSort transitive total (dir.liveEntries.filterMap Entry.staged)
  exact sorted.imp of_decide_eq_true

end ClipboardDir

/-! ## Candidates -/

/-- The size backstop picks a file while what is left without the files in front of it is over
the cap. -/
def ClipboardDir.Picked (dir : ClipboardDir) (file : Staged) : Prop :=
  ∃ front back, dir.staged = front ++ file :: back ∧
    clipboardLiveDirMaxBytes < dir.liveBytes - stagedBytes front

theorem mem_pick {candidates : List Staged} {first file : Staged}
    (distinct : ∀ known ∈ candidates, known.name = first.name → known = first) :
    (file ∈ if candidates.any (fun known => known.name = first.name) then candidates
      else candidates ++ [first]) ↔ file ∈ candidates ∨ file = first := by
  split
  · next known =>
      obtain ⟨same, member, isName⟩ := List.any_eq_true.mp known
      rw [distinct same member (of_decide_eq_true isName)] at member
      constructor
      · exact .inl
      · rintro (old | rfl)
        · exact old
        · exact member
  · rw [List.mem_append, List.mem_singleton]

/-- The backstop picks the first file while the directory is over the cap, and goes on with what is
left without it. -/
theorem exists_split_cons_iff {projected : Nat} {first file : Staged} {rest : List Staged} :
    (∃ front back, first :: rest = front ++ file :: back ∧
        clipboardLiveDirMaxBytes < projected - stagedBytes front) ↔
      (file = first ∧ clipboardLiveDirMaxBytes < projected) ∨
        ∃ front back, rest = front ++ file :: back ∧
          clipboardLiveDirMaxBytes < projected - first.size - stagedBytes front := by
  constructor
  · rintro ⟨front, back, split, crowded⟩
    rcases List.cons_eq_append_iff.mp split with ⟨rfl, isFile⟩ | ⟨behind, rfl, isRest⟩
    · rw [List.cons.injEq] at isFile
      exact .inl ⟨isFile.1, crowded⟩
    · rw [stagedBytes, List.map_cons, List.sum_cons, ← Nat.sub_sub] at crowded
      exact .inr ⟨behind, back, isRest, crowded⟩
  · rintro (⟨rfl, crowded⟩ | ⟨front, back, rfl, crowded⟩)
    · exact ⟨[], rest, rfl, crowded⟩
    · refine ⟨first :: front, back, rfl, ?_⟩
      rw [stagedBytes, List.map_cons, List.sum_cons, ← Nat.sub_sub]
      exact crowded

theorem mem_backstop_iff {projected : Nat} {candidates files : List Staged} {file : Staged}
    (distinct : ∀ first ∈ candidates ++ files, ∀ second ∈ candidates ++ files,
      first.name = second.name → first = second) :
    file ∈ backstop projected candidates files ↔ file ∈ candidates ∨
      ∃ front back, files = front ++ file :: back ∧
        clipboardLiveDirMaxBytes < projected - stagedBytes front := by
  induction files generalizing projected candidates with
  | nil => simp [backstop]
  | cons first rest inductionHypothesis =>
      rw [backstop]
      split
      · next fits =>
          refine ⟨.inl, ?_⟩
          rintro (old | ⟨front, _, _, crowded⟩)
          · exact old
          · omega
      · next crowded =>
          have isPick : ∀ other, _ ↔ other ∈ candidates ∨ other = first := fun other =>
            mem_pick fun known member => distinct known (List.mem_append_left _ member) first
              (List.mem_append_right _ List.mem_cons_self)
          rw [inductionHypothesis, isPick file, exists_split_cons_iff,
            and_iff_left (Nat.lt_of_not_le crowded), or_assoc]
          intro one isOne two isTwo
          rw [List.mem_append, isPick, or_assoc, ← List.mem_cons, ← List.mem_append] at isOne isTwo
          exact distinct one isOne two isTwo

theorem nodup_backstop (projected : Nat) {candidates files : List Staged}
    (distinct : (candidates.map Staged.name).Nodup) :
    ((backstop projected candidates files).map Staged.name).Nodup := by
  induction files generalizing projected candidates with
  | nil => exact distinct
  | cons first rest inductionHypothesis =>
      rw [backstop]
      split
      · exact distinct
      · apply inductionHypothesis
        split
        · exact distinct
        · next unknown =>
            rw [List.map_append, List.map_singleton]
            refine List.nodup_append.mpr ⟨distinct, List.nodup_singleton _, ?_⟩
            rintro name member _ isName rfl
            rw [List.mem_singleton] at isName
            obtain ⟨known, isKnown, same⟩ := List.mem_map.mp member
            exact unknown (List.any_eq_true.mpr ⟨known, isKnown, by simp [same, isName]⟩)

theorem ClipboardDir.mem_candidates_iff {dir : ClipboardDir} {nowMs : Nat} {file : Staged} :
    file ∈ dir.candidates nowMs ↔
      file ∈ dir.staged ∧ (isExpired nowMs file = true ∨ dir.Picked file) := by
  have inStaged : dir.Picked file → file ∈ dir.staged := by
    rintro ⟨front, back, isStaged, _⟩
    rw [isStaged]
    exact List.mem_append_right _ List.mem_cons_self
  have distinct : ∀ first ∈ dir.staged.filter (isExpired nowMs) ++ dir.staged,
      ∀ second ∈ dir.staged.filter (isExpired nowMs) ++ dir.staged,
        first.name = second.name → first = second := by
    have inside : ∀ other ∈ dir.staged.filter (isExpired nowMs) ++ dir.staged,
        other ∈ dir.staged := by
      intro other member
      exact (List.mem_append.mp member).elim (fun old => (List.mem_filter.mp old).1) id
    exact fun first isFirst second isSecond same =>
      dir.staged_eq_of_name (inside first isFirst) (inside second isSecond) same
  rw [candidates]
  split
  · rw [mem_backstop_iff distinct, List.mem_filter]
    constructor
    · rintro (⟨isStaged, expired⟩ | picked)
      · exact ⟨isStaged, .inl expired⟩
      · exact ⟨inStaged picked, .inr picked⟩
    · rintro ⟨isStaged, expired | picked⟩
      · exact .inl ⟨isStaged, expired⟩
      · exact .inr picked
  · next fits =>
      rw [List.mem_filter]
      constructor
      · exact fun ⟨isStaged, expired⟩ => ⟨isStaged, .inl expired⟩
      · rintro ⟨isStaged, expired | ⟨front, back, _, crowded⟩⟩
        · exact ⟨isStaged, expired⟩
        · omega

/-! ## The hop -/

/-- No transcript is known to name the file, and the file system lets it go. -/
def Moves (answers : Answers) (referenced : Finset (List Char)) (file : Staged) : Prop :=
  file.name ∉ referenced ∧ answers.createsTrash = true ∧ answers.renames file.name = true

namespace ClipboardDir

theorem mem_liveEntries_moveToTrash {dir : ClipboardDir} {nowMs : Nat} {name : List Char}
    {entry : Entry} : entry ∈ (dir.moveToTrash nowMs name).liveEntries ↔
      entry ∈ dir.liveEntries ∧ entry.name ≠ .text name := by
  rw [moveToTrash]
  split
  · next absent =>
      have foreign := List.find?_eq_none.mp absent
      constructor
      · exact fun member => ⟨member, by simpa using foreign entry member⟩
      · exact And.left
  · change entry ∈ (dir.live.map _).getD [] ↔ entry ∈ dir.live.getD [] ∧ _
    cases dir.live with
    | none => simp
    | some entries => simp

theorem mem_trashEntries_moveToTrash {dir : ClipboardDir} {nowMs : Nat} {name : List Char}
    {moved : Entry} (inLive : moved ∈ dir.liveEntries) (isName : moved.name = .text name)
    {entry : Entry} : entry ∈ (dir.moveToTrash nowMs name).trashEntries ↔
      (entry ∈ dir.trashEntries ∧ entry.name ≠ .text (trashName nowMs name)) ∨
        entry = { moved with name := .text (trashName nowMs name) } := by
  rw [moveToTrash]
  split
  · next absent => exact absurd (List.find?_eq_none.mp absent moved inLive) (by simp [isName])
  · next other found =>
      have otherName : other.name = .text name := by simpa using List.find?_some found
      have same := entry_eq_of_name (List.mem_of_find?_eq_some found) inLive
        (otherName.trans isName.symm)
      subst same
      change entry ∈ (dir.trashEntries.filter _) ++ [_] ↔ _
      simp

end ClipboardDir

theorem trashName_injective {nowMs : Nat} {name other : List Char}
    (same : trashName nowMs name = trashName nowMs other) : name = other :=
  List.append_cancel_right same

variable {answers : Answers} {referenced : Finset (List Char)} {nowMs : Nat}

/-- A file stays where it is, or moves, or nothing moves any more. -/
theorem hop_cons_cases (answers : Answers) (referenced : Finset (List Char)) (nowMs : Nat)
    (file : Staged) (rest : List Staged) (state : ClipboardSweepOutcome × ClipboardDir) :
    (¬ Moves answers referenced file ∧ ∃ next : ClipboardSweepOutcome × ClipboardDir,
        next.1.degraded = state.1.degraded ∧ next.2.liveEntries = state.2.liveEntries ∧
          next.2.trashEntries = state.2.trashEntries ∧
          hop answers referenced nowMs (file :: rest) state =
            hop answers referenced nowMs rest next) ∨
      (Moves answers referenced file ∧ ∃ outcome : ClipboardSweepOutcome,
        outcome.degraded = state.1.degraded ∧ hop answers referenced nowMs (file :: rest) state =
          hop answers referenced nowMs rest (outcome, state.2.moveToTrash nowMs file.name)) ∨
      ((∀ other, ¬ Moves answers referenced other) ∧
        hop answers referenced nowMs (file :: rest) state = state) := by
  obtain ⟨outcome, dir⟩ := state
  rw [hop]
  split
  · next isNamed =>
      exact .inl ⟨fun moves => moves.1 isNamed,
        ({ outcome with keptReferenced := outcome.keptReferenced + 1 }, dir), rfl, rfl, rfl, rfl⟩
  · next notNamed =>
      split
      · next creates =>
          split
          · next renames =>
              exact .inr (.inl ⟨⟨notNamed, creates, renames⟩,
                { outcome with
                  trashed := outcome.trashed + 1
                  liveBytesAfter := outcome.liveBytesAfter - file.size }, rfl, rfl⟩)
          · next refuses =>
              exact .inl ⟨fun moves => refuses moves.2.2, (outcome, dir.createTrash), rfl, rfl, rfl,
                rfl⟩
      · next refuses => exact .inr (.inr ⟨fun other moves => refuses moves.2.1, rfl⟩)

theorem degraded_hop (files : List Staged) (state : ClipboardSweepOutcome × ClipboardDir) :
    (hop answers referenced nowMs files state).1.degraded = state.1.degraded := by
  induction files generalizing state with
  | nil => rfl
  | cons file rest inductionHypothesis =>
      rcases hop_cons_cases answers referenced nowMs file rest state with
        ⟨_, next, same, _, _, runs⟩ | ⟨_, outcome, same, runs⟩ | ⟨_, runs⟩
      · rw [runs, inductionHypothesis, same]
      · rw [runs, inductionHypothesis, same]
      · rw [runs]

theorem mem_liveEntries_hop {files : List Staged} {state : ClipboardSweepOutcome × ClipboardDir}
    {entry : Entry} : entry ∈ (hop answers referenced nowMs files state).2.liveEntries ↔
      entry ∈ state.2.liveEntries ∧
        ∀ file ∈ files, Moves answers referenced file → entry.name ≠ .text file.name := by
  induction files generalizing state with
  | nil => simp [hop]
  | cons file rest inductionHypothesis =>
      rw [List.forall_mem_cons]
      rcases hop_cons_cases answers referenced nowMs file rest state with
        ⟨stays, next, _, sameLive, _, runs⟩ | ⟨moves, outcome, _, runs⟩ | ⟨noneMoves, runs⟩
      · rw [runs, inductionHypothesis, sameLive]
        simp [stays]
      · rw [runs, inductionHypothesis, ClipboardDir.mem_liveEntries_moveToTrash]
        simp [moves, and_assoc]
      · rw [runs]
        simp [noneMoves]

theorem mem_trashEntries_hop {files : List Staged} {state : ClipboardSweepOutcome × ClipboardDir}
    (distinct : (files.map Staged.name).Nodup)
    (live : ∀ file ∈ files, ∃ moved ∈ state.2.liveEntries, moved.name = .text file.name)
    {entry : Entry} : entry ∈ (hop answers referenced nowMs files state).2.trashEntries ↔
      (entry ∈ state.2.trashEntries ∧ ∀ file ∈ files, Moves answers referenced file →
          entry.name ≠ .text (trashName nowMs file.name)) ∨
        ∃ file ∈ files, Moves answers referenced file ∧ ∃ moved ∈ state.2.liveEntries,
          moved.name = .text file.name ∧
            entry = { moved with name := .text (trashName nowMs file.name) } := by
  induction files generalizing state with
  | nil => simp [hop]
  | cons file rest inductionHypothesis =>
      rw [List.map_cons, List.nodup_cons] at distinct
      obtain ⟨⟨moved, inLive, isName⟩, restLive⟩ := List.forall_mem_cons.mp live
      rw [List.forall_mem_cons, List.exists_mem_cons_iff]
      rcases hop_cons_cases answers referenced nowMs file rest state with
        ⟨stays, next, _, sameLive, sameTrash, runs⟩ | ⟨moves, outcome, _, runs⟩ |
          ⟨noneMoves, runs⟩
      · rw [runs, inductionHypothesis distinct.2 (by rw [sameLive]; exact restLive), sameLive,
          sameTrash]
        simp [stays]
      · have others : ∀ other ∈ rest, file.name ≠ other.name := by
          intro other member same
          exact distinct.1 (same ▸ List.mem_map_of_mem member)
        -- The files behind it are still there.
        have stillLive : ∀ other ∈ rest, ∀ still : Entry, still.name = .text other.name →
            (still ∈ (state.2.moveToTrash nowMs file.name).liveEntries ↔
              still ∈ state.2.liveEntries) := by
          intro other member still same
          rw [ClipboardDir.mem_liveEntries_moveToTrash, and_iff_left]
          rw [same]
          exact fun clash => others other member (FileName.text.inj clash).symm
        have restStays : ∀ other ∈ rest, ∃ still ∈
            (state.2.moveToTrash nowMs file.name).liveEntries, still.name = .text other.name := by
          intro other member
          obtain ⟨still, isLive, same⟩ := restLive other member
          exact ⟨still, (stillLive other member still same).mpr isLive, same⟩
        rw [runs, inductionHypothesis distinct.2 restStays,
          ClipboardDir.mem_trashEntries_moveToTrash inLive isName]
        constructor
        · rintro (⟨⟨inTrash, foreign⟩ | rfl, restForeign⟩ |
            ⟨other, member, othersMove, still, isLive, same, rfl⟩)
          · exact .inl ⟨inTrash, fun _ => foreign, restForeign⟩
          · exact .inr (.inl ⟨moves, moved, inLive, isName, rfl⟩)
          · exact .inr (.inr ⟨other, member, othersMove, still,
              (stillLive other member still same).mp isLive, same, rfl⟩)
        · rintro (⟨inTrash, foreign, restForeign⟩ | ⟨_, still, isLive, same, rfl⟩ |
            ⟨other, member, othersMove, still, isLive, same, rfl⟩)
          · exact .inl ⟨.inl ⟨inTrash, foreign moves⟩, restForeign⟩
          · have equal := ClipboardDir.entry_eq_of_name isLive inLive (same.trans isName.symm)
            subst equal
            refine .inl ⟨.inr rfl, fun other member _ clash => ?_⟩
            exact others other member (trashName_injective (FileName.text.inj clash))
          · exact .inr ⟨other, member, othersMove, still,
              (stillLive other member still same).mpr isLive, same, rfl⟩
      · rw [runs]
        simp [noneMoves]

/-! ## The run -/

/-- What the transcripts are found to name of the candidates; nothing where that is not known. -/
def ClipboardDir.checked (dir : ClipboardDir) (roots : Option (List (Option Listing)))
    (nowMs : Nat) : Option (Finset (List Char)) :=
  roots.bind (referencedCandidates ((dir.candidates nowMs).map Staged.name).toFinset)

/-- A file that a run moves into the trash. -/
structure Goes (answers : Answers) (roots : Option (List (Option Listing))) (nowMs : Nat)
    (dir : ClipboardDir) (file : Staged) : Prop where
  isStaged : file ∈ dir.staged
  due : isExpired nowMs file = true ∨ dir.Picked file
  complete : dir.checked roots nowMs ≠ none
  unnamed : ¬ Named (roots.getD []) file.name
  creates : answers.createsTrash = true
  renames : answers.renames file.name = true

theorem isPrefix_of_stagedEpochMs {name : List Char} {epoch : Nat}
    (isStaged : stagedEpochMs name = some epoch) : stagedPrefix <+: name := by
  obtain ⟨digits, isDigits, _⟩ := Option.bind_eq_some_iff.mp isStaged
  exact ⟨digits, List.isPrefixOf?_eq_some_iff_append_eq.mp isDigits⟩

namespace ClipboardDir

variable (dir : ClipboardDir) (roots : Option (List (Option Listing)))

theorem clipboard_infix_of_mem_candidates {nowMs : Nat} {name : List Char}
    (member : name ∈ ((dir.candidates nowMs).map Staged.name).toFinset) : clipboard <:+: name := by
  obtain ⟨file, isCandidate, rfl⟩ := List.mem_map.mp (List.mem_toFinset.mp member)
  obtain ⟨entry, _, isFile⟩ := mem_staged_iff.mp (mem_candidates_iff.mp isCandidate).1
  have isPrefix := isPrefix_of_stagedEpochMs (Entry.staged_eq_some_iff.mp isFile).2.2.1
  have inPrefix : clipboard <+: stagedPrefix := ⟨['-'], rfl⟩
  exact (inPrefix.trans isPrefix).isInfix

theorem candidates_eq_nil_of_live_eq_none (nowMs : Nat) (unlisted : dir.live = none) :
    dir.candidates nowMs = [] := by
  apply List.eq_nil_iff_forall_not_mem.mpr
  intro file isCandidate
  obtain ⟨entry, inLive, _⟩ := mem_staged_iff.mp (mem_candidates_iff.mp isCandidate).1
  rw [liveEntries, unlisted] at inLive
  cases inLive

theorem nodup_candidates_names (nowMs : Nat) :
    ((dir.candidates nowMs).map Staged.name).Nodup := by
  have expired : ((dir.staged.filter (isExpired nowMs)).map Staged.name).Nodup :=
    dir.nodup_staged_names.sublist (List.filter_sublist.map _)
  rw [candidates]
  split
  · exact nodup_backstop _ expired
  · exact expired

/-- The candidates that move are the files that go. -/
theorem moves_iff_goes {nowMs : Nat} {referenced : Finset (List Char)}
    (isChecked : dir.checked roots nowMs = some referenced) {file : Staged} :
    file ∈ dir.candidates nowMs ∧ Moves answers referenced file ↔
      Goes answers roots nowMs dir file := by
  obtain ⟨listed, rfl, found⟩ := Option.bind_eq_some_iff.mp isChecked
  have isNamed : file ∈ dir.candidates nowMs → (file.name ∈ referenced ↔ Named listed file.name) :=
    fun member => mem_referencedCandidates_iff
      (fun _ isName => dir.clipboard_infix_of_mem_candidates isName) found
      (List.mem_toFinset.mpr (List.mem_map_of_mem member))
  constructor
  · rintro ⟨isCandidate, unnamed, creates, renames⟩
    obtain ⟨isStaged, due⟩ := mem_candidates_iff.mp isCandidate
    exact ⟨isStaged, due, by simp [isChecked], mt (isNamed isCandidate).mpr unnamed, creates,
      renames⟩
  · rintro ⟨isStaged, due, _, unnamed, creates, renames⟩
    have isCandidate := mem_candidates_iff.mpr ⟨isStaged, due⟩
    exact ⟨isCandidate, mt (isNamed isCandidate).mp unnamed, creates, renames⟩

variable (answers : Answers) (nowMs : Nat)

/-- A run that can list the live directory and check its candidates purges and hops. -/
theorem run_eq_hop {referenced : Finset (List Char)}
    (isChecked : dir.checked roots nowMs = some referenced) :
    ∃ outcome, outcome.degraded = false ∧
      (runClipboardSweep answers roots nowMs dir).1.degraded = outcome.degraded ∧
      (runClipboardSweep answers roots nowMs dir).2 =
        (hop answers referenced nowMs (dir.candidates nowMs)
          (outcome, dir.purge answers nowMs)).2 := by
  rw [runClipboardSweep]
  dsimp only
  split
  · next unlisted =>
      have noCandidates := dir.candidates_eq_nil_of_live_eq_none nowMs unlisted
      refine ⟨⟨0, 0, 0, 0, false⟩, rfl, rfl, ?_⟩
      rw [noCandidates, hop]
  · split
    · next noCandidates =>
        refine ⟨⟨0, 0, 0, 0, false⟩, rfl, rfl, ?_⟩
        have none : dir.candidates nowMs = [] := noCandidates
        rw [none, hop]
    · split
      · next unchecked =>
          cases isChecked.symm.trans unchecked
      · next others checkedAs =>
          cases isChecked.symm.trans checkedAs
          exact ⟨_, rfl, degraded_hop _ _, rfl⟩

/-- Otherwise it purges. -/
theorem run_eq_purge (unchecked : dir.checked roots nowMs = none) :
    (runClipboardSweep answers roots nowMs dir).2 = dir.purge answers nowMs := by
  rw [runClipboardSweep]
  dsimp only
  split
  · rfl
  · split
    · rfl
    · split
      · rfl
      · next others checkedAs =>
          cases unchecked.symm.trans checkedAs

theorem mem_trashEntries_purge {answers : Answers} {nowMs : Nat} {entry : Entry} :
    entry ∈ (dir.purge answers nowMs).trashEntries ↔ entry ∈ dir.trashEntries ∧
      ¬ (isDeletable nowMs entry = true ∧ answers.removes entry.name = true) := by
  change entry ∈ (dir.trash.map _).getD [] ↔ entry ∈ dir.trash.getD [] ∧ _
  cases dir.trash with
  | none => simp
  | some entries => simp [imp_iff_not_or]

variable {answers nowMs}

theorem mem_liveEntries_run {entry : Entry} :
    entry ∈ (runClipboardSweep answers roots nowMs dir).2.liveEntries ↔
      entry ∈ dir.liveEntries ∧
        ∀ file, Goes answers roots nowMs dir file → entry.name ≠ .text file.name := by
  cases isChecked : dir.checked roots nowMs with
  | none =>
      rw [dir.run_eq_purge roots answers nowMs isChecked]
      constructor
      · exact fun member => ⟨member, fun _ goes => absurd isChecked goes.complete⟩
      · exact And.left
  | some referenced =>
      obtain ⟨outcome, _, _, isRun⟩ := dir.run_eq_hop roots answers nowMs isChecked
      rw [isRun, mem_liveEntries_hop]
      refine and_congr_right fun _ => ⟨fun stays file goes => ?_, fun stays file member moves => ?_⟩
      · obtain ⟨member, moves⟩ := (dir.moves_iff_goes roots isChecked).mpr goes
        exact stays file member moves
      · exact stays file ((dir.moves_iff_goes roots isChecked).mp ⟨member, moves⟩)

theorem mem_trashEntries_run {entry : Entry} :
    entry ∈ (runClipboardSweep answers roots nowMs dir).2.trashEntries ↔
      (entry ∈ dir.trashEntries ∧
          ¬ (isDeletable nowMs entry = true ∧ answers.removes entry.name = true) ∧
          ∀ file, Goes answers roots nowMs dir file →
            entry.name ≠ .text (trashName nowMs file.name)) ∨
        ∃ file, Goes answers roots nowMs dir file ∧ ∃ moved ∈ dir.liveEntries,
          moved.name = .text file.name ∧
            entry = { moved with name := .text (trashName nowMs file.name) } := by
  cases isChecked : dir.checked roots nowMs with
  | none =>
      have stays : ∀ file, ¬ Goes answers roots nowMs dir file :=
        fun _ goes => goes.complete isChecked
      rw [dir.run_eq_purge roots answers nowMs isChecked, mem_trashEntries_purge]
      simp [stays]
  | some referenced =>
      obtain ⟨outcome, _, _, isRun⟩ := dir.run_eq_hop roots answers nowMs isChecked
      have live : ∀ file ∈ dir.candidates nowMs,
          ∃ moved ∈ (dir.purge answers nowMs).liveEntries, moved.name = .text file.name := by
        intro file member
        obtain ⟨moved, inLive, isFile⟩ := mem_staged_iff.mp (mem_candidates_iff.mp member).1
        exact ⟨moved, inLive, (Entry.staged_eq_some_iff.mp isFile).2.1⟩
      rw [isRun, mem_trashEntries_hop (dir.nodup_candidates_names nowMs) (by exact live),
        mem_trashEntries_purge]
      constructor
      · rintro (⟨⟨member, kept⟩, foreign⟩ | ⟨file, member, moves, rest⟩)
        · refine .inl ⟨member, kept, fun file goes => ?_⟩
          obtain ⟨isCandidate, moves⟩ := (dir.moves_iff_goes roots isChecked).mpr goes
          exact foreign file isCandidate moves
        · exact .inr ⟨file, (dir.moves_iff_goes roots isChecked).mp ⟨member, moves⟩, rest⟩
      · rintro (⟨member, kept, foreign⟩ | ⟨file, goes, rest⟩)
        · exact .inl ⟨⟨member, kept⟩, fun file isCandidate moves =>
            foreign file ((dir.moves_iff_goes roots isChecked).mp ⟨isCandidate, moves⟩)⟩
        · obtain ⟨isCandidate, moves⟩ := (dir.moves_iff_goes roots isChecked).mpr goes
          exact .inr ⟨file, isCandidate, moves, rest⟩

/-- A file that goes is an entry that no longer stands in the live directory. -/
theorem goes_iff_notMem {entry : Entry} (inLive : entry ∈ dir.liveEntries) :
    entry ∉ (runClipboardSweep answers roots nowMs dir).2.liveEntries ↔
      ∃ file, entry.staged = some file ∧ Goes answers roots nowMs dir file := by
  rw [mem_liveEntries_run]
  constructor
  · intro gone
    by_contra stays
    refine gone ⟨inLive, fun file goes isName => stays ⟨file, ?_, goes⟩⟩
    obtain ⟨other, otherInLive, isFile⟩ := mem_staged_iff.mp goes.isStaged
    have same := entry_eq_of_name inLive otherInLive
      (isName.trans (Entry.staged_eq_some_iff.mp isFile).2.1.symm)
    rw [same, isFile]
  · rintro ⟨file, isFile, goes⟩ ⟨_, stays⟩
    exact stays file goes (Entry.staged_eq_some_iff.mp isFile).2.1

theorem degraded_iff : (runClipboardSweep answers roots nowMs dir).1.degraded = true ↔
    dir.candidates nowMs ≠ [] ∧ dir.checked roots nowMs = none := by
  cases isChecked : dir.checked roots nowMs with
  | some referenced =>
      obtain ⟨outcome, complete, same, _⟩ := dir.run_eq_hop roots answers nowMs isChecked
      simp [same, complete]
  | none =>
      rw [runClipboardSweep]
      dsimp only
      split
      · next unlisted =>
          have noCandidates := dir.candidates_eq_nil_of_live_eq_none nowMs unlisted
          simp [noCandidates]
      · split
        · next noCandidates =>
            have none : dir.candidates nowMs = [] := noCandidates
            simp [none]
        · next someCandidates =>
            have nonempty : dir.candidates nowMs ≠ [] := someCandidates
            split
            · simp [nonempty]
            · next others checkedAs => cases isChecked.symm.trans checkedAs

end ClipboardDir

end Yggterm.Clipboard
