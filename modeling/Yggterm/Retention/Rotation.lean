import Mathlib.Data.List.Sort
import Yggterm.Library.Newest
import Yggterm.Library.OrderedMaps
import Yggterm.Library.Tables
import Yggterm.Retention.Streams

/-!
# Rotation and pruning

`append_retained_jsonl_record` of `retention.rs` renames a live file that is full to a generation
named for the moment, prunes the generations, and appends.  A rename replaces what stood under
the new name.
-/

namespace Yggterm.Retention

open Newest (pairwise_mergeSort_byKey)
open Tables (VisitOrder)
open Text

abbrev Name := List Char

/-- The bytes of a line, its newline included. -/
abbrev Line := List UInt8

structure StoredFile where
  lines : List Line
  modifiedMs : Nat
  deriving DecidableEq

def StoredFile.bytes (file : StoredFile) : Nat := (file.lines.map List.length).sum

abbrev Directory := OrderedMap Name StoredFile

structure JsonlRetention where
  liveMaxBytes : Nat
  generationsMaxBytes : Nat
  maxAgeMs : Nat

/-- The name of a stream without its extension. -/
def stemOf (path : Name) : Name := (stripSuffix ".jsonl".toList path).getD path

/-- `generation_path`: `event-trace.jsonl` becomes `event-trace.g<ts_ms>.jsonl`. -/
def generationName (path : Name) (tsMs : Nat) : Name :=
  stemOf path ++ ".g".toList ++ (Nat.toDigits 10 tsMs ++ ".jsonl".toList)

/-- One rotated generation on disk: its name, birth timestamp, and size. -/
structure SizedGeneration where
  name : Name
  tsMs : Nat
  bytes : Nat
  deriving DecidableEq

/-- The moment a file was rotated at, if it is a generation of the stream. -/
def stampOf (stem : Name) (entry : Name × StoredFile) : Option Nat :=
  match stampText stem entry.1 with
  | some stamp => parseUnsigned 128 stamp
  | none =>
      if entry.1 = stem ++ ".previous.jsonl".toList then some entry.2.modifiedMs else none

def sizedGeneration (stem : Name) (entry : Name × StoredFile) : Option SizedGeneration :=
  (stampOf stem entry).map fun tsMs => ⟨entry.1, tsMs, entry.2.bytes⟩

/-- `list_generations`, sorted; `order` is the order in which the directory is read. -/
def sortedGenerations (order : VisitOrder (Name × StoredFile)) (path : Name) (dir : Directory) :
    List SizedGeneration :=
  ((order.arrange dir.entries).filterMap (sizedGeneration (stemOf path))).mergeSort
    fun first second => first.tsMs ≤ second.tsMs

def totalBytes (generations : List SizedGeneration) : Nat :=
  (generations.map SizedGeneration.bytes).sum

/-- The generations that the loop of the prune removes, the oldest first. -/
def removals (retention : JsonlRetention) (nowMs total : Nat) :
    List SizedGeneration → List SizedGeneration
  | [] => []
  | generation :: rest =>
      let expired := retention.maxAgeMs < nowMs - generation.tsMs
      let overBudget := retention.generationsMaxBytes < total
      if ¬ expired ∧ ¬ overBudget then []
      else generation :: removals retention nowMs (total - generation.bytes) rest

def pruned (order : VisitOrder (Name × StoredFile)) (path : Name) (retention : JsonlRetention)
    (nowMs : Nat) (dir : Directory) : List SizedGeneration :=
  let generations := sortedGenerations order path dir
  removals retention nowMs (totalBytes generations) generations

def pruneJsonlGenerations (order : VisitOrder (Name × StoredFile)) (path : Name)
    (retention : JsonlRetention) (nowMs : Nat) (dir : Directory) : Directory :=
  (pruned order path retention nowMs dir).foldl (fun dir generation => dir.erase generation.name)
    dir

/-- `fs::rename` -/
def rename (path target : Name) (dir : Directory) : Directory :=
  match dir.get? path with
  | some file => (dir.erase path).insert target file
  | none => dir

def linesAt (dir : Directory) (name : Name) : List Line :=
  (dir.get? name).elim [] StoredFile.lines

def liveBytes (dir : Directory) (path : Name) : Nat := (dir.get? path).elim 0 StoredFile.bytes

def appendLine (path : Name) (line : Line) (nowMs : Nat) (dir : Directory) : Directory :=
  dir.insert path ⟨linesAt dir path ++ [line], nowMs⟩

/-- One append: the serialized record, the moment, and how the directory is read. -/
structure Call where
  record : List UInt8
  nowMs : Nat
  order : VisitOrder (Name × StoredFile)

def Call.line (call : Call) : Line := call.record ++ [10]

/-- Whether the live file is rotated before the record is appended. -/
def Rotates (path : Name) (retention : JsonlRetention) (dir : Directory) (call : Call) : Prop :=
  0 < liveBytes dir path ∧
    retention.liveMaxBytes < min (liveBytes dir path + call.line.length) (2 ^ 64 - 1)

instance (path : Name) (retention : JsonlRetention) (dir : Directory) (call : Call) :
    Decidable (Rotates path retention dir call) :=
  inferInstanceAs (Decidable (_ ∧ _))

def rotated (path : Name) (dir : Directory) (call : Call) : Directory :=
  rename path (generationName path call.nowMs) dir

def appendRetainedJsonlRecord (path : Name) (retention : JsonlRetention) (dir : Directory)
    (call : Call) : Directory :=
  let ready :=
    if Rotates path retention dir call then
      pruneJsonlGenerations call.order path retention call.nowMs (rotated path dir call)
    else dir
  appendLine path call.line call.nowMs ready

/-- Rotates a live file that has reached the cap, and prunes in any case; the answer is whether a
rename took place. -/
def rotateJsonlWithRetention (order : VisitOrder (Name × StoredFile)) (path : Name)
    (retention : JsonlRetention) (nowMs : Nat) (dir : Directory) : Bool × Directory :=
  let full := retention.liveMaxBytes ≤ liveBytes dir path
  let ready := if full then rename path (generationName path nowMs) dir else dir
  (full && (dir.get? path).isSome, pruneJsonlGenerations order path retention nowMs ready)

def run (path : Name) (retention : JsonlRetention) (dir : Directory) (calls : List Call) :
    Directory :=
  calls.foldl (appendRetainedJsonlRecord path retention) dir

/-! ## What the prune keeps -/

/-- Every generation is within the age and all of them are within the budget. -/
def Fits (retention : JsonlRetention) (nowMs : Nat) (generations : List SizedGeneration) : Prop :=
  (∀ generation ∈ generations, nowMs - generation.tsMs ≤ retention.maxAgeMs) ∧
    totalBytes generations ≤ retention.generationsMaxBytes

theorem fits_nil (retention : JsonlRetention) (nowMs : Nat) : Fits retention nowMs [] :=
  ⟨by simp, Nat.zero_le _⟩

theorem totalBytes_cons (generation : SizedGeneration) (rest : List SizedGeneration) :
    totalBytes (generation :: rest) = generation.bytes + totalBytes rest := by
  rw [totalBytes, List.map_cons, List.sum_cons, totalBytes]

theorem removals_cons (retention : JsonlRetention) (nowMs : Nat) (generation : SizedGeneration)
    (rest : List SizedGeneration) :
    removals retention nowMs (totalBytes (generation :: rest)) (generation :: rest) =
      if nowMs - generation.tsMs ≤ retention.maxAgeMs ∧
          totalBytes (generation :: rest) ≤ retention.generationsMaxBytes then []
      else generation :: removals retention nowMs (totalBytes rest) rest := by
  have left : totalBytes (generation :: rest) - generation.bytes = totalBytes rest := by
    rw [totalBytes_cons, Nat.add_sub_cancel_left]
  rw [removals, left]
  simp only [Nat.not_lt]

/-- The loop stops at the first generation from which on everything fits. -/
theorem exists_removals (retention : JsonlRetention) (nowMs : Nat)
    {generations : List SizedGeneration}
    (sorted : generations.Pairwise fun first second => first.tsMs ≤ second.tsMs) :
    ∃ kept, generations =
        removals retention nowMs (totalBytes generations) generations ++ kept ∧
      Fits retention nowMs kept ∧
      ∀ front back, generations = front ++ back → Fits retention nowMs back →
        back.length ≤ kept.length := by
  induction generations with
  | nil =>
      refine ⟨[], rfl, fits_nil retention nowMs, ?_⟩
      intro front back same _
      rw [(List.append_eq_nil_iff.mp same.symm).2]
  | cons generation rest inductionHypothesis =>
      obtain ⟨newer, restSorted⟩ := List.pairwise_cons.mp sorted
      rw [removals_cons]
      split
      · next within =>
          -- what is newer than a generation within the age is within it too
          refine ⟨generation :: rest, rfl, ⟨?_, within.2⟩, ?_⟩
          · intro other member
            rcases List.mem_cons.mp member with rfl | later
            · exact within.1
            · exact (Nat.sub_le_sub_left (newer other later) nowMs).trans within.1
          · intro front back same _
            rw [same, List.length_append]
            exact Nat.le_add_left _ _
      · next exceeds =>
          obtain ⟨kept, isSplit, fits, longest⟩ := inductionHypothesis restSorted
          refine ⟨kept, congrArg (generation :: ·) isSplit, fits, ?_⟩
          intro front back same backFits
          cases front with
          | nil =>
              obtain rfl : generation :: rest = back := same
              exact absurd ⟨backFits.1 generation List.mem_cons_self, backFits.2⟩ exceeds
          | cons first front =>
              exact longest front back (List.cons.inj same).2 backFits

/-! ## The lines of a directory -/

def dirLines (dir : Directory) : List Line := dir.entries.flatMap fun entry => entry.2.lines

theorem dirLines_insert (dir : Directory) (name : Name) (file : StoredFile) :
    (dirLines (dir.insert name file)).Perm (file.lines ++ dirLines (dir.erase name)) :=
  (OrderedMap.entries_insert_perm dir name file).flatMap_right _

theorem dirLines_perm (dir : Directory) (name : Name) :
    (dirLines dir).Perm (linesAt dir name ++ dirLines (dir.erase name)) := by
  rw [linesAt]
  cases stored : dir.get? name with
  | none =>
      rw [dirLines, dirLines, OrderedMap.entries_erase_of_get?_eq_none stored]
      exact .refl _
  | some file => exact (OrderedMap.entries_perm_of_get? stored).flatMap_right _

theorem linesAt_erase_of_ne {dir : Directory} {name other : Name} (different : other ≠ name) :
    linesAt (dir.erase name) other = linesAt dir other := by
  rw [linesAt, OrderedMap.get?_erase, if_neg different, linesAt]

theorem dirLines_appendLine (path : Name) (line : Line) (nowMs : Nat) (dir : Directory) :
    (dirLines (appendLine path line nowMs dir)).Perm (line :: dirLines dir) := by
  have whole := (dirLines_perm dir path).cons line
  apply (dirLines_insert dir path _).trans (.trans _ whole.symm)
  rw [List.append_assoc, List.singleton_append]
  exact List.perm_middle

/-- A rename loses what stood under the new name, and nothing else. -/
theorem dirLines_rename {path target : Name} (different : target ≠ path) {dir : Directory}
    (exists_ : (dir.get? path).isSome = true) :
    (dirLines (rename path target dir) ++ linesAt dir target).Perm (dirLines dir) := by
  obtain ⟨file, stored⟩ := Option.isSome_iff_exists.mp exists_
  have isFile : linesAt dir path = file.lines := by rw [linesAt, stored, Option.elim_some]
  have replaced := dirLines_perm (dir.erase path) target
  rw [linesAt_erase_of_ne different] at replaced
  have before := dirLines_perm dir path
  rw [isFile] at before
  rw [rename, stored]
  apply ((dirLines_insert _ target file).append_right _).trans (.trans _ before.symm)
  rw [List.append_assoc]
  exact (List.perm_append_comm.trans replaced.symm).append_left file.lines

/-- The name of a generation is longer than the stem and goes on with another letter. -/
theorem generationName_ne (path : Name) (tsMs : Nat) : generationName path tsMs ≠ path := by
  intro same
  rw [generationName, List.append_assoc] at same
  rw [stemOf, stripSuffix] at same
  split at same
  · next isSuffix =>
      obtain ⟨stem, isPath⟩ := isSuffix
      have isStem : path.take (path.length - ".jsonl".toList.length) = stem := by
        rw [← isPath, List.length_append, Nat.add_sub_cancel, List.take_left]
      rw [Option.getD_some, isStem, ← isPath, List.append_cancel_left_eq] at same
      simp at same
  · simp at same

/-- A rotated file is listed as a generation of the moment it was rotated at. -/
theorem sizedGeneration_generationName (path : Name) {tsMs : Nat} (small : tsMs < 2 ^ 128)
    (file : StoredFile) :
    sizedGeneration (stemOf path) (generationName path tsMs, file) =
      some ⟨generationName path tsMs, tsMs, file.bytes⟩ := by
  have stamp : stampText (stemOf path) (generationName path tsMs) =
      some (Nat.toDigits 10 tsMs) := by
    rw [stampText, generationName, if_pos (List.prefix_append _ _), List.drop_left, stripSuffix,
      if_pos (List.suffix_append _ _), List.length_append, Nat.add_sub_cancel, List.take_left]
  rw [sizedGeneration, stampOf, stamp]
  dsimp only
  rw [parseUnsigned_toDigits, if_pos small, Option.map_some]

/-! ## What a prune takes away -/

theorem dirLines_foldl_erase {generations : List SizedGeneration}
    (distinct : (generations.map SizedGeneration.name).Nodup) (dir : Directory) :
    (dirLines (generations.foldl (fun dir generation => dir.erase generation.name) dir) ++
      generations.flatMap fun generation => linesAt dir generation.name).Perm (dirLines dir) := by
  induction generations generalizing dir with
  | nil => simp
  | cons generation rest inductionHypothesis =>
      obtain ⟨fresh, restDistinct⟩ := List.nodup_cons.mp distinct
      have sameLines : (rest.flatMap fun other => linesAt (dir.erase generation.name) other.name) =
          rest.flatMap fun other => linesAt dir other.name := by
        apply List.flatMap_congr
        intro other member
        apply linesAt_erase_of_ne
        exact fun same => fresh (same ▸ List.mem_map_of_mem member)
      have later := inductionHypothesis restDistinct (dir.erase generation.name)
      rw [sameLines] at later
      rw [List.foldl_cons, List.flatMap_cons]
      apply List.perm_append_comm_assoc _ _ _ |>.trans
      exact (later.append_left _).trans (dirLines_perm dir generation.name).symm

theorem get?_foldl_erase (generations : List SizedGeneration) (dir : Directory) (name : Name) :
    (generations.foldl (fun dir generation => dir.erase generation.name) dir).get? name =
      if name ∈ generations.map SizedGeneration.name then none else dir.get? name := by
  induction generations generalizing dir with
  | nil => simp
  | cons generation rest inductionHypothesis =>
      rw [List.foldl_cons, inductionHypothesis, OrderedMap.get?_erase, List.map_cons]
      by_cases here : name = generation.name
      · simp [here]
      · simp [here]

theorem names_sublist (stem : Name) (entries : List (Name × StoredFile)) :
    ((entries.filterMap (sizedGeneration stem)).map SizedGeneration.name).Sublist
      (entries.map Prod.fst) := by
  induction entries with
  | nil => exact .slnil
  | cons entry rest inductionHypothesis =>
      rw [List.filterMap_cons, List.map_cons]
      cases isStamp : stampOf stem entry with
      | none =>
          rw [sizedGeneration, isStamp]
          exact inductionHypothesis.cons entry.1
      | some tsMs =>
          rw [sizedGeneration, isStamp]
          exact inductionHypothesis.cons_cons entry.1

section Stream

variable (path : Name) (retention : JsonlRetention)

theorem pairwise_sortedGenerations (order : VisitOrder (Name × StoredFile)) (dir : Directory) :
    (sortedGenerations order path dir).Pairwise fun first second => first.tsMs ≤ second.tsMs :=
  pairwise_mergeSort_byKey SizedGeneration.tsMs _

theorem distinct_sortedGenerations (order : VisitOrder (Name × StoredFile)) (dir : Directory) :
    ((sortedGenerations order path dir).map SizedGeneration.name).Nodup := by
  have listed := (List.mergeSort_perm ((order.arrange dir.entries).filterMap
    (sizedGeneration (stemOf path))) fun first second => decide (first.tsMs ≤ second.tsMs))
  have keys : (dir.entries.map Prod.fst).Nodup :=
    List.pairwise_map.mpr (dir.rising.imp fun below => ne_of_lt below)
  apply ((listed.map SizedGeneration.name).nodup_iff).mpr
  apply (names_sublist _ _).nodup
  exact ((order.perm dir.entries).map Prod.fst).nodup_iff.mpr keys

/-- The generations divide into those that are removed and the longest newest run that fits. -/
structure KeepsNewestRun (order : VisitOrder (Name × StoredFile)) (nowMs : Nat) (dir : Directory)
    (removed kept : List SizedGeneration) : Prop where
  split : sortedGenerations order path dir = removed ++ kept
  fits : Fits retention nowMs kept
  longest : ∀ front back, sortedGenerations order path dir = front ++ back →
    Fits retention nowMs back → back.length ≤ kept.length
  after : ∀ name, (pruneJsonlGenerations order path retention nowMs dir).get? name =
    if name ∈ removed.map SizedGeneration.name then none else dir.get? name

theorem exists_keepsNewestRun (order : VisitOrder (Name × StoredFile)) (nowMs : Nat)
    (dir : Directory) :
    ∃ kept, KeepsNewestRun path retention order nowMs dir (pruned order path retention nowMs dir)
      kept := by
  obtain ⟨kept, split, fits, longest⟩ :=
    exists_removals retention nowMs (pairwise_sortedGenerations path order dir)
  exact ⟨kept, split, fits, longest, fun name => get?_foldl_erase _ dir name⟩

/-- The lines of the generations that a prune removes. -/
def prunedLines (order : VisitOrder (Name × StoredFile)) (nowMs : Nat) (dir : Directory) :
    List Line :=
  (pruned order path retention nowMs dir).flatMap fun generation => linesAt dir generation.name

theorem dirLines_prune (order : VisitOrder (Name × StoredFile)) (nowMs : Nat) (dir : Directory) :
    (dirLines (pruneJsonlGenerations order path retention nowMs dir) ++
      prunedLines path retention order nowMs dir).Perm (dirLines dir) := by
  obtain ⟨kept, spec⟩ := exists_keepsNewestRun path retention order nowMs dir
  have distinct := distinct_sortedGenerations path order dir
  rw [spec.split, List.map_append] at distinct
  exact dirLines_foldl_erase (List.nodup_append.mp distinct).1 dir

/-- A rotation on its own accounts for every line too. -/
theorem dirLines_rotate (order : VisitOrder (Name × StoredFile)) (nowMs : Nat) (dir : Directory)
    (rotates : (rotateJsonlWithRetention order path retention nowMs dir).1 = true) :
    (dirLines (rotateJsonlWithRetention order path retention nowMs dir).2 ++
      prunedLines path retention order nowMs (rename path (generationName path nowMs) dir) ++
        linesAt dir (generationName path nowMs)).Perm (dirLines dir) := by
  obtain ⟨full, stored⟩ := Bool.and_eq_true_iff.mp rotates
  rw [rotateJsonlWithRetention, if_pos (of_decide_eq_true full)]
  exact ((dirLines_prune path retention order nowMs _).append_right _).trans
    (dirLines_rename (generationName_ne path nowMs) stored)

/-! ## Runs of appends -/

/-- What the rename of one append replaces. -/
def overwritten (dir : Directory) (call : Call) : List Line :=
  if Rotates path retention dir call then linesAt dir (generationName path call.nowMs) else []

def prunedByCall (dir : Directory) (call : Call) : List Line :=
  if Rotates path retention dir call then
    prunedLines path retention call.order call.nowMs (rotated path dir call)
  else []

/-- An append accounts for every line: it is kept, pruned or overwritten. -/
theorem dirLines_append (dir : Directory) (call : Call) :
    (dirLines (appendRetainedJsonlRecord path retention dir call) ++
      (prunedByCall path retention dir call ++ overwritten path retention dir call)).Perm
        (call.line :: dirLines dir) := by
  rw [appendRetainedJsonlRecord, prunedByCall, overwritten]
  by_cases rotates : Rotates path retention dir call
  · rw [if_pos rotates, if_pos rotates, if_pos rotates]
    have stored : (dir.get? path).isSome = true := by
      cases absent : dir.get? path with
      | none => simp [Rotates, liveBytes, absent] at rotates
      | some file => rfl
    have renamed := dirLines_rename (generationName_ne path call.nowMs) stored
    have pruned := dirLines_prune path retention call.order call.nowMs (rotated path dir call)
    have appended := dirLines_appendLine path call.line call.nowMs
      (pruneJsonlGenerations call.order path retention call.nowMs (rotated path dir call))
    rw [← List.append_assoc]
    apply ((appended.append_right _).append_right _).trans
    exact ((pruned.append_right _).trans renamed).cons call.line
  · rw [if_neg rotates, if_neg rotates, if_neg rotates, List.append_nil, List.append_nil]
    exact dirLines_appendLine path call.line call.nowMs dir

/-- What the prunes of a run take away. -/
def prunedInRun (dir : Directory) : List Call → List Line
  | [] => []
  | call :: rest =>
      prunedByCall path retention dir call ++
        prunedInRun (appendRetainedJsonlRecord path retention dir call) rest

def overwrittenInRun (dir : Directory) : List Call → List Line
  | [] => []
  | call :: rest =>
      overwritten path retention dir call ++
        overwrittenInRun (appendRetainedJsonlRecord path retention dir call) rest

theorem dirLines_run (dir : Directory) (calls : List Call) :
    (dirLines (run path retention dir calls) ++
      (prunedInRun path retention dir calls ++ overwrittenInRun path retention dir calls)).Perm
        (calls.map Call.line ++ dirLines dir) := by
  induction calls generalizing dir with
  | nil => simp [run, prunedInRun, overwrittenInRun]
  | cons call rest inductionHypothesis =>
      have step := dirLines_append path retention dir call
      have later := inductionHypothesis (appendRetainedJsonlRecord path retention dir call)
      rw [run, List.foldl_cons, prunedInRun, overwrittenInRun, List.map_cons, List.cons_append]
      rw [run] at later
      have sorted : ∀ kept herePruned laterPruned hereLost laterLost : List Line,
          (kept ++ ((herePruned ++ laterPruned) ++ (hereLost ++ laterLost))).Perm
            ((kept ++ (laterPruned ++ laterLost)) ++ (herePruned ++ hereLost)) := by
        intro kept herePruned laterPruned hereLost laterLost
        rw [List.perm_iff_count]
        intro line
        simp only [List.count_append]
        omega
      apply (sorted _ _ _ _ _).trans ((later.append_right _).trans _)
      rw [List.append_assoc]
      exact (step.append_left _).trans List.perm_middle

/-- Every record that was there or was appended is in a file, unless a prune took its generation. -/
def NothingLost (dir : Directory) (calls : List Call) : Prop :=
  (dirLines (run path retention dir calls) ++ prunedInRun path retention dir calls).Perm
    (calls.map Call.line ++ dirLines dir)

/-- No rotation finds lines under the name of its moment. -/
def NamesAreFresh (dir : Directory) (calls : List Call) : Prop :=
  ∀ before call after, calls = before ++ call :: after →
    Rotates path retention (run path retention dir before) call →
      linesAt (run path retention dir before) (generationName path call.nowMs) = []

theorem overwrittenInRun_eq_nil_iff (dir : Directory) (calls : List Call) :
    overwrittenInRun path retention dir calls = [] ↔ NamesAreFresh path retention dir calls := by
  induction calls generalizing dir with
  | nil => simp [overwrittenInRun, NamesAreFresh]
  | cons call rest inductionHypothesis =>
      rw [overwrittenInRun, List.append_eq_nil_iff, inductionHypothesis, overwritten]
      constructor
      · rintro ⟨here, later⟩ before other after split rotates
        cases before with
        | nil =>
            cases split
            exact (if_pos rotates).symm.trans here
        | cons first before =>
            cases split
            exact later before other after rfl rotates
      · intro fresh
        refine ⟨?_, ?_⟩
        · split
          · next rotates => exact fresh [] call rest rfl rotates
          · rfl
        · intro before other after split rotates
          exact fresh (call :: before) other after (congrArg (call :: ·) split) rotates

theorem nothingLost_iff (dir : Directory) (calls : List Call) :
    NothingLost path retention dir calls ↔ overwrittenInRun path retention dir calls = [] := by
  have whole := dirLines_run path retention dir calls
  rw [← List.append_assoc] at whole
  constructor
  · intro kept
    have sameLength := kept.length_eq.trans whole.length_eq.symm
    generalize dirLines (run path retention dir calls) ++ prunedInRun path retention dir calls =
      found at sameLength
    rw [List.length_append] at sameLength
    exact List.eq_nil_of_length_eq_zero (by omega)
  · intro nothing
    rwa [nothing, List.append_nil] at whole

/-- No record is lost but with a generation that a prune takes, and every prune keeps the longest
newest run. -/
structure RotatesSafely (dir : Directory) (calls : List Call) : Prop where
  nothing_lost : NothingLost path retention dir calls
  keeps_newest : ∀ before call after, calls = before ++ call :: after →
    Rotates path retention (run path retention dir before) call →
      let ready := rotated path (run path retention dir before) call
      ∃ kept, KeepsNewestRun path retention call.order call.nowMs ready
        (pruned call.order path retention call.nowMs ready) kept

theorem rotatesSafely_iff (dir : Directory) (calls : List Call) :
    RotatesSafely path retention dir calls ↔ NamesAreFresh path retention dir calls := by
  rw [← overwrittenInRun_eq_nil_iff, ← nothingLost_iff]
  constructor
  · exact RotatesSafely.nothing_lost
  · intro kept
    exact ⟨kept, fun _ call _ _ _ => exists_keepsNewestRun path retention call.order call.nowMs _⟩

end Stream

/-- Three records of two bytes and a newline, all at one moment, where a live file holds four. -/
def sameMoment : List Call :=
  [⟨[97, 97], 7, .inTurn⟩, ⟨[98, 98], 7, .inTurn⟩, ⟨[99, 99], 7, .inTurn⟩]

theorem not_rotatesSafely_sameMoment :
    ¬ RotatesSafely "trace.jsonl".toList ⟨4, 100, 1000⟩ .empty sameMoment := by
  intro safely
  have nothing := (nothingLost_iff _ _ _ _).mp safely.nothing_lost
  exact absurd nothing (by decide +kernel)

end Yggterm.Retention
