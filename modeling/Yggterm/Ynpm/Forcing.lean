import Mathlib.Data.List.Dedup
import Yggterm.Library.Turns
import Yggterm.Ynpm.Disk

/-!
# What forcing a sweep overrides

The forced sweeps have guards of their own, which leave out the references, the time stamp that
cannot be read and, for generations, the process itself.
-/

namespace Ynpm.Disk

section Forcing

variable {Tree : Type} (files : FileSystem Tree) (machine : Machine) (scope : Scope)

/-- The entries that are not kept, with the states in which they have their turn. -/
def sweepTurns (call : Call) (tree : Tree) : List ((SweepOutcome × Tree) × Path) :=
  match scope with
  | .scratch =>
      Turns.turns (sweepEntry files machine .scratch call) (.empty, tree)
        (((files.readDir tree machine.scratch).getD []).map machine.scratch.join)
  | .generations keep =>
      Turns.batchTurns (sweepEntry files machine (.generations keep) call)
        (fun current key => candidates files machine keep current.2 key) (.empty, tree)
        ((files.readDir tree machine.generations).getD [])

/-- An entry is removed, or a part of it. -/
def Takes (call : Call) (tree : Tree) (path : Path) : Prop :=
  guardOf files machine scope call tree path = none ∧
    (call.dryRun = true ∨ (removeEntry files scope tree path).1 = .ok () ∨
      (removeEntry files scope tree path).2 ≠ tree)

def forcedCall (graceMs : Nat) (dryRun : Bool) : Call := ⟨graceMs, dryRun, true⟩

/-- The same call without force and without grace. -/
def gracelessCall (dryRun : Bool) : Call := ⟨0, dryRun, false⟩

/-- Forcing removes nothing that would stay without the grace window, and nothing that is still
pointed into. -/
structure OverridesGraceOnly (graceMs : Nat) (dryRun : Bool) (tree : Tree) : Prop where
  removed : ∀ path ∈ (sweep files machine scope (forcedCall graceMs dryRun) tree).1.removed,
    path ∈ (sweep files machine scope (gracelessCall dryRun) tree).1.removed
  inPart : ∀ turn ∈ sweepTurns files machine scope (forcedCall graceMs dryRun) tree,
    Takes files machine scope (forcedCall graceMs dryRun) turn.1.2 turn.2 →
      ∃ other ∈ sweepTurns files machine scope (gracelessCall dryRun) tree, other.2 = turn.2 ∧
        Takes files machine scope (gracelessCall dryRun) other.1.2 other.2
  unreferenced : ∀ turn ∈ sweepTurns files machine scope (forcedCall graceMs dryRun) tree,
    Takes files machine scope (forcedCall graceMs dryRun) turn.1.2 turn.2 →
      pathIsReferenced files machine turn.1.2 turn.2 = false

/-- Nothing but its age may keep the entry from being removed. -/
structure Unguarded (tree : Tree) (path : Path) : Prop where
  foreign : isCurrentProcess machine path = false
  dated : files.mtimeMs tree path ≠ none
  unreferenced : pathIsReferenced files machine tree path = false

variable {files machine scope} {graceMs : Nat} {dryRun : Bool} {tree : Tree} {path : Path}

theorem retentionGuardBlocks_zero_eq_none_iff :
    retentionGuardBlocks files machine tree 0 path = none ↔
      pathIsLive path machine.live = false ∧ Unguarded files machine tree path := by
  rw [retentionGuardBlocks]
  constructor
  · intro passes
    split at passes
    · cases passes
    · next foreign =>
        split at passes
        · cases passes
        · next dead =>
            split at passes
            · cases passes
            · next mtime dated =>
                rw [if_neg (Nat.not_lt_zero _)] at passes
                split at passes
                · cases passes
                · next unreferenced =>
                    exact ⟨Bool.eq_false_of_not_eq_true dead,
                      { foreign := Bool.eq_false_of_not_eq_true foreign
                        dated := by simp [dated]
                        unreferenced := Bool.eq_false_of_not_eq_true unreferenced }⟩
  · rintro ⟨dead, foreign, dated, unreferenced⟩
    obtain ⟨mtime, isDated⟩ := Option.ne_none_iff_exists'.mp dated
    rw [foreign, dead, isDated, if_neg Bool.false_ne_true, if_neg Bool.false_ne_true]
    dsimp only
    rw [if_neg (Nat.not_lt_zero _), unreferenced, if_neg Bool.false_ne_true]

theorem guardOf_forced : guardOf files machine scope (forcedCall graceMs dryRun) tree path =
    forcedGuard machine scope path := rfl

theorem guardOf_graceless : guardOf files machine scope (gracelessCall dryRun) tree path =
    retentionGuardBlocks files machine tree 0 path := rfl

theorem live_of_forcedGuard (passes : forcedGuard machine scope path = none) :
    pathIsLive path machine.live = false := by
  cases scope with
  | scratch =>
      rw [forcedGuard] at passes
      split at passes
      · cases passes
      · next dead => exact Bool.eq_false_of_not_eq_true dead
  | generations keep =>
      rw [forcedGuard] at passes
      split at passes
      · cases passes
      · next dead => exact Bool.eq_false_of_not_eq_true dead

/-- What the guards of a forced sweep keep is kept without force. -/
theorem forcedGuard_eq_none (unguarded : Unguarded files machine tree path)
    (dead : pathIsLive path machine.live = false) : forcedGuard machine scope path = none := by
  cases scope with
  | scratch =>
      rw [forcedGuard, dead, unguarded.foreign, if_neg Bool.false_ne_true,
        if_neg Bool.false_ne_true]
  | generations keep => rw [forcedGuard, dead, if_neg Bool.false_ne_true]

/-- Two sweeps that left the same files and removed the same entries. -/
def Alongside (current other : SweepOutcome × Tree) : Prop :=
  current.2 = other.2 ∧ current.1.removed = other.1.removed

theorem sweepEntry_of_guarded {call : Call} {current : SweepOutcome × Tree} {reason : Reason}
    (guarded : guardOf files machine scope call current.2 path = some reason) :
    sweepEntry files machine scope call current path =
      (current.1.noteDeferred path reason, current.2) := by
  rw [sweepEntry, guarded]

theorem sweepEntry_of_unguarded {call : Call} {current : SweepOutcome × Tree}
    (passes : guardOf files machine scope call current.2 path = none) :
    sweepEntry files machine scope call current path =
      removeUnguarded files scope call.dryRun current path := by
  rw [sweepEntry, passes]

theorem alongside_removeUnguarded {current other : SweepOutcome × Tree}
    (alongside : Alongside current other) :
    Alongside (removeUnguarded files scope dryRun current path)
      (removeUnguarded files scope dryRun other path) := by
  obtain ⟨outcome, tree⟩ := current
  obtain ⟨otherOutcome, otherTree⟩ := other
  obtain ⟨rfl, same⟩ := alongside
  have added : (outcome.noteRemoved path ((files.footprint tree path).getD (0, 0))).removed =
      (otherOutcome.noteRemoved path ((files.footprint tree path).getD (0, 0))).removed :=
    congrArg (· ++ [path]) same
  rw [removeUnguarded, removeUnguarded]
  cases dryRun with
  | true => exact ⟨rfl, added⟩
  | false =>
      rcases removal : removeEntry files scope tree path with ⟨error | _, after⟩
      · exact ⟨rfl, same⟩
      · exact ⟨rfl, added⟩

/-- A removal that takes nothing leaves the files and what was removed as they are. -/
theorem alongside_removeUnguarded_self {current : SweepOutcome × Tree}
    (spares : ¬ (dryRun = true ∨ (removeEntry files scope current.2 path).1 = .ok () ∨
      (removeEntry files scope current.2 path).2 ≠ current.2)) :
    Alongside (removeUnguarded files scope dryRun current path) current := by
  obtain ⟨real, failed, same⟩ := not_or.mp spares |>.imp_right not_or.mp
  rw [removeUnguarded, if_neg real]
  split
  · next removed => exact absurd (congrArg Prod.fst removed) failed
  · next error after removed =>
      exact ⟨(congrArg Prod.snd removed).symm.trans (not_not.mp same), rfl⟩

theorem alongside_sweepEntry {current other : SweepOutcome × Tree}
    (alongside : Alongside current other)
    (unguarded : Takes files machine scope (forcedCall graceMs dryRun) current.2 path →
      Unguarded files machine current.2 path) :
    Alongside (sweepEntry files machine scope (forcedCall graceMs dryRun) current path)
      (sweepEntry files machine scope (gracelessCall dryRun) other path) := by
  cases forced : forcedGuard machine scope path with
  | some reason =>
      rw [sweepEntry_of_guarded (guardOf_forced.trans forced)]
      cases guarded : guardOf files machine scope (gracelessCall dryRun) other.2 path with
      | some otherReason =>
          rw [sweepEntry_of_guarded guarded]
          exact alongside
      | none =>
          obtain ⟨dead, free⟩ := retentionGuardBlocks_zero_eq_none_iff.mp guarded
          rw [forcedGuard_eq_none free dead] at forced
          cases forced
  | none =>
      have dead := live_of_forcedGuard forced
      rw [sweepEntry_of_unguarded (guardOf_forced.trans forced)]
      by_cases takes : Takes files machine scope (forcedCall graceMs dryRun) current.2 path
      · have passes : guardOf files machine scope (gracelessCall dryRun) other.2 path = none := by
          rw [guardOf_graceless, ← alongside.1]
          exact retentionGuardBlocks_zero_eq_none_iff.mpr ⟨dead, unguarded takes⟩
        rw [sweepEntry_of_unguarded passes]
        exact alongside_removeUnguarded alongside
      · have spares := fun taken => takes ⟨guardOf_forced.trans forced, taken⟩
        have stays : Alongside (removeUnguarded files scope dryRun current path) current :=
          alongside_removeUnguarded_self spares
        cases guarded : guardOf files machine scope (gracelessCall dryRun) other.2 path with
        | some otherReason =>
            rw [sweepEntry_of_guarded guarded]
            exact ⟨stays.1.trans alongside.1, stays.2.trans alongside.2⟩
        | none =>
            rw [sweepEntry_of_unguarded guarded]
            exact alongside_removeUnguarded alongside

/-! ## The two sweeps side by side -/

theorem join_injective (path : Path) : Function.Injective path.join := by
  intro name other same
  have names := List.append_cancel_left same
  cases names
  rfl

theorem mem_candidates {keep : Nat} {key : Name}
    (member : path ∈ candidates files machine keep tree key) :
    ∃ name, path = (machine.generations.join key).join (.text name) := by
  rw [candidates] at member
  dsimp only at member
  split at member
  · split at member
    · cases member
    · obtain ⟨name, _, rfl⟩ := List.mem_map.mp member
      exact ⟨name, rfl⟩
  · cases member

theorem nodup_candidates (keep : Nat) (tree : Tree) (key : Name) :
    (candidates files machine keep tree key).Nodup := by
  rw [candidates]
  dsimp only
  split
  · split
    · exact .nil
    · next entries listed =>
        have names : (entries.filterMap Name.toStr).Nodup := by
          refine (files.nodup_readDir _ _ _ listed).filterMap ?_
          intro name other text isText otherText
          cases name with
          | text _ => cases other with
            | text _ =>
                cases isText
                cases otherText
                rfl
            | raw _ => cases otherText
          | raw _ => cases isText
        refine (names.filter _).map fun name other same => ?_
        cases join_injective _ same
        rfl
  · exact .nil

theorem nodup_getD_readDir (files : FileSystem Tree) (tree : Tree) (path : Path) :
    ((files.readDir tree path).getD []).Nodup := by
  cases listed : files.readDir tree path with
  | none => exact .nil
  | some names => exact files.nodup_readDir _ _ _ listed

/-- An entry has one turn. -/
theorem eq_of_mem_sweepTurns {call : Call} {turn other : (SweepOutcome × Tree) × Path}
    (member : turn ∈ sweepTurns files machine scope call tree)
    (otherMember : other ∈ sweepTurns files machine scope call tree) (same : turn.2 = other.2) :
    turn = other := by
  cases scope with
  | scratch =>
      exact Turns.eq_of_mem_turns ((nodup_getD_readDir files tree _).map (join_injective _))
        member otherMember same
  | generations keep =>
      change turn ∈ Turns.batchTurns _
        (fun current key => candidates files machine keep current.2 key)
        _ _ at member
      refine Turns.eq_of_mem_batchTurns (nodup_getD_readDir files tree machine.generations)
        (fun current key _ => nodup_candidates keep current.2 key) ?_ member otherMember same
      intro _ key _ otherKey _ inBatch inOther
      obtain ⟨name, rfl⟩ := mem_candidates inBatch
      obtain ⟨otherName, isOther⟩ := mem_candidates inOther
      exact join_injective _ (List.append_inj' isOther rfl).1

theorem sweep_eq_foldl (scope : Scope) (call : Call) (tree : Tree) :
    sweep files machine scope call tree =
      match scope with
      | .scratch => (((files.readDir tree machine.scratch).getD []).map machine.scratch.join).foldl
          (sweepEntry files machine .scratch call) (.empty, tree)
      | .generations keep => ((files.readDir tree machine.generations).getD []).foldl
          (Turns.batchStep (sweepEntry files machine (.generations keep) call)
            fun current key => candidates files machine keep current.2 key) (.empty, tree) := by
  cases scope with
  | scratch =>
      rw [sweep, sweepScratch]
      cases files.readDir tree machine.scratch with
      | none => rfl
      | some entries => rfl
  | generations keep =>
      rw [sweep, sweepGenerations]
      cases files.readDir tree machine.generations with
      | none => rfl
      | some keys => rfl

/-- The two sweeps stay alongside up to the first entry that force takes from a guard. -/
theorem sweep_lockstep (files : FileSystem Tree) (machine : Machine) (scope : Scope)
    (graceMs : Nat) (dryRun : Bool) (tree : Tree) :
    (Alongside (sweep files machine scope (forcedCall graceMs dryRun) tree)
        (sweep files machine scope (gracelessCall dryRun) tree) ∧
      ∀ turn ∈ sweepTurns files machine scope (forcedCall graceMs dryRun) tree,
        (Takes files machine scope (forcedCall graceMs dryRun) turn.1.2 turn.2 →
          Unguarded files machine turn.1.2 turn.2) ∧
        ∃ state, Alongside turn.1 state ∧
          (state, turn.2) ∈ sweepTurns files machine scope (gracelessCall dryRun) tree) ∨
      ∃ turn ∈ sweepTurns files machine scope (forcedCall graceMs dryRun) tree,
        ¬ (Takes files machine scope (forcedCall graceMs dryRun) turn.1.2 turn.2 →
          Unguarded files machine turn.1.2 turn.2) ∧
        ∃ state, Alongside turn.1 state ∧
          (state, turn.2) ∈ sweepTurns files machine scope (gracelessCall dryRun) tree := by
  rw [sweep_eq_foldl, sweep_eq_foldl]
  cases scope with
  | scratch =>
      exact Turns.lockstep (fun turn => Takes files machine .scratch (forcedCall graceMs dryRun)
        turn.1.2 turn.2 → Unguarded files machine turn.1.2 turn.2)
        ⟨rfl, rfl⟩ fun _ _ good _ alongside => alongside_sweepEntry alongside good
  | generations keep =>
      refine Turns.batch_lockstep (fun turn => Takes files machine (.generations keep)
        (forcedCall graceMs dryRun) turn.1.2 turn.2 → Unguarded files machine turn.1.2 turn.2)
        ⟨rfl, rfl⟩ ?_ fun _ _ good _ alongside => alongside_sweepEntry alongside good
      intro current other key alongside
      rw [alongside.1]

/-- Force overrides only the grace window just where nothing that it takes has another guard. -/
theorem overridesGraceOnly_iff (files : FileSystem Tree) (machine : Machine) (scope : Scope)
    (graceMs : Nat) (dryRun : Bool) (tree : Tree) :
    OverridesGraceOnly files machine scope graceMs dryRun tree ↔
      ∀ turn ∈ sweepTurns files machine scope (forcedCall graceMs dryRun) tree,
        Takes files machine scope (forcedCall graceMs dryRun) turn.1.2 turn.2 →
          Unguarded files machine turn.1.2 turn.2 := by
  rcases sweep_lockstep files machine scope graceMs dryRun tree with
    ⟨ends, matched⟩ | ⟨turn, member, isBad, state, alongside, inPlain⟩
  · refine iff_of_true ⟨fun path removed => ends.2 ▸ removed, ?_, ?_⟩
      fun turn member => (matched turn member).1
    · intro turn member takes
      obtain ⟨unguarded, state, alongside, inPlain⟩ := matched turn member
      refine ⟨_, inPlain, rfl, ?_, ?_⟩
      · rw [guardOf_graceless]
        dsimp only
        rw [← alongside.1]
        exact retentionGuardBlocks_zero_eq_none_iff.mpr
          ⟨live_of_forcedGuard takes.1, unguarded takes⟩
      · rw [← alongside.1]
        exact takes.2
    · exact fun turn member takes => ((matched turn member).1 takes).unreferenced
  · refine iff_of_false (fun overrides => isBad fun takes => ?_) fun all => isBad (all turn member)
    obtain ⟨other, isOther, same, passes, _⟩ := overrides.inPart turn member takes
    obtain rfl : other = (state, turn.2) := eq_of_mem_sweepTurns isOther inPlain same
    rw [guardOf_graceless] at passes
    dsimp only at passes
    rw [← alongside.1] at passes
    exact (retentionGuardBlocks_zero_eq_none_iff.mp passes).2

end Forcing

/-! ## A generation that is linked and not current -/

inductive Node where
  | directory
  | file (text : List Char)
  | link (target : Path)
  deriving DecidableEq

/-- The name of an entry of a directory. -/
def entryName (directory path : Path) : Option Name :=
  if path.length = directory.length + 1 ∧ directory <+: path then path.fileName else none

def childNames (tree : List (Path × Node)) (path : Path) : List Name :=
  (tree.filterMap fun entry => entryName path entry.1).dedup

def under (tree : List (Path × Node)) (path : Path) : List (Path × Node) :=
  tree.filter fun entry => path.isPrefixOf entry.1

/-- Files that are listed one by one, of which links do not lead to links. -/
def flatFiles : FileSystem (List (Path × Node)) where
  readDir tree path := if (path, .directory) ∈ tree then some (childNames tree path) else none
  nodup_readDir := by
    intro tree path names listed
    rw [Option.ite_none_right_eq_some] at listed
    obtain ⟨_, isNames⟩ := listed
    cases isNames
    exact List.nodup_dedup _
  isDir tree path := (path, .directory) ∈ tree
  readLink tree path := tree.findSome? fun entry =>
    match entry.2 with
    | .link target => if entry.1 = path then some target else none
    | _ => none
  canonicalize tree path := if path ∈ tree.map Prod.fst then some path else none
  readToString tree path := tree.findSome? fun entry =>
    match entry.2 with
    | .file text => if entry.1 = path then some text else none
    | _ => none
  mtimeMs tree path := if path ∈ tree.map Prod.fst then some 0 else none
  footprint tree path :=
    if path ∈ tree.map Prod.fst then some (0, (under tree path).length) else none
  removeDirAll tree path :=
    if (path, .directory) ∈ tree then (.ok (), tree.filter fun entry => !path.isPrefixOf entry.1)
    else (.error "Not a directory (os error 20)".toList, tree)
  removeFile tree path :=
    if path ∈ tree.map Prod.fst then (.ok (), tree.filter fun entry => entry.1 ≠ path)
    else (.error "No such file or directory (os error 2)".toList, tree)

/-- A machine on which nothing of ynpm runs and no package is recorded. -/
def idle : Machine := ⟨[.rootDir, .normal (.text "u".toList)], ⟨.empty, none⟩, [], 7, 1000⟩

def toolDir : Path := idle.generations.joinText ["tool"]

/-- Two generations of a tool, of which the older one is linked. -/
def linkedTool : List (Path × Node) :=
  [(idle.generations, .directory), (toolDir, .directory),
    (toolDir.joinText ["0.0.9"], .directory), (toolDir.joinText ["0.0.9", "ytool"], .file []),
    (toolDir.joinText ["0.1.0"], .directory), (toolDir.joinText ["0.1.0", "ytool"], .file []),
    (idle.root.joinText ["bin"], .directory),
    (idle.root.joinText ["bin", "ytool"], .link (toolDir.joinText ["0.0.9", "ytool"]))]

/-- The forced sweep removes the generation into which a link is published. -/
theorem not_overridesGraceOnly_linked : ¬ ∀ (Tree : Type) (files : FileSystem Tree)
    (machine : Machine) (scope : Scope) (graceMs : Nat) (dryRun : Bool) (tree : Tree),
      OverridesGraceOnly files machine scope graceMs dryRun tree := by
  intro claimed
  have overrides := claimed _ flatFiles idle (.generations 1) 0 false linkedTool
  have forced : toolDir.joinText ["0.0.9"] ∈
      (sweep flatFiles idle (.generations 1) (forcedCall 0 false) linkedTool).1.removed := by
    decide
  have kept : toolDir.joinText ["0.0.9"] ∉
      (sweep flatFiles idle (.generations 1) (gracelessCall false) linkedTool).1.removed := by
    decide
  exact kept (overrides.removed _ forced)

end Ynpm.Disk
