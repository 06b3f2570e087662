import Yggterm.Browser.Labels
import Yggterm.CwdTree.Complete
import Yggterm.Library.Rings

/-!
# Stepping through the sessions

The selection is kept as a path, and every step looks for the first row that has it.
-/

namespace Yggterm.Browser

open CwdTree Ownership Rings Workspace

theorem findIdx?_eq_zipIdx {Item : Type} (test : Item → Bool) (items : List Item) (start : Nat) :
    ((items.zipIdx start).find? fun entry => test entry.1).map Prod.snd =
      (items.findIdx? test).map fun index => index + start := by
  induction items generalizing start with
  | nil => rfl
  | cons item items inductionHypothesis =>
      rw [List.zipIdx_cons, List.find?_cons, List.findIdx?_cons]
      cases test item with
      | true => simp
      | false =>
          simp only [inductionHypothesis, Option.map_map, Function.comp_def, Bool.false_eq_true,
            if_false]
          congr 1
          funext index
          omega

/-- An entry that is found first is at the place of its own index. -/
theorem findIdx?_of_find? {Item : Type} (test : Item → Bool) {entries : List (Item × Nat)}
    (distinct : (entries.map Prod.snd).Nodup) :
    ((entries.find? fun entry => test entry.1).map Prod.snd).bind
        (fun selected => (entries.map Prod.snd).findIdx? fun index => index = selected) =
      entries.findIdx? fun entry => test entry.1 := by
  induction entries with
  | nil => rfl
  | cons entry entries inductionHypothesis =>
      rw [List.map_cons, List.nodup_cons] at distinct
      obtain ⟨notLater, restDistinct⟩ := distinct
      have rest := inductionHypothesis restDistinct
      rw [List.find?_cons, List.findIdx?_cons]
      cases isTest : test entry.1 with
      | true => simp [List.findIdx?_cons]
      | false =>
          rw [if_neg Bool.false_ne_true, ← rest]
          cases isFound : entries.find? fun entry => test entry.1 with
          | none => rfl
          | some found =>
              have different : entry.2 ≠ found.2 := by
                intro same
                exact notLater (same ▸ List.mem_map_of_mem (List.mem_of_find?_eq_some isFound))
              simp [List.findIdx?_cons, different]

theorem idxOf?_of_mem {Name : Type} [BEq Name] [LawfulBEq Name] {name : Name}
    {names : List Name} (member : name ∈ names) : names.idxOf? name = some (names.idxOf name) := by
  obtain ⟨index, isIndex⟩ := Option.isSome_iff_exists.mp (List.isSome_idxOf?.mpr member)
  rw [List.idxOf_eq_getD_idxOf?, isIndex, Option.getD_some]

namespace SessionBrowserState

variable (state : SessionBrowserState)

/-- The rows that can be stepped to, with their indexes. -/
def stops : List (BrowserRow × Nat) := state.rows.zipIdx.filter fun entry => entry.1.isLeaf

/-- The paths of the rows that can be stepped to. -/
def stopPaths : List (List Char) := (state.rows.filter BrowserRow.isLeaf).map BrowserRow.fullPath

/-- Where a step starts. -/
def position : Nat := (state.selectedPath.bind fun path => state.stopPaths.idxOf? path).getD 0

theorem sessionIndexes_eq : state.sessionIndexes = state.stops.map Prod.snd := rfl

theorem stopPaths_eq : state.stopPaths = state.stops.map fun stop => stop.1.fullPath := by
  have rows : state.rows.filter BrowserRow.isLeaf = state.stops.map Prod.fst := by
    have zipped : state.rows = state.rows.zipIdx.map Prod.fst := (List.zipIdx_map_fst _ _).symm
    conv_lhs => rw [zipped, List.filter_map]
    rfl
  rw [stopPaths, rows, List.map_map]
  rfl

theorem nodup_sessionIndexes : state.sessionIndexes.Nodup := by
  have all : (state.rows.zipIdx.map Prod.snd).Nodup := by
    rw [List.zipIdx_map_snd]
    exact List.nodup_range'
  exact all.sublist (List.filter_sublist.map Prod.snd)

theorem getElem?_rows {stop : BrowserRow × Nat} (member : stop ∈ state.stops) :
    state.rows[stop.2]? = some stop.1 :=
  List.mk_mem_zipIdx_iff_getElem?.mp (List.mem_filter.mp member).1

theorem length_stopPaths : state.stopPaths.length = state.sessionIndexes.length := by
  rw [stopPaths_eq, sessionIndexes_eq, List.length_map, List.length_map]

theorem selectedSessionIndex_eq : state.selectedSessionIndex =
    state.selectedPath.bind fun path =>
      (state.stops.find? fun stop => stop.1.fullPath = path).map Prod.snd := by
  rw [selectedSessionIndex]
  congr 1
  funext path
  have found := findIdx?_eq_zipIdx (fun row => row.isLeaf && row.fullPath = path) state.rows 0
  simp only [Nat.add_zero, Option.map_id'] at found
  rw [← found, stops, List.find?_filter]
  simp only [Bool.decide_and, Bool.decide_eq_true]

theorem idxOf?_stopPaths (path : List Char) : state.stopPaths.idxOf? path =
    state.stops.findIdx? fun stop => stop.1.fullPath = path := by
  rw [stopPaths_eq, List.idxOf?, List.findIdx?_map]
  congr 1
  funext stop
  exact beq_eq_decide _ _

theorem position_eq : state.position = (state.selectedSessionIndex.bind fun selected =>
    state.sessionIndexes.findIdx? fun index => index = selected).getD 0 := by
  rw [position, selectedSessionIndex_eq, Option.bind_assoc]
  congr 2
  funext path
  rw [idxOf?_stopPaths, sessionIndexes_eq]
  exact (findIdx?_of_find? (fun row => row.fullPath = path) state.nodup_sessionIndexes).symm

theorem selectSessionRelative_eq (delta : Int) :
    state.selectSessionRelative delta =
      if state.sessionIndexes = [] then (none, state)
      else
        let next := ((state.position + delta) % state.sessionIndexes.length).toNat
        (state.sessionIndexes[next]?, { state with selectedPath := state.stopPaths[next]? }) := by
  rw [selectSessionRelative, ← position_eq]
  dsimp only
  split
  · rfl
  · next nonempty =>
      have positive : 0 < (state.sessionIndexes.length : Int) := by
        exact_mod_cast List.length_pos_of_ne_nil nonempty
      have isNext := Int.emod_lt_of_pos (state.position + delta) positive
      have nonnegative := Int.emod_nonneg (state.position + delta) (Int.ne_of_gt positive)
      obtain ⟨next, isNat⟩ := Int.eq_ofNat_of_zero_le nonnegative
      rw [isNat] at isNext ⊢
      have inside : next < state.stops.length := by
        rw [sessionIndexes_eq, List.length_map] at isNext
        omega
      have row := state.getElem?_rows (List.getElem_mem inside)
      have index : state.sessionIndexes[next]? = some state.stops[next].2 := by
        rw [sessionIndexes_eq, List.getElem?_map, List.getElem?_eq_getElem inside, Option.map_some]
      have path : state.stopPaths[next]? = some state.stops[next].1.fullPath := by
        rw [stopPaths_eq, List.getElem?_map, List.getElem?_eq_getElem inside, Option.map_some]
      rw [Int.toNat_natCast, index, path]
      dsimp only
      rw [row, Option.map_some]

/-- What calls of `select_next_session` return, one after the other. -/
def nextSessions : Nat → SessionBrowserState → List (Option Nat)
  | 0, _ => []
  | count + 1, state =>
      state.selectNextSession.1 :: nextSessions count state.selectNextSession.2

variable {state}

theorem selectNextSession_eq (nonempty : state.sessionIndexes ≠ []) :
    state.selectNextSession =
      (state.sessionIndexes[(state.position + 1) % state.stopPaths.length]?,
        { state with
          selectedPath := state.stopPaths[(state.position + 1) % state.stopPaths.length]? }) := by
  rw [selectNextSession, selectSessionRelative_eq, if_neg nonempty, length_stopPaths]
  rfl

theorem position_selectNextSession (nonempty : state.sessionIndexes ≠ []) :
    state.selectNextSession.2.position =
      found state.stopPaths ((state.position + 1) % state.stopPaths.length) := by
  have positive := List.length_pos_of_ne_nil nonempty
  rw [← length_stopPaths] at positive
  have isStop := List.getElem?_eq_getElem (Nat.mod_lt (state.position + 1) positive)
  rw [selectNextSession_eq nonempty, position, found, isStop, Option.bind_some, Option.map_some]
  exact congrArg (Option.getD · 0) (idxOf?_of_mem (List.getElem_mem _))

theorem nextSessions_eq (nonempty : state.sessionIndexes ≠ []) (count : Nat) :
    nextSessions count state = (visits state.stopPaths count state.position).map fun stop =>
      state.sessionIndexes[stop]? := by
  induction count generalizing state with
  | zero => rfl
  | succ count inductionHypothesis =>
      have same : state.selectNextSession.2.sessionIndexes = state.sessionIndexes := by
        rw [selectNextSession_eq nonempty]
        rfl
      have samePaths : state.selectNextSession.2.stopPaths = state.stopPaths := by
        rw [selectNextSession_eq nonempty]
        rfl
      rw [nextSessions, inductionHypothesis (same.trans_ne nonempty), same, samePaths,
        position_selectNextSession nonempty, visits, List.map_cons, selectNextSession_eq nonempty]

theorem found_position (state : SessionBrowserState) :
    found state.stopPaths state.position = state.position := by
  rw [position]
  cases isFound : state.selectedPath.bind fun path => state.stopPaths.idxOf? path with
  | none => exact Nat.le_zero.mp (found_le state.stopPaths 0)
  | some index =>
      obtain ⟨path, _, isIndex⟩ := Option.bind_eq_some_iff.mp isFound
      have member : path ∈ state.stopPaths := List.isSome_idxOf?.mp (by rw [isIndex]; rfl)
      rw [idxOf?_of_mem member, Option.some.injEq] at isIndex
      rw [Option.getD_some, found, ← isIndex, List.getElem?_idxOf member]
      rfl

theorem position_lt (nonempty : state.sessionIndexes ≠ []) :
    state.position < state.stopPaths.length := by
  have positive := List.length_pos_of_ne_nil nonempty
  rw [← length_stopPaths] at positive
  rw [position]
  cases isFound : state.selectedPath.bind fun path => state.stopPaths.idxOf? path with
  | none => exact positive
  | some index =>
      obtain ⟨path, _, isIndex⟩ := Option.bind_eq_some_iff.mp isFound
      have member : path ∈ state.stopPaths := List.isSome_idxOf?.mp (by rw [isIndex]; rfl)
      rw [idxOf?_of_mem member, Option.some.injEq] at isIndex
      rw [Option.getD_some, ← isIndex]
      exact List.idxOf_lt_length_of_mem member

/-- The calls go around all rows that can be stepped to, once. -/
def GoesAround (state : SessionBrowserState) : Prop :=
  ∃ start, nextSessions state.sessionIndexes.length state =
    (state.sessionIndexes.rotate start).map some

theorem eq_of_map_getElem? {indexes : List Nat} (distinct : indexes.Nodup) {stops others : List Nat}
    (inside : ∀ stop ∈ stops, stop < indexes.length)
    (same : (stops.map fun stop => indexes[stop]?) = others.map fun stop => indexes[stop]?) :
    stops = others := by
  induction stops generalizing others with
  | nil => exact (List.map_eq_nil_iff.mp same.symm).symm
  | cons stop stops inductionHypothesis =>
      cases others with
      | nil => cases same
      | cons other others =>
          obtain ⟨isStop, rest⟩ := List.forall_mem_cons.mp inside
          obtain ⟨sameStop, sameRest⟩ := List.cons.inj same
          rw [inductionHypothesis rest sameRest, (List.getElem?_inj isStop distinct).mp sameStop]

theorem goesAround_iff (state : SessionBrowserState) :
    state.GoesAround ↔ state.stopPaths.Nodup := by
  by_cases nonempty : state.sessionIndexes = []
  · have noPaths : state.stopPaths = [] := by
      rw [← List.length_eq_zero_iff, length_stopPaths, nonempty, List.length_nil]
    rw [noPaths, GoesAround, nonempty]
    exact iff_of_true ⟨0, rfl⟩ List.nodup_nil
  · have somePaths : state.stopPaths ≠ [] := by
      rw [← List.length_pos_iff, length_stopPaths, List.length_pos_iff]
      exact nonempty
    rw [← visits_all_iff (position_lt nonempty) (found_position state), GoesAround,
      nextSessions_eq nonempty, length_stopPaths]
    refine exists_congr fun start => ?_
    rw [List.map_rotate, ← map_getElem?_range, ← List.map_rotate]
    constructor
    · apply eq_of_map_getElem? state.nodup_sessionIndexes
      intro stop member
      rw [← length_stopPaths]
      exact lt_of_mem_visits somePaths member
    · exact congrArg _

/-- The row that a step starts at: the selected one, or the first. -/
def currentIndex (state : SessionBrowserState) : Option Nat :=
  state.selectedSessionIndex.or state.sessionIndexes.head?

/-- A step back undoes a step: it comes to the row that the step started at, and the selection is
what it was where a row was selected that can be stepped to. -/
structure Undoes (state : SessionBrowserState) : Prop where
  returns : state.selectNextSession.2.selectPreviousSession.1 = state.currentIndex
  restores : state.selectedSessionIndex ≠ none →
    state.selectNextSession.2.selectPreviousSession.2.selectedPath = state.selectedPath

theorem selectedSessionIndex_eq_bind : state.selectedSessionIndex =
    (state.selectedPath.bind fun path => state.stopPaths.idxOf? path).bind fun stop =>
      state.sessionIndexes[stop]? := by
  rw [selectedSessionIndex_eq, Option.bind_assoc]
  congr 1
  funext path
  rw [idxOf?_stopPaths, List.find?_eq_bind_findIdx?_getElem?, Option.map_bind]
  congr 1
  funext stop
  rw [Function.comp_apply, sessionIndexes_eq, List.getElem?_map]

theorem currentIndex_eq (nonempty : state.sessionIndexes ≠ []) :
    state.currentIndex = state.sessionIndexes[state.position]? := by
  have inside := position_lt nonempty
  rw [currentIndex, selectedSessionIndex_eq_bind]
  rw [position] at inside ⊢
  cases isFound : state.selectedPath.bind fun path => state.stopPaths.idxOf? path with
  | none => exact List.head?_eq_getElem?
  | some stop =>
      rw [isFound, length_stopPaths, Option.getD_some] at inside
      rw [Option.bind_some, Option.getD_some, List.getElem?_eq_getElem inside]
      rfl

/-- The selection stands where a step starts. -/
theorem stopPath_position (selected : state.selectedSessionIndex ≠ none) :
    state.stopPaths[state.position]? = state.selectedPath := by
  rw [selectedSessionIndex_eq_bind] at selected
  rw [position]
  cases isPath : state.selectedPath with
  | none => exact absurd (by rw [isPath]; rfl) selected
  | some path =>
      rw [isPath, Option.bind_some] at selected
      have member : path ∈ state.stopPaths := by
        rw [← List.isSome_idxOf?, Option.isSome_iff_ne_none]
        intro absent
        exact selected (by rw [absent]; rfl)
      rw [Option.bind_some, idxOf?_of_mem member, Option.getD_some]
      exact List.getElem?_idxOf member

/-- A step back comes to where a step started. -/
theorem selectPreviousSession_eq (distinct : state.stopPaths.Nodup)
    (nonempty : state.sessionIndexes ≠ []) :
    state.selectNextSession.2.selectPreviousSession = (state.sessionIndexes[state.position]?,
      { state with selectedPath := state.stopPaths[state.position]? }) := by
  have inside := position_lt nonempty
  have positive := Nat.zero_lt_of_lt inside
  have isPosition := position_selectNextSession nonempty
  rw [found_of_nodup distinct (Nat.mod_lt _ positive)] at isPosition
  rw [selectPreviousSession, selectSessionRelative_eq, isPosition, selectNextSession_eq nonempty]
  have back : (((state.position + 1) % state.stopPaths.length : Nat) + (-1 : Int)) %
      state.stopPaths.length = state.position := by
    push_cast
    rw [Int.emod_add_emod, Int.add_neg_cancel_right]
    exact Int.emod_eq_of_lt (Int.natCast_nonneg _) (by exact_mod_cast inside)
  have samePaths : { state with
      selectedPath := state.stopPaths[(state.position + 1) % state.stopPaths.length]? }.stopPaths =
      state.stopPaths := rfl
  have sameIndexes : { state with
      selectedPath := state.stopPaths[(state.position + 1) % state.stopPaths.length]?
      }.sessionIndexes = state.sessionIndexes := rfl
  rw [samePaths, sameIndexes, if_neg nonempty, ← length_stopPaths, back, Int.toNat_natCast]

theorem undoes_of_nodup (distinct : state.stopPaths.Nodup) : state.Undoes := by
  by_cases nonempty : state.sessionIndexes = []
  · have stays : state.selectNextSession = (none, state) := if_pos nonempty
    have staysBack : state.selectPreviousSession = (none, state) := if_pos nonempty
    have unselected : state.selectedSessionIndex = none := by
      simp [selectedSessionIndex_eq_bind, nonempty]
    refine ⟨?_, fun selected => absurd unselected selected⟩
    rw [stays, staysBack, currentIndex, unselected, nonempty]
    rfl
  · have back := selectPreviousSession_eq distinct nonempty
    refine ⟨?_, fun selected => ?_⟩
    · rw [back, currentIndex_eq nonempty]
    · rw [back]
      exact stopPath_position selected

/-- Stepping visits every session, and a step back undoes a step, just where no two rows that can
be stepped to have the same path. -/
theorem steps_iff (state : SessionBrowserState) :
    state.GoesAround ∧ state.Undoes ↔
      ((state.rows.filter BrowserRow.isLeaf).map BrowserRow.fullPath).Nodup := by
  constructor
  · rintro ⟨around, _⟩
    exact (goesAround_iff state).mp around
  · intro distinct
    exact ⟨(goesAround_iff state).mpr distinct, undoes_of_nodup distinct⟩

/-- The sessions of one store are two rows of one path, and no step passes the first. -/
theorem not_steps_storedSessions : ∃ tree, buildLocalCwdTree storedSessions [] [] = some tree ∧
    ¬((SessionBrowserState.new none tree).GoesAround ∧
      (SessionBrowserState.new none tree).Undoes) := by
  have paths : (buildLocalCwdTree storedSessions [] []).map
      (fun tree => (SessionBrowserState.new none tree).stopPaths) =
      some [storePath, storePath] := by
    rw [buildLocalCwdTree, assembledTree, buckets_storedSessions]
    decide +kernel
  obtain ⟨tree, isBuilt, isPaths⟩ := Option.map_eq_some_iff.mp paths
  refine ⟨tree, isBuilt, ?_⟩
  rintro ⟨around, _⟩
  have distinct := (goesAround_iff _).mp around
  rw [isPaths] at distinct
  exact (List.nodup_cons.mp distinct).1 List.mem_cons_self

end SessionBrowserState

end Yggterm.Browser
