import Yggterm.Library.Patterns
import Yggterm.Workspace.Store

/-!
# Deleting notes and folders

`WorkspaceStore::delete_workspace_items` (`yggterm-core/src/workspace.rs`): all of its
statements run in one transaction, and what is in a folder is found by a pattern.
-/

namespace Yggterm.Workspace

open Patterns Tables Text

/-! ## The code -/

def Store.rowCount (store : Store) : Nat :=
  store.documents.rows.length + store.groups.rows.length

/-- A transaction under way: its statements so far, and the rows they deleted. -/
structure Deleting where
  statements : Nat
  deleted : Nat
  store : Store

def Deleting.execute (refusals : Refusals) (delete : Store → Store) (state : Deleting) :
    Except Error Deleting :=
  if refusals.executes state.statements then .error .sqlite
  else
    let store := delete state.store
    .ok ⟨state.statements + 1, state.deleted + (state.store.rowCount - store.rowCount), store⟩

def deleteDocuments (condition : List Char → Bool) (store : Store) : Store :=
  { store with documents := store.documents.deleteWhere fun row => condition row.virtualPath }

def deleteGroups (condition : List Char → Bool) (store : Store) : Store :=
  { store with groups := store.groups.deleteWhere fun row => condition row.virtualPath }

/-- The statement for a listed document. -/
def deleteDocumentPath (refusals : Refusals) (state : Deleting) (path : List Char) :
    Except Error Deleting :=
  let normalized := normalizeVirtualDocumentPath path
  state.execute refusals (deleteDocuments (· = normalized))

/-- The two statements for a listed group. -/
def deleteGroupPath (refusals : Refusals) (state : Deleting) (path : List Char) :
    Except Error Deleting := do
  let normalized := normalizeVirtualGroupPath path
  let contents := normalized ++ ['/', '%']
  let state ← state.execute refusals (deleteDocuments (like contents))
  state.execute refusals (deleteGroups fun path => path = normalized || like contents path)

def deleteWorkspaceItems (refusals : Refusals) (documentPaths groupPaths : List (List Char))
    (store : Store) : Except Error Nat × Store :=
  transaction refusals (fun store => do
    let state ← documentPaths.foldlM (deleteDocumentPath refusals) ⟨0, 0, store⟩
    let state ← groupPaths.foldlM (deleteGroupPath refusals) state
    return (state.deleted, state.store)) store

/-! ## What is deleted -/

/-- The path is listed, or is in a listed group. -/
def listed (paths groupPaths : List (List Char)) (path : List Char) : Bool :=
  (paths.any fun listed => path = normalizeVirtualDocumentPath listed) ||
    groupPaths.any fun group => normalizeVirtualGroupPath group ++ ['/'] <+: path

/-- The path is listed, or the pattern of a listed group matches it. -/
def struck (paths groupPaths : List (List Char)) (path : List Char) : Bool :=
  (paths.any fun listed => path = normalizeVirtualDocumentPath listed) ||
    groupPaths.any fun group => like (normalizeVirtualGroupPath group ++ ['/', '%']) path

/-- The documents and the groups at some paths are gone, and the others are as they were. -/
structure Removes (documents groups : List Char → Bool) (before after : Store) : Prop where
  documents : after.documents.rows =
    before.documents.rows.filter fun document => !documents document.virtualPath
  groups : after.groups.rows = before.groups.rows.filter fun group => !groups group.virtualPath

theorem eq_of_filter_eq {Row : Type} {condition other : Row → Bool} {rows : List Row}
    (same : (rows.filter fun row => !condition row) = rows.filter fun row => !other row) {row : Row}
    (member : row ∈ rows) : condition row = other row := by
  have kept : row ∈ rows.filter (fun row => !condition row) ↔
      row ∈ rows.filter fun row => !other row := by rw [same]
  simpa [member] using kept

namespace Removes

theorem none (store : Store) : Removes (fun _ => false) (fun _ => false) store store := by
  constructor
  · simp
  · simp

theorem trans {documents groups laterDocuments laterGroups : List Char → Bool}
    {before between after : Store} (first : Removes documents groups before between)
    (second : Removes laterDocuments laterGroups between after) :
    Removes (fun path => documents path || laterDocuments path)
      (fun path => groups path || laterGroups path) before after := by
  constructor
  · rw [second.documents, first.documents, List.filter_filter]
    apply List.filter_congr
    intro document _
    rw [Bool.not_or, Bool.and_comm]
  · rw [second.groups, first.groups, List.filter_filter]
    apply List.filter_congr
    intro group _
    rw [Bool.not_or, Bool.and_comm]

theorem deleteDocuments (condition : List Char → Bool) (store : Store) :
    Removes condition (fun _ => false) store (deleteDocuments condition store) :=
  ⟨rfl, (none store).groups⟩

theorem deleteGroups (condition : List Char → Bool) (store : Store) :
    Removes (fun _ => false) condition store (deleteGroups condition store) :=
  ⟨(none store).documents, rfl⟩

theorem congr {documents groups otherDocuments otherGroups : List Char → Bool}
    {before after : Store} (removes : Removes documents groups before after)
    (sameDocuments : ∀ path, otherDocuments path = documents path)
    (sameGroups : ∀ path, otherGroups path = groups path) :
    Removes otherDocuments otherGroups before after := by
  obtain rfl := funext sameDocuments
  obtain rfl := funext sameGroups
  exact removes

/-- Two descriptions of what was removed agree on the rows there were. -/
theorem iff_forall {documents groups otherDocuments otherGroups : List Char → Bool}
    {before after : Store} (removes : Removes documents groups before after) :
    Removes otherDocuments otherGroups before after ↔
      (∀ document ∈ before.documents.rows,
        documents document.virtualPath = otherDocuments document.virtualPath) ∧
      ∀ group ∈ before.groups.rows, groups group.virtualPath = otherGroups group.virtualPath := by
  constructor
  · intro others
    constructor
    · intro document member
      exact eq_of_filter_eq (removes.documents.symm.trans others.documents) member
    · intro group member
      exact eq_of_filter_eq (removes.groups.symm.trans others.groups) member
  · rintro ⟨sameDocuments, sameGroups⟩
    constructor
    · rw [removes.documents]
      apply List.filter_congr
      intro document member
      rw [sameDocuments document member]
    · rw [removes.groups]
      apply List.filter_congr
      intro group member
      rw [sameGroups group member]

end Removes

/-! ## The statements -/

theorem store_of_execute {refusals : Refusals} {delete : Store → Store} {state after : Deleting}
    (executed : state.execute refusals delete = .ok after) :
    after.store = delete state.store := by
  unfold Deleting.execute at executed
  split at executed
  · cases executed
  · cases executed
    rfl

theorem removes_of_documentPaths {refusals : Refusals} {paths : List (List Char)}
    {state after : Deleting}
    (deleted : paths.foldlM (deleteDocumentPath refusals) state = .ok after) :
    Removes (fun path => paths.any fun listed => path = normalizeVirtualDocumentPath listed)
      (fun _ => false) state.store after.store := by
  induction paths generalizing state with
  | nil =>
      cases deleted
      exact Removes.none _
  | cons path rest inductionHypothesis =>
      obtain ⟨middle, isMiddle, later⟩ := ok_of_bind deleted
      have first := Removes.deleteDocuments (· = normalizeVirtualDocumentPath path) state.store
      rw [← store_of_execute isMiddle] at first
      exact (first.trans (inductionHypothesis later)).congr (fun _ => rfl) fun _ => rfl

theorem removes_of_groupPath {refusals : Refusals} {path : List Char} {state after : Deleting}
    (deleted : deleteGroupPath refusals state path = .ok after) :
    Removes (like (normalizeVirtualGroupPath path ++ ['/', '%']))
      (fun group => group = normalizeVirtualGroupPath path ||
        like (normalizeVirtualGroupPath path ++ ['/', '%']) group) state.store after.store := by
  obtain ⟨middle, isMiddle, later⟩ := ok_of_bind deleted
  have first := Removes.deleteDocuments
    (like (normalizeVirtualGroupPath path ++ ['/', '%'])) state.store
  have second := Removes.deleteGroups (fun group => group = normalizeVirtualGroupPath path ||
    like (normalizeVirtualGroupPath path ++ ['/', '%']) group) middle.store
  rw [← store_of_execute isMiddle] at first
  rw [← store_of_execute later] at second
  exact (first.trans second).congr (by simp) (by simp)

theorem removes_of_groupPaths {refusals : Refusals} {paths : List (List Char)}
    {state after : Deleting}
    (deleted : paths.foldlM (deleteGroupPath refusals) state = .ok after) :
    Removes (fun path => paths.any fun group =>
        like (normalizeVirtualGroupPath group ++ ['/', '%']) path)
      (struck paths paths) state.store after.store := by
  induction paths generalizing state with
  | nil =>
      cases deleted
      exact Removes.none _
  | cons path rest inductionHypothesis =>
      obtain ⟨middle, isMiddle, later⟩ := ok_of_bind deleted
      have first := removes_of_groupPath isMiddle
      refine (first.trans (inductionHypothesis later)).congr (fun _ => rfl) ?_
      intro other
      simp only [struck, List.any_cons, normalizeVirtualGroupPath]
      ac_rfl

/-- A call that goes through deletes what its patterns match. -/
theorem removes_struck {refusals : Refusals} {documentPaths groupPaths : List (List Char)}
    {store after : Store} {deleted : Nat}
    (isOk : deleteWorkspaceItems refusals documentPaths groupPaths store = (.ok deleted, after)) :
    Removes (struck documentPaths groupPaths) (struck groupPaths groupPaths) store after := by
  obtain ⟨documentsDeleted, isDocuments, later⟩ := ok_of_bind (transaction_of_ok isOk)
  obtain ⟨groupsDeleted, isGroups, isLast⟩ := ok_of_bind later
  have documents := removes_of_documentPaths isDocuments
  have groups := removes_of_groupPaths isGroups
  cases isLast
  exact (documents.trans groups).congr (fun _ => rfl) fun _ => rfl

theorem struck_of_listed {paths groupPaths : List (List Char)} {path : List Char}
    (isListed : listed paths groupPaths path = true) : struck paths groupPaths path = true := by
  rw [struck, Bool.or_eq_true]
  refine (Bool.or_eq_true_iff.mp isListed).imp id ?_
  intro inside
  obtain ⟨group, isGroup, under⟩ := List.any_eq_true.mp inside
  exact List.any_eq_true.mpr ⟨group, isGroup, like_contents_of_inside (of_decide_eq_true under)⟩

theorem struck_eq_listed_iff {paths groupPaths : List (List Char)} {path : List Char} :
    struck paths groupPaths path = listed paths groupPaths path ↔
      ∀ group ∈ groupPaths, like (normalizeVirtualGroupPath group ++ ['/', '%']) path = true →
        listed paths groupPaths path = true := by
  constructor
  · intro same group isGroup matched
    rw [← same, struck, Bool.or_eq_true]
    exact .inr (List.any_eq_true.mpr ⟨group, isGroup, matched⟩)
  · intro all
    rw [Bool.eq_iff_iff]
    refine ⟨?_, struck_of_listed⟩
    rw [struck, Bool.or_eq_true]
    rintro (isListed | isMatched)
    · rw [listed, isListed, Bool.true_or]
    · obtain ⟨group, isGroup, matched⟩ := List.any_eq_true.mp isMatched
      exact all group isGroup matched

end Yggterm.Workspace
