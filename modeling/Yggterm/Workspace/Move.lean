import Yggterm.Library.Patterns
import Yggterm.Workspace.Store

/-!
# Moving a folder

`WorkspaceStore::move_group` (`yggterm-core/src/workspace.rs`).  The database finds what is in
the folder by a pattern, and its `REPLACE` rewrites every occurrence of the folder's path.
-/

namespace Yggterm.Workspace

open Patterns Tables Text

/-! ## The code -/

/-- The first new path of a group in the folder that another group has. -/
def takenGroupPath (store : Store) (source target : List Char) : Option (List Char) :=
  ((listGroups store).filter fun candidate =>
      isSameOrDescendantPath candidate.virtualPath source).findSome? fun candidate =>
    let rewritten := rewriteVirtualPrefix candidate.virtualPath source target
    if rewritten ≠ candidate.virtualPath ∧ (getGroup store rewritten).isSome ∧
        isSameOrDescendantPath rewritten source = false then some rewritten
    else none

def takenPaperPath (store : Store) (source target : List Char) : Option (List Char) :=
  ((listDocuments store).filter fun candidate =>
      isSameOrDescendantPath candidate.virtualPath source).findSome? fun candidate =>
    let rewritten := rewriteVirtualPrefix candidate.virtualPath source target
    if rewritten ≠ candidate.virtualPath ∧ (getDocument store rewritten).isSome then some rewritten
    else none

/-- The group to move, when nothing is in its way. -/
def groupToMove (store : Store) (source target : List Char) : Except Error WorkspaceGroup :=
  if target = ['/'] ∨ source ++ ['/'] <+: target then
    .error (.bail ("cannot move a folder into itself: ".toList ++ source ++
      " -> ".toList ++ target))
  else if (getGroup store target).isSome then
    .error (.bail ("destination group path already exists: ".toList ++ target))
  else if (getDocument store target).isSome then
    .error (.bail ("destination path already exists as a paper: ".toList ++ target))
  else
    match getGroup store source with
    | none => .error (.bail ("workspace group not found: ".toList ++ source))
    | some group =>
        match takenGroupPath store source target with
        | some rewritten =>
            .error (.bail ("destination group path already exists: ".toList ++ rewritten))
        | none =>
            match takenPaperPath store source target with
            | some rewritten =>
                .error (.bail ("destination paper path already exists: ".toList ++ rewritten))
            | none => .ok group

def movedGroup (source target now : List Char) (group : WorkspaceGroup) : WorkspaceGroup :=
  { group with virtualPath := replaceAll source target group.virtualPath, updatedAt := now }

def movedDocument (source target now : List Char) (document : WorkspaceDocument) :
    WorkspaceDocument :=
  { document with virtualPath := replaceAll source target document.virtualPath, updatedAt := now }

/-- The orders in which the database visits the rows of an update. -/
structure VisitOrders where
  documents : VisitOrder WorkspaceDocument
  groups : VisitOrder WorkspaceGroup

/-- The two updates of the transaction. -/
def moveRows (orders : VisitOrders) (refusals : Refusals) (source target now : List Char)
    (store : Store) : Except Error (Unit × Store) := do
  let contents := source ++ ['/', '%']
  let groups := store.groups.updateWhere orders.groups (fun group =>
    group.virtualPath = source || like contents group.virtualPath) (movedGroup source target now)
  let groupsMoved ← execute (refusals.executes 0) (groups.map fun groups => { store with groups })
  let documents := groupsMoved.documents.updateWhere orders.documents (fun document =>
    like contents document.virtualPath) (movedDocument source target now)
  let documentsMoved ← execute (refusals.executes 1)
    (documents.map fun documents => { groupsMoved with documents })
  return ((), documentsMoved)

/-- `move_group`; the database may also refuse the last reading. -/
def moveGroup (orders : VisitOrders) (refusals : Refusals) (refusesReading : Bool)
    (now fromVirtualPath toVirtualPath : List Char) (store : Store) :
    Except Error WorkspaceGroup × Store :=
  let fromNormalized := normalizeVirtualGroupPath fromVirtualPath
  let toNormalized := normalizeVirtualGroupPath toVirtualPath
  if fromNormalized = toNormalized then
    if refusesReading then (.error .sqlite, store)
    else
      match getGroup store fromNormalized with
      | none => (.error (.bail "workspace group was not readable for move".toList), store)
      | some group => (.ok group, store)
  else
    match groupToMove store fromNormalized toNormalized with
    | .error error => (.error error, store)
    | .ok group =>
        match transaction refusals (moveRows orders refusals fromNormalized toNormalized now)
            store with
        | (.error error, after) => (.error error, after)
        | (.ok _, after) =>
            if refusesReading then (.error .sqlite, after)
            else
              match getGroup after toNormalized with
              | none =>
                  (.error (.bail "workspace group was not readable after move".toList), after)
              | some moved => (.ok { moved with title := group.title }, after)

/-! ## What a move does -/

/-- What of a path a move should leave as it is. -/
def leftover (source path : List Char) : List Char :=
  if source ++ ['/'] <+: path then path.drop source.length else path

/-- A path that the database takes to be in the folder has the folder's path nowhere else. -/
def Isolated (source path : List Char) : Prop :=
  like (source ++ ['/', '%']) path = true → ¬ source <:+: leftover source path

instance (source path : List Char) : Decidable (Isolated source path) :=
  inferInstanceAs (Decidable (_ → _))

/-- The folder and what is under it have its new path, and nothing else was moved. -/
structure MovesSubtree (source target : List Char) (before after : Store) : Prop where
  groups : (after.groups.rows.map fun group => (group.id, group.virtualPath)) =
    before.groups.rows.map fun group =>
      (group.id, rewriteVirtualPrefix group.virtualPath source target)
  documents : (after.documents.rows.map fun document => (document.id, document.virtualPath)) =
    before.documents.rows.map fun document =>
      (document.id, if document.virtualPath = source then source
        else rewriteVirtualPrefix document.virtualPath source target)

theorem rewriteVirtualPrefix_of_not_under {path source : List Char} (target : List Char)
    (different : path ≠ source) (outside : ¬ source ++ ['/'] <+: path) :
    rewriteVirtualPrefix path source target = path := by
  rw [rewriteVirtualPrefix, if_neg different, if_neg outside]

/-- Moving a folder to where it is moves nothing. -/
theorem rewriteVirtualPrefix_self {path source : List Char}
    (noSlash : source.rdropWhile (· = '/') = source) :
    rewriteVirtualPrefix path source source = path := by
  rw [rewriteVirtualPrefix]
  split
  · next same => exact same.symm
  · split
    · next under =>
        obtain ⟨rest, rfl⟩ := under
        simp [noSlash]
    · rfl

theorem replaceAll_eq_rewrite_iff {path source target : List Char} (nonempty : source ≠ [])
    (different : source ≠ target) (noSlash : target.rdropWhile (· = '/') = target)
    (notFolder : path ≠ source) :
    replaceAll source target path = rewriteVirtualPrefix path source target ↔
      ¬ source <:+: leftover source path := by
  by_cases under : source ++ ['/'] <+: path
  · rw [leftover, if_pos under, rewriteVirtualPrefix, if_neg notFolder, if_pos under, noSlash]
    obtain ⟨rest, rfl⟩ := under
    have isRest : (source ++ ['/'] ++ rest).drop (source.length + 1) = rest := by simp
    have isLeftover : (source ++ ['/'] ++ rest).drop source.length = '/' :: rest := by simp
    rw [isRest, isLeftover, List.append_assoc, replaceAll_append nonempty, List.append_right_inj]
    exact replaceAll_eq_self_iff nonempty different
  · rw [leftover, if_neg under, rewriteVirtualPrefix_of_not_under target notFolder under]
    exact replaceAll_eq_self_iff nonempty different

theorem replaceAll_self {source : List Char} (nonempty : source ≠ []) (target : List Char) :
    replaceAll source target source = target := by
  have whole : replaceAll source target (source ++ []) = target ++ replaceAll source target [] :=
    replaceAll_append nonempty []
  rw [List.append_nil] at whole
  rw [whole, replaceAll, if_neg nonempty, replaceFrom_nil, List.append_nil]

section Rows

variable {source target : List Char} (nonempty : source ≠ []) (different : source ≠ target)
  (noSlash : target.rdropWhile (· = '/') = target)

include nonempty different noSlash

theorem group_moved_iff (now : List Char) (group : WorkspaceGroup) :
    (if group.virtualPath = source || like (source ++ ['/', '%']) group.virtualPath then
      movedGroup source target now group else group).virtualPath =
        rewriteVirtualPrefix group.virtualPath source target ↔
      Isolated source group.virtualPath := by
  by_cases isFolder : group.virtualPath = source
  · simp [isFolder, movedGroup, replaceAll_self nonempty, rewriteVirtualPrefix, Isolated,
      not_like_contents_self]
  · by_cases matched : like (source ++ ['/', '%']) group.virtualPath = true
    · have moved := replaceAll_eq_rewrite_iff nonempty different noSlash isFolder
      simpa [matched, movedGroup, Isolated] using moved
    · have outside := fun under => matched (like_contents_of_inside under)
      have kept := rewriteVirtualPrefix_of_not_under target isFolder outside
      simp [isFolder, matched, kept, Isolated]

theorem document_moved_iff (now : List Char) (document : WorkspaceDocument) :
    (if like (source ++ ['/', '%']) document.virtualPath then
      movedDocument source target now document else document).virtualPath =
        (if document.virtualPath = source then source
          else rewriteVirtualPrefix document.virtualPath source target) ↔
      Isolated source document.virtualPath := by
  by_cases isFolder : document.virtualPath = source
  · simp [isFolder, Isolated, not_like_contents_self]
  · by_cases matched : like (source ++ ['/', '%']) document.virtualPath = true
    · have moved := replaceAll_eq_rewrite_iff nonempty different noSlash isFolder
      simpa [isFolder, matched, movedDocument, Isolated] using moved
    · have outside := fun under => matched (like_contents_of_inside under)
      have kept := rewriteVirtualPrefix_of_not_under target isFolder outside
      simp [isFolder, matched, kept, Isolated]

end Rows

theorem rows_of_moveRows {orders : VisitOrders} {refusals : Refusals}
    {source target now : List Char} {store after : Store} {done : Unit}
    (moved : moveRows orders refusals source target now store = .ok (done, after)) :
    after.groups.rows = (store.groups.rows.map fun group =>
      if group.virtualPath = source || like (source ++ ['/', '%']) group.virtualPath then
        movedGroup source target now group else group) ∧
    after.documents.rows = store.documents.rows.map fun document =>
      if like (source ++ ['/', '%']) document.virtualPath then
        movedDocument source target now document else document := by
  obtain ⟨groupsMoved, isGroups, moved⟩ := ok_of_bind moved
  obtain ⟨documentsMoved, isDocuments, moved⟩ := ok_of_bind moved
  obtain ⟨groups, groupsUpdated, rfl⟩ := Option.map_eq_some_iff.mp (eq_of_execute isGroups)
  obtain ⟨documents, documentsUpdated, rfl⟩ :=
    Option.map_eq_some_iff.mp (eq_of_execute isDocuments)
  cases moved
  exact ⟨Table.rows_of_updateWhere groupsUpdated, Table.rows_of_updateWhere documentsUpdated⟩

/-- A move that went through moved the subtree just when its paths are isolated. -/
theorem movesSubtree_iff {source target now : List Char} (nonempty : source ≠ [])
    (different : source ≠ target) (noSlash : target.rdropWhile (· = '/') = target)
    {orders : VisitOrders} {refusals : Refusals} {store after : Store} {done : Unit}
    (moved : moveRows orders refusals source target now store = .ok (done, after)) :
    MovesSubtree source target store after ↔
      (∀ group ∈ store.groups.rows, Isolated source group.virtualPath) ∧
      ∀ document ∈ store.documents.rows, Isolated source document.virtualPath := by
  obtain ⟨groupRows, documentRows⟩ := rows_of_moveRows moved
  have groupId : ∀ group : WorkspaceGroup, (if group.virtualPath = source ||
      like (source ++ ['/', '%']) group.virtualPath then movedGroup source target now group
        else group).id = group.id := by
    intro group
    split
    · rfl
    · rfl
  have documentId : ∀ document : WorkspaceDocument,
      (if like (source ++ ['/', '%']) document.virtualPath then
        movedDocument source target now document else document).id = document.id := by
    intro document
    split
    · rfl
    · rfl
  have groupsIff := fun group => group_moved_iff nonempty different noSlash now group
  have documentsIff := fun document =>
    document_moved_iff nonempty different noSlash now document
  have isMoved : MovesSubtree source target store after ↔ _ ∧ _ :=
    ⟨fun moves => ⟨moves.groups, moves.documents⟩, fun moves => ⟨moves.1, moves.2⟩⟩
  rw [isMoved, groupRows, documentRows, List.map_map, List.map_map, List.map_inj_left,
    List.map_inj_left]
  simp only [Function.comp, Prod.mk.injEq, groupId, documentId, groupsIff, documentsIff, true_and]

theorem getGroup_of_groupToMove {store : Store} {source target : List Char}
    {group : WorkspaceGroup} (isGroup : groupToMove store source target = .ok group) :
    getGroup store source = some group := by
  unfold groupToMove at isGroup
  split at isGroup
  · cases isGroup
  · split at isGroup
    · cases isGroup
    · split at isGroup
      · cases isGroup
      · split at isGroup
        · cases isGroup
        · next found =>
            split at isGroup
            · cases isGroup
            · split at isGroup
              · cases isGroup
              · cases isGroup
                exact found

/-- The folder is at its new path once the rows are moved. -/
theorem exists_getGroup_of_moveRows {orders : VisitOrders} {refusals : Refusals}
    {source target now : List Char} {store after : Store} {done : Unit} {group : WorkspaceGroup}
    (nonempty : source ≠ []) (sourceNormal : normalizeVirtualDocumentPath source = source)
    (targetNormal : normalizeVirtualDocumentPath target = target)
    (isGroup : getGroup store source = some group)
    (moved : moveRows orders refusals source target now store = .ok (done, after)) :
    movedGroup source target now group ∈ after.groups.rows ∧
      ∃ moved, getGroup after target = some moved := by
  rw [getGroup, normalizeVirtualGroupPath, sourceNormal] at isGroup
  obtain ⟨isRow, isSource⟩ := Table.find?_eq_some_iff.mp isGroup
  have isMoved : movedGroup source target now group ∈ after.groups.rows := by
    rw [(rows_of_moveRows moved).1]
    exact List.mem_map.mpr ⟨group, isRow, by simp [isSource]⟩
  refine ⟨isMoved, movedGroup source target now group, ?_⟩
  rw [getGroup, normalizeVirtualGroupPath, targetNormal]
  apply Table.find?_eq_some_iff.mpr
  refine ⟨isMoved, ?_⟩
  rw [movedGroup, isSource, replaceAll_self nonempty]

section Outcomes

variable {orders : VisitOrders} {refusals : Refusals} {refusesReading : Bool}
  {now fromVirtualPath toVirtualPath : List Char} {store after : Store}

/-- A call leaves the store alone, or it committed the two updates. -/
theorem moveGroup_cases {outcome : Except Error WorkspaceGroup}
    (isOutcome : moveGroup orders refusals refusesReading now fromVirtualPath toVirtualPath store =
      (outcome, after)) :
    let source := normalizeVirtualDocumentPath fromVirtualPath
    let target := normalizeVirtualDocumentPath toVirtualPath
    after = store ∧ (source = target ∨ ∃ error, outcome = .error error) ∨
      source ≠ target ∧ ∃ group moved :
        WorkspaceGroup, groupToMove store source target = .ok group ∧
        transaction refusals (moveRows orders refusals source target now) store =
          (.ok (), after) ∧
        outcome = if refusesReading then .error .sqlite
          else .ok { moved with title := group.title } := by
  intro source target
  rw [moveGroup] at isOutcome
  change (if source = target then _ else _) = _ at isOutcome
  split at isOutcome
  · next same =>
      left
      split at isOutcome
      · cases isOutcome
        exact ⟨rfl, .inl same⟩
      · split at isOutcome
        · cases isOutcome
          exact ⟨rfl, .inl same⟩
        · cases isOutcome
          exact ⟨rfl, .inl same⟩
  · next different =>
      split at isOutcome
      · cases isOutcome
        exact .inl ⟨rfl, .inr ⟨_, rfl⟩⟩
      · next group isGroup =>
          split at isOutcome
          · next error result failed =>
              cases isOutcome
              exact .inl ⟨transaction_of_error failed, .inr ⟨_, rfl⟩⟩
          · next done result committed =>
              right
              have moved := transaction_of_ok committed
              obtain ⟨_, moved, isMoved⟩ := exists_getGroup_of_moveRows (normalize_ne_nil _)
                (normalize_normalize _) (normalize_normalize _)
                (getGroup_of_groupToMove isGroup) moved
              have isTarget : getGroup result (normalizeVirtualGroupPath toVirtualPath) =
                  some moved := isMoved
              refine ⟨different, group, moved, isGroup, ?_⟩
              rw [isTarget] at isOutcome
              split at isOutcome
              · cases isOutcome
                exact ⟨committed, by simp_all⟩
              · cases isOutcome
                exact ⟨committed, by simp_all⟩

/-- When only the last reading is refused, the move is made and reported as failed. -/
theorem moveGroup_of_refused_reading {group : WorkspaceGroup}
    (isOk : moveGroup orders refusals false now fromVirtualPath toVirtualPath store =
      (.ok group, after))
    (different : normalizeVirtualDocumentPath fromVirtualPath ≠
      normalizeVirtualDocumentPath toVirtualPath) :
    moveGroup orders refusals true now fromVirtualPath toVirtualPath store =
      (.error .sqlite, after) ∧ after ≠ store := by
  rcases moveGroup_cases isOk with ⟨_, same | ⟨error, isError⟩⟩ |
    ⟨_, found, _, isGroup, committed, _⟩
  · exact absurd same different
  · cases isError
  · constructor
    · rw [moveGroup]
      simp only [normalizeVirtualGroupPath, if_neg different, isGroup, committed, if_true]
    · rintro rfl
      have rows := (rows_of_moveRows (transaction_of_ok committed)).1
      have kept := List.map_inj_left.mp ((List.map_id _).trans rows)
      have isFound := getGroup_of_groupToMove isGroup
      rw [getGroup, normalizeVirtualGroupPath, normalize_normalize] at isFound
      obtain ⟨isRow, isSource⟩ := Table.find?_eq_some_iff.mp isFound
      have isKept := congrArg WorkspaceGroup.virtualPath (kept found isRow)
      rw [isSource, if_pos (by simp), movedGroup, isSource,
        replaceAll_self (normalize_ne_nil _)] at isKept
      exact different (isSource ▸ isKept)

end Outcomes

/-- Where the folder keeps its path, so does everything else. -/
theorem movesSubtree_self {source : List Char} (noSlash : source.rdropWhile (· = '/') = source)
    (store : Store) : MovesSubtree source source store store := by
  constructor
  · apply List.map_congr_left
    intro group _
    rw [rewriteVirtualPrefix_self noSlash]
  · apply List.map_congr_left
    intro document _
    rw [rewriteVirtualPrefix_self noSlash]
    split
    · next same => rw [same]
    · rfl

def movedInTurn (store : Store) : Except Error WorkspaceGroup × Store :=
  moveGroup ⟨.inTurn, .inTurn⟩ .none false [] "/a".toList "/b".toList store

/-- A folder with a note in it. -/
def isolatedStore : Store where
  documents := ⟨[noteAt "/a/x".toList], by decide⟩
  groups := ⟨[folderAt "/a".toList], by decide⟩

/-- A folder with a note in it whose path has the folder's path in it once more. -/
def repeatedStore : Store where
  documents := ⟨[noteAt "/a/x/a/y".toList], by decide⟩
  groups := ⟨[folderAt "/a".toList], by decide⟩

end Yggterm.Workspace
