import Yggterm.Library.Rekeying
import Yggterm.Workspace.LegacyPaths

/-!
# Opening the workspace

`WorkspaceStore::open` (`yggterm-core/src/workspace.rs`) rewrites the paths of earlier versions
and thins out order numbers, each time it is called; `put_document` saves in between.
-/

namespace Yggterm.Workspace

open Tables Text

/-! ## The code -/

section Migrations

variable {Row : Type} {key : Row → List Char} (setter : KeySetter key)

/-- `SELECT virtual_path ... ORDER BY virtual_path ASC`. -/
def sortedPaths (table : Table Row (List Char) key) : List (List Char) :=
  table.keys.mergeSort fun first second => first ≤ second

/-- The path is none of an earlier version. -/
def isCurrent (path : List Char) : Bool := rewriteLegacyWorkspacePath path = path

def migrateLegacyPaths (table : Table Row (List Char) key) : Table Row (List Char) key :=
  (sortedPaths table).foldl (Table.moveOrDrop setter isCurrent legacyTarget) table

def migrateOrderPaths (table : Table Row (List Char) key) : Table Row (List Char) key :=
  (sortedPaths table).foldl (Table.moveOrLeave setter simplifyWorkspaceOrderPath) table

end Migrations

def documentPath : KeySetter WorkspaceDocument.virtualPath where
  set path document := { document with virtualPath := path }
  key_set _ _ := rfl

def groupPath : KeySetter WorkspaceGroup.virtualPath where
  set path group := { group with virtualPath := path }
  key_set _ _ := rfl

def migrateLegacyWorkspacePaths (store : Store) : Store where
  documents := migrateLegacyPaths documentPath store.documents
  groups := migrateLegacyPaths groupPath store.groups

def migrateWorkspaceOrderPaths (store : Store) : Store where
  documents := migrateOrderPaths documentPath store.documents
  groups := migrateOrderPaths groupPath store.groups

def openStore (store : Store) : Store :=
  migrateWorkspaceOrderPaths (migrateLegacyWorkspacePaths store)

structure WorkspaceDocumentInput where
  title : Option (List Char)
  kind : WorkspaceDocumentKind
  body : List Char
  sourceSessionPath : Option (List Char)
  sourceSessionKind : Option (List Char)
  sourceSessionCwd : Option (List Char)
  replayCommands : List (List Char)

def defaultDocumentTitle (virtualPath : List Char) : List Char :=
  ((virtualPath.splitOn '/').reverse.find? (· ≠ [])).getD "document".toList

/-- The row that is saved; what it replaces keeps its id and its time of creation. -/
def savedDocument (now freshId normalized : List Char) (existing : Option WorkspaceDocument)
    (input : WorkspaceDocumentInput) : WorkspaceDocument where
  id := (existing.map WorkspaceDocument.id).getD freshId
  virtualPath := normalized
  title := ((input.title.map trim).filter (· ≠ [])).getD (defaultDocumentTitle normalized)
  kind := input.kind
  body := input.body
  sourceSessionPath := input.sourceSessionPath
  sourceSessionKind := input.sourceSessionKind
  sourceSessionCwd := input.sourceSessionCwd
  replayCommands := input.replayCommands
  createdAt := (existing.map WorkspaceDocument.createdAt).getD now
  updatedAt := now

def putDocumentInput (now freshId virtualPath : List Char) (input : WorkspaceDocumentInput)
    (store : Store) : Except Error WorkspaceDocument × Store :=
  let normalized := normalizeVirtualDocumentPath virtualPath
  let existing := getDocument store normalized
  if existing = none ∧ freshId ∈ store.documents.rows.map WorkspaceDocument.id then
    (.error .sqlite, store)
  else
    let document := savedDocument now freshId normalized existing input
    let after := { store with documents := store.documents.upsert document }
    match getDocument after virtualPath with
    | none => (.error (.bail "workspace document was not readable after save".toList), after)
    | some saved => (.ok saved, after)

/-! ## Tables -/

section Tables

variable {Row : Type} {key : Row → List Char} {setter : KeySetter key}
  {table : Table Row (List Char) key}

theorem visitsAll_sortedPaths (table : Table Row (List Char) key) :
    table.VisitsAll (sortedPaths table) := by
  have isPerm : (sortedPaths table).Perm table.keys := List.mergeSort_perm _ _
  constructor
  · have sorted : (sortedPaths table).Pairwise (· ≤ ·) :=
      List.pairwise_mergeSort' (· ≤ ·) table.keys
    have distinct : (sortedPaths table).Nodup := isPerm.nodup_iff.mpr table.unique_keys
    exact sorted.imp₂ (fun _ _ smaller different => lt_of_le_of_ne smaller different) distinct
  · exact fun wanted => isPerm.mem_iff

theorem isCurrent_iff {path : List Char} : isCurrent path = true ↔ ¬ IsLegacy path := by
  rw [isCurrent, decide_eq_true_iff, rewrite_eq_self_iff]

theorem isLegacy_of_not_current {path : List Char} (old : isCurrent path = false) :
    IsLegacy path := by
  by_contra current
  rw [isCurrent_iff.mpr current] at old
  cases old

theorem moves_of_not_current (path : List Char) (old : isCurrent path = false) :
    legacyTarget path ≠ path :=
  legacyTarget_ne (isLegacy_of_not_current old)

/-- The row as the first migration leaves it when it keeps it. -/
def atLegacyTarget (setter : KeySetter key) (row : Row) : Row :=
  if isCurrent (key row) then row else setter.set (legacyTarget (key row)) row

/-- The row as the second migration leaves it in a table with some paths. -/
def atOrderTarget (setter : KeySetter key) (paths : List (List Char)) (row : Row) : Row :=
  if Table.Remains simplifyWorkspaceOrderPath paths (key row) then row
  else setter.set (simplifyWorkspaceOrderPath (key row)) row

theorem rows_migrateLegacyPaths (setter : KeySetter key) (table : Table Row (List Char) key) :
    ∃ kept : List Row, kept.Sublist table.rows ∧
      (migrateLegacyPaths setter table).rows = kept.map (atLegacyTarget setter) ∧
      ∀ row ∈ table.rows, isCurrent (key row) = true → row ∈ kept :=
  Table.rows_of_drops moves_of_not_current (visitsAll_sortedPaths table)

theorem mem_keys_migrateLegacyPaths (setter : KeySetter key) (table : Table Row (List Char) key)
    (path : List Char) : path ∈ (migrateLegacyPaths setter table).keys ↔
      Table.Arrives isCurrent legacyTarget table.keys path :=
  Table.mem_keys_of_drops moves_of_not_current (visitsAll_sortedPaths table)

theorem rows_migrateOrderPaths (setter : KeySetter key) (table : Table Row (List Char) key) :
    (migrateOrderPaths setter table).rows = table.rows.map (atOrderTarget setter table.keys) :=
  Table.rows_of_leaves simplify_simplify (visitsAll_sortedPaths table)

/-- The two migrations. -/
def migratePaths (setter : KeySetter key) (table : Table Row (List Char) key) :
    Table Row (List Char) key :=
  migrateOrderPaths setter (migrateLegacyPaths setter table)

/-- What a table keeps, and where. -/
theorem rows_migratePaths (setter : KeySetter key) (table : Table Row (List Char) key) :
    ∃ kept : List Row, kept.Sublist table.rows ∧
      (migratePaths setter table).rows = kept.map (fun row =>
        atOrderTarget setter (migrateLegacyPaths setter table).keys (atLegacyTarget setter row)) ∧
      ∀ row ∈ table.rows, isCurrent (key row) = true → row ∈ kept := by
  obtain ⟨kept, isKept, isTable, keeps⟩ := rows_migrateLegacyPaths setter table
  refine ⟨kept, isKept, ?_, keeps⟩
  rw [migratePaths, rows_migrateOrderPaths, isTable, List.map_map]
  rfl

/-- No row of an earlier version is back where it was. -/
theorem key_ne_of_not_current {paths : List (List Char)} {row : Row}
    (old : isCurrent (key row) = false) :
    key (atOrderTarget setter paths (atLegacyTarget setter row)) ≠ key row := by
  have legacy := isLegacy_of_not_current old
  have isTarget : key (atLegacyTarget setter row) = legacyTarget (key row) := by
    rw [atLegacyTarget, if_neg (by simp [old]), setter.key_set]
  rw [atOrderTarget]
  split
  · rw [isTarget]
    exact legacyTarget_ne legacy
  · rw [setter.key_set, isTarget]
    exact simplify_legacyTarget_ne legacy

/-- A second run changes nothing just when no path is one of an earlier version. -/
theorem migratePaths_again_iff : migratePaths setter (migratePaths setter table) =
      migratePaths setter table ↔
    ∀ path ∈ (migratePaths setter table).keys, isCurrent path = true := by
  constructor
  · intro same path isPath
    obtain ⟨row, isRow, rfl⟩ := Table.mem_keys_iff.mp isPath
    obtain ⟨kept, isKept, isTable, _⟩ := rows_migratePaths setter (migratePaths setter table)
    rw [same] at isTable
    have isAll : kept = (migratePaths setter table).rows :=
      isKept.eq_of_length (by rw [isTable, List.length_map])
    rw [← isAll] at isTable isRow
    have unchanged := List.map_inj_left.mp ((List.map_id kept).trans isTable) row isRow
    by_contra old
    exact key_ne_of_not_current (by simpa using old) (congrArg key unchanged.symm)
  · intro current
    have legacySame : migrateLegacyPaths setter (migratePaths setter table) =
        migratePaths setter table := by
      apply Table.foldl_moveOrDrop_of_stays
      exact fun path isVisit => current path ((visitsAll_sortedPaths _).mem_iff path |>.mp isVisit)
    rw [migratePaths, legacySame]
    apply Table.foldl_moveOrLeave_of_settled
    intro path isVisit
    exact Table.settled_of_leaves simplify_simplify (visitsAll_sortedPaths _)
      ((visitsAll_sortedPaths _).mem_iff path |>.mp isVisit)

/-- The paths there are after the two migrations are none of an earlier version just when no path
that a row comes to is one without its order numbers. -/
theorem current_migratePaths_iff : (∀ path ∈ (migratePaths setter table).keys,
      isCurrent path = true) ↔
    ∀ path ∈ table.keys, ¬ Table.Swallowed isCurrent legacyTarget table.keys path →
      isCurrent (simplifyWorkspaceOrderPath (Table.destination isCurrent legacyTarget path)) =
        true := by
  have arrives := mem_keys_migrateLegacyPaths setter table
  constructor
  · intro current path isPath notSwallowed
    apply current
    apply Table.target_mem_keys simplify_simplify (visitsAll_sortedPaths _)
    exact (arrives _).mpr ⟨path, isPath, notSwallowed, rfl⟩
  · intro current path isPath
    obtain ⟨old, isOld, rfl⟩ :=
      (Table.mem_keys_of_leaves simplify_simplify (visitsAll_sortedPaths _)).mp isPath
    obtain ⟨first, isFirst, notSwallowed, rfl⟩ := (arrives old).mp isOld
    have simplified := current first isFirst notSwallowed
    split
    · cases stay : isCurrent first with
      | true => rwa [Table.destination_of_stays stay]
      | false =>
          rw [Table.destination_of_moves stay] at simplified ⊢
          rw [isCurrent_iff] at simplified ⊢
          exact fun legacy => simplified (legacy_simplify legacy)
    · exact simplified

end Tables

/-! ## What opening keeps -/

/-- Two stores have the same documents, up to their paths. -/
def KeepsDocuments (before after : Store) : Prop :=
  (after.documents.rows.map fun document => { document with virtualPath := [] }) =
    before.documents.rows.map fun document => { document with virtualPath := [] }

/-- No two rows go to one path, and none goes to the path of a row that leaves later. -/
def KeepsApart (paths : List (List Char)) : Prop :=
  (∀ path ∈ paths, ¬ Table.Swallowed isCurrent legacyTarget paths path) ∧
    ∀ path ∈ paths, ∀ other ∈ paths, Table.destination isCurrent legacyTarget path =
      Table.destination isCurrent legacyTarget other → path = other

instance (paths : List (List Char)) : Decidable (KeepsApart paths) :=
  inferInstanceAs (Decidable ((∀ path ∈ paths, _) ∧ ∀ path ∈ paths, ∀ other ∈ paths, _))

/-- No path that a row comes to is one of an earlier version without its order numbers. -/
def Settles (paths : List (List Char)) : Prop :=
  ∀ path ∈ paths, ¬ Table.Swallowed isCurrent legacyTarget paths path →
    isCurrent (simplifyWorkspaceOrderPath (Table.destination isCurrent legacyTarget path)) = true

instance (paths : List (List Char)) : Decidable (Settles paths) :=
  inferInstanceAs (Decidable (∀ path ∈ paths, _))

/-- A row at this path is not moved: the path is current, and without needless order numbers
unless the path it would get is one that another row comes to. -/
def Stays (paths : List (List Char)) (path : List Char) : Prop :=
  isCurrent path = true ∧ (simplifyWorkspaceOrderPath path = path ∨
    Table.Arrives isCurrent legacyTarget paths (simplifyWorkspaceOrderPath path) ∨
    ∃ other, Table.Arrives isCurrent legacyTarget paths other ∧ other < path ∧
      simplifyWorkspaceOrderPath other = simplifyWorkspaceOrderPath path)

theorem withoutPath_migrated (paths : List (List Char)) (document : WorkspaceDocument) :
    { atOrderTarget documentPath paths (atLegacyTarget documentPath document) with
      virtualPath := [] } = { document with virtualPath := [] } := by
  rw [atOrderTarget, atLegacyTarget]
  split
  · split
    · rfl
    · rfl
  · split
    · rfl
    · rfl

theorem keepsDocuments_iff (store : Store) :
    KeepsDocuments store (openStore store) ↔ KeepsApart store.documents.keys := by
  obtain ⟨kept, isKept, isTable, _⟩ := rows_migrateLegacyPaths documentPath store.documents
  have isLength : (migrateLegacyPaths documentPath store.documents).rows.length =
      store.documents.rows.length ↔ KeepsApart store.documents.keys :=
    Table.length_of_drops moves_of_not_current (visitsAll_sortedPaths store.documents)
  have isOpened : ((openStore store).documents.rows.map fun document =>
      { document with virtualPath := [] }) =
        kept.map fun document => { document with virtualPath := [] } := by
    have isOrdered := rows_migrateOrderPaths documentPath
      (migrateLegacyPaths documentPath store.documents)
    rw [isTable, List.map_map] at isOrdered
    have isRows : (openStore store).documents.rows = _ := isOrdered
    rw [isRows, List.map_map]
    exact List.map_congr_left fun document _ => withoutPath_migrated _ document
  rw [← isLength, isTable, List.length_map, KeepsDocuments, isOpened]
  constructor
  · intro same
    have lengths := congrArg List.length same
    rwa [List.length_map, List.length_map] at lengths
  · intro same
    rw [isKept.eq_of_length same]

theorem openStore_again_iff (store : Store) : openStore (openStore store) = openStore store ↔
    Settles store.documents.keys ∧ Settles store.groups.keys := by
  have documents : migratePaths documentPath (openStore store).documents =
      (openStore store).documents ↔ Settles store.documents.keys :=
    migratePaths_again_iff.trans current_migratePaths_iff
  have groups : migratePaths groupPath (openStore store).groups = (openStore store).groups ↔
      Settles store.groups.keys :=
    migratePaths_again_iff.trans current_migratePaths_iff
  rw [← documents, ← groups]
  constructor
  · exact fun same => ⟨congrArg Store.documents same, congrArg Store.groups same⟩
  · rintro ⟨sameDocuments, sameGroups⟩
    exact congrArg₂ Store.mk sameDocuments sameGroups

/-- The row that is saved has the id of the row it replaces, or a new one. -/
theorem ids_nodup_of_upsert {now freshId virtualPath : List Char} {input : WorkspaceDocumentInput}
    {store : Store}
    (fresh : getDocument store (normalizeVirtualDocumentPath virtualPath) = none →
      freshId ∉ store.documents.rows.map WorkspaceDocument.id)
    (ids : (store.documents.rows.map WorkspaceDocument.id).Nodup) :
    ((store.documents.upsert (savedDocument now freshId (normalizeVirtualDocumentPath virtualPath)
      (getDocument store (normalizeVirtualDocumentPath virtualPath)) input)).rows.map
        WorkspaceDocument.id).Nodup := by
  cases existing : getDocument store (normalizeVirtualDocumentPath virtualPath) with
  | none =>
      have absent := existing
      rw [getDocument, normalize_normalize, Table.find?_eq_none_iff] at absent
      rw [Table.rows_upsert_of_not_mem, List.map_append]
      · apply ids.append (List.nodup_singleton _)
        simpa [savedDocument] using fresh existing
      · simpa [savedDocument] using absent
  | some document =>
      have found := existing
      rw [getDocument, normalize_normalize, Table.find?_eq_some_iff] at found
      obtain ⟨isRow, isPath⟩ := found
      rw [Table.rows_upsert_of_mem, List.map_map]
      · have sameIds : ∀ other ∈ store.documents.rows,
            (WorkspaceDocument.id ∘ fun other => if other.virtualPath =
              (savedDocument now freshId (normalizeVirtualDocumentPath virtualPath) (some document)
                input).virtualPath then savedDocument now freshId
                  (normalizeVirtualDocumentPath virtualPath) (some document) input else other)
              other = other.id := by
          intro other isOther
          rw [Function.comp]
          split
          · next samePath =>
              rw [store.documents.eq_of_key_eq isOther isRow (samePath.trans isPath.symm)]
              rfl
          · rfl
        rwa [List.map_congr_left sameIds]
      · exact List.mem_map.mpr ⟨document, isRow, isPath⟩

/-- A saved document is in the store, at its normal path. -/
theorem saved_of_putDocumentInput {now freshId virtualPath : List Char}
    {input : WorkspaceDocumentInput} {store stored : Store} {saved : WorkspaceDocument}
    (isSaved : putDocumentInput now freshId virtualPath input store = (.ok saved, stored)) :
    saved ∈ stored.documents.rows ∧
      saved.virtualPath = normalizeVirtualDocumentPath virtualPath ∧
      ((store.documents.rows.map WorkspaceDocument.id).Nodup →
        (stored.documents.rows.map WorkspaceDocument.id).Nodup) := by
  unfold putDocumentInput at isSaved
  dsimp only at isSaved
  split at isSaved
  · cases isSaved
  · next fresh =>
      split at isSaved
      · cases isSaved
      · next found =>
          cases isSaved
          obtain ⟨isRow, isPath⟩ := Table.find?_eq_some_iff.mp found
          refine ⟨isRow, isPath, ?_⟩
          apply ids_nodup_of_upsert
          rwa [not_and] at fresh

theorem found_again_iff {store : Store} {saved : WorkspaceDocument} {virtualPath : List Char}
    (isRow : saved ∈ store.documents.rows)
    (isPath : saved.virtualPath = normalizeVirtualDocumentPath virtualPath)
    (ids : (store.documents.rows.map WorkspaceDocument.id).Nodup) :
    getDocument (openStore store) virtualPath = some saved ↔
      Stays store.documents.keys saved.virtualPath := by
  obtain ⟨kept, isKept, isTable, keeps⟩ := rows_migratePaths documentPath store.documents
  have isFound : getDocument (openStore store) virtualPath = some saved ↔
      saved ∈ (migratePaths documentPath store.documents).rows := by
    rw [getDocument, ← isPath]
    exact Table.find?_eq_some_iff.trans (and_iff_left rfl)
  have remainsIff : Table.Remains simplifyWorkspaceOrderPath
      (migrateLegacyPaths documentPath store.documents).keys saved.virtualPath ↔
      (simplifyWorkspaceOrderPath saved.virtualPath = saved.virtualPath ∨
        Table.Arrives isCurrent legacyTarget store.documents.keys
          (simplifyWorkspaceOrderPath saved.virtualPath) ∨
        ∃ other, Table.Arrives isCurrent legacyTarget store.documents.keys other ∧
          other < saved.virtualPath ∧
          simplifyWorkspaceOrderPath other = simplifyWorkspaceOrderPath saved.virtualPath) := by
    simp only [Table.Remains, mem_keys_migrateLegacyPaths]
  rw [isFound, isTable, Stays, ← remainsIff]
  constructor
  · intro member
    obtain ⟨row, isKeptRow, isSaved⟩ := List.mem_map.mp member
    have sameId : row.id = saved.id := by
      rw [← isSaved]
      have sameContent := congrArg WorkspaceDocument.id
        (withoutPath_migrated (migrateLegacyPaths documentPath store.documents).keys row)
      exact sameContent.symm
    obtain rfl := List.inj_on_of_nodup_map ids (isKept.subset isKeptRow) isRow sameId
    have current : isCurrent row.virtualPath = true := by
      by_contra old
      exact key_ne_of_not_current (by simpa using old)
        (congrArg WorkspaceDocument.virtualPath isSaved)
    refine ⟨current, ?_⟩
    by_contra leaves
    rw [atLegacyTarget, if_pos current, atOrderTarget, if_neg leaves] at isSaved
    exact leaves (.inl (congrArg WorkspaceDocument.virtualPath isSaved))
  · rintro ⟨current, remains⟩
    refine List.mem_map.mpr ⟨saved, keeps saved isRow current, ?_⟩
    rw [atLegacyTarget, if_pos current, atOrderTarget, if_pos remains]

/-- Opening keeps the documents just when no two of them get in each other's way, a second time
changes nothing just when no path is one of an earlier version once it is rewritten, and a
document is found again just when its path stays. -/
theorem reopening_iff (store : Store)
    (ids : (store.documents.rows.map WorkspaceDocument.id).Nodup) :
    (KeepsDocuments store (openStore store) ↔ KeepsApart store.documents.keys) ∧
    (openStore (openStore store) = openStore store ↔
      Settles store.documents.keys ∧ Settles store.groups.keys) ∧
    ∀ now freshId virtualPath input saved stored,
      putDocumentInput now freshId virtualPath input store = (.ok saved, stored) →
      (getDocument (openStore stored) virtualPath = some saved ↔
        Stays stored.documents.keys (normalizeVirtualDocumentPath virtualPath)) := by
  refine ⟨keepsDocuments_iff store, openStore_again_iff store, ?_⟩
  intro now freshId virtualPath input saved stored isSaved
  obtain ⟨isRow, isPath, keepsIds⟩ := saved_of_putDocumentInput isSaved
  rw [← isPath]
  exact found_again_iff isRow isPath (keepsIds ids)

/-- A note in a folder, with an order number. -/
def orderedStore : Store where
  documents := ⟨[noteAt "/work/0001-plan".toList], by decide⟩
  groups := ⟨[folderAt "/work".toList], by decide⟩

theorem reopens_ordered :
    KeepsDocuments orderedStore (openStore orderedStore) ∧
      openStore (openStore orderedStore) = openStore orderedStore := by
  obtain ⟨keeps, settles, _⟩ := reopening_iff orderedStore (by decide)
  exact ⟨keeps.mpr (by decide +kernel), settles.mpr (by decide +kernel)⟩

/-- A note of an earlier version, and one where it would go. -/
def collidingStore : Store where
  documents := ⟨[{ noteAt "/local/plan".toList with id := ['1'] },
    { noteAt "/plan".toList with id := ['2'] }], by decide⟩
  groups := ⟨[], by decide⟩

/-- Opening deletes a document. -/
theorem reopening_loses_document : ¬ ∀ store : Store,
    (store.documents.rows.map WorkspaceDocument.id).Nodup →
      KeepsDocuments store (openStore store) ∧
      openStore (openStore store) = openStore store ∧
      ∀ now freshId virtualPath input saved stored,
        putDocumentInput now freshId virtualPath input store = (.ok saved, stored) →
        getDocument (openStore stored) virtualPath = some saved := by
  intro all
  have keeps := (all collidingStore (by decide)).1
  exact absurd ((keepsDocuments_iff collidingStore).mp keeps) (by decide +kernel)

end Yggterm.Workspace
