import Yggterm.CwdTree.Placement
import Yggterm.CwdTree.Rows

/-!
# Which rows reach the tree

A document shows as a row without children, so whatever lies at or below its segments is
not shown; and of several things at the same segments the last one takes the place of the
others.  These are the only losses.
-/

namespace Yggterm.CwdTree

open Ownership Paths Text Tries Workspace

/-! ## Reading the walk -/

section Walk

variable {Value : Type} {field : NodeData → Option Value}
  {forest : Forest (List Char) NodeData}

theorem mem_walked {value : Value} :
    value ∈ walked (fun node => (field node).toList) forest ↔
      ∃ path node, (path, node) ∈ forest.walk hasDocument ∧ field node = some value := by
  simp [walked, List.mem_flatMap]

/-- A field whose values know their paths takes each value once. -/
theorem nodup_walked (sorted : forest.Sorted) {place : Value → List (List Char)}
    (placed : ∀ path node value, forest.at? path = some node → field node = some value →
      place value = path) : (walked (fun node => (field node).toList) forest).Nodup := by
  rw [walked, ← List.filterMap_eq_flatMap_toList, List.Nodup, List.pairwise_filterMap]
  have paths : ((forest.walk hasDocument).map Prod.fst).Nodup := Forest.nodup_walk sorted
  have distinct := List.pairwise_map.mp paths
  apply distinct.imp_of_mem
  rintro ⟨path, node⟩ ⟨otherPath, other⟩ member otherMember different value isValue _ isOther rfl
  apply different
  have atPath := ((Forest.mem_walk sorted).mp member).1
  have atOther := ((Forest.mem_walk sorted).mp otherMember).1
  exact (placed path node value atPath isValue).symm.trans
    (placed otherPath other value atOther isOther)

/-- What the walk shows of a field is all of a list, once each. -/
theorem walked_perm (sorted : forest.Sorted) {items : List Value} (nodup : items.Nodup)
    {place : Value → List (List Char)}
    (placed : ∀ path node value, forest.at? path = some node → field node = some value →
      place value = path ∧ value ∈ items)
    (shown : ∀ item ∈ items, ∃ path node, (path, node) ∈ forest.walk hasDocument ∧
      field node = some item) : (walked (fun node => (field node).toList) forest).Perm items := by
  apply (List.perm_ext_iff_of_nodup _ nodup).mpr
  · intro value
    rw [mem_walked]
    constructor
    · rintro ⟨path, node, member, isValue⟩
      exact (placed path node value ((Forest.mem_walk sorted).mp member).1 isValue).2
    · exact shown value
  · exact nodup_walked sorted fun path node value isNode isValue =>
      (placed path node value isNode isValue).1

end Walk

/-! ## The rows of the build -/

/-- A reader of rows reads of every node on the walk what it has of something. -/
theorem filterMap_walked {Value : Type} {read : SessionRow × Nat → Option Value}
    {value : NodeData → List Value}
    (reads : ∀ node, (nodeRows node).filterMap read = value node)
    (forest : Forest (List Char) NodeData) :
    (walked nodeRows forest).filterMap read = walked value forest := by
  rw [walked, List.filterMap_flatMap, walked]
  exact List.flatMap_congr fun entry _ => reads entry.2

theorem walked_map {Value Result : Type} (value : NodeData → List Value) (map : Value → Result)
    (forest : Forest (List Char) NodeData) :
    walked (fun node => (value node).map map) forest = (walked value forest).map map := by
  rw [walked, walked, List.map_flatMap]

theorem OfContent.map {Value Result : Type} {value : NodeData → List Value}
    (ofContent : OfContent value) (map : Value → Result) :
    OfContent fun node => (value node).map map where
  blank node noProject noTitle noDocument := by
    rw [ofContent.blank node noProject noTitle noDocument, List.map_nil]
  merged node child name fullPath noTitle childTitle := by
    rw [ofContent.merged node child name fullPath noTitle childTitle]

def readSession (entry : SessionRow × Nat) : Option (SessionRow × Nat) :=
  Option.guard (fun entry => entry.1.kind = .codexSession) entry

def readDocument (entry : SessionRow × Nat) : Option (SessionRow × Nat) :=
  Option.guard (fun entry => entry.1.kind = .document) entry

def readGroup (entry : SessionRow × Nat) :
    Option (List Char × Option WorkspaceGroupKind × List Char) :=
  if entry.1.kind = .group then
    entry.1.title.map fun title => (title, entry.1.groupKind, entry.1.path)
  else none

theorem filterMap_readSession (node : NodeData) :
    (nodeRows node).filterMap readSession =
      (shownSessions node).map fun leaf => (leafRow leaf, 0) := by
  cases isDocument : node.document with
  | some document => simp [nodeRows, isDocument, shownSessions, readSession, documentRow]
  | none =>
      have leaves : (readSession ∘ fun leaf => (leafRow leaf, 0)) =
          some ∘ fun leaf => (leafRow leaf, 0) := rfl
      have group : readSession (groupRow node, 0) = none := rfl
      rw [nodeRows, isDocument, List.filterMap_cons, group, List.filterMap_map, leaves,
        List.filterMap_eq_map, shownSessions, if_pos isDocument]

theorem filterMap_readDocument (node : NodeData) :
    (nodeRows node).filterMap readDocument =
      (shownDocuments node).map fun document => (documentRow document, 0) := by
  cases isDocument : node.document with
  | some document => simp [nodeRows, isDocument, shownDocuments, readDocument, documentRow]
  | none =>
      have leaves : (readDocument ∘ fun leaf => (leafRow leaf, 0)) = fun _ => none := rfl
      have group : readDocument (groupRow node, 0) = none := rfl
      rw [nodeRows, isDocument, List.filterMap_cons, group, List.filterMap_map, leaves,
        shownDocuments, isDocument]
      simp

theorem filterMap_readGroup (node : NodeData) :
    (nodeRows node).filterMap readGroup = shownGroups node := by
  cases isDocument : node.document with
  | some document => simp [nodeRows, isDocument, shownGroups, readGroup, documentRow]
  | none =>
      have leaves : (readGroup ∘ fun leaf => (leafRow leaf, 0)) = fun _ => none := rfl
      rw [nodeRows, isDocument, List.filterMap_cons, List.filterMap_map, leaves]
      cases isTitle : node.explicitTitle <;>
        simp [isDocument, isTitle, shownGroups, readGroup, groupRow]

section Build

variable {durable : List StartpageDurableRow} {documents : List WorkspaceDocumentSummary}
  {groups : List WorkspaceGroup}

theorem isSome_buildLocalCwdTree :
    (buildLocalCwdTree durable documents groups).isSome = true ↔
      Named (walked shownSessions (assembledTree durable documents groups).children) := by
  rw [buildLocalCwdTree, codexBrowserTreeToSessionNode, isSome_nodeToSessionNode,
    compressCodexBrowserTree, data_assembledTree, isSome_childrenToSessionNodes,
    walked_compressChildren ofContent_shownSessions]
  exact ⟨fun built => built.2 rfl, fun named => ⟨nofun, fun _ => named⟩⟩

/-- A reader of the tree reads its root and what the walk comes by. -/
theorem filterMap_rows {Value : Type} {read : SessionRow × Nat → Option Value}
    (blind : ∀ row count, row.kind = .group → read (row, count) = read (row, 0))
    {value : NodeData → List Value} (reads : ∀ node, (nodeRows node).filterMap read = value node)
    (ofContent : OfContent value) {tree : SessionNode}
    (isBuilt : buildLocalCwdTree durable documents groups = some tree) :
    (tree.rows.filterMap read).Perm ((read (groupRow treeRoot.data, 0)).toList ++
      walked value (assembledTree durable documents groups).children) := by
  rw [buildLocalCwdTree, codexBrowserTreeToSessionNode, compressCodexBrowserTree,
    data_assembledTree, nodeToSessionNode_eq_some_iff rfl] at isBuilt
  obtain ⟨below, isBelow, _, rfl⟩ := isBuilt
  have rows := filterMap_allRows blind isBelow
  rw [filterMap_walked reads, walked_compressChildren ofContent] at rows
  have sorted := (allRows_perm (List.mergeSort_perm below cmpBrowserChildNode)).filterMap read
  have noSessions : projectSessions treeRoot.data = [] := rfl
  rw [noSessions, List.map_nil, List.map_nil, List.append_nil, SessionNode.rows,
    List.filterMap_cons,
    blind _ _ rfl]
  cases read (groupRow treeRoot.data, 0) with
  | none => exact sorted.trans rows
  | some value => exact (sorted.trans rows).cons value

end Build

/-! ## What the walk comes by -/

section Content

variable {durable : List StartpageDurableRow} {documents : List WorkspaceDocumentSummary}
  {groups : List WorkspaceGroup} {path : List (List Char)} {node : NodeData}

theorem fieldAt_of_at? {Value : Type} (field : NodeData → Option Value)
    (isNode : (assembledTree durable documents groups).children.at? path = some node) :
    path ≠ [] ∧ (assembledTree durable documents groups).fieldAt field path = field node := by
  have nonempty : path ≠ [] := by
    rintro rfl
    cases isNode
  rw [Forest.at?_eq _ nonempty] at isNode
  exact ⟨nonempty, by rw [Trie.fieldAt, isNode, Option.bind_some]⟩

theorem exists_at?_of_fieldAt {Value : Type} {field : NodeData → Option Value} {value : Value}
    (nonempty : path ≠ [])
    (isValue : (assembledTree durable documents groups).fieldAt field path = some value) :
    ∃ node, (assembledTree durable documents groups).children.at? path = some node ∧
      field node = some value := by
  rw [Forest.at?_eq _ nonempty]
  exact Option.bind_eq_some_iff.mp isValue

theorem document_of_at?
    (isNode : (assembledTree durable documents groups).children.at? path = some node) :
    node.document = Trie.lastAt documentSegments documents path := by
  obtain ⟨nonempty, isField⟩ := fieldAt_of_at? NodeData.document isNode
  rw [← isField, documentAt_assembledTree _ _ _ nonempty]

theorem project_of_at?
    (isNode : (assembledTree durable documents groups).children.at? path = some node) :
    node.project = Trie.lastAt bucketSegments (buckets (durable.map summary)) path := by
  obtain ⟨nonempty, isField⟩ := fieldAt_of_at? NodeData.project isNode
  rw [← isField, projectAt_assembledTree _ _ _ nonempty]

/-- The walk reaches the paths that lie below no document. -/
theorem reached_iff : (assembledTree durable documents groups).children.Reached hasDocument path ↔
    ∀ document ∈ documents, documentSegments document <+: path →
      documentSegments document = path := by
  constructor
  · intro reached document member above
    by_contra different
    cases isLast : Trie.lastAt documentSegments documents (documentSegments document) with
    | none => exact Trie.lastAt_eq_none_iff.mp isLast document member rfl
    | some last =>
        have nonempty : documentSegments document ≠ [] := browserTreeSegments_ne_nil _
        obtain ⟨upper, isUpper, isDocument⟩ := exists_at?_of_fieldAt nonempty
          ((documentAt_assembledTree durable documents groups nonempty).trans isLast)
        have goesOn := reached _ above different upper isUpper
        simp [hasDocument, isDocument] at goesOn
  · intro clear upper above different other isOther
    cases isDocument : other.document with
    | none => simp [hasDocument, isDocument]
    | some document =>
        rw [document_of_at? isOther] at isDocument
        obtain ⟨member, isPlace⟩ := Trie.mem_of_lastAt isDocument
        exact absurd (isPlace.symm.trans (clear document member (isPlace ▸ above))) different

/-- No document lies at the path or above it. -/
def Clear (documents : List WorkspaceDocumentSummary) (path : List (List Char)) : Prop :=
  ∀ document ∈ documents, ¬ documentSegments document <+: path

instance (documents : List WorkspaceDocumentSummary) (path : List (List Char)) :
    Decidable (Clear documents path) :=
  inferInstanceAs (Decidable (∀ document ∈ documents, _))

theorem clear_iff
    (isNode : (assembledTree durable documents groups).children.at? path = some node) :
    Clear documents path ↔
      (assembledTree durable documents groups).children.Reached hasDocument path ∧
        node.document = none := by
  rw [reached_iff, document_of_at? isNode, Trie.lastAt_eq_none_iff]
  constructor
  · intro clear
    exact ⟨fun document member above => absurd above (clear document member),
      fun document member same => clear document member (same ▸ List.prefix_refl _)⟩
  · rintro ⟨reached, notHere⟩ document member above
    exact notHere document member (reached document member above)

end Content

/-! ## What the tree should show, and when it does -/

def sessionSegments (row : StartpageDurableRow) : List (List Char) :=
  browserTreeSegments (normalizeCodexCwd row.cwd)

/-- The row of a session, under its own directory. -/
def sessionLeaf (row : StartpageDurableRow) : SessionRow :=
  leafRow ((summary row).cwd, summary row)

/-- A tree that shows every session once as a leaf, every document once, and every group as
a titled node. -/
structure LosesNothing (durable : List StartpageDurableRow)
    (documents : List WorkspaceDocumentSummary) (groups : List WorkspaceGroup)
    (tree : SessionNode) : Prop where
  sessionRows : (tree.rows.filter fun entry => entry.1.kind = .codexSession).Perm
    (durable.map fun row => (sessionLeaf row, 0))
  documentRows : (tree.rows.filter fun entry => entry.1.kind = .document).Perm
    (documents.map fun document => (documentRow document, 0))
  groupRows : ∀ group ∈ groups, ∃ entry ∈ tree.rows, entry.1.kind = .group ∧
    entry.1.title = some group.title ∧ entry.1.groupKind = some group.kind ∧
    entry.1.path = browserPath (groupSegments group)

/-- No id of a session is cut inside a character, nothing lies at or below a document,
directories with the same segments are the same, and every group or one that looks like it
is the last with its segments. -/
structure KeptApart (durable : List StartpageDurableRow)
    (documents : List WorkspaceDocumentSummary) (groups : List WorkspaceGroup) : Prop where
  ids : ∀ row ∈ durable, (shortSessionId row.sessionId).isSome = true
  sessionsClear : ∀ row ∈ durable, Clear documents (sessionSegments row)
  directories : ∀ row ∈ durable, ∀ other ∈ durable, sessionSegments row = sessionSegments other →
    normalizeCodexCwd row.cwd = normalizeCodexCwd other.cwd
  documentsApart : ∀ document ∈ documents, ∀ other ∈ documents,
    documentSegments document <+: documentSegments other → document = other
  groupsLast : ∀ group ∈ groups, ∃ other, Trie.lastAt groupSegments groups (groupSegments other) =
    some other ∧ Clear documents (groupSegments other) ∧ other.title = group.title ∧
    other.kind = group.kind ∧ browserPath (groupSegments other) = browserPath (groupSegments group)

section Claim

variable {durable : List StartpageDurableRow} {documents : List WorkspaceDocumentSummary}
  {groups : List WorkspaceGroup}

/-- The bucket that a node shows. -/
def shownBucket (node : NodeData) : Option LocalAgentProjectBucket :=
  if node.document = none then node.project else none

theorem walked_shownSessions (forest : Forest (List Char) NodeData) :
    walked shownSessions forest =
      bucketLeaves (walked (fun node => (shownBucket node).toList) forest) := by
  rw [walked, walked, bucketLeaves, List.flatMap_assoc]
  apply List.flatMap_congr
  rintro ⟨path, node⟩ _
  cases isDocument : node.document <;> cases isProject : node.project <;>
    simp [shownSessions, shownBucket, projectSessions, isDocument, isProject]

theorem lastAt_of_shownBucket {path : List (List Char)} {node : NodeData}
    {bucket : LocalAgentProjectBucket}
    (isNode : (assembledTree durable documents groups).children.at? path = some node)
    (isBucket : shownBucket node = some bucket) :
    node.document = none ∧
      Trie.lastAt bucketSegments (buckets (durable.map summary)) path = some bucket := by
  rw [shownBucket] at isBucket
  split at isBucket
  · next bare => exact ⟨bare, (project_of_at? isNode).symm.trans isBucket⟩
  · cases isBucket

theorem mem_shownBuckets {bucket : LocalAgentProjectBucket} :
    bucket ∈ walked (fun node => (shownBucket node).toList)
        (assembledTree durable documents groups).children ↔
      Trie.lastAt bucketSegments (buckets (durable.map summary)) (bucketSegments bucket) =
        some bucket ∧ Clear documents (bucketSegments bucket) := by
  have sorted := sorted_assembledTree durable documents groups
  rw [mem_walked]
  constructor
  · rintro ⟨path, node, member, isBucket⟩
    obtain ⟨isNode, reached⟩ := (Forest.mem_walk sorted).mp member
    obtain ⟨bare, isLast⟩ := lastAt_of_shownBucket isNode isBucket
    obtain ⟨_, isPath⟩ := Trie.mem_of_lastAt isLast
    rw [isPath]
    exact ⟨isLast, (clear_iff isNode).mpr ⟨reached, bare⟩⟩
  · rintro ⟨isLast, clear⟩
    have nonempty : bucketSegments bucket ≠ [] := browserTreeSegments_ne_nil _
    obtain ⟨node, isNode, isProject⟩ := exists_at?_of_fieldAt nonempty
      ((projectAt_assembledTree durable documents groups nonempty).trans isLast)
    obtain ⟨reached, bare⟩ := (clear_iff isNode).mp clear
    refine ⟨bucketSegments bucket, node, (Forest.mem_walk sorted).mpr ⟨isNode, reached⟩, ?_⟩
    rw [shownBucket, if_pos bare, isProject]

theorem mem_shownGroups {title path : List Char} {kind : WorkspaceGroupKind} :
    (title, some kind,
      path) ∈ walked shownGroups (assembledTree durable documents groups).children ↔
      ∃ group, Trie.lastAt groupSegments groups (groupSegments group) = some group ∧
        Clear documents (groupSegments group) ∧ group.title = title ∧ group.kind = kind ∧
        browserPath (groupSegments group) = path := by
  have sorted := sorted_assembledTree durable documents groups
  have fullPath : ∀ {segments node},
      (assembledTree durable documents groups).children.at? segments = some node →
        node.fullPath = browserPath segments := by
    intro segments node isNode
    rw [Forest.at?_eq _ (fieldAt_of_at? NodeData.document isNode).1] at isNode
    have isPlace := placed_assembledTree durable documents groups segments node isNode
    rwa [data_assembledTree] at isPlace
  rw [walked, List.mem_flatMap]
  constructor
  · rintro ⟨⟨segments, node⟩, member, isGroup⟩
    obtain ⟨isNode, reached⟩ := (Forest.mem_walk sorted).mp member
    cases bare : node.document with
    | some document => simp [shownGroups, bare] at isGroup
    | none =>
        cases isTitle : node.explicitTitle with
        | none => simp [shownGroups, bare, isTitle] at isGroup
        | some own =>
            simp only [shownGroups, bare, isTitle, List.mem_singleton, Prod.mk.injEq] at isGroup
            obtain ⟨rfl, isKind, rfl⟩ := isGroup
            obtain ⟨nonempty, kindField⟩ := fieldAt_of_at? NodeData.groupKind isNode
            rw [groupKindAt_assembledTree _ _ _ nonempty, ← isKind,
              Option.map_eq_some_iff] at kindField
            obtain ⟨group, isLast, sameKind⟩ := kindField
            obtain ⟨_, isSegments⟩ := Trie.mem_of_lastAt isLast
            have titleField := (fieldAt_of_at? NodeData.explicitTitle isNode).2
            rw [titleAt_assembledTree _ _ _ isLast, isTitle] at titleField
            refine ⟨group, by rw [isSegments, isLast], ?_, Option.some.inj titleField, sameKind, ?_⟩
            · rw [isSegments]
              exact (clear_iff isNode).mpr ⟨reached, bare⟩
            · rw [isSegments, fullPath isNode]
  · rintro ⟨group, isLast, clear, rfl, rfl, rfl⟩
    have nonempty : groupSegments group ≠ [] := browserTreeSegments_ne_nil _
    obtain ⟨node, isNode, isTitle⟩ := exists_at?_of_fieldAt nonempty
      (titleAt_assembledTree durable documents groups isLast)
    obtain ⟨reached, bare⟩ := (clear_iff isNode).mp clear
    have kindField := (fieldAt_of_at? NodeData.groupKind isNode).2
    rw [groupKindAt_assembledTree _ _ _ nonempty, isLast] at kindField
    refine ⟨(_, node), (Forest.mem_walk sorted).mpr ⟨isNode, reached⟩, ?_⟩
    simp [shownGroups, bare, isTitle, ← kindField, fullPath isNode]

theorem mem_bucketLeaves {projects : List LocalAgentProjectBucket}
    {leaf : List Char × LocalAgentSessionSummary} :
    leaf ∈ bucketLeaves projects ↔
      ∃ bucket ∈ projects, leaf.2 ∈ bucket.sessions ∧ bucket.cwd = leaf.1 := by
  obtain ⟨cwd, session⟩ := leaf
  simp [bucketLeaves]

/-- A bucket holds sessions of the scan, of its own directory. -/
theorem exists_row_of_mem_buckets {bucket : LocalAgentProjectBucket}
    (member : bucket ∈ buckets (durable.map summary)) :
    ∃ row ∈ durable, normalizeCodexCwd row.cwd = bucket.cwd := by
  obtain ⟨session, isSession⟩ := List.exists_mem_of_ne_nil _
    ((sorted_buckets (durable.map summary)).inhabited bucket member)
  have isLeaf : (bucket.cwd, session) ∈ bucketLeaves (buckets (durable.map summary)) :=
    mem_bucketLeaves.mpr ⟨bucket, member, isSession, rfl⟩
  rw [(perm_buckets (durable.map summary)).mem_iff, List.map_map, List.mem_map] at isLeaf
  obtain ⟨row, isRow, same⟩ := isLeaf
  exact ⟨row, isRow, congrArg Prod.fst same⟩

/-- The sessions of the tree are those of the scan. -/
theorem KeptApart.perm_sessions (apart : KeptApart durable documents groups) :
    (walked shownSessions (assembledTree durable documents groups).children).Perm
      (durable.map fun row => ((summary row).cwd, summary row)) := by
  have sortedBuckets := sorted_buckets (durable.map summary)
  have shown : (walked (fun node => (shownBucket node).toList)
      (assembledTree durable documents groups).children).Perm (buckets (durable.map summary)) := by
    apply (List.perm_ext_iff_of_nodup ?_ sortedBuckets.nodup).mpr
    · intro bucket
      rw [mem_shownBuckets]
      constructor
      · exact fun shown => (Trie.mem_of_lastAt shown.1).1
      · intro member
        obtain ⟨row, isRow, isCwd⟩ := exists_row_of_mem_buckets member
        refine ⟨?_, ?_⟩
        · cases isLast : Trie.lastAt bucketSegments (buckets (durable.map summary))
            (bucketSegments bucket) with
          | none => exact absurd rfl (Trie.lastAt_eq_none_iff.mp isLast bucket member)
          | some last =>
              obtain ⟨isBucket, sameSegments⟩ := Trie.mem_of_lastAt isLast
              obtain ⟨other, isOther, otherCwd⟩ := exists_row_of_mem_buckets isBucket
              have sameCwd := apart.directories other isOther row isRow (by
                rw [sessionSegments, sessionSegments, isCwd, otherCwd]
                exact sameSegments)
              rw [sortedBuckets.eq_of_cwd_eq isBucket member (by rw [← otherCwd, sameCwd, isCwd])]
        · rw [bucketSegments, ← isCwd]
          exact apart.sessionsClear row isRow
    · apply nodup_walked (sorted_assembledTree durable documents groups)
      intro path node bucket isNode isBucket
      exact (Trie.mem_of_lastAt (lastAt_of_shownBucket isNode isBucket).2).2
  rw [walked_shownSessions]
  apply (shown.flatMap_right _).trans
  have all := perm_buckets (durable.map summary)
  rwa [List.map_map] at all

theorem KeptApart.perm_documents (apart : KeptApart durable documents groups)
    (distinct : (documents.map WorkspaceDocumentSummary.virtualPath).Nodup) :
    (walked shownDocuments (assembledTree durable documents groups).children).Perm documents := by
  have sorted := sorted_assembledTree durable documents groups
  apply walked_perm sorted (List.Nodup.of_map _ distinct)
  · intro path node document isNode isDocument
    exact (Trie.mem_of_lastAt ((document_of_at? isNode).symm.trans isDocument)).symm
  · intro document member
    cases isLast : Trie.lastAt documentSegments documents (documentSegments document) with
    | none => exact absurd rfl (Trie.lastAt_eq_none_iff.mp isLast document member)
    | some last =>
        obtain ⟨isDocument, sameSegments⟩ := Trie.mem_of_lastAt isLast
        obtain rfl := apart.documentsApart last isDocument document member
          (sameSegments ▸ List.prefix_refl _)
        have nonempty : documentSegments last ≠ [] := browserTreeSegments_ne_nil _
        obtain ⟨node, isNode, isField⟩ := exists_at?_of_fieldAt nonempty
          ((documentAt_assembledTree durable documents groups nonempty).trans isLast)
        refine ⟨_, node, (Forest.mem_walk sorted).mpr ⟨isNode, reached_iff.mpr ?_⟩, isField⟩
        intro other isOther above
        rw [apart.documentsApart other isOther last member above]

theorem sessionRows_perm {tree : SessionNode}
    (isBuilt : buildLocalCwdTree durable documents groups = some tree) :
    (tree.rows.filter fun entry => entry.1.kind = .codexSession).Perm
      ((walked shownSessions (assembledTree durable documents groups).children).map
        fun leaf => (leafRow leaf, 0)) := by
  have blind :
      ∀ row count, row.kind = .group → readSession (row, count) = readSession (row, 0) := by
    intro row count isGroup
    simp [readSession, Option.guard, isGroup]
  have rows := filterMap_rows blind filterMap_readSession
    (ofContent_shownSessions.map fun leaf => (leafRow leaf, 0)) isBuilt
  rw [walked_map] at rows
  rw [← List.filterMap_eq_filter]
  exact rows

theorem documentRows_perm {tree : SessionNode}
    (isBuilt : buildLocalCwdTree durable documents groups = some tree) :
    (tree.rows.filter fun entry => entry.1.kind = .document).Perm
      ((walked shownDocuments (assembledTree durable documents groups).children).map
        fun document => (documentRow document, 0)) := by
  have blind : ∀ row count, row.kind = .group →
      readDocument (row, count) = readDocument (row, 0) := by
    intro row count isGroup
    simp [readDocument, Option.guard, isGroup]
  have rows := filterMap_rows blind filterMap_readDocument
    (ofContent_shownDocuments.map fun document => (documentRow document, 0)) isBuilt
  rw [walked_map] at rows
  rw [← List.filterMap_eq_filter]
  exact rows

theorem head?_browserTreeChildPath {parent : List Char} (isAbsolute : parent.head? = some '/')
    (segment : List Char) : (browserTreeChildPath parent segment).head? = some '/' := by
  obtain ⟨rest, rfl⟩ := List.head?_eq_some_iff.mp isAbsolute
  have notLocal : '/' :: rest ≠ "local".toList := by simp
  rw [browserTreeChildPath, if_neg (fun both => notLocal both.1), if_neg notLocal]
  split
  · cases isShort : ('/' :: rest).rdropWhile (· = '/') with
    | nil => rfl
    | cons first others =>
        have front := List.rdropWhile_prefix (fun char => decide (char = '/')) ('/' :: rest)
        rw [isShort] at front
        rw [(List.cons_prefix_cons.mp front).1]
        rfl
  · split <;> rfl

/-- No node below the root has its path. -/
theorem browserPath_ne_local (cwd : List Char) :
    browserPath (browserTreeSegments cwd) ≠ "local".toList := by
  have absolute : ∀ (segments : List (List Char)) (parent : List Char),
      parent.head? = some '/' → (segments.foldl browserTreeChildPath parent).head? = some '/' := by
    intro segments
    induction segments with
    | nil => exact fun parent isAbsolute => isAbsolute
    | cons segment rest inductionHypothesis =>
        exact fun parent isAbsolute =>
          inductionHypothesis _ (head?_browserTreeChildPath isAbsolute segment)
  have slash : browserTreeChildPath "local".toList "/".toList = ['/'] := by decide
  have root : browserTreeChildPath "local".toList "/root".toList = "/root".toList := by decide
  intro same
  have isHead : (browserPath (browserTreeSegments cwd)).head? = some '/' := by
    rw [browserPath, browserTreeSegments]
    split
    · rw [List.foldl_cons, slash]; rfl
    · split
      · rw [List.foldl_cons, root]; rfl
      · split
        · rw [List.foldl_cons, root]
          exact absolute _ _ rfl
        · rw [List.foldl_cons, slash]
          exact absolute _ _ rfl
  rw [same] at isHead
  cases isHead

theorem exists_groupRow_iff {tree : SessionNode}
    (isBuilt : buildLocalCwdTree durable documents groups = some tree) (group : WorkspaceGroup) :
    (∃ entry ∈ tree.rows, entry.1.kind = .group ∧ entry.1.title = some group.title ∧
      entry.1.groupKind = some group.kind ∧ entry.1.path = browserPath (groupSegments group)) ↔
    ∃ other, Trie.lastAt groupSegments groups (groupSegments other) = some other ∧
      Clear documents (groupSegments other) ∧ other.title = group.title ∧
      other.kind = group.kind ∧
      browserPath (groupSegments other) = browserPath (groupSegments group) := by
  have blind : ∀ row count, row.kind = .group → readGroup (row, count) = readGroup (row, 0) :=
    fun _ _ _ => rfl
  have rows := filterMap_rows blind filterMap_readGroup ofContent_shownGroups isBuilt
  have root : (readGroup (groupRow treeRoot.data, 0)).toList =
      [("local".toList, some .folder, "local".toList)] := rfl
  have notRoot : (group.title, some group.kind, browserPath (groupSegments group)) ∉
      [("local".toList, some WorkspaceGroupKind.folder, "local".toList)] := by
    intro isRoot
    exact browserPath_ne_local _ (congrArg (fun entry => entry.2.2) (List.mem_singleton.mp isRoot))
  rw [root] at rows
  have shown : (group.title, some group.kind, browserPath (groupSegments group)) ∈
      tree.rows.filterMap readGroup ↔ _ :=
    rows.mem_iff.trans (List.mem_append.trans (or_iff_right notRoot))
  rw [← mem_shownGroups, ← shown, List.mem_filterMap]
  refine exists_congr fun entry => and_congr_right fun _ => ?_
  rw [readGroup]
  split
  · next isGroup =>
      rw [Option.map_eq_some_iff]
      constructor
      · rintro ⟨_, isTitle, isKind, isPath⟩
        exact ⟨group.title, isTitle, by rw [isKind, isPath]⟩
      · rintro ⟨title, isTitle, same⟩
        obtain ⟨rfl, isKind, isPath⟩ := by simpa only [Prod.mk.injEq] using same
        exact ⟨isGroup, isTitle, isKind, isPath⟩
  · next other => exact ⟨fun both => absurd both.1 other, nofun⟩

/-! ## Both directions -/

section Lost

variable {tree : SessionNode} (isBuilt : buildLocalCwdTree durable documents groups = some tree)
  (loses : LosesNothing durable documents groups tree)

include isBuilt loses

/-- The row of a session is a leaf of the walk, under the normalized directory. -/
theorem LosesNothing.leafOf {row : StartpageDurableRow} (member : row ∈ durable) :
    ∃ leaf ∈ walked shownSessions (assembledTree durable documents groups).children,
      leaf.1 = normalizeCodexCwd row.cwd ∧ leaf.2.sessionId = row.sessionId := by
  have sessions := (sessionRows_perm isBuilt).symm.trans loses.sessionRows
  obtain ⟨leaf, isWalked, same⟩ :=
    List.mem_map.mp (sessions.mem_iff.mpr (List.mem_map_of_mem member))
  exact ⟨leaf, isWalked, Option.some.inj (congrArg (fun entry => entry.1.cwd) same),
    Option.some.inj (congrArg (fun entry => entry.1.sessionId) same)⟩

/-- The bucket of a session is the last with its segments, and shown. -/
theorem LosesNothing.bucketOf {row : StartpageDurableRow} (member : row ∈ durable) :
    ∃ bucket, bucket.cwd = normalizeCodexCwd row.cwd ∧
      Trie.lastAt bucketSegments (buckets (durable.map summary)) (sessionSegments row) =
        some bucket ∧ Clear documents (sessionSegments row) := by
  obtain ⟨⟨cwd, session⟩, isWalked, isDirectory, _⟩ := loses.leafOf isBuilt member
  obtain rfl : cwd = normalizeCodexCwd row.cwd := isDirectory
  rw [walked_shownSessions, mem_bucketLeaves] at isWalked
  obtain ⟨bucket, isShown, _, isCwd⟩ := isWalked
  obtain ⟨isLast, clear⟩ := mem_shownBuckets.mp isShown
  rw [bucketSegments, isCwd] at isLast clear
  exact ⟨bucket, isCwd, isLast, clear⟩

variable (distinct : (documents.map WorkspaceDocumentSummary.virtualPath).Nodup)

include distinct

/-- A document is the last with its segments, and none lies above it. -/
theorem LosesNothing.documentOf {document : WorkspaceDocumentSummary}
    (member : document ∈ documents) :
    Trie.lastAt documentSegments documents (documentSegments document) = some document ∧
      ∀ other ∈ documents, documentSegments other <+: documentSegments document →
        documentSegments other = documentSegments document := by
  have documentsShown := (documentRows_perm isBuilt).symm.trans loses.documentRows
  have isRow := documentsShown.mem_iff.mpr (List.mem_map_of_mem member)
  obtain ⟨shown, isWalked, same⟩ := List.mem_map.mp isRow
  obtain ⟨path, node, isEntry, isDocument⟩ := mem_walked.mp isWalked
  obtain ⟨isNode, reached⟩ := (Forest.mem_walk
    (sorted_assembledTree durable documents groups)).mp isEntry
  have isLast := (document_of_at? isNode).symm.trans isDocument
  obtain ⟨isShown, rfl⟩ := Trie.mem_of_lastAt isLast
  obtain rfl : shown = document := List.inj_on_of_nodup_map distinct isShown member
    (congrArg (fun entry => entry.1.path) same)
  exact ⟨isLast, reached_iff.mp reached⟩

theorem LosesNothing.keptApart : KeptApart durable documents groups := by
  constructor
  case ids =>
    intro row member
    obtain ⟨leaf, isWalked, _, sameId⟩ := loses.leafOf isBuilt member
    have named := isSome_buildLocalCwdTree.mp (Option.isSome_iff_exists.mpr ⟨tree, isBuilt⟩)
    rw [← sameId]
    exact named leaf isWalked
  case sessionsClear =>
    intro row member
    obtain ⟨_, _, _, clear⟩ := loses.bucketOf isBuilt member
    exact clear
  case directories =>
    intro row member other isOther same
    obtain ⟨bucket, isCwd, isLast, _⟩ := loses.bucketOf isBuilt member
    obtain ⟨otherBucket, otherCwd, isOtherLast, _⟩ := loses.bucketOf isBuilt isOther
    rw [same, isOtherLast] at isLast
    rw [← isCwd, ← otherCwd, Option.some.inj isLast]
  case documentsApart =>
    intro document member other isOther above
    have otherLast := loses.documentOf isBuilt distinct isOther
    have isDocument := (loses.documentOf isBuilt distinct member).1
    rw [otherLast.2 document member above, otherLast.1] at isDocument
    exact (Option.some.inj isDocument).symm
  case groupsLast =>
    exact fun group member =>
      (exists_groupRow_iff isBuilt group).mp (loses.groupRows group member)

end Lost

theorem KeptApart.losesNothing (apart : KeptApart durable documents groups)
    (distinct : (documents.map WorkspaceDocumentSummary.virtualPath).Nodup) :
    ∃ tree, buildLocalCwdTree durable documents groups = some tree ∧
      LosesNothing durable documents groups tree := by
  have named :
      Named (walked shownSessions (assembledTree durable documents groups).children) := by
    intro leaf member
    obtain ⟨row, isRow, rfl⟩ := List.mem_map.mp (apart.perm_sessions.mem_iff.mp member)
    exact apart.ids row isRow
  obtain ⟨tree, isBuilt⟩ := Option.isSome_iff_exists.mp (isSome_buildLocalCwdTree.mpr named)
  refine ⟨tree, isBuilt, ?_, ?_, ?_⟩
  · apply (sessionRows_perm isBuilt).trans
    have rows := apart.perm_sessions.map fun leaf => (leafRow leaf, 0)
    rwa [List.map_map] at rows
  · exact (documentRows_perm isBuilt).trans ((apart.perm_documents distinct).map _)
  · exact fun group member =>
      (exists_groupRow_iff isBuilt group).mpr (apart.groupsLast group member)

/-- The tree loses nothing exactly when everything is kept apart. -/
theorem loses_nothing_iff (durable : List StartpageDurableRow)
    (documents : List WorkspaceDocumentSummary) (groups : List WorkspaceGroup)
    (distinct : (documents.map WorkspaceDocumentSummary.virtualPath).Nodup) :
    (∃ tree, buildLocalCwdTree durable documents groups = some tree ∧
        LosesNothing durable documents groups tree) ↔ KeptApart durable documents groups := by
  constructor
  · rintro ⟨tree, isBuilt, loses⟩
    exact loses.keptApart isBuilt distinct
  · exact fun apart => apart.losesNothing distinct

end Claim

/-! ## Runs -/

def savedSession (cwd : List Char) : StartpageDurableRow :=
  ⟨.claudeCode, "/store/session.jsonl".toList, "d3b0-7384".toList, cwd, none, none, 5⟩

def savedNote (path : List Char) : WorkspaceDocumentSummary :=
  ⟨"n1".toList, path, "Plan".toList, .note, []⟩

def savedGroup : WorkspaceGroup := ⟨"g1".toList, "/u".toList, "Work".toList, .folder, [], []⟩

/-- A session, a note and a group beside each other. -/
theorem shows_all_beside :
    ([savedNote "/u/plan".toList].map WorkspaceDocumentSummary.virtualPath).Nodup ∧
      ∃ tree, buildLocalCwdTree [savedSession "/u/app".toList] [savedNote "/u/plan".toList]
        [savedGroup] = some tree ∧
        LosesNothing [savedSession "/u/app".toList] [savedNote "/u/plan".toList] [savedGroup]
          tree := by
  have distinct :
      ([savedNote "/u/plan".toList].map WorkspaceDocumentSummary.virtualPath).Nodup := by
    decide
  refine ⟨distinct, (loses_nothing_iff _ _ _ distinct).mpr ⟨?_, ?_, ?_, ?_, ?_⟩⟩
  · decide
  · decide
  · decide
  · decide
  · intro group member
    obtain rfl := List.mem_singleton.mp member
    exact ⟨savedGroup, by decide, by decide, rfl, rfl, rfl⟩

/-- A session that ran in the folder a note lies at is not shown. -/
theorem loses_session_at_note :
    ([savedNote "/u/app".toList].map WorkspaceDocumentSummary.virtualPath).Nodup ∧
      ¬ ∃ tree, buildLocalCwdTree [savedSession "/u/app".toList] [savedNote "/u/app".toList] [] =
        some tree ∧
        LosesNothing [savedSession "/u/app".toList] [savedNote "/u/app".toList] [] tree := by
  refine ⟨by decide, ?_⟩
  rintro ⟨tree, isBuilt, loses⟩
  have shown : (buildLocalCwdTree [savedSession "/u/app".toList] [savedNote "/u/app".toList] []).map
      (fun tree => (tree.rows.filter fun entry => entry.1.kind = .codexSession).length) =
          some 0 := by
    decide +kernel
  rw [isBuilt, Option.map_some, loses.sessionRows.length_eq] at shown
  cases shown

end Yggterm.CwdTree
