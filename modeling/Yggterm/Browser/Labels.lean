import Yggterm.Browser.Rows
import Yggterm.CwdTree.Complete

/-!
# The labels of sessions without titles

The labels are looked up by the paths of the sessions, which are the paths of the files that they
are stored in.
-/

namespace Yggterm.Browser

open CwdTree Ownership Workspace

/-! ## The nodes of a tree -/

mutual

/-- Only what is not a group has a session id, and nothing stands below it. -/
def Proper : SessionNode → Prop
  | .mk row children =>
      (if row.kind = .group then row.sessionId = none
        else row.sessionId.isSome = true ∧ children = []) ∧ AllProper children

def AllProper : List SessionNode → Prop
  | [] => True
  | node :: rest => Proper node ∧ AllProper rest

end

theorem allProper_iff {nodes : List SessionNode} :
    AllProper nodes ↔ ∀ node ∈ nodes, Proper node := by
  induction nodes with
  | nil => simp [AllProper]
  | cons node rest inductionHypothesis => simp [AllProper, inductionHypothesis]

theorem proper_document (document : WorkspaceDocumentSummary) :
    Proper (.mk (documentRow document) []) := ⟨⟨rfl, rfl⟩, trivial⟩

theorem proper_leafRow (leaf : List Char × LocalAgentSessionSummary) :
    Proper (.mk (leafRow leaf) []) := ⟨⟨rfl, rfl⟩, trivial⟩

theorem proper_nodeToSessionNode {node : NodeData} {nested : Option (List SessionNode)}
    (below : ∀ nodes, nested = some nodes → AllProper nodes) {tree : SessionNode}
    (isTree : nodeToSessionNode node nested = some tree) : Proper tree := by
  cases isDocument : node.document with
  | some document =>
      rw [nodeToSessionNode_of_document isDocument] at isTree
      obtain rfl := Option.some.inj isTree
      exact proper_document document
  | none =>
      obtain ⟨nodes, isNested, _, rfl⟩ := (nodeToSessionNode_eq_some_iff isDocument).mp isTree
      refine ⟨rfl, allProper_iff.mpr (List.forall_mem_append.mpr ⟨?_, ?_⟩)⟩
      · intro child member
        exact allProper_iff.mp (below nodes isNested) child (List.mem_mergeSort.mp member)
      · intro child member
        simp only [List.map_map, List.mem_map] at member
        obtain ⟨leaf, _, rfl⟩ := member
        exact proper_leafRow leaf

theorem allProper_childrenToSessionNodes {forest : Tries.Forest (List Char) NodeData}
    {nodes : List SessionNode} (converted : childrenToSessionNodes forest = some nodes) :
    AllProper nodes := by
  induction forest generalizing nodes with
  | nil =>
      cases converted
      trivial
  | cons key node children rest childrenHypothesis restHypothesis =>
      simp only [childrenToSessionNodes, Option.bind_eq_bind, Option.bind_eq_some_iff,
        Option.some.injEq] at converted
      obtain ⟨first, isFirst, others, isOthers, rfl⟩ := converted
      exact ⟨proper_nodeToSessionNode (fun _ => childrenHypothesis) isFirst,
        restHypothesis isOthers⟩

theorem proper_buildLocalCwdTree {durable : List StartpageDurableRow}
    {documents : List WorkspaceDocumentSummary} {groups : List WorkspaceGroup} {tree : SessionNode}
    (isBuilt : buildLocalCwdTree durable documents groups = some tree) : Proper tree :=
  proper_nodeToSessionNode (fun _ => allProper_childrenToSessionNodes) isBuilt

/-- The rows of sessions among the rows of a tree. -/
def sessionRows (rows : List (SessionRow × Nat)) : List SessionRow :=
  (rows.map Prod.fst).filter fun row => row.kind = .codexSession

theorem sessionRows_append (rows others : List (SessionRow × Nat)) :
    sessionRows (rows ++ others) = sessionRows rows ++ sessionRows others := by
  rw [sessionRows, List.map_append, List.filter_append]
  rfl

theorem mem_sessionRows_mk {row wanted : SessionRow} {children : List SessionNode} :
    wanted ∈ sessionRows (SessionNode.mk row children).rows ↔
      wanted = row ∧ row.kind = .codexSession ∨ wanted ∈ sessionRows (allRows children) := by
  rw [SessionNode.rows, sessionRows, List.map_cons, List.filter_cons]
  by_cases isSession : row.kind = .codexSession
  · simp [isSession, sessionRows]
  · simp [isSession, sessionRows]

mutual

theorem countLeafSessions_pos {wanted : SessionRow} : ∀ {node : SessionNode}, Proper node →
    wanted ∈ sessionRows node.rows → 0 < countLeafSessions node
  | .mk row children, ⟨isProper, allProper⟩, member => by
      rcases mem_sessionRows_mk.mp member with ⟨rfl, isSession⟩ | below
      · rw [if_neg (by rw [isSession]; decide)] at isProper
        rw [isProper.2, countLeafSessions, if_pos isProper.1]
        exact Nat.one_pos
      · have positive := countAllLeafSessions_pos allProper below
        cases children with
        | nil => cases below
        | cons child rest => exact positive

theorem countAllLeafSessions_pos {wanted : SessionRow} : ∀ {nodes : List SessionNode},
    AllProper nodes → wanted ∈ sessionRows (allRows nodes) → 0 < countAllLeafSessions nodes
  | [], _, member => by cases member
  | node :: rest, ⟨isProper, allProper⟩, member => by
      rw [allRows, sessionRows_append, List.mem_append] at member
      rw [countAllLeafSessions]
      rcases member with here | later
      · have positive := countLeafSessions_pos isProper here
        omega
      · have positive := countAllLeafSessions_pos allProper later
        omega

end

mutual

theorem mem_collectSessionIds {wanted : SessionRow} : ∀ {node : SessionNode}, Proper node →
    wanted ∈ sessionRows node.rows →
    ∃ id, wanted.sessionId = some id ∧ (wanted.path, id) ∈ collectSessionIds node
  | .mk row children, ⟨isProper, allProper⟩, member => by
      rcases mem_sessionRows_mk.mp member with ⟨rfl, isSession⟩ | below
      · rw [if_neg (by rw [isSession]; decide)] at isProper
        obtain ⟨id, isId⟩ := Option.isSome_iff_exists.mp isProper.1
        refine ⟨id, isId, ?_⟩
        rw [isProper.2, collectSessionIds, isId]
        exact List.mem_singleton_self _
      · have collected := mem_collectAllSessionIds allProper below
        cases children with
        | nil => cases below
        | cons child rest => exact collected

theorem mem_collectAllSessionIds {wanted : SessionRow} : ∀ {nodes : List SessionNode},
    AllProper nodes → wanted ∈ sessionRows (allRows nodes) →
    ∃ id, wanted.sessionId = some id ∧ (wanted.path, id) ∈ collectAllSessionIds nodes
  | [], _, member => by cases member
  | node :: rest, ⟨isProper, allProper⟩, member => by
      rw [allRows, sessionRows_append, List.mem_append] at member
      rcases member with here | later
      · obtain ⟨id, isId, isCollected⟩ := mem_collectSessionIds isProper here
        exact ⟨id, isId, List.mem_append_left _ isCollected⟩
      · obtain ⟨id, isId, isCollected⟩ := mem_collectAllSessionIds allProper later
        exact ⟨id, isId, List.mem_append_right _ isCollected⟩

end

/-! ## The rows of sessions -/

/-- A row of the browser shows a session. -/
structure Shows (shortIds : ShortIds) (row : SessionRow) (shown : BrowserRow) : Prop where
  kind : shown.kind = .session
  fullPath : shown.fullPath = row.path
  sessionId : shown.sessionId = row.sessionId
  sessionTitle : shown.sessionTitle = row.title
  label : shown.label = formatRowLabel row shortIds

theorem shows_browserRow (home : Option (List Char)) {row : SessionRow}
    (isSession : row.kind = .codexSession) (children : List SessionNode) (depth : Nat)
    (expanded : Bool) (shortIds : ShortIds) :
    Shows shortIds row (browserRow home (.mk row children) depth expanded shortIds) where
  kind := by rw [browserRow, browserRowKind, SessionNode.row, isSession]
  fullPath := rfl
  sessionId := rfl
  sessionTitle := by
    rw [browserRow, SessionNode.row, isSession]
    rfl
  label := rfl

theorem kind_of_browserRowKind {row : SessionRow} (isSession : browserRowKind row = .session) :
    row.kind = .codexSession := by
  rw [browserRowKind] at isSession
  split at isSession
  · next isKind => exact isKind
  · cases isSession
  · split at isSession <;> cases isSession

mutual

/-- Every row that is a session's shows one of the tree. -/
theorem exists_session_of_shown {walk : Walk} {shown : BrowserRow} :
    ∀ {node : SessionNode} {depth : Nat}, shown ∈ flattenRows walk depth node →
      shown.kind = .session → ∃ row ∈ sessionRows node.rows, Shows walk.shortIds row shown
  | .mk row children, depth, member, isSession => by
      rw [flattenRows] at member
      dsimp only at member
      split at member
      · cases member
      split at member
      · cases member
      rcases List.mem_cons.mp member with rfl | below
      · have isKind := kind_of_browserRowKind isSession
        exact ⟨row, mem_sessionRows_mk.mpr (.inl ⟨rfl, isKind⟩),
          shows_browserRow _ isKind _ _ _ _⟩
      · split at below
        · obtain ⟨inner, isInner, shows⟩ := exists_session_of_allShown below isSession
          exact ⟨inner, mem_sessionRows_mk.mpr (.inr isInner), shows⟩
        · cases below

theorem exists_session_of_allShown {walk : Walk} {shown : BrowserRow} :
    ∀ {nodes : List SessionNode} {depth : Nat}, shown ∈ flattenAllRows walk depth nodes →
      shown.kind = .session → ∃ row ∈ sessionRows (allRows nodes), Shows walk.shortIds row shown
  | [], _, member, _ => by cases member
  | node :: rest, depth, member, isSession => by
      rw [flattenAllRows, List.mem_append] at member
      rw [allRows, sessionRows_append]
      rcases member with here | later
      · obtain ⟨row, isRow, shows⟩ := exists_session_of_shown here isSession
        exact ⟨row, List.mem_append_left _ isRow, shows⟩
      · obtain ⟨row, isRow, shows⟩ := exists_session_of_allShown later isSession
        exact ⟨row, List.mem_append_right _ isRow, shows⟩

end

/-- A walk that filters nothing matches every node. -/
theorem matchesFilter_nil : ∀ node : SessionNode, matchesFilter [] node = true
  | .mk _ _ => rfl

mutual

/-- Where all groups are expanded every session is shown. -/
theorem exists_shown_of_session {walk : Walk} (bare : walk.filter = []) {wanted : SessionRow} :
    ∀ {node : SessionNode} (depth : Nat), Proper node →
      (∀ path ∈ collectGroupPaths node, path ∈ walk.expandedPaths) →
      wanted ∈ sessionRows node.rows →
      ∃ shown ∈ flattenRows walk depth node, Shows walk.shortIds wanted shown
  | .mk row children, depth, isProper, expanded, member => by
      have positive := countLeafSessions_pos isProper member
      have isShown : isHidden (.mk row children) depth = false := by
        simp [isHidden, Nat.ne_of_gt positive]
      have isListed : (row.kind ≠ .group && row.sessionId.isNone) = false := by
        obtain ⟨isRow, _⟩ := isProper
        split at isRow
        · next isGroup => simp [isGroup]
        · simp [isRow.1]
      rw [flattenRows, bare, matchesFilter_nil]
      dsimp only
      rw [isListed, isShown]
      rcases mem_sessionRows_mk.mp member with ⟨rfl, isSession⟩ | below
      · exact ⟨_, List.mem_cons_self, shows_browserRow _ isSession _ _ _ _⟩
      · obtain ⟨⟨isRow, allProper⟩, inChildren⟩ := And.intro isProper expanded
        split at isRow
        · next isGroup =>
            rw [collectGroupPaths, if_pos isGroup, List.forall_mem_append] at inChildren
            obtain ⟨here, inChildren⟩ := inChildren
            have isOpen : isExpanded row [] walk.expandedPaths = true := by
              simp [isExpanded, here row.path (List.mem_singleton_self _)]
            obtain ⟨shown, isShown, shows⟩ :=
              exists_allShown_of_session bare (depth + 1) allProper inChildren below
            refine ⟨shown, List.mem_cons_of_mem _ ?_, shows⟩
            rw [isOpen, decide_eq_true isGroup]
            exact isShown
        · rw [isRow.2] at below
          cases below

theorem exists_allShown_of_session {walk : Walk} (bare : walk.filter = []) {wanted : SessionRow} :
    ∀ {nodes : List SessionNode} (depth : Nat), AllProper nodes →
      (∀ path ∈ collectAllGroupPaths nodes, path ∈ walk.expandedPaths) →
      wanted ∈ sessionRows (allRows nodes) →
      ∃ shown ∈ flattenAllRows walk depth nodes, Shows walk.shortIds wanted shown
  | [], _, _, _, member => by cases member
  | node :: rest, depth, ⟨isProper, allProper⟩, expanded, member => by
      rw [allRows, sessionRows_append, List.mem_append] at member
      rw [collectAllGroupPaths, List.forall_mem_append] at expanded
      rcases member with here | later
      · obtain ⟨shown, isRow, shows⟩ := exists_shown_of_session bare depth isProper expanded.1 here
        exact ⟨shown, List.mem_append_left _ isRow, shows⟩
      · obtain ⟨shown, isRow, shows⟩ :=
          exists_allShown_of_session bare depth allProper expanded.2 later
        exact ⟨shown, List.mem_append_right _ isRow, shows⟩

end

/-! ## Which sessions look alike -/

/-- Sessions without titles that have different ids have different labels. -/
def LooksApart (rows : List BrowserRow) : Prop :=
  ∀ row ∈ rows, ∀ other ∈ rows, row.kind = .session → other.kind = .session →
    row.sessionTitle = none → other.sessionTitle = none → row.sessionId ≠ other.sessionId →
    row.label ≠ other.label

/-- The session id that is labelled last among those under a path. -/
noncomputable def standingId (leaves : List KeyedId) (path : List Char) : Option (List Char) :=
  ((labelOrder leaves).filter fun leaf => leaf.1 = path).getLast?.map Prod.snd

/-- No id is labelled last at the paths of two sessions without titles that have different ids. -/
def StandApart (tree : SessionNode) : Prop :=
  ∀ row ∈ sessionRows tree.rows, ∀ other ∈ sessionRows tree.rows,
    row.title = none → other.title = none → row.sessionId ≠ other.sessionId →
    standingId (collectSessionIds tree) row.path ≠ standingId (collectSessionIds tree) other.path

theorem exists_standingId {leaves : List KeyedId} {path id : List Char}
    (member : (path, id) ∈ leaves) : ∃ standing ∈ leaves.map Prod.snd,
      standingId leaves path = some standing ∧
        (uniqueSessionShortIdsForPairs leaves).lookup path =
          some (shortLabel (leaves.map Prod.snd) standing) := by
  have isEntry : (path, id) ∈ (labelOrder leaves).filter fun leaf => leaf.1 = path :=
    List.mem_filter.mpr ⟨mem_labelOrder.mpr member, decide_eq_true rfl⟩
  obtain ⟨last, isLast⟩ :=
    Option.isSome_iff_exists.mp (List.getLast?_isSome.mpr (List.ne_nil_of_mem isEntry))
  have isLeaf := mem_labelOrder.mp (List.mem_filter.mp (List.mem_of_getLast? isLast)).1
  refine ⟨last.2, List.mem_map_of_mem isLeaf, ?_, ?_⟩
  · rw [standingId, isLast]
    rfl
  · rw [lookup_uniqueSessionShortIdsForPairs, isLast]
    rfl

/-- The label of a session without a title is that of the id that stands at its path. -/
theorem exists_label {tree : SessionNode} (isProper : Proper tree) {row : SessionRow}
    (member : row ∈ sessionRows tree.rows) (untitled : row.title = none) :
    ∃ standing ∈ (collectSessionIds tree).map Prod.snd,
      standingId (collectSessionIds tree) row.path = some standing ∧
        formatRowLabel row (uniqueSessionShortIds tree) =
          shortLabel ((collectSessionIds tree).map Prod.snd) standing := by
  obtain ⟨id, _, isLeaf⟩ := mem_collectSessionIds isProper member
  obtain ⟨standing, isStanding, stands, isLabel⟩ := exists_standingId isLeaf
  have isSession := of_decide_eq_true (List.mem_filter.mp member).2
  refine ⟨standing, isStanding, stands, ?_⟩
  rw [formatRowLabel, isSession, untitled, uniqueSessionShortIds, isLabel]
  rfl

theorem exists_allBrowserRow {tree : SessionNode} (isProper : Proper tree)
    (home : Option (List Char)) {row : SessionRow} (member : row ∈ sessionRows tree.rows) :
    ∃ shown ∈ allBrowserRows home tree, Shows (uniqueSessionShortIds tree) row shown :=
  exists_shown_of_session rfl 0 isProper (fun _ => List.mem_toFinset.mpr) member

/-- Sessions without titles look alike where one id is labelled last at the paths of both. -/
theorem not_looksApart_of_same_standing {tree : SessionNode} (isProper : Proper tree)
    (home : Option (List Char)) {row other : SessionRow} (isRow : row ∈ sessionRows tree.rows)
    (isOther : other ∈ sessionRows tree.rows) (untitled : row.title = none)
    (otherUntitled : other.title = none) (different : row.sessionId ≠ other.sessionId)
    (same : standingId (collectSessionIds tree) row.path =
      standingId (collectSessionIds tree) other.path) :
    ¬LooksApart (allBrowserRows home tree) := by
  intro apart
  obtain ⟨first, isFirst, shows⟩ := exists_allBrowserRow isProper home isRow
  obtain ⟨second, isSecond, showsOther⟩ := exists_allBrowserRow isProper home isOther
  obtain ⟨standing, _, stands, isLabel⟩ := exists_label isProper isRow untitled
  obtain ⟨otherStanding, _, otherStands, isOtherLabel⟩ :=
    exists_label isProper isOther otherUntitled
  rw [stands, otherStands, Option.some.injEq] at same
  apply apart first isFirst second isSecond shows.kind showsOther.kind
    (shows.sessionTitle.trans untitled) (showsOther.sessionTitle.trans otherUntitled)
  · rwa [shows.sessionId, showsOther.sessionId]
  · rw [shows.label, showsOther.label, isLabel, isOtherLabel, same]

/-- Sessions without titles look apart unless one id is labelled last at the paths of two. -/
theorem looksApart_iff {durable : List StartpageDurableRow}
    {documents : List WorkspaceDocumentSummary} {groups : List WorkspaceGroup} {tree : SessionNode}
    (isBuilt : buildLocalCwdTree durable documents groups = some tree)
    (home : Option (List Char)) : LooksApart (allBrowserRows home tree) ↔ StandApart tree := by
  have isProper := proper_buildLocalCwdTree isBuilt
  constructor
  · intro apart row isRow other isOther untitled otherUntitled different same
    exact not_looksApart_of_same_standing isProper home isRow isOther untitled otherUntitled
      different same apart
  · intro apart first isFirst second isSecond firstKind secondKind firstTitle secondTitle different
      sameLabel
    obtain ⟨row, isRow, shows⟩ := exists_session_of_shown isFirst firstKind
    obtain ⟨other, isOther, showsOther⟩ := exists_session_of_shown isSecond secondKind
    have untitled := shows.sessionTitle.symm.trans firstTitle
    have otherUntitled := showsOther.sessionTitle.symm.trans secondTitle
    rw [shows.sessionId, showsOther.sessionId] at different
    obtain ⟨standing, isStanding, stands, isLabel⟩ := exists_label isProper isRow untitled
    obtain ⟨otherStanding, isOtherStanding, otherStands, isOtherLabel⟩ :=
      exists_label isProper isOther otherUntitled
    apply apart row isRow other isOther untitled otherUntitled different
    rw [shows.label, showsOther.label] at sameLabel
    have sameStanding := shortLabel_injOn isStanding isOtherStanding
      (isLabel.symm.trans (sameLabel.trans isOtherLabel))
    rw [stands, otherStands, sameStanding]

/-- The file of the sessions of OpenCode. -/
def storePath : List Char := "/home/u/.local/share/opencode/opencode.db".toList

/-- A session of the one store that the sessions of OpenCode are read from. -/
def storedSession (id : List Char) (modifiedEpochMs : Nat) : StartpageDurableRow where
  kind := .openCode
  storagePath := storePath
  sessionId := id
  cwd := "/w".toList
  effectiveTitle := none
  detail := none
  modifiedEpochMs := modifiedEpochMs

def storedSessions : List StartpageDurableRow :=
  [storedSession "ses_7c41".toList 5, storedSession "ses_90be".toList 4]

theorem buckets_storedSessions : buckets (storedSessions.map summary) =
    [⟨"/w".toList, storedSessions.map summary⟩] := by
  have ordered : (storedSessions.map summary).mergeSort recentFirst =
      storedSessions.map summary := List.mergeSort_of_pairwise (by decide)
  conv_rhs => rw [← ordered]
  rfl

/-- What a tree says of its sessions. -/
def sessionFaces (tree : SessionNode) :
    List (List Char × Option (List Char) × Option (List Char)) :=
  (sessionRows tree.rows).map fun row => (row.path, row.sessionId, row.title)

theorem mem_sessionFaces {tree : SessionNode} {path : List Char}
    {sessionId title : Option (List Char)} :
    (path, sessionId, title) ∈ sessionFaces tree ↔ ∃ row ∈ sessionRows tree.rows,
      row.path = path ∧ row.sessionId = sessionId ∧ row.title = title := by
  simp [sessionFaces]

theorem looksApart_storedSession : ∃ tree,
    buildLocalCwdTree [storedSession "ses_7c41".toList 5] [] [] = some tree ∧
      LooksApart (allBrowserRows none tree) := by
  have faces : (buildLocalCwdTree [storedSession "ses_7c41".toList 5] [] []).map sessionFaces =
      some [(storePath, some "ses_7c41".toList, none)] := by
    decide +kernel
  obtain ⟨tree, isBuilt, isFaces⟩ := Option.map_eq_some_iff.mp faces
  refine ⟨tree, isBuilt, (looksApart_iff isBuilt none).mpr ?_⟩
  intro row isRow other isOther _ _ different
  have alone : ∀ row ∈ sessionRows tree.rows, row.sessionId = some "ses_7c41".toList := by
    intro row isRow
    have isFace := mem_sessionFaces.mpr ⟨row, isRow, rfl, rfl, rfl⟩
    rw [isFaces] at isFace
    exact congrArg (fun face => face.2.1) (List.mem_singleton.mp isFace)
  exact absurd ((alone row isRow).trans (alone other isOther).symm) different

theorem not_looksApart_storedSessions : ∃ tree,
    buildLocalCwdTree storedSessions [] [] = some tree ∧
      ¬LooksApart (allBrowserRows none tree) := by
  have faces : (buildLocalCwdTree storedSessions [] []).map sessionFaces =
      some [(storePath, some "ses_7c41".toList, none),
        (storePath, some "ses_90be".toList, none)] := by
    rw [buildLocalCwdTree, assembledTree, buckets_storedSessions]
    decide +kernel
  obtain ⟨tree, isBuilt, isFaces⟩ := Option.map_eq_some_iff.mp faces
  obtain ⟨row, isRow, isPath, isId, untitled⟩ :=
    mem_sessionFaces.mp (isFaces.symm ▸ List.mem_cons_self)
  obtain ⟨other, isOther, otherPath, otherId, otherUntitled⟩ :=
    mem_sessionFaces.mp (isFaces.symm ▸ List.mem_cons_of_mem _ List.mem_cons_self)
  refine ⟨tree, isBuilt, not_looksApart_of_same_standing (proper_buildLocalCwdTree isBuilt) none
    isRow isOther untitled otherUntitled ?_ ?_⟩
  · rw [isId, otherId]
    decide
  · rw [isPath, otherPath]

end Yggterm.Browser
