import Yggterm.CwdTree.Tree

/-!
# What the tree of rows shows

The rows of the finished tree, read off the trie: the nodes a depth-first walk reaches that
does not go below a document.  The compression takes nodes out of the walk, but only such
as hold nothing.
-/

namespace Yggterm.CwdTree

open Ownership Paths Text Tries Workspace

mutual

/-- The rows of a tree, each with the number of its children. -/
def SessionNode.rows : SessionNode → List (SessionRow × Nat)
  | .mk row children => (row, children.length) :: allRows children

def allRows : List SessionNode → List (SessionRow × Nat)
  | [] => []
  | node :: rest => node.rows ++ allRows rest

end

theorem allRows_eq (nodes : List SessionNode) : allRows nodes = nodes.flatMap SessionNode.rows := by
  induction nodes with
  | nil => rfl
  | cons node rest inductionHypothesis =>
      rw [allRows, List.flatMap_cons, inductionHypothesis]

theorem allRows_append (nodes others : List SessionNode) :
    allRows (nodes ++ others) = allRows nodes ++ allRows others := by
  rw [allRows_eq, allRows_eq, allRows_eq, List.flatMap_append]

theorem allRows_perm {nodes others : List SessionNode} (same : nodes.Perm others) :
    (allRows nodes).Perm (allRows others) := by
  rw [allRows_eq, allRows_eq]
  exact same.flatMap_right SessionNode.rows

theorem allRows_leaves (rows : List SessionRow) :
    allRows (rows.map fun row => .mk row []) = rows.map fun row => (row, 0) := by
  induction rows with
  | nil => rfl
  | cons row rest inductionHypothesis =>
      rw [List.map_cons, allRows, inductionHypothesis]
      rfl

/-! ## The walk -/

def hasDocument (node : NodeData) : Bool := node.document.isSome

/-- The sessions that a node shows below itself. -/
def shownSessions (node : NodeData) : List (List Char × LocalAgentSessionSummary) :=
  if node.document = none then projectSessions node else []

def leafRow (leaf : List Char × LocalAgentSessionSummary) : SessionRow :=
  sessionRow leaf.1 ((shortSessionId leaf.2.sessionId).getD []) leaf.2

/-- The rows that a node stands for, without those of its children. -/
def nodeRows (node : NodeData) : List (SessionRow × Nat) :=
  match node.document with
  | some document => [(documentRow document, 0)]
  | none => (groupRow node, 0) :: (projectSessions node).map fun leaf => (leafRow leaf, 0)

/-- No id of a session is cut inside a character. -/
def Named (leaves : List (List Char × LocalAgentSessionSummary)) : Prop :=
  ∀ leaf ∈ leaves, (shortSessionId leaf.2.sessionId).isSome = true

theorem mapM_leaves_eq_some_iff {leaves : List (List Char × LocalAgentSessionSummary)}
    {rows : List SessionRow} :
    (leaves.mapM fun (cwd, session) =>
        (shortSessionId session.sessionId).map fun name =>
          sessionRow cwd name session) = some rows ↔
      Named leaves ∧ rows = leaves.map leafRow := by
  induction leaves generalizing rows with
  | nil =>
      simp only [List.mapM_nil, List.map_nil, Named]
      constructor
      · rintro ⟨⟩
        exact ⟨nofun, rfl⟩
      · rintro ⟨_, rfl⟩
        rfl
  | cons leaf rest inductionHypothesis =>
      rw [List.mapM_cons]
      cases isShort : shortSessionId leaf.2.sessionId with
      | none => simp [Named, isShort]
      | some name =>
          simp only [isShort, Option.map_some, Option.bind_eq_bind, Option.bind_some,
            Option.bind_eq_some_iff, inductionHypothesis, Option.pure_def, Option.some.injEq]
          constructor
          · rintro ⟨others, ⟨named, rfl⟩, rfl⟩
            refine ⟨List.forall_mem_cons.mpr ⟨by simp [isShort], named⟩, ?_⟩
            simp [leafRow, isShort]
          · rintro ⟨named, rfl⟩
            refine ⟨_, ⟨(List.forall_mem_cons.mp named).2, rfl⟩, ?_⟩
            simp [leafRow, isShort]

theorem nodeToSessionNode_of_document {node : NodeData} {document : WorkspaceDocumentSummary}
    (isDocument : node.document = some document) (nested : Option (List SessionNode)) :
    nodeToSessionNode node nested = some (.mk (documentRow document) []) := by
  rw [nodeToSessionNode, isDocument]

theorem nodeToSessionNode_eq_some_iff {node : NodeData} (bare : node.document = none)
    {nested : Option (List SessionNode)} {tree : SessionNode} :
    nodeToSessionNode node nested = some tree ↔
      ∃ below, nested = some below ∧ Named (projectSessions node) ∧
        tree = .mk (groupRow node) (below.mergeSort cmpBrowserChildNode ++
          ((projectSessions node).map leafRow).map fun row => .mk row []) := by
  simp only [nodeToSessionNode, bare, Option.bind_eq_bind, Option.bind_eq_some_iff,
    mapM_leaves_eq_some_iff, Option.some.injEq]
  constructor
  · rintro ⟨below, isBelow, _, ⟨named, rfl⟩, rfl⟩
    exact ⟨below, isBelow, named, rfl⟩
  · rintro ⟨below, isBelow, named, rfl⟩
    exact ⟨below, isBelow, _, ⟨named, rfl⟩, rfl⟩

/-- What all nodes on the walk have of something. -/
def walked {Value : Type} (value : NodeData → List Value) (forest : Forest (List Char) NodeData) :
    List Value :=
  (forest.walk hasDocument).flatMap fun entry => value entry.2

theorem walked_cons {Value : Type} (value : NodeData → List Value) (key : List Char)
    (node : NodeData) (children rest : Forest (List Char) NodeData) :
    walked value (.cons key node children rest) =
      value node ++ (if hasDocument node then [] else walked value children) ++
        walked value rest := by
  rw [walked, Forest.walk, List.cons_append, List.flatMap_cons, List.flatMap_append,
    List.flatMap_map, List.append_assoc]
  split <;> rfl

theorem named_append {leaves others : List (List Char × LocalAgentSessionSummary)} :
    Named (leaves ++ others) ↔ Named leaves ∧ Named others := List.forall_mem_append

theorem isSome_nodeToSessionNode {node : NodeData} {nested : Option (List SessionNode)} :
    (nodeToSessionNode node nested).isSome = true ↔
      Named (shownSessions node) ∧ (hasDocument node = false → nested.isSome = true) := by
  cases isDocument : node.document with
  | some document =>
      rw [nodeToSessionNode_of_document isDocument]
      simp [shownSessions, hasDocument, isDocument, Named]
  | none =>
      simp only [Option.isSome_iff_exists, nodeToSessionNode_eq_some_iff isDocument, shownSessions,
        hasDocument, isDocument, if_true]
      constructor
      · rintro ⟨_, below, isBelow, named, _⟩
        exact ⟨named, fun _ => ⟨below, isBelow⟩⟩
      · rintro ⟨named, hasBelow⟩
        obtain ⟨below, isBelow⟩ := hasBelow rfl
        exact ⟨_, below, isBelow, named, rfl⟩

/-- The tree of rows is there as long as no id is cut inside a character. -/
theorem isSome_childrenToSessionNodes {forest : Forest (List Char) NodeData} :
    (childrenToSessionNodes forest).isSome = true ↔ Named (walked shownSessions forest) := by
  induction forest with
  | nil => simp [childrenToSessionNodes, walked, Forest.walk, Named]
  | cons key node children rest childrenHypothesis restHypothesis =>
      have parts : (childrenToSessionNodes (.cons key node children rest)).isSome = true ↔
          (nodeToSessionNode node (childrenToSessionNodes children)).isSome = true ∧
            (childrenToSessionNodes rest).isSome = true := by
        rw [childrenToSessionNodes]
        cases nodeToSessionNode node (childrenToSessionNodes children) <;>
          cases childrenToSessionNodes rest <;> simp
      rw [parts, isSome_nodeToSessionNode, childrenHypothesis, restHypothesis, walked_cons,
        named_append, named_append]
      cases hasDocument node <;> simp [Named]

/-- The rows of the tree are those of the walk, for a reader to whom the number of a group's
children says nothing. -/
theorem filterMap_allRows {Value : Type} {read : SessionRow × Nat → Option Value}
    (blind : ∀ row count, row.kind = .group → read (row, count) = read (row, 0))
    {forest : Forest (List Char) NodeData} {nodes : List SessionNode}
    (converted : childrenToSessionNodes forest = some nodes) :
    ((allRows nodes).filterMap read).Perm ((walked nodeRows forest).filterMap read) := by
  induction forest generalizing nodes with
  | nil =>
      cases converted
      exact .refl _
  | cons key node children rest childrenHypothesis restHypothesis =>
      simp only [childrenToSessionNodes, Option.bind_eq_bind, Option.bind_eq_some_iff,
        Option.some.injEq] at converted
      obtain ⟨first, isFirst, others, isOthers, rfl⟩ := converted
      rw [allRows, walked_cons, List.filterMap_append, List.filterMap_append]
      apply List.Perm.append _ (restHypothesis isOthers)
      cases isDocument : node.document with
      | some document =>
          rw [nodeToSessionNode_of_document isDocument] at isFirst
          obtain rfl := Option.some.inj isFirst
          simp [SessionNode.rows, allRows, nodeRows, hasDocument, isDocument]
      | none =>
          obtain ⟨below, isBelow, _, rfl⟩ := (nodeToSessionNode_eq_some_iff isDocument).mp isFirst
          have sorted :=
            (allRows_perm (List.mergeSort_perm below cmpBrowserChildNode)).filterMap read
          have nested := sorted.trans (childrenHypothesis isBelow)
          have own : ((projectSessions node).map leafRow).map (fun row => (row, 0)) =
              (projectSessions node).map fun leaf => (leafRow leaf, 0) := List.map_map
          rw [SessionNode.rows, allRows_append, allRows_leaves, own, nodeRows, isDocument]
          simp only [hasDocument, isDocument, Option.isSome_none, Bool.false_eq_true, if_false,
            List.cons_append, List.filterMap_cons, List.filterMap_append]
          rw [blind _ _ rfl]
          split
          · exact (nested.append_right _).trans List.perm_append_comm
          · exact ((nested.append_right _).trans List.perm_append_comm).cons _

/-! ## The compression -/

/-- What a node without a title has of something is decided by its document and sessions. -/
structure OfContent {Value : Type} (value : NodeData → List Value) : Prop where
  blank : ∀ node, node.project = none → node.explicitTitle = none → node.document = none →
    value node = []
  merged : ∀ (node child : NodeData) name fullPath, node.explicitTitle = none →
    child.explicitTitle = none →
    value { node with
      name := name
      fullPath := fullPath
      document := child.document
      project := child.project } = value child

def shownDocuments (node : NodeData) : List WorkspaceDocumentSummary := node.document.toList

/-- The title, kind and path of a node that shows as a titled group. -/
def shownGroups (node : NodeData) : List (List Char × Option WorkspaceGroupKind × List Char) :=
  match node.document, node.explicitTitle with
  | none, some title => [(title, node.groupKind, node.fullPath)]
  | _, _ => []

theorem ofContent_shownSessions : OfContent shownSessions where
  blank node noProject _ noDocument := by
    simp [shownSessions, projectSessions, noProject, noDocument]
  merged _ _ _ _ _ _ := rfl

theorem ofContent_shownDocuments : OfContent shownDocuments where
  blank node _ _ noDocument := by simp [shownDocuments, noDocument]
  merged _ _ _ _ _ _ := rfl

theorem ofContent_shownGroups : OfContent shownGroups where
  blank node _ noTitle noDocument := by simp [shownGroups, noTitle, noDocument]
  merged node child _ _ nodeTitle childTitle := by simp [shownGroups, nodeTitle, childTitle]

/-- What a node and those below it have of something. -/
def walkedTree {Value : Type} (value : NodeData → List Value) (tree : CodexBrowserTree) :
    List Value :=
  value tree.data ++ if hasDocument tree.data then [] else walked value tree.children

theorem walkedTree_collapse {Value : Type} {value : NodeData → List Value}
    (ofContent : OfContent value) (node : NodeData) (children : Forest (List Char) NodeData) :
    walkedTree value (collapse node children) = walkedTree value ⟨node, children⟩ := by
  induction children generalizing node with
  | nil => rfl
  | cons key child below rest belowHypothesis _ =>
      cases rest with
      | cons => rfl
      | nil =>
          rw [collapse]
          split
          · next bare =>
              obtain ⟨noProject, noTitle, noDocument⟩ := bare
              split
              · simp [walkedTree, walked_cons]
              · next untitled =>
                  simp only [Bool.or_eq_true, not_or, Bool.not_eq_true,
                    Option.isSome_eq_false_iff, Option.isNone_iff_eq_none] at untitled
                  obtain ⟨childTitle, childDocument⟩ := untitled
                  have alone : walked value (.nil : Forest (List Char) NodeData) = [] := rfl
                  rw [belowHypothesis, walkedTree,
                    ofContent.merged node child _ _ noTitle childTitle,
                    walkedTree, ofContent.blank node noProject noTitle noDocument,
                      walked_cons, alone]
                  simp [hasDocument, noDocument, childDocument]
          · rfl

/-- Compressing takes nothing out of the tree. -/
theorem walked_compressChildren {Value : Type} {value : NodeData → List Value}
    (ofContent : OfContent value) (forest : Forest (List Char) NodeData) :
    walked value (compressChildren forest) = walked value forest := by
  induction forest with
  | nil => rfl
  | cons key node children rest childrenHypothesis restHypothesis =>
      have collapsed := walkedTree_collapse ofContent node (compressChildren children)
      simp only [walkedTree, childrenHypothesis] at collapsed
      rw [compressChildren, walked_cons, walked_cons, restHypothesis, collapsed]

end Yggterm.CwdTree
