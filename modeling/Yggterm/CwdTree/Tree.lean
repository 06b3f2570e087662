import Yggterm.Library.Paths
import Yggterm.Library.Tries
import Yggterm.Ownership.Ledger
import Yggterm.Workspace.Store

/-!
# The tree of working directories

The sidebar shows the saved agent sessions under their working directories, together with
the documents and groups of the workspace (`yggterm-core/src/lib.rs`).  All three are put
into one trie of path segments, which is compressed and turned into the tree of rows.
-/

namespace Yggterm.CwdTree

open Ownership Paths Text Tries Workspace

/-! ## Sessions and their buckets -/

/-- A row of the durable scan. -/
structure StartpageDurableRow where
  kind : SessionKind
  storagePath : List Char
  sessionId : List Char
  cwd : List Char
  effectiveTitle : Option (List Char)
  detail : Option (List Char)
  modifiedEpochMs : Nat
  deriving DecidableEq

structure LocalAgentSessionSummary where
  kind : SessionKind
  filePath : List Char
  sessionId : List Char
  cwd : List Char
  title : Option (List Char)
  detail : Option (List Char)
  modifiedEpochMs : Nat
  deriving DecidableEq

structure LocalAgentProjectBucket where
  cwd : List Char
  sessions : List LocalAgentSessionSummary
  deriving DecidableEq

/-- `trim_matches('/')`. -/
def trimSlashes (text : List Char) : List Char :=
  (text.dropWhile (· = '/')).rdropWhile (· = '/')

def normalizeCodexCwd (raw : List Char) : List Char :=
  let trimmed := trim raw
  if trimmed = [] then ['/']
  else if trimmed = ['/'] then ['/']
  else if trimmed.head? = some '/' then
    ('/' :: trimmed.dropWhile (· = '/')).rdropWhile (· = '/')
  else '/' :: trimSlashes trimmed

def summary (row : StartpageDurableRow) : LocalAgentSessionSummary where
  kind := row.kind
  filePath := row.storagePath
  sessionId := row.sessionId
  cwd := normalizeCodexCwd row.cwd
  title := row.effectiveTitle
  detail := row.detail
  modifiedEpochMs := row.modifiedEpochMs

/-- A session joins the bucket of its directory; the buckets are kept in the order of the
directories. -/
def pushSession (session : LocalAgentSessionSummary) :
    List LocalAgentProjectBucket → List LocalAgentProjectBucket
  | [] => [⟨session.cwd, [session]⟩]
  | bucket :: rest =>
      if session.cwd < bucket.cwd then ⟨session.cwd, [session]⟩ :: bucket :: rest
      else if bucket.cwd = session.cwd then
        ⟨bucket.cwd, bucket.sessions ++ [session]⟩ :: rest
      else bucket :: pushSession session rest

/-- A session without a time counts as the most recent. -/
def effective (modifiedEpochMs : Nat) : Nat :=
  if modifiedEpochMs = 0 then 2 ^ 128 - 1 else modifiedEpochMs

def recentFirst (first second : LocalAgentSessionSummary) : Bool :=
  effective second.modifiedEpochMs < effective first.modifiedEpochMs ||
    (effective second.modifiedEpochMs = effective first.modifiedEpochMs &&
      first.sessionId ≤ second.sessionId)

def buckets (sessions : List LocalAgentSessionSummary) : List LocalAgentProjectBucket :=
  (sessions.foldl (fun projects session => pushSession session projects) []).map fun bucket =>
    { bucket with sessions := bucket.sessions.mergeSort recentFirst }

/-! ## Segments and paths -/

def browserTreeSegments (cwd : List Char) : List (List Char) :=
  if cwd = "/".toList then ["/".toList]
  else if cwd = "/root".toList then ["/root".toList]
  else if "/root/".toList <+: cwd then
    "/root".toList :: (cwd.drop "/root/".toList.length).splitOn '/'
  else "/".toList :: ((cwd.dropWhile (· = '/')).splitOn '/').filter (· ≠ [])

def browserTreeChildPath (parent segment : List Char) : List Char :=
  if parent = "local".toList ∧ segment = "/".toList then "/".toList
  else if parent = "local".toList then '/' :: trimSlashes segment
  else if segment = "/".toList then parent.rdropWhile (· = '/') ++ ['/']
  else if parent.getLast? = some '/' then parent ++ segment
  else parent ++ '/' :: segment

def joinSessionLabel (left right : List Char) : List Char :=
  if left = "/".toList then '/' :: right
  else if left.getLast? = some '/' then left ++ right
  else left ++ '/' :: right

/-! ## The trie -/

/-- `CodexBrowserTreeNode`, less its children. -/
structure NodeData where
  name : List Char
  fullPath : List Char
  explicitTitle : Option (List Char) := none
  document : Option WorkspaceDocumentSummary := none
  groupKind : Option WorkspaceGroupKind := none
  project : Option LocalAgentProjectBucket := none

abbrev CodexBrowserTree := Trie (List Char) NodeData

def freshNode (parent : NodeData) (segment : List Char) : NodeData :=
  { name := segment, fullPath := browserTreeChildPath parent.fullPath segment }

def insertCodexBrowserProject (tree : CodexBrowserTree) (project : LocalAgentProjectBucket) :
    CodexBrowserTree :=
  tree.write freshNode (fun node => { node with project := some project })
    (browserTreeSegments project.cwd)

def insertWorkspaceGroup (tree : CodexBrowserTree) (group : WorkspaceGroup) : CodexBrowserTree :=
  tree.write freshNode
    (fun node => { node with explicitTitle := some group.title, groupKind := some group.kind })
    (browserTreeSegments group.virtualPath)

def insertWorkspaceDocument (tree : CodexBrowserTree) (document : WorkspaceDocumentSummary) :
    CodexBrowserTree :=
  tree.write freshNode
    (fun node => { node with explicitTitle := some document.title, document := some document })
    (browserTreeSegments document.virtualPath)

/-- The loop of the compression: a node that holds nothing takes the place of its one child,
until that child has a title of its own. -/
def collapse (node : NodeData) : Forest (List Char) NodeData → CodexBrowserTree
  | .cons key child below .nil =>
      if node.project = none ∧ node.explicitTitle = none ∧ node.document = none then
        if child.explicitTitle.isSome || child.document.isSome then
          ⟨node, .cons child.name child below .nil⟩
        else
          collapse
            { node with
              name := joinSessionLabel node.name child.name
              fullPath := child.fullPath
              document := child.document
              project := child.project } below
      else ⟨node, .cons key child below .nil⟩
  | children => ⟨node, children⟩

def compressChildren : Forest (List Char) NodeData → Forest (List Char) NodeData
  | .nil => .nil
  | .cons key node children rest =>
      let compressed := collapse node (compressChildren children)
      .cons key compressed.data compressed.children (compressChildren rest)

/-- `compress_codex_browser_tree` at the root, which stays. -/
def compressCodexBrowserTree (tree : CodexBrowserTree) : CodexBrowserTree :=
  ⟨tree.data, compressChildren tree.children⟩

/-! ## The rows -/

inductive SessionNodeKind where
  | group
  | codexSession
  | document
  deriving DecidableEq

/-- `SessionNode`, less its children. -/
structure SessionRow where
  kind : SessionNodeKind
  name : List Char
  title : Option (List Char) := none
  documentKind : Option WorkspaceDocumentKind := none
  groupKind : Option WorkspaceGroupKind := none
  path : List Char
  sessionId : Option (List Char) := none
  cwd : Option (List Char) := none
  sessionKind : Option SessionKind := none
  detail : Option (List Char) := none
  deriving DecidableEq

inductive SessionNode where
  | mk (row : SessionRow) (children : List SessionNode)

def SessionNode.row : SessionNode → SessionRow
  | mk row _ => row

/-- The front of a text that has the given number of bytes. -/
def takeBytes : Nat → List Char → Option (List Char)
  | 0, _ => some []
  | _ + 1, [] => none
  | bytes + 1, char :: rest =>
      if char.utf8Size ≤ bytes + 1 then (takeBytes (bytes + 1 - char.utf8Size) rest).map (char :: ·)
      else none

/-- The last seven bytes of the id.  The slice panics inside a character. -/
def shortSessionId (sessionId : List Char) : Option (List Char) :=
  let compact := sessionId.filter (· ≠ '-')
  if 7 ≤ (compact.map Char.utf8Size).sum then
    (takeBytes 7 compact.reverse).map fun last => 'Q' :: last.reverse
  else some sessionId

def sessionRow (cwd name : List Char) (session : LocalAgentSessionSummary) : SessionRow where
  kind := .codexSession
  name := name
  title := session.title
  path := session.filePath
  sessionId := some session.sessionId
  cwd := some cwd
  sessionKind := some session.kind
  detail := session.detail

def documentRow (document : WorkspaceDocumentSummary) : SessionRow where
  kind := .document
  name := document.title
  title := some document.title
  documentKind := some document.kind
  path := document.virtualPath
  sessionId := some document.id
  cwd := some document.virtualPath

def groupRow (node : NodeData) : SessionRow where
  kind := .group
  name := node.name
  title := node.explicitTitle
  groupKind := node.groupKind
  path := node.fullPath
  cwd := node.project.map LocalAgentProjectBucket.cwd

def browserChildSortKey (row : SessionRow) : List Char :=
  ((fileName row.path).getD row.name).map Char.toLower

def cmpBrowserChildNode (left right : SessionNode) : Bool :=
  toLex (browserChildSortKey left.row, toLex (left.row.name, rank left.row.path)) ≤
    toLex (browserChildSortKey right.row, toLex (right.row.name, rank right.row.path))

def projectSessions (node : NodeData) : List (List Char × LocalAgentSessionSummary) :=
  match node.project with
  | none => []
  | some project => project.sessions.map fun session => (project.cwd, session)

/-- The row of a node, above its children's rows and its sessions. -/
def nodeToSessionNode (node : NodeData) (nested : Option (List SessionNode)) :
    Option SessionNode :=
  match node.document with
  | some document => some (.mk (documentRow document) [])
  | none => do
      let nested ← nested
      let leaves ← (projectSessions node).mapM fun (cwd, session) =>
        (shortSessionId session.sessionId).map fun name => sessionRow cwd name session
      some (.mk (groupRow node)
        (nested.mergeSort cmpBrowserChildNode ++ leaves.map fun row => .mk row []))

def childrenToSessionNodes : Forest (List Char) NodeData → Option (List SessionNode)
  | .nil => some []
  | .cons _ node children rest => do
      let first ← nodeToSessionNode node (childrenToSessionNodes children)
      let others ← childrenToSessionNodes rest
      some (first :: others)

def codexBrowserTreeToSessionNode (tree : CodexBrowserTree) : Option SessionNode :=
  nodeToSessionNode tree.data (childrenToSessionNodes tree.children)

/-! ## The build -/

def treeRoot : CodexBrowserTree where
  data :=
    { name := "local [ok]".toList
      fullPath := "local".toList
      explicitTitle := some "local".toList
      groupKind := some .folder }
  children := .nil

def assembledTree (durable : List StartpageDurableRow) (documents : List WorkspaceDocumentSummary)
    (groups : List WorkspaceGroup) : CodexBrowserTree :=
  let withDocuments := documents.foldl insertWorkspaceDocument treeRoot
  let withGroups := groups.foldl insertWorkspaceGroup withDocuments
  (buckets (durable.map summary)).foldl insertCodexBrowserProject withGroups

/-- `build_local_cwd_tree`, of what the scan and the workspace gave. -/
def buildLocalCwdTree (durable : List StartpageDurableRow)
    (documents : List WorkspaceDocumentSummary) (groups : List WorkspaceGroup) :
    Option SessionNode :=
  codexBrowserTreeToSessionNode (compressCodexBrowserTree (assembledTree durable documents groups))

end Yggterm.CwdTree
