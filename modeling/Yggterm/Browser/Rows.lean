import Yggterm.Browser.ShortIds
import Yggterm.CwdTree.Tree

/-!
# The rows of the browser

The tree of sessions is flattened to the rows that the sidebar shows, and one of them is selected,
by its path (`yggterm-core/src/browser.rs`).
-/

namespace Yggterm.Browser

open CwdTree Ownership Paths Workspace

inductive BrowserRowKind where
  | group | separator | session | document
  deriving DecidableEq

structure BrowserRow where
  kind : BrowserRowKind
  fullPath : List Char
  label : List Char
  detailLabel : List Char
  documentKind : Option WorkspaceDocumentKind
  groupKind : Option WorkspaceGroupKind
  sessionTitle : Option (List Char)
  depth : Nat
  hostLabel : List Char
  descendantSessions : Nat
  expanded : Bool
  sessionId : Option (List Char)
  sessionCwd : Option (List Char)
  sessionKind : Option SessionKind
  deriving DecidableEq

/-! ## What is read off a node -/

mutual

def countLeafSessions : SessionNode → Nat
  | .mk row [] => if row.sessionId.isSome then 1 else 0
  | .mk _ (child :: rest) => countLeafSessions child + countAllLeafSessions rest

def countAllLeafSessions : List SessionNode → Nat
  | [] => 0
  | child :: rest => countLeafSessions child + countAllLeafSessions rest

end

mutual

def hasWorkspaceVisibleDescendant : SessionNode → Bool
  | .mk row children =>
      row.groupKind.isSome || row.documentKind.isSome || row.title.isSome ||
        anyWorkspaceVisible children

def anyWorkspaceVisible : List SessionNode → Bool
  | [] => false
  | child :: rest => hasWorkspaceVisibleDescendant child || anyWorkspaceVisible rest

end

/-- `to_ascii_lowercase`. -/
def toAsciiLowercase (text : List Char) : List Char := text.map Char.toLower

mutual

def matchesFilter (filter : List Char) : SessionNode → Bool
  | .mk row children =>
      filter.isEmpty || filter <:+: toAsciiLowercase row.name ||
        filter <:+: toAsciiLowercase row.path || anyMatchesFilter filter children

def anyMatchesFilter (filter : List Char) : List SessionNode → Bool
  | [] => false
  | child :: rest => matchesFilter filter child || anyMatchesFilter filter rest

end

mutual

def collectGroupPaths : SessionNode → List (List Char)
  | .mk row children =>
      (if row.kind = .group then [row.path] else []) ++ collectAllGroupPaths children

def collectAllGroupPaths : List SessionNode → List (List Char)
  | [] => []
  | child :: rest => collectGroupPaths child ++ collectAllGroupPaths rest

end

mutual

def collectSessionIds : SessionNode → List KeyedId
  | .mk row [] => (row.sessionId.map fun sessionId => (row.path, sessionId)).toList
  | .mk _ (child :: rest) => collectSessionIds child ++ collectAllSessionIds rest

def collectAllSessionIds : List SessionNode → List KeyedId
  | [] => []
  | child :: rest => collectSessionIds child ++ collectAllSessionIds rest

end

def uniqueSessionShortIds (root : SessionNode) : ShortIds :=
  uniqueSessionShortIdsForPairs (collectSessionIds root)

/-! ## The labels -/

/-- `Component::as_os_str`. -/
def componentText : Component → List Char
  | .rootDir => ['/']
  | .curDir => ['.']
  | .parentDir => "..".toList
  | .normal name => name

/-- The home directory of the user is an argument. -/
def browserDisplayPath (home : Option (List Char)) (path : List Char) : List Char :=
  let normalized :=
    if path = ['/'] then ['/']
    else if path.head? = some '/' then '/' :: path.dropWhile (· = '/')
    else path
  let parts := (components normalized).map componentText
  let shortened :=
    if 4 < parts.length then "…/".toList ++ ['/'].intercalate (parts.drop (parts.length - 4))
    else normalized
  if normalized = ['/'] then normalized
  else match home with
    | none => shortened
    | some home =>
        if normalized = home then ['~']
        else if home ++ ['/'] <+: normalized then
          "~/".toList ++ normalized.drop (home ++ ['/']).length
        else shortened

def formatRowLabel (row : SessionRow) (shortIds : ShortIds) : List Char :=
  match row.kind with
  | .codexSession =>
      row.title.getD <|
        ((shortIds.lookup row.path).or
          (row.sessionId.map fun sessionId => sessionIdSuffix sessionId 7)).getD row.name
  | _ => row.title.getD row.name

def detailLabelForRow (home : Option (List Char)) (row : SessionRow) : List Char :=
  match row.kind with
  | .document => []
  | .group => if "live::".toList <+: row.path then "remote runtime".toList else []
  | .codexSession =>
      let pathLabel := browserDisplayPath home (row.cwd.getD row.path)
      let shortId := (row.sessionId.map fun sessionId => sessionIdSuffix sessionId 7).getD []
      if row.title.isNone ∨ shortId = [] then pathLabel
      else shortId ++ " · ".toList ++ pathLabel

def hostLabelForRow (row : SessionRow) (depth : Nat) : List Char :=
  if depth = 0 ∨ depth = 1 then []
  else if "live::".toList <+: row.path then "live".toList
  else []

/-! ## The rows -/

def browserRowKind (row : SessionRow) : BrowserRowKind :=
  match row.kind with
  | .codexSession => .session
  | .document => .document
  | .group => if row.groupKind = some .separator then .separator else .group

/-- A group that stands for nothing is not shown. -/
def isHidden (node : SessionNode) (depth : Nat) : Bool :=
  0 < depth && node.row.kind = .group && node.row.groupKind ≠ some .separator &&
    countLeafSessions node = 0 && node.row.title.isNone && !hasWorkspaceVisibleDescendant node

def isExpanded (row : SessionRow) (filter : List Char) (expandedPaths : Finset (List Char)) :
    Bool :=
  row.kind ≠ .group || !filter.isEmpty || row.path ∈ expandedPaths

def browserRow (home : Option (List Char)) (node : SessionNode) (depth : Nat) (expanded : Bool)
    (shortIds : ShortIds) : BrowserRow where
  kind := browserRowKind node.row
  fullPath := node.row.path
  label := formatRowLabel node.row shortIds
  detailLabel := node.row.detail.getD (detailLabelForRow home node.row)
  documentKind := node.row.documentKind
  groupKind := node.row.groupKind
  sessionTitle := if node.row.kind = .group then none else node.row.title
  depth := depth
  hostLabel := hostLabelForRow node.row depth
  descendantSessions := countLeafSessions node
  expanded := expanded
  sessionId := node.row.sessionId
  sessionCwd := node.row.cwd
  sessionKind := node.row.sessionKind

/-- What the walk over the tree is told. -/
structure Walk where
  home : Option (List Char)
  filter : List Char
  expandedPaths : Finset (List Char)
  shortIds : ShortIds

mutual

def flattenRows (walk : Walk) (depth : Nat) : SessionNode → List BrowserRow
  | .mk row children =>
      let node := SessionNode.mk row children
      if !matchesFilter walk.filter node || (row.kind ≠ .group && row.sessionId.isNone) then []
      else if isHidden node depth then []
      else
        let expanded := isExpanded row walk.filter walk.expandedPaths
        browserRow walk.home node depth expanded walk.shortIds ::
          if row.kind = .group && expanded then flattenAllRows walk (depth + 1) children else []

def flattenAllRows (walk : Walk) (depth : Nat) : List SessionNode → List BrowserRow
  | [] => []
  | child :: rest => flattenRows walk depth child ++ flattenAllRows walk depth rest

end

/-- `build_all_rows_projection`, which `all_rows` caches. -/
def allBrowserRows (home : Option (List Char)) (root : SessionNode) : List BrowserRow :=
  flattenRows
    { home := home
      filter := []
      expandedPaths := (collectGroupPaths root).toFinset
      shortIds := uniqueSessionShortIds root } 0 root

/-! ## The state -/

structure SessionBrowserState where
  root : SessionNode
  filterQuery : List Char
  expandedPaths : Finset (List Char)
  rows : List BrowserRow
  selectedPath : Option (List Char)

namespace SessionBrowserState

def rebuildRows (home : Option (List Char)) (state : SessionBrowserState) : SessionBrowserState :=
  { state with
    rows := flattenRows
      { home := home
        filter := toAsciiLowercase state.filterQuery
        expandedPaths := state.expandedPaths
        shortIds := uniqueSessionShortIds state.root } 0 state.root }

end SessionBrowserState

def defaultLevelOneExpandedPaths (root : SessionNode) : Finset (List Char) :=
  match root with
  | .mk _ [] => ∅
  | .mk row children =>
      insert row.path
        ((children.filter fun child => child.row.kind = .group).map fun child =>
          child.row.path).toFinset

mutual

def firstSessionPath : SessionNode → Option (List Char)
  | .mk row children =>
      if row.kind ≠ .group && row.sessionId.isSome then some row.path
      else firstOfSessionPaths children

def firstOfSessionPaths : List SessionNode → Option (List Char)
  | [] => none
  | child :: rest => (firstSessionPath child).or (firstOfSessionPaths rest)

end

/-- The rows that can be stepped to. -/
def BrowserRow.isLeaf (row : BrowserRow) : Bool := row.kind = .session || row.kind = .document

namespace SessionBrowserState

/-- `SessionBrowserState::new`. -/
def new (home : Option (List Char)) (root : SessionNode) : SessionBrowserState :=
  let state : SessionBrowserState :=
    { root := root
      filterQuery := []
      expandedPaths := defaultLevelOneExpandedPaths root
      rows := []
      selectedPath := none }
  { state.rebuildRows home with selectedPath := firstSessionPath root }

def ensureSelection (state : SessionBrowserState) : SessionBrowserState :=
  if state.selectedPath.all fun path => state.rows.all fun row => row.fullPath ≠ path then
    { state with selectedPath := (state.rows.find? BrowserRow.isLeaf).map BrowserRow.fullPath }
  else state

def selectPath (state : SessionBrowserState) (path : List Char) : SessionBrowserState :=
  if state.rows.any fun row => row.fullPath = path then { state with selectedPath := some path }
  else state

def toggleGroup (home : Option (List Char)) (state : SessionBrowserState) (path : List Char) :
    SessionBrowserState :=
  let expandedPaths :=
    if path ∈ state.expandedPaths then state.expandedPaths.erase path
    else insert path state.expandedPaths
  ({ state with expandedPaths := expandedPaths }.rebuildRows home).ensureSelection

def selectedSessionIndex (state : SessionBrowserState) : Option Nat :=
  state.selectedPath.bind fun path =>
    state.rows.findIdx? fun row => row.isLeaf && row.fullPath = path

/-- The indexes of the rows that can be stepped to. -/
def sessionIndexes (state : SessionBrowserState) : List Nat :=
  (state.rows.zipIdx.filter fun entry => entry.1.isLeaf).map Prod.snd

def selectSessionRelative (state : SessionBrowserState) (delta : Int) :
    Option Nat × SessionBrowserState :=
  let sessionIndexes := state.sessionIndexes
  if sessionIndexes = [] then (none, state)
  else
    let currentPosition := (state.selectedSessionIndex.bind fun selected =>
      sessionIndexes.findIdx? fun index => index = selected).getD 0
    let nextPosition := ((currentPosition + delta) % sessionIndexes.length).toNat
    match sessionIndexes[nextPosition]? with
    | none => (none, state)
    | some index =>
        (some index, { state with selectedPath := (state.rows[index]?).map BrowserRow.fullPath })

def selectNextSession (state : SessionBrowserState) : Option Nat × SessionBrowserState :=
  state.selectSessionRelative 1

def selectPreviousSession (state : SessionBrowserState) : Option Nat × SessionBrowserState :=
  state.selectSessionRelative (-1)

end SessionBrowserState

end Yggterm.Browser
