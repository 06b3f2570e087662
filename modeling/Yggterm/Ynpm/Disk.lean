import Yggterm.Library.Utf8
import Yggterm.Ynpm.Retention

/-!
# The sweep of the disk

`sweep_scratch` and `sweep_generations` go through directories and remove what no guard keeps.
The file system is a value of its own, of which each operation may fail.
-/

namespace Ynpm.Disk

/-! ## Paths -/

/-- The name of a file, which need not be UTF-8. -/
inductive Name where
  | text (name : List Char)
  | raw (bytes : List UInt8)
  deriving DecidableEq

def Name.toStr : Name → Option (List Char)
  | .text name => some name
  | .raw _ => none

/-- `to_string_lossy`. -/
def Name.display : Name → List Char
  | .text name => name
  | .raw bytes => Utf8.fromUtf8Lossy bytes

inductive Component where
  | rootDir
  | curDir
  | parentDir
  | normal (name : Name)
  deriving DecidableEq

abbrev Path := List Component

namespace Path

def join (path : Path) (name : Name) : Path := path ++ [.normal name]

/-- What is written with separators in the source. -/
def joinText (path : Path) (names : List String) : Path :=
  path ++ names.map fun name => .normal (.text name.toList)

def ofText (text : List Char) : Path :=
  (Paths.components text).map fun component =>
    match component with
    | .rootDir => .rootDir
    | .curDir => .curDir
    | .parentDir => .parentDir
    | .normal name => .normal (.text name)

def fileName (path : Path) : Option Name :=
  match path.getLast? with
  | some (.normal name) => some name
  | _ => none

end Path

def Component.display : Component → List Char
  | .rootDir => []
  | .curDir => ['.']
  | .parentDir => ['.', '.']
  | .normal name => name.display

def Path.display (path : Path) : List Char :=
  if path = [.rootDir] then ['/'] else List.intercalate ['/'] (path.map Component.display)

/-! ## The file system -/

/-- What a file system answers.  A name stands once in a directory; what a removal leaves is not
known where it fails. -/
structure FileSystem (Tree : Type) where
  readDir : Tree → Path → Option (List Name)
  nodup_readDir : ∀ tree path names, readDir tree path = some names → names.Nodup
  isDir : Tree → Path → Bool
  readLink : Tree → Path → Option Path
  canonicalize : Tree → Path → Option Path
  readToString : Tree → Path → Option (List Char)
  mtimeMs : Tree → Path → Option Nat
  footprint : Tree → Path → Option (Nat × Nat)
  removeDirAll : Tree → Path → Except (List Char) Unit × Tree
  removeFile : Tree → Path → Except (List Char) Unit × Tree

/-- The process and what it found when it started to sweep. -/
structure Machine where
  home : Path
  state : State
  live : List Path
  pid : Nat
  nowMs : Nat

namespace Machine

variable (machine : Machine)

def stateFile : Path := machine.home.joinText [".yggterm", "ynpm", "state.json"]

def root : Path := machine.home.joinText [".yggterm", "ynpm"]

def generations : Path := machine.root.joinText ["generations"]

def scratch : Path := machine.home.joinText [".yggterm", "scratchpad", "ynpm"]

/-- The directories in which links are published. -/
def scanRoots : List Path :=
  [machine.root.joinText ["bin"], machine.home.joinText [".local", "bin"],
    machine.home.joinText [".yggterm", "bin"]] ++
      machine.state.packages.entries.filterMap fun entry => entry.2.destination.map Path.ofText

end Machine

/-! ## Guards -/

inductive Reason where
  | currentProcess
  | liveProcess
  | graceWindow
  | unreadableMtime
  | referenced
  | removeFailed (error : List Char)
  deriving DecidableEq

def Reason.message : Reason → List Char
  | .currentProcess => "current process".toList
  | .liveProcess => "live process".toList
  | .graceWindow => "grace window".toList
  | .unreadableMtime => "unreadable mtime".toList
  | .referenced => "referenced".toList
  | .removeFailed error => "remove failed: ".toList ++ error

def pathIsLive (path : Path) (live : List Path) : Bool :=
  live.any fun executable => path.isPrefixOf executable

/-- The name ends like those that this process makes. -/
def isCurrentProcess (machine : Machine) (path : Path) : Bool :=
  (path.fileName.bind Name.toStr).any fun name =>
    ('-' :: Nat.toDigits 10 machine.pid).isSuffixOf name

section Guards

variable {Tree : Type} (files : FileSystem Tree) (machine : Machine) (tree : Tree)

def linksInto (candidate rootDir : Path) : Bool :=
  ((files.readDir tree rootDir).getD []).any fun entry =>
    (files.readLink tree (rootDir.join entry)).any fun target =>
      candidate.isPrefixOf ((files.canonicalize tree target).getD target)

/-- The state file and the registrations. -/
def textRoots : List Path :=
  machine.stateFile :: ((files.readDir tree (machine.home.joinText [".yggterm", "apps"])).getD
    []).map (machine.home.joinText [".yggterm", "apps"]).join

def pathIsReferenced (candidate : Path) : Bool :=
  machine.scanRoots.any (linksInto files tree candidate) ||
    let needle := candidate.display
    !needle.isEmpty && (textRoots files machine tree).any fun file =>
      (files.readToString tree file).any fun text => (Search.findText needle text).isSome

def retentionGuardBlocks (graceMs : Nat) (candidate : Path) : Option Reason :=
  if isCurrentProcess machine candidate then some .currentProcess
  else if pathIsLive candidate machine.live then some .liveProcess
  else
    match files.mtimeMs tree candidate with
    | none => some .unreadableMtime
    | some mtime =>
        if machine.nowMs - mtime < graceMs then some .graceWindow
        else if pathIsReferenced files machine tree candidate then some .referenced
        else none

end Guards

/-! ## Sweeps -/

structure SweepOutcome where
  removed : List Path
  deferred : List (Path × Reason)
  reclaimedBytes : Nat
  reclaimedFiles : Nat

namespace SweepOutcome

def empty : SweepOutcome := ⟨[], [], 0, 0⟩

def noteDeferred (outcome : SweepOutcome) (path : Path) (reason : Reason) : SweepOutcome :=
  { outcome with deferred := outcome.deferred ++ [(path, reason)] }

def noteRemoved (outcome : SweepOutcome) (path : Path) (footprint : Nat × Nat) : SweepOutcome :=
  { outcome with
    removed := outcome.removed ++ [path]
    reclaimedBytes := outcome.reclaimedBytes + footprint.1
    reclaimedFiles := outcome.reclaimedFiles + footprint.2 }

end SweepOutcome

/-- How a sweep is called. -/
structure Call where
  graceMs : Nat
  dryRun : Bool
  force : Bool

/-- What is swept, and how many generations are kept. -/
inductive Scope where
  | scratch
  | generations (keep : Nat)

section Sweep

variable {Tree : Type} (files : FileSystem Tree) (machine : Machine)

/-- The guards under `--force`, which each of the two sweeps writes out. -/
def forcedGuard : Scope → Path → Option Reason
  | .scratch, path =>
      if pathIsLive path machine.live then some .liveProcess
      else if isCurrentProcess machine path then some .currentProcess
      else none
  | .generations _, path => if pathIsLive path machine.live then some .liveProcess else none

def guardOf (scope : Scope) (call : Call) (tree : Tree) (path : Path) : Option Reason :=
  if call.force then forcedGuard machine scope path
  else retentionGuardBlocks files machine tree call.graceMs path

def removeEntry (scope : Scope) (tree : Tree) (path : Path) : Except (List Char) Unit × Tree :=
  match scope with
  | .generations _ => files.removeDirAll tree path
  | .scratch =>
      match files.removeDirAll tree path with
      | (.ok (), tree) => (.ok (), tree)
      | (.error _, tree) => files.removeFile tree path

/-- No guard keeps the entry. -/
def removeUnguarded (scope : Scope) (dryRun : Bool) (current : SweepOutcome × Tree) (path : Path) :
    SweepOutcome × Tree :=
  let footprint := (files.footprint current.2 path).getD (0, 0)
  if dryRun then (current.1.noteRemoved path footprint, current.2)
  else
    match removeEntry files scope current.2 path with
    | (.ok (), tree) => (current.1.noteRemoved path footprint, tree)
    | (.error error, tree) => (current.1.noteDeferred path (.removeFailed error), tree)

/-- One entry that is not kept. -/
def sweepEntry (scope : Scope) (call : Call) (current : SweepOutcome × Tree) (path : Path) :
    SweepOutcome × Tree :=
  match guardOf files machine scope call current.2 path with
  | some reason => (current.1.noteDeferred path reason, current.2)
  | none => removeUnguarded files scope call.dryRun current path

def sweepScratch (call : Call) (tree : Tree) : SweepOutcome × Tree :=
  match files.readDir tree machine.scratch with
  | none => (.empty, tree)
  | some entries =>
      (entries.map machine.scratch.join).foldl (sweepEntry files machine .scratch call)
        (.empty, tree)

/-- The generations of a package that are not kept. -/
def candidates (keep : Nat) (tree : Tree) (key : Name) : List Path :=
  let keyDir := machine.generations.join key
  if files.isDir tree keyDir then
    match files.readDir tree keyDir with
    | none => []
    | some entries =>
        let names := entries.filterMap Name.toStr
        let keepSet := generationKeepNames (machine.state.packages.get? key.display) names keep
        (names.filter fun name => !keepSet.contains name).map fun name => keyDir.join (.text name)
  else []

def sweepKey (keep : Nat) (call : Call) (current : SweepOutcome × Tree) (key : Name) :
    SweepOutcome × Tree :=
  (candidates files machine keep current.2 key).foldl
    (sweepEntry files machine (.generations keep) call) current

def sweepGenerations (keep : Nat) (call : Call) (tree : Tree) : SweepOutcome × Tree :=
  match files.readDir tree machine.generations with
  | none => (.empty, tree)
  | some keys => keys.foldl (sweepKey files machine keep call) (.empty, tree)

def sweep (scope : Scope) (call : Call) (tree : Tree) : SweepOutcome × Tree :=
  match scope with
  | .scratch => sweepScratch files machine call tree
  | .generations keep => sweepGenerations files machine keep call tree

end Sweep

end Ynpm.Disk
