import Mathlib.Data.Char
import Mathlib.Data.List.Lex
import Mathlib.Data.List.Sort
import Std.Data.TreeMap
import Yggterm.Library.ByteSlices

/-!
# Assigning KeyTips

Every element that can be reached from the keyboard is declared in a scope, and
`assign_scope` (`yggterm-shell/src/keytip.rs`) gives each declaration its tip: a letter, a
number under a letter that several apps ask for, or two letters in a crowded scope.
-/

namespace Yggterm.KeyTips

abbrev Tip := List Char

def excelReservedLetters : List Char := "fhnpmarwxyq".toList

def reservedLetter (letter : Char) : Bool := excelReservedLetters.contains letter.toLower

inductive ScopeId where
  | root
  | insert
  | settings
  | settingsTheme
  | rowMenu
  | rowMenuSub (id : List Char)
  | sessionJump
  | app (id : List Char)
  deriving DecidableEq

namespace ScopeId

def asStr : ScopeId → List Char
  | root => "root".toList
  | insert => "insert.menu".toList
  | settings => "settings".toList
  | settingsTheme => "settings.theme".toList
  | rowMenu => "rowmenu".toList
  | rowMenuSub id => "rowmenu.".toList ++ id
  | sessionJump => "session.jump".toList
  | app id => "app.".toList ++ id

/-- Only at the root are Excel's letters kept for apps. -/
def isReservedNamespace (scope : ScopeId) : Bool := scope = root

end ScopeId

inductive Origin where
  | shell
  | app
  deriving DecidableEq

inductive Target where
  | run
  | descend (scope : ScopeId)
  deriving DecidableEq

structure KeyTipDecl where
  key : List Char
  title : List Char
  hint : Option Char
  origin : Origin
  target : Target
  deriving DecidableEq

structure GroupMember where
  number : Nat
  key : List Char
  title : List Char
  target : Target
  deriving DecidableEq

inductive AssignedNode where
  | leaf (key title : List Char) (tip : Tip) (target : Target)
  | group (tip : Tip) (title : List Char) (members : List GroupMember)
  deriving DecidableEq

def AssignedNode.tip : AssignedNode → Tip
  | leaf _ _ tip _ => tip
  | group tip _ _ => tip

/-- The letters and the group numbers that the user chose. -/
structure KeymapConfig where
  keytips : Std.TreeMap (List Char) Char
  pinned : Std.TreeMap (List Char) Nat

namespace KeymapConfig

/-- `KeymapConfig::default()`. -/
def empty : KeymapConfig := ⟨∅, ∅⟩

def keytipOverride (keymap : KeymapConfig) (key : List Char) : Option Char :=
  keymap.keytips[key]?

def pinKey (scope : ScopeId) (letter : Char) (memberKey : List Char) : List Char :=
  scope.asStr ++ '/' :: letter :: '/' :: memberKey

end KeymapConfig

/-- The letter a declaration wants: the user's, or its own. -/
def desired (keymap : KeymapConfig) (decl : KeyTipDecl) : Option Char :=
  ((keymap.keytipOverride decl.key).or decl.hint).map Char.toLower

def singleTipCapacity : Nat := 36
def tipsPerPrefix : Nat := 36
def lettersBeforeOverflow : Nat := 26

def letters : List Char := "abcdefghijklmnopqrstuvwxyz".toList
def digits : List Char := "0123456789".toList

/-- The loop of `overflow_prefixes`. -/
def reservePrefixes (needed : Nat) (wanted : List Char) : List Char → Nat → List Char
  | [], _ => []
  | letter :: rest, capacity =>
      if needed ≤ capacity then []
      else if letter ∈ wanted then reservePrefixes needed wanted rest capacity
      else letter :: reservePrefixes needed wanted rest (capacity - 1 + tipsPerPrefix)

/-- The letters held back as first halves, from the end of the alphabet. -/
def overflowPrefixes (decls : List KeyTipDecl) (keymap : KeymapConfig) : List Char :=
  if decls.length ≤ lettersBeforeOverflow then []
  else reservePrefixes decls.length (decls.filterMap (desired keymap)) letters.reverse
    singleTipCapacity

structure TipPool where
  taken : List Char
  prefixes : List Char
  pairs : List Tip

namespace TipPool

def new (prefixes : List Char) : TipPool := ⟨[], prefixes, []⟩

def singleFree (pool : TipPool) (letter : Char) : Bool :=
  letter.toLower ∉ pool.taken && letter.toLower ∉ pool.prefixes

def pairFree (pool : TipPool) (pair : Tip) : Bool := !pool.pairs.contains pair

def claim (pool : TipPool) (tip : Tip) : TipPool :=
  match tip with
  | [] => pool
  | [letter] => { pool with taken := pool.taken ++ [letter.toLower] }
  | _ => { pool with pairs := pool.pairs ++ [tip.map Char.toLower] }

end TipPool

/-- Whether a declaration may have a letter at all. -/
def legalLetter (reservedNs : Bool) (origin : Origin) (letter : Char) : Bool :=
  !(reservedNs && origin = .shell && reservedLetter letter)

/-- The letters and digits of a title, then all letters and digits. -/
def titleLadder (decl : KeyTipDecl) : List Char :=
  (decl.title.filter Char.isAlphanum).map Char.toLower ++ letters ++ digits

/-- What is given when nothing is left. -/
def lastResort (decl : KeyTipDecl) : Char :=
  ((decl.title.find? Char.isAlphanum).map Char.toLower).getD 'z'

def pickTip (decl : KeyTipDecl) (wish : Option Char) (pool : TipPool)
    (reservedNs honorHint : Bool) : Tip :=
  let free letter := pool.singleFree letter && legalLetter reservedNs decl.origin letter
  match ((if honorHint then wish.toList else []) ++ titleLadder decl).find? free with
  | some letter => [letter]
  | none =>
      match (pool.prefixes.flatMap fun first =>
          (titleLadder decl).map fun second => [first, second]).find? pool.pairFree with
      | some pair => pair
      | none => [lastResort decl]

def leafOf (decl : KeyTipDecl) (tip : Tip) : AssignedNode :=
  .leaf decl.key decl.title tip decl.target

/-- The pool, and the nodes by the places of their declarations. -/
abbrev Assignment := TipPool × List (Nat × AssignedNode)

/-- One declaration goes down the ladder. -/
def place (reservedNs honorHint : Bool) (wish : KeyTipDecl → Option Char) (state : Assignment)
    (entry : KeyTipDecl × Nat) : Assignment :=
  let tip := pickTip entry.1 (wish entry.1) state.1 reservedNs honorHint
  (state.1.claim tip, state.2 ++ [(entry.2, leafOf entry.1 tip)])

/-- The first of the numbers from here on that is not used. -/
def nextFree (used : List Nat) (next : Nat) : Nat :=
  if next ∈ used then nextFree used (next + 1) else next
termination_by (used.filter (next ≤ ·)).length
decreasing_by
  next isUsed =>
    have fewer : (used.filter (next + 1 ≤ ·)).Sublist (used.filter (next ≤ ·)) :=
      List.monotone_filter_right used fun number => by simp; omega
    have apart : used.filter (next + 1 ≤ ·) ≠ used.filter (next ≤ ·) := by
      intro same
      have member : next ∈ used.filter (next ≤ ·) := by simp [isUsed]
      rw [← same] at member
      have later := (List.mem_filter.mp member).2
      simp only [decide_eq_true_eq] at later
      omega
    exact lt_of_le_of_ne fewer.length_le fun sameLength => apart (fewer.eq_of_length sameLength)

/-- The numbers that pins give to claimants, each to the first that has it. -/
def honorPins (pin : KeyTipDecl → Option Nat) :
    List (KeyTipDecl × Nat) → List Nat → List Nat × List (Nat × Nat)
  | [], used => (used, [])
  | claimant :: rest, used =>
      match pin claimant.1 with
      | none => honorPins pin rest used
      | some number =>
          if number ∈ used then honorPins pin rest used
          else
            let later := honorPins pin rest (used ++ [number])
            (later.1, (claimant.2, number) :: later.2)

/-- The claimants without a pin take the next free numbers. -/
def fillNumbers (pinnedFor : List (Nat × Nat)) :
    List (KeyTipDecl × Nat) → List Nat → Nat → List GroupMember
  | [], _, _ => []
  | claimant :: rest, used, next =>
      match pinnedFor.lookup claimant.2 with
      | some number =>
          ⟨number, claimant.1.key, claimant.1.title, claimant.1.target⟩ ::
            fillNumbers pinnedFor rest used next
      | none =>
          let number := nextFree used next
          ⟨number, claimant.1.key, claimant.1.title, claimant.1.target⟩ ::
            fillNumbers pinnedFor rest (used ++ [number]) number

def numberGroup (scope : ScopeId) (letter : Char) (claimants : List (KeyTipDecl × Nat))
    (keymap : KeymapConfig) : List GroupMember :=
  let pins := honorPins (fun decl => keymap.pinned[KeymapConfig.pinKey scope letter decl.key]?)
    claimants []
  (fillNumbers pins.2 claimants pins.1 1).insertionSort fun first second =>
    first.number ≤ second.number

/-- A letter that one app asks for is its tip; more than one become a numbered group, which stands
at the place of the first. -/
def letterNode (scope : ScopeId) (keymap : KeymapConfig) (letter : Char) :
    List (KeyTipDecl × Nat) → List (Nat × AssignedNode)
  | [] => []
  | [claimant] => [(claimant.2, leafOf claimant.1 [letter])]
  | first :: second :: rest =>
      [(first.2, .group [letter] "New …".toList
        (numberGroup scope letter (first :: second :: rest) keymap))]

def layLetter (scope : ScopeId) (keymap : KeymapConfig) (state : Assignment)
    (entry : Char × List (KeyTipDecl × Nat)) : Assignment :=
  (state.1.claim [entry.1], state.2 ++ letterNode scope keymap entry.1 entry.2)

/-- The letter an app asks for, if it is still free. -/
def freeWish (keymap : KeymapConfig) (pool : TipPool) (entry : KeyTipDecl × Nat) : Option Char :=
  (desired keymap entry.1).filter pool.singleFree

/-- The apps whose letter is free, by their letters, and the others. -/
def sortApps (keymap : KeymapConfig) (pool : TipPool)
    (state : Std.TreeMap Char (List (KeyTipDecl × Nat)) × List (KeyTipDecl × Nat))
    (entry : KeyTipDecl × Nat) :
    Std.TreeMap Char (List (KeyTipDecl × Nat)) × List (KeyTipDecl × Nat) :=
  match freeWish keymap pool entry with
  | some letter => (state.1.insert letter (state.1.getD letter [] ++ [entry]), state.2)
  | none => (state.1, state.2 ++ [entry])

/-- The declarations with their places. -/
def ofOrigin (origin : Origin) (decls : List KeyTipDecl) : List (KeyTipDecl × Nat) :=
  decls.zipIdx.filter fun entry => entry.1.origin = origin

def assignScope (scope : ScopeId) (decls : List KeyTipDecl) (keymap : KeymapConfig) :
    List AssignedNode :=
  let reservedNs := scope.isReservedNamespace
  let shells := (ofOrigin .shell decls).foldl (place reservedNs true (desired keymap))
    (TipPool.new (overflowPrefixes decls keymap), [])
  let apps := (ofOrigin .app decls).foldl (sortApps keymap shells.1) (∅, [])
  let lettered := apps.1.toList.foldl (layLetter scope keymap) shells
  let assignment := (apps.2.foldl (place reservedNs false (desired keymap)) lettered).2
  (List.range decls.length).filterMap fun index => assignment.lookup index

/-! ## The tree of KeyTips

The assigned scopes of a frame, and its two readers: the painter, which asks what badge an
element has behind the keys typed so far (`tip_for`, `group_member_tip`), and the walker,
which decides what typed keys do (`resolve`). -/

open Utf8

/-- What one level makes of the keys in front of it. -/
inductive TipMatch where
  | node (node : AssignedNode) (consumed : Nat)
  | pending
  | invalid

/-- Behind the first half of a two-letter tip. -/
def matchSecond (nodes : List AssignedNode) (first : Char) : List Char → TipMatch
  | [] => .pending
  | second :: _ =>
      match nodes.find? fun node => node.tip = [first, second] with
      | some node => .node node 2
      | none => .invalid

def matchTip (nodes : List AssignedNode) : List Char → TipMatch
  | [] => .invalid
  | first :: rest =>
      match nodes.find? fun node => node.tip = [first] with
      | some node => .node node 1
      | none =>
          if nodes.any fun node => node.tip.length = 2 && node.tip.head? = some first then
            matchSecond nodes first rest
          else .invalid

inductive ChordResolution where
  | pending
  | run (key : List Char)
  | descend (key scope : List Char)
  | invalid
  deriving DecidableEq

/-- The assigned nodes by the ids of their scopes. -/
abbrev KeyTipTree := List Char → Option (List AssignedNode)

/-- The id of the level that a group letter opens. -/
def groupScope (scope : List Char) (tip : Tip) : List Char := scope ++ '/' :: tip

/-- `char::to_digit(10)`. -/
def toDigit (char : Char) : Option Nat :=
  if char.isDigit then some (char.toNat - '0'.toNat) else none

/-- The member that a typed key selects. -/
def memberAt (members : List GroupMember) (char : Char) : Option GroupMember :=
  (toDigit char).bind fun number => members.find? fun member => member.number = number

/-- The badge of an element on the level of these nodes. -/
def paintedTip (nodes : List AssignedNode) (nodeKey : List Char) : Option Tip :=
  nodes.findSome? fun node =>
    match node with
    | .leaf key _ tip _ => if key = nodeKey then some tip else none
    | .group tip _ members =>
        if members.any (fun member => member.key = nodeKey) &&
            members.head?.map GroupMember.key = some nodeKey then
          some tip
        else none

/-- The member with this key under a group letter. -/
def memberUnder (nodes : List AssignedNode) (letter nodeKey : List Char) : Option GroupMember :=
  nodes.findSome? fun node =>
    match node with
    | .leaf .. => none
    | .group tip _ members =>
        if tip = letter then members.find? fun member => member.key = nodeKey else none

namespace KeyTipTree

def build (scopes : List (ScopeId × List KeyTipDecl)) (keymap : KeymapConfig) : KeyTipTree :=
  scopes.foldl (fun tree entry =>
    Function.update tree entry.1.asStr (some (assignScope entry.1 entry.2 keymap))) fun _ => none

variable (tree : KeyTipTree)

/-- The loop of `scope_at`; `skip` keys are already consumed. -/
def scopeFrom : Nat → List Char → List Char → Option (List Char)
  | _, scope, [] => some scope
  | skip + 1, scope, _ :: rest => scopeFrom skip scope rest
  | 0, scope, first :: rest =>
      match tree scope with
      | none => none
      | some nodes =>
          match matchTip nodes (first :: rest) with
          | .node (.leaf _ _ _ (.descend child)) consumed =>
              scopeFrom (consumed - 1) child.asStr rest
          | .node (.leaf _ _ _ .run) _ => none
          | .node (.group tip _ _) _ => some (groupScope scope tip)
          | .pending => none
          | .invalid => none

/-- Which level a typed sequence lands on. -/
def scopeAt (sequence : List Char) : Option (List Char) :=
  tree.scopeFrom 0 ScopeId.root.asStr (sequence.map Char.toLower)

def tipFor (sequence nodeKey : List Char) : Option (List Char) :=
  (tree.scopeAt sequence).bind fun scope => (tree scope).bind fun nodes =>
    (paintedTip nodes nodeKey).map fun tip => tip.map Char.toUpper

/-- The number of a group member; `none` when the cut before the last byte panics. -/
def groupMemberTip (sequence nodeKey : List Char) : Option (Option (List Char)) :=
  match (encode sequence).length with
  | 0 => some none
  | bytes + 1 => (splitBytes bytes sequence).map fun parts =>
      (tree.scopeAt parts.1).bind fun scope => (tree scope).bind fun nodes =>
        (memberUnder nodes parts.2 nodeKey).map fun member => Nat.toDigits 10 member.number

/-- What the key behind a group letter does, and any after it. -/
def chooseMember (members : List GroupMember) : List Char → ChordResolution
  | [char] =>
      match memberAt members char with
      | some member => .run member.key
      | none => .invalid
  | _ => .invalid

/-- The loop of `resolve`; `skip` keys are already consumed. -/
def resolveFrom : Nat → List Char → List Char → ChordResolution
  | _, _, [] => .pending
  | skip + 1, scope, _ :: rest => resolveFrom skip scope rest
  | 0, scope, first :: rest =>
      match tree scope with
      | none => .invalid
      | some nodes =>
          match matchTip nodes (first :: rest) with
          | .pending => .pending
          | .invalid => .invalid
          | .node node consumed =>
              let left := rest.drop (consumed - 1)
              match node with
              | .leaf key _ _ .run => if left = [] then .run key else .invalid
              | .leaf key _ _ (.descend child) =>
                  if left = [] then .descend key child.asStr
                  else resolveFrom (consumed - 1) child.asStr rest
              | .group tip _ members =>
                  if left = [] then .descend [] (groupScope scope tip)
                  else chooseMember members left

def resolve (sequence : List Char) : ChordResolution :=
  tree.resolveFrom 0 ScopeId.root.asStr (sequence.map Char.toLower)

end KeyTipTree

end Yggterm.KeyTips
