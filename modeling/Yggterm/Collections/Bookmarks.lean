import Yggterm.Collections.Links
import Yggterm.Library.Insertions

/-!
# Filing bookmarks

`browser_import.rs` files each bookmark under the headings of its folders, which it creates where
they are missing.  Nesting exists only as the depth of the headings: the path of a link is read
off the headings before it.
-/

namespace Yggterm.Collections

open Insertions

structure BookmarkLeaf where
  folderPath : List (List Char)
  title : List Char
  url : List Char
  deriving DecidableEq

abbrev FolderPath := List (List Char)

def joinPath (path : FolderPath) : List Char := ['/'].intercalate path

def BookmarkLeaf.placementKey (leaf : BookmarkLeaf) : List Char × List Char :=
  (joinPath leaf.folderPath, leaf.url)

/-- The path behind a block. -/
def descend (path : FolderPath) : Block → FolderPath
  | .folder depth name => path.take (depth - 2) ++ [name]
  | _ => path

def stands (path : FolderPath) : Block → List (FolderPath × Item)
  | .item link => [(path, link)]
  | _ => []

/-- The links of a body, each with its path. -/
def placed (path : FolderPath) : List Block → List (FolderPath × Item)
  | [] => []
  | block :: rest => stands path block ++ placed (descend path block) rest

def existingPlacements (blocks : List Block) : List (List Char × List Char) :=
  (placed [] blocks).map fun place => (joinPath place.1, place.2.url)

/-- A heading that ends a section of this depth. -/
def Block.ends (depth : Nat) : Block → Bool
  | .folder other _ => other ≤ depth
  | _ => false

def Block.isFolderAt (depth : Nat) (name : List Char) : Block → Bool
  | .folder other otherName => other = depth && otherName = name
  | _ => false

def folderSectionEnd (blocks : List Block) (index : Nat) : Nat :=
  match blocks[index]? with
  | some (.folder depth _) =>
      ((blocks.drop (index + 1)).findIdx? (Block.ends depth)).elim blocks.length (index + 1 + ·)
  | _ => blocks.length

def findFolder (blocks : List Block) (name : List Char) (depth start ends : Nat) : Option Nat :=
  (((blocks.take ends).drop start).findIdx? (Block.isFolderAt depth name)).map (start + ·)

/-- Back over the blank lines before a place, down to a floor. -/
def stepBackTo (blocks : List Block) (floor : Nat) : Nat → Nat
  | 0 => 0
  | before + 1 =>
      if floor < before + 1 ∧ (blocks[before]?).any Block.isBlank then
        stepBackTo blocks floor before
      else before + 1

/-- The loop of `ensure_folder_path` from a level on. -/
def ensureFrom (level : Nat) :
    FolderPath → List Block → Nat → Nat → Option Nat → List Block × Option Nat
  | [], blocks, _, _, deepest => (blocks, deepest)
  | name :: rest, blocks, start, ends, _ =>
      match findFolder blocks name (2 + level) start ends with
      | some index =>
          ensureFrom (level + 1) rest blocks (index + 1) (folderSectionEnd blocks index)
            (some index)
      | none =>
          let place := stepBackTo blocks start (min ends blocks.length)
          ensureFrom (level + 1) rest
            (blocks.take place ++
              ([.raw [], .folder (2 + level) name, .raw []] ++ blocks.drop place))
            (place + 2) (place + 3) (some (place + 1))

def ensureFolderPath (blocks : List Block) (path : FolderPath) : List Block × Option Nat :=
  ensureFrom 0 path blocks 0 blocks.length none

/-- The place of an item at the end of a section, behind the blank line under its heading. -/
def sectionPlace (blocks : List Block) : Option Nat → Nat
  | none => blocks.length
  | some index =>
      let floor := if (blocks[index + 1]?).any Block.isBlank then index + 2 else index + 1
      stepBackTo blocks floor (folderSectionEnd blocks index)

def appendItemToSection (blocks : List Block) (folder : Option Nat) (link : Item) : List Block :=
  blocks.insertIdx (sectionPlace blocks folder) (.item link)

def addBookmark (blocks : List Block) (path : FolderPath) (link : Item) : List Block :=
  let opened := ensureFolderPath blocks path
  appendItemToSection opened.1 opened.2 link

/-- The state of the loop of `merge_bookmarks_into_collection`. -/
structure BookmarkMerge where
  blocks : List Block
  placements : List (List Char × List Char)
  added : Nat
  duplicates : Nat
  deriving DecidableEq

def BookmarkMerge.visit (merge : BookmarkMerge) (leaf : BookmarkLeaf) : BookmarkMerge :=
  if leaf.placementKey ∈ merge.placements then { merge with duplicates := merge.duplicates + 1 }
  else
    { blocks := addBookmark merge.blocks leaf.folderPath (.new leaf.title leaf.url)
      placements := leaf.placementKey :: merge.placements
      added := merge.added + 1
      duplicates := merge.duplicates }

def BookmarkMerge.start (blocks : List Block) : BookmarkMerge :=
  ⟨blocks, existingPlacements blocks, 0, 0⟩

def mergeBookmarks (blocks : List Block) (leaves : List BookmarkLeaf) : BookmarkMerge :=
  leaves.foldl BookmarkMerge.visit (.start blocks)

/-- The bookmarks whose keys are new. -/
def newLeaves (keys : List (List Char × List Char)) : List BookmarkLeaf → List BookmarkLeaf
  | [] => []
  | leaf :: rest =>
      if leaf.placementKey ∈ keys then newLeaves keys rest
      else leaf :: newLeaves (leaf.placementKey :: keys) rest

/-! ## Paths -/

def pathAfter (path : FolderPath) (blocks : List Block) : FolderPath := blocks.foldl descend path

theorem pathAfter_append (path : FolderPath) (first second : List Block) :
    pathAfter path (first ++ second) = pathAfter (pathAfter path first) second :=
  List.foldl_append

theorem placed_append (path : FolderPath) (first second : List Block) :
    placed path (first ++ second) = placed path first ++ placed (pathAfter path first) second := by
  induction first generalizing path with
  | nil => rfl
  | cons block rest inductionHypothesis =>
      rw [List.cons_append, placed, inductionHypothesis, placed, List.append_assoc]
      rfl

theorem descend_of_not_folder {path : FolderPath} {block : Block}
    (notFolder : block.isFolder = false) : descend path block = path := by
  cases block with
  | folder depth name => cases notFolder
  | item link => rfl
  | raw line => rfl

theorem pathAfter_of_no_folder {path : FolderPath} {blocks : List Block}
    (noFolder : ∀ block ∈ blocks, block.isFolder = false) : pathAfter path blocks = path := by
  induction blocks with
  | nil => rfl
  | cons block rest inductionHypothesis =>
      obtain ⟨first, others⟩ := List.forall_mem_cons.mp noFolder
      rw [pathAfter, List.foldl_cons, descend_of_not_folder first]
      exact inductionHypothesis others

theorem isFolder_of_isBlank {block : Block} (blank : block.isBlank = true) :
    block.isFolder = false := by
  cases block with
  | raw line => rfl
  | folder depth name => cases blank
  | item link => cases blank

theorem placed_of_blank {path : FolderPath} {blanks : List Block}
    (blank : ∀ block ∈ blanks, block.isBlank = true) : placed path blanks = [] := by
  induction blanks with
  | nil => rfl
  | cons block rest inductionHypothesis =>
      obtain ⟨first, others⟩ := List.forall_mem_cons.mp blank
      cases block with
      | raw line => exact inductionHypothesis others
      | folder depth name => cases first
      | item link => cases first

/-- Every heading lies below the level. -/
def Below (level : Nat) (blocks : List Block) : Prop :=
  ∀ depth name, .folder depth name ∈ blocks → level ≤ depth - 2

theorem Below.cons {level : Nat} {block : Block} {rest : List Block}
    (below : Below level (block :: rest)) : Below level rest :=
  fun depth name member => below depth name (List.mem_cons_of_mem block member)

/-- Blocks below a level keep the path up to it. -/
theorem take_pathAfter {level : Nat} {path : FolderPath} {blocks : List Block}
    (below : Below level blocks) (long : level ≤ path.length) :
    level ≤ (pathAfter path blocks).length ∧
      (pathAfter path blocks).take level = path.take level := by
  induction blocks generalizing path with
  | nil => exact ⟨long, rfl⟩
  | cons block rest inductionHypothesis =>
      rw [pathAfter, List.foldl_cons, ← pathAfter]
      cases block with
      | folder depth name =>
          have deep := below depth name List.mem_cons_self
          have stillLong : level ≤ (path.take (depth - 2)).length := by
            rw [List.length_take]
            omega
          obtain ⟨isLong, same⟩ := @inductionHypothesis (descend path (.folder depth name))
            below.cons (by rw [descend, List.length_append]; omega)
          refine ⟨isLong, same.trans ?_⟩
          rw [descend, List.take_append_of_le_length stillLong, List.take_take,
            Nat.min_eq_left deep]
      | item link => exact inductionHypothesis below.cons long
      | raw line => exact inductionHypothesis below.cons long

theorem lt_length_descend {level depth : Nat} {path : FolderPath} (name : List Char)
    (deep : level ≤ depth - 2) (long : level ≤ path.length) :
    level < (descend path (.folder depth name)).length := by
  rw [descend, List.length_append, List.length_take, List.length_singleton]
  omega

theorem lt_length_pathAfter_of_lt {level : Nat} {path : FolderPath} {blocks : List Block}
    (below : Below level blocks) (longer : level < path.length) :
    level < (pathAfter path blocks).length := by
  induction blocks generalizing path with
  | nil => exact longer
  | cons block rest inductionHypothesis =>
      rw [pathAfter, List.foldl_cons]
      apply inductionHypothesis below.cons
      cases block with
      | folder depth name =>
          exact lt_length_descend name (below depth name List.mem_cons_self) longer.le
      | item link => exact longer
      | raw line => exact longer

/-- A heading below the level makes the path longer. -/
theorem lt_length_pathAfter {level : Nat} {path : FolderPath} {blocks : List Block}
    (below : Below level blocks) (long : level ≤ path.length)
    (hasFolder : blocks.any Block.isFolder = true) :
    level < (pathAfter path blocks).length := by
  induction blocks generalizing path with
  | nil => cases hasFolder
  | cons block rest inductionHypothesis =>
      rw [pathAfter, List.foldl_cons]
      cases block with
      | folder depth name =>
          apply lt_length_pathAfter_of_lt below.cons
          exact lt_length_descend name (below depth name List.mem_cons_self) long
      | item link => exact inductionHypothesis below.cons long hasFolder
      | raw line => exact inductionHypothesis below.cons long hasFolder

/-! ## Sections -/

theorem Block.ends_mono {block : Block} {depth wider : Nat} (isEnd : block.ends depth = true)
    (less : depth ≤ wider) : block.ends wider = true := by
  cases block with
  | folder other name => exact decide_eq_true ((of_decide_eq_true isEnd).trans less)
  | item link => cases isEnd
  | raw line => cases isEnd

theorem ends_of_mem_head_dropWhile {blocks : List Block} {depth : Nat} {block : Block}
    (isFirst : block ∈ (blocks.dropWhile fun block => !block.ends depth).head?) :
    block.ends depth = true := by
  have isEnd := List.head?_dropWhile_not (fun block => !block.ends depth) blocks
  rw [Option.mem_def.mp isFirst] at isEnd
  simpa using isEnd

/-- Behind a section there are blank lines, and then a heading that is not below it. -/
def Closes (level : Nat) (after : List Block) : Prop :=
  ∃ blanks rest, after = blanks ++ rest ∧ (∀ block ∈ blanks, block.isBlank = true) ∧
    ∀ block ∈ rest.head?, block.ends (level + 1) = true

/-- What stands behind a section does not see what is put into it. -/
theorem Closes.placed_eq {level : Nat} {after : List Block} (closes : Closes level after)
    {first second : FolderPath} (same : first.take level = second.take level) :
    placed first after = placed second after := by
  obtain ⟨blanks, rest, rfl, blank, isEnd⟩ := closes
  have noFolder : ∀ block ∈ blanks, block.isFolder = false := fun block member =>
    isFolder_of_isBlank (blank block member)
  rw [placed_append, placed_append, placed_of_blank blank, placed_of_blank blank,
    pathAfter_of_no_folder noFolder, pathAfter_of_no_folder noFolder]
  cases rest with
  | nil => rfl
  | cons block rest =>
      have ends := isEnd block rfl
      cases block with
      | folder depth name =>
          have shallow : depth ≤ level + 1 := of_decide_eq_true ends
          have sameTake : first.take (depth - 2) = second.take (depth - 2) := by
            have cut := congrArg (List.take (depth - 2)) same
            rwa [List.take_take, List.take_take, Nat.min_eq_left (by omega)] at cut
          rw [placed, placed, descend, descend, sameTake]
          rfl
      | item link => cases ends
      | raw line => cases ends

/-- A body, cut where the loop of `ensure_folder_path` stands. -/
structure Opened (level : Nat) (path : FolderPath) (before inner after : List Block) : Prop where
  isPath : pathAfter [] before = path
  isLevel : path.length = level
  below : Below level inner
  closes : Closes level after

/-- The heading that the loop has found or created last. -/
def HeadAt (before : List Block) (deepest : Option Nat) : Nat → Prop
  | 0 => deepest = none
  | level + 1 => ∃ front name, before = front ++ [.folder (2 + level) name] ∧
      deepest = some front.length

/-- Stepping back over the blank lines at the end of a section. -/
theorem exists_stepBackTo (before inner after : List Block) :
    ∃ front blanks, inner = front ++ blanks ∧ (∀ block ∈ blanks, block.isBlank = true) ∧
      stepBackTo (before ++ (inner ++ after)) before.length (before.length + inner.length) =
        before.length + front.length := by
  induction inner using List.reverseRecOn generalizing after with
  | nil =>
      refine ⟨[], [], rfl, by simp, ?_⟩
      cases isLength : before.length with
      | zero => rfl
      | succ length => simp [stepBackTo]
  | append_singleton inner block inductionHypothesis =>
      have isThere : (before ++ (inner ++ [block] ++ after))[before.length + inner.length]? =
          some block := by
        simp
      have isNext : before.length + (inner ++ [block]).length =
          before.length + inner.length + 1 := by
        simp [Nat.add_assoc]
      rw [isNext, stepBackTo, isThere]
      cases isBlank : block.isBlank with
      | true =>
          obtain ⟨front, blanks, isInner, blank, isPlace⟩ := inductionHypothesis (block :: after)
          refine ⟨front, blanks ++ [block], by simp [isInner], ?_, ?_⟩
          · intro other member
            rcases List.mem_append.mp member with inBlanks | isLast
            · exact blank other inBlanks
            · rwa [List.mem_singleton.mp isLast]
          · rw [if_pos ⟨by omega, by simpa using isBlank⟩, ← isPlace]
            simp
      | false =>
          refine ⟨inner ++ [block], [], by simp, by simp, ?_⟩
          rw [if_neg (by simp [isBlank]), isNext]

theorem findFolder_append (before inner after : List Block) (name : List Char) (depth : Nat) :
    findFolder (before ++ (inner ++ after)) name depth before.length
        (before.length + inner.length) =
      (inner.findIdx? (Block.isFolderAt depth name)).map (before.length + ·) := by
  have isInner : ((before ++ (inner ++ after)).take (before.length + inner.length)).drop
      before.length = inner := by
    rw [List.take_append, List.take_of_length_le (by omega), Nat.add_sub_cancel_left,
      List.take_left, List.drop_left]
  rw [findFolder, isInner]

theorem elim_findIdx? (test : Block → Bool) (blocks : List Block) (start : Nat) :
    (blocks.findIdx? test).elim (start + blocks.length) (start + ·) =
      start + (blocks.takeWhile fun block => !test block).length := by
  induction blocks generalizing start with
  | nil => rfl
  | cons block rest inductionHypothesis =>
      cases isFirst : test block with
      | true => simp [List.findIdx?_cons, isFirst]
      | false =>
          have later := inductionHypothesis (start + 1)
          cases found : rest.findIdx? test with
          | none =>
              rw [found] at later
              simp [List.findIdx?_cons, isFirst, found] at later ⊢
              omega
          | some index =>
              rw [found] at later
              simp [List.findIdx?_cons, isFirst, found] at later ⊢
              omega

/-- The end of a section, by the blocks behind its heading. -/
theorem folderSectionEnd_append (front : List Block) (depth : Nat) (name : List Char)
    (tail : List Block) :
    folderSectionEnd (front ++ .folder depth name :: tail) front.length =
      front.length + 1 + (tail.takeWhile fun block => !block.ends depth).length := by
  rw [folderSectionEnd, List.getElem?_append_right (Nat.le_refl _), Nat.sub_self]
  dsimp only [List.getElem?_cons_zero]
  have isTail : (front ++ .folder depth name :: tail).drop (front.length + 1) = tail := by
    rw [List.drop_append]
    simp
  have isLength : (front ++ .folder depth name :: tail).length =
      front.length + 1 + tail.length := by
    rw [List.length_append, List.length_cons]
    omega
  rw [isTail, isLength, elim_findIdx?]

/-! ## The loop of `ensure_folder_path` -/

/-- The blocks that open a folder. -/
def IsHeading (names : FolderPath) (block : Block) : Prop :=
  block = .raw [] ∨ ∃ depth, ∃ name ∈ names, block = .folder depth name ∧ 2 ≤ depth

/-- The section that a path leads to from a level on, where its folders are there. -/
def sectionOf (level : Nat) : FolderPath → List Block → Option (List Block)
  | [], inner => some inner
  | name :: rest, inner =>
      match inner.findIdx? (Block.isFolderAt (2 + level) name) with
      | none => none
      | some index =>
          sectionOf (level + 1) rest
            ((inner.drop (index + 1)).takeWhile fun block => !block.ends (2 + level))

/-- Where all its folders are there, the last of them has no folder in it. -/
def Flat (level : Nat) (path : FolderPath) (inner : List Block) : Prop :=
  ∀ found ∈ sectionOf level path inner, found.any Block.isFolder = false

/-- The loop is at a section of its own making, or at one that ends with a heading. -/
def Searching (level : Nat) (inner after : List Block) : Prop :=
  inner = [.raw []] ∨ ∀ block ∈ after.head?, block.ends (level + 1) = true

theorem exists_of_findIdx? {inner : List Block} {depth index : Nat} {name : List Char}
    (found : inner.findIdx? (Block.isFolderAt depth name) = some index) :
    ∃ front back, inner = front ++ .folder depth name :: back ∧ front.length = index := by
  obtain ⟨inside, isFolder, _⟩ := List.findIdx?_eq_some_iff_getElem.mp found
  refine ⟨inner.take index, inner.drop (index + 1), ?_, ?_⟩
  · have isHeading : inner[index] = .folder depth name := by
      cases here : inner[index] with
      | folder other otherName =>
          rw [here] at isFolder
          simp only [Block.isFolderAt, Bool.and_eq_true, decide_eq_true_eq] at isFolder
          rw [isFolder.1, isFolder.2]
      | item link =>
          rw [here] at isFolder
          cases isFolder
      | raw line =>
          rw [here] at isFolder
          cases isFolder
    rw [← isHeading, ← List.drop_eq_getElem_cons inside, List.take_append_drop]
  · rw [List.length_take]
    omega

/-- Into a folder that is there. -/
theorem Opened.found {level : Nat} {path : FolderPath} {before front back after : List Block}
    {name : List Char}
    (opened : Opened level path before (front ++ .folder (2 + level) name :: back) after) :
    Opened (level + 1) (path ++ [name]) (before ++ (front ++ [.folder (2 + level) name]))
      ((back ++ after).takeWhile fun block => !block.ends (2 + level))
      ((back ++ after).dropWhile fun block => !block.ends (2 + level)) := by
  obtain ⟨isPath, isLevel, below, _⟩ := opened
  have belowFront : Below level front := fun depth name member =>
    below depth name (List.mem_append_left _ member)
  refine ⟨?_, ?_, ?_, ?_⟩
  · have upTo := (take_pathAfter belowFront (Nat.le_of_eq isLevel.symm)).2
    rw [pathAfter_append, isPath, pathAfter_append]
    change (pathAfter path front).take (2 + level - 2) ++ [name] = path ++ [name]
    rw [Nat.add_sub_cancel_left, upTo, List.take_of_length_le (Nat.le_of_eq isLevel)]
  · rw [List.length_append, isLevel, List.length_singleton]
  · intro depth other member
    have notEnd := List.mem_takeWhile_imp member
    simp only [Block.ends, Bool.not_eq_true', decide_eq_false_iff_not] at notEnd
    omega
  · refine ⟨[], _, rfl, by simp, ?_⟩
    intro block isFirst
    rw [show level + 1 + 1 = 2 + level by omega]
    exact ends_of_mem_head_dropWhile isFirst

/-- Into a folder that is made. -/
theorem Opened.created {level : Nat} {path : FolderPath} {before front blanks after : List Block}
    (opened : Opened level path before (front ++ blanks) after)
    (blank : ∀ block ∈ blanks, block.isBlank = true) (name : List Char) :
    Opened (level + 1) (path ++ [name])
      (before ++ (front ++ [.raw [], .folder (2 + level) name])) [.raw []] (blanks ++ after) := by
  obtain ⟨isPath, isLevel, below, moreBlanks, rest, rfl, moreBlank, isEnd⟩ := opened
  have belowFront : Below level front := fun depth name member =>
    below depth name (List.mem_append_left _ member)
  refine ⟨?_, ?_, ?_, ?_⟩
  · have upTo := (take_pathAfter belowFront (Nat.le_of_eq isLevel.symm)).2
    rw [pathAfter_append, isPath, pathAfter_append]
    change (pathAfter path front).take (2 + level - 2) ++ [name] = path ++ [name]
    rw [Nat.add_sub_cancel_left, upTo, List.take_of_length_le (Nat.le_of_eq isLevel)]
  · rw [List.length_append, isLevel, List.length_singleton]
  · intro depth other member
    cases List.mem_singleton.mp member
  · refine ⟨blanks ++ moreBlanks, rest, by simp, ?_, ?_⟩
    · intro block member
      exact (List.mem_append.mp member).elim (blank block) (moreBlank block)
    · exact fun block isFirst => Block.ends_mono (isEnd block isFirst) (Nat.le_succ _)

/-- What a created folder adds moves no link. -/
theorem Opened.placed_created {level : Nat} {path : FolderPath}
    {before front blanks after : List Block}
    (opened : Opened level path before (front ++ blanks) after)
    (blank : ∀ block ∈ blanks, block.isBlank = true) (name : List Char) :
    placed [] (before ++ (front ++ [.raw [], .folder (2 + level) name]) ++
        ([.raw []] ++ (blanks ++ after))) =
      placed [] (before ++ (front ++ blanks ++ after)) := by
  have isPath := (opened.created blank name).isPath
  have belowFront : Below level front := fun depth name member =>
    opened.below depth name (List.mem_append_left _ member)
  have upTo := (take_pathAfter belowFront (Nat.le_of_eq opened.isLevel.symm)).2
  have noFolder : ∀ block ∈ blanks, block.isFolder = false := fun block member =>
    isFolder_of_isBlank (blank block member)
  have same : placed (path ++ [name]) after = placed (pathAfter path front) after := by
    apply opened.closes.placed_eq
    rw [upTo, List.take_append_of_le_length (Nat.le_of_eq opened.isLevel.symm)]
  have isNew : placed (path ++ [name]) ([.raw []] ++ (blanks ++ after)) =
      placed (path ++ [name]) after := by
    rw [placed_append, placed_append]
    change [] ++ (placed (path ++ [name]) blanks ++
      placed (pathAfter (path ++ [name]) blanks) after) = _
    rw [placed_of_blank blank, pathAfter_of_no_folder noFolder]
    rfl
  have noLinks : placed (pathAfter path front) [.raw [], .folder (2 + level) name] = [] := rfl
  rw [placed_append, isPath, isNew, same, placed_append, placed_append, placed_append,
    placed_append, opened.isPath, noLinks, placed_append path front blanks,
    placed_of_blank blank, pathAfter_append, pathAfter_of_no_folder noFolder]
  simp

/-- What the loop of `ensure_folder_path` has done when it is through. -/
structure Ensured (names : FolderPath) (level : Nat) (path : FolderPath) (blocks : List Block)
    (result : List Block × Option Nat) (before inner after : List Block) : Prop where
  isBlocks : result.1 = before ++ (inner ++ after)
  head : HeadAt before result.2 level
  opened : Opened level path before inner after
  placed_eq : placed [] result.1 = placed [] blocks
  grows : Grows (IsHeading names) blocks result.1

theorem IsHeading.mono {few many : FolderPath} (isPart : ∀ name ∈ few, name ∈ many)
    (block : Block) (isHeading : IsHeading few block) : IsHeading many block := by
  rcases isHeading with isRaw | ⟨depth, name, member, isFolder⟩
  · exact .inl isRaw
  · exact .inr ⟨depth, name, isPart name member, isFolder⟩

/-- The blocks that the loop puts in are headings and blank lines. -/
theorem isHeading_made (level : Nat) (name : List Char) (rest : FolderPath) :
    ∀ block ∈ [Block.raw [], Block.folder (2 + level) name, Block.raw []],
      IsHeading (name :: rest) block := by
  intro block member
  simp only [List.mem_cons, List.not_mem_nil, or_false] at member
  rcases member with rfl | rfl | rfl
  · exact .inl rfl
  · exact .inr ⟨2 + level, name, List.mem_cons_self, rfl, Nat.le_add_right 2 level⟩
  · exact .inl rfl

theorem takeWhile_append_of_stop {test : Block → Bool} (front : List Block) {back : List Block}
    (stops : ∀ block ∈ back.head?, test block = false) :
    (front ++ back).takeWhile test = front.takeWhile test := by
  induction front with
  | nil =>
      cases back with
      | nil => rfl
      | cons block rest => exact List.takeWhile_cons_of_neg (by simp [stops block rfl])
  | cons block front inductionHypothesis =>
      rw [List.cons_append, List.takeWhile_cons, List.takeWhile_cons, inductionHypothesis]

/-- A section that was made has no folder. -/
theorem flat_made (level : Nat) (path : FolderPath) : Flat level path [.raw []] := by
  intro found isFound
  cases path with
  | nil =>
      cases isFound
      rfl
  | cons name rest => cases isFound

/-- What follows a heading that is there, cut at the end of its section. -/
theorem flat_cons_of_found {level : Nat} {name : List Char} {rest : FolderPath}
    {front back : List Block} (isFound : (front ++ Block.folder (2 + level) name :: back).findIdx?
      (Block.isFolderAt (2 + level) name) = some front.length) :
    Flat level (name :: rest) (front ++ .folder (2 + level) name :: back) ↔
      Flat (level + 1) rest (back.takeWhile fun block => !block.ends (2 + level)) := by
  have isBack : (front ++ .folder (2 + level) name :: back).drop (front.length + 1) = back := by
    rw [List.drop_append]
    simp
  rw [Flat, sectionOf, isFound]
  dsimp only
  rw [isBack]
  rfl

/-- The loop goes into a folder that is there. -/
theorem ensureFrom_of_found {level : Nat} {name : List Char} (rest : FolderPath)
    (before : List Block) {front back : List Block} (after : List Block) (deepest : Option Nat)
    (isFound : (front ++ Block.folder (2 + level) name :: back).findIdx?
      (Block.isFolderAt (2 + level) name) = some front.length) :
    ensureFrom level (name :: rest)
        (before ++ (front ++ Block.folder (2 + level) name :: back ++ after)) before.length
        (before.length + (front ++ Block.folder (2 + level) name :: back).length) deepest =
      ensureFrom (level + 1) rest
        (before ++ (front ++ [Block.folder (2 + level) name]) ++
          ((back ++ after).takeWhile (fun block => !block.ends (2 + level)) ++
            (back ++ after).dropWhile fun block => !block.ends (2 + level)))
        (before ++ (front ++ [Block.folder (2 + level) name])).length
        ((before ++ (front ++ [Block.folder (2 + level) name])).length +
          ((back ++ after).takeWhile fun block => !block.ends (2 + level)).length)
        (some (before.length + front.length)) := by
  have isSame : before ++ (front ++ Block.folder (2 + level) name :: back ++ after) =
      before ++ front ++ Block.folder (2 + level) name :: (back ++ after) := by simp
  have isEnd := folderSectionEnd_append (before ++ front) (2 + level) name (back ++ after)
  rw [List.length_append] at isEnd
  rw [ensureFrom, findFolder_append, isFound]
  dsimp only [Option.map_some]
  rw [isSame, isEnd, List.takeWhile_append_dropWhile]
  simp only [List.length_append, List.length_singleton, List.append_assoc, List.singleton_append,
    Nat.add_assoc]

/-- The loop makes a folder that is missing. -/
theorem ensureFrom_of_missing {level : Nat} {name : List Char} (rest : FolderPath)
    {before front blanks after : List Block} (deepest : Option Nat)
    (isMissing : (front ++ blanks).findIdx? (Block.isFolderAt (2 + level) name) = none)
    (isPlace : stepBackTo (before ++ (front ++ blanks ++ after)) before.length
      (before.length + (front ++ blanks).length) = before.length + front.length) :
    ensureFrom level (name :: rest) (before ++ (front ++ blanks ++ after)) before.length
        (before.length + (front ++ blanks).length) deepest =
      ensureFrom (level + 1) rest
        (before ++ (front ++ [Block.raw [], Block.folder (2 + level) name]) ++
          ([.raw []] ++ (blanks ++ after)))
        (before ++ (front ++ [Block.raw [], Block.folder (2 + level) name])).length
        ((before ++ (front ++ [Block.raw [], Block.folder (2 + level) name])).length +
          [Block.raw []].length)
        (some (before ++ (front ++ [Block.raw []])).length) := by
  have inBody : min (before.length + (front ++ blanks).length)
      (before ++ (front ++ blanks ++ after)).length = before.length + (front ++ blanks).length := by
    simp only [List.length_append]
    omega
  have isFront : (before ++ (front ++ blanks ++ after)).take (before.length + front.length) =
      before ++ front := by
    rw [List.append_assoc front, ← List.append_assoc before, ← List.length_append, List.take_left]
  have isBack : (before ++ (front ++ blanks ++ after)).drop (before.length + front.length) =
      blanks ++ after := by
    rw [List.append_assoc front, ← List.append_assoc before, ← List.length_append, List.drop_left]
  rw [ensureFrom, findFolder_append, isMissing]
  dsimp only [Option.map_none]
  rw [inBody, isPlace, isFront, isBack]
  simp [Nat.add_assoc]

theorem ensureFrom_spec (rest : FolderPath) {level : Nat} {path : FolderPath}
    {before inner after : List Block} {deepest : Option Nat}
    (opened : Opened level path before inner after) (head : HeadAt before deepest level)
    (searching : Searching level inner after) :
    ∃ before' inner' after', Ensured rest (level + rest.length) (path ++ rest)
        (before ++ (inner ++ after))
        (ensureFrom level rest (before ++ (inner ++ after)) before.length
          (before.length + inner.length) deepest) before' inner' after' ∧
      (inner'.any Block.isFolder = false ↔ Flat level rest inner) := by
  induction rest generalizing level path before inner after deepest with
  | nil =>
      refine ⟨before, inner, after, ⟨rfl, head, by simpa using opened, rfl, .refl _⟩, ?_⟩
      simp [Flat, sectionOf]
  | cons name rest inductionHypothesis =>
      have isLevel : level + (name :: rest).length = level + 1 + rest.length := by
        rw [List.length_cons]
        omega
      have isPath : path ++ name :: rest = path ++ [name] ++ rest := by simp
      have isPart : ∀ other ∈ rest, other ∈ name :: rest := fun other member =>
        List.mem_cons_of_mem name member
      rw [isLevel, isPath]
      cases isFound : inner.findIdx? (Block.isFolderAt (2 + level) name) with
      | some index =>
          obtain ⟨front, back, rfl, rfl⟩ := exists_of_findIdx? isFound
          rw [ensureFrom_of_found rest before after deepest isFound]
          have deeper : HeadAt (before ++ (front ++ [Block.folder (2 + level) name]))
              (some (before.length + front.length)) (level + 1) :=
            ⟨before ++ front, name, by simp, by simp⟩
          obtain ⟨before', inner', after', ensured, isFlat⟩ :=
            inductionHypothesis opened.found deeper (.inr fun block isFirst => by
              rw [show level + 1 + 1 = 2 + level by omega]
              exact ends_of_mem_head_dropWhile isFirst)
          refine ⟨before', inner', after', ⟨ensured.isBlocks, ensured.head, ensured.opened, ?_, ?_⟩,
            ?_⟩
          · rw [ensured.placed_eq, List.takeWhile_append_dropWhile]
            simp
          · have grows := ensured.grows.mono (IsHeading.mono isPart)
            rw [List.takeWhile_append_dropWhile] at grows
            simpa using grows
          · have stops : ∀ block ∈ after.head?, (!block.ends (2 + level)) = false := by
              rcases searching with made | isEnd
              · rw [made] at isFound
                cases isFound
              · intro block isFirst
                rw [Block.ends_mono (isEnd block isFirst) (by omega)]
                rfl
            rw [isFlat, flat_cons_of_found isFound, takeWhile_append_of_stop back stops]
      | none =>
          obtain ⟨front, blanks, rfl, blank, isPlace⟩ := exists_stepBackTo before inner after
          rw [ensureFrom_of_missing rest deepest isFound isPlace]
          have deeper : HeadAt (before ++ (front ++ [.raw [], .folder (2 + level) name]))
              (some (before ++ (front ++ [Block.raw []])).length) (level + 1) :=
            ⟨before ++ (front ++ [.raw []]), name, by simp, rfl⟩
          obtain ⟨before', inner', after', ensured, isFlat⟩ :=
            inductionHypothesis (opened.created blank name) deeper (.inl rfl)
          refine ⟨before', inner', after', ⟨ensured.isBlocks, ensured.head, ensured.opened, ?_, ?_⟩,
            ?_⟩
          · rw [ensured.placed_eq, opened.placed_created blank]
          · refine .trans ?_ (ensured.grows.mono (IsHeading.mono isPart))
            have made := Grows.insert (before ++ front) (isHeading_made level name rest)
              (blanks ++ after)
            simpa using made
          · rw [isFlat]
            refine iff_of_true (flat_made (level + 1) rest) ?_
            intro found isThere
            rw [sectionOf, isFound] at isThere
            cases isThere

/-! ## Adding one bookmark -/

theorem insertIdx_append (front back : List Block) (block : Block) :
    (front ++ back).insertIdx front.length block = front ++ block :: back := by
  induction front with
  | nil => rfl
  | cons first front inductionHypothesis =>
      rw [List.cons_append, List.length_cons, List.insertIdx_succ_cons, inductionHypothesis]
      rfl

/-- The place of an item is behind the whole section, but for blank lines. -/
theorem sectionPlace_append {front : List Block} {depth : Nat} {name : List Char}
    {blocks rest : List Block} (inside : ∀ block ∈ blocks, block.ends depth = false)
    (isEnd : ∀ block ∈ rest.head?, block.ends depth = true) :
    ∃ upTo blanks, blocks = upTo ++ blanks ∧ (∀ block ∈ blanks, block.isBlank = true) ∧
      sectionPlace (front ++ [Block.folder depth name] ++ (blocks ++ rest)) (some front.length) =
        (front ++ [Block.folder depth name]).length + upTo.length := by
  have isWhole : (blocks ++ rest).takeWhile (fun block => !block.ends depth) = blocks := by
    rw [takeWhile_append_of_stop blocks fun block isFirst => by rw [isEnd block isFirst]; rfl]
    exact List.takeWhile_eq_self_iff.mpr fun block member => by rw [inside block member]; rfl
  have isSectionEnd := folderSectionEnd_append front depth name (blocks ++ rest)
  rw [isWhole, ← List.singleton_append, ← List.append_assoc] at isSectionEnd
  have isNext : (front ++ [Block.folder depth name] ++ (blocks ++ rest))[front.length + 1]? =
      (blocks ++ rest)[0]? := by
    rw [List.getElem?_append_right (by simp)]
    simp
  rw [sectionPlace, isNext, isSectionEnd]
  cases isBlank : ((blocks ++ rest)[0]?).any Block.isBlank with
  | false =>
      obtain ⟨upTo, blanks, isBlocks, blank, isPlace⟩ :=
        exists_stepBackTo (front ++ [Block.folder depth name]) blocks rest
      rw [List.length_append, List.length_singleton] at isPlace
      exact ⟨upTo, blanks, isBlocks, blank, by simpa using isPlace⟩
  | true =>
      -- the blank line under the heading stays where it is
      cases blocks with
      | nil =>
          cases rest with
          | nil => cases isBlank
          | cons block rest =>
              have isHeading := isEnd block rfl
              cases block with
              | folder other otherName => cases isBlank
              | item link => cases isBlank
              | raw line => cases isHeading
      | cons first others =>
          obtain ⟨upTo, blanks, rfl, blank, isPlace⟩ :=
            exists_stepBackTo (front ++ [Block.folder depth name, first]) others rest
          have isFloor : (front ++ [Block.folder depth name, first]).length =
              front.length + 2 := by simp
          have isSame : front ++ [Block.folder depth name, first] ++ (upTo ++ blanks ++ rest) =
              front ++ [Block.folder depth name] ++ (first :: (upTo ++ blanks) ++ rest) := by simp
          rw [isFloor, isSame] at isPlace
          refine ⟨first :: upTo, blanks, rfl, blank, ?_⟩
          rw [if_pos rfl]
          simp only [List.length_cons, List.length_append, List.length_nil] at isPlace ⊢
          rw [show front.length + 1 + ((upTo.length + blanks.length) + 1) =
            front.length + 2 + (upTo.length + blanks.length) by omega, isPlace]
          omega

/-- What a bookmark puts in beside its own line. -/
def IsAdded (path : FolderPath) (link : Item) (block : Block) : Prop :=
  block = .item link ∨ IsHeading path block

theorem placed_insert (path : FolderPath) (front back : List Block) (link : Item) :
    (placed path (front ++ .item link :: back)).Perm
      ((pathAfter path front, link) :: placed path (front ++ back)) := by
  rw [placed_append, placed_append, placed]
  exact List.perm_middle

theorem flat_nil_iff {level : Nat} {inner : List Block} :
    Flat level [] inner ↔ inner.any Block.isFolder = false := by
  simp [Flat, sectionOf]

/-- The path of a section is left exactly through a folder in it. -/
theorem pathAfter_eq_iff {level : Nat} {path : FolderPath} {inner : List Block}
    (isLevel : path.length = level) (below : Below level inner) :
    pathAfter path inner = path ↔ inner.any Block.isFolder = false := by
  constructor
  · intro same
    apply Bool.eq_false_iff.mpr
    intro hasFolder
    have longer := lt_length_pathAfter below (Nat.le_of_eq isLevel.symm) hasFolder
    rw [same] at longer
    omega
  · intro noFolder
    exact pathAfter_of_no_folder fun block member =>
      Bool.eq_false_iff.mpr (List.any_eq_false.mp noFolder block member)

/-- An item goes to the end of the section that the loop has opened. -/
theorem Ensured.append {names : FolderPath} {level : Nat} {path : FolderPath} {blocks : List Block}
    {result : List Block × Option Nat} {before inner after : List Block}
    (ensured : Ensured names (level + 1) path blocks result before inner after) (link : Item) :
    ∃ front back, result.1 = front ++ back ∧
      appendItemToSection result.1 result.2 link = front ++ .item link :: back ∧
      pathAfter [] front = pathAfter path inner := by
  obtain ⟨isBlocks, ⟨front, name, rfl, isDeepest⟩, opened, _, _⟩ := ensured
  obtain ⟨isPath, isLevel, below, moreBlanks, rest, rfl, moreBlank, isEnd⟩ := opened
  have noFolder : ∀ block ∈ moreBlanks, block.isFolder = false := fun block member =>
    isFolder_of_isBlank (moreBlank block member)
  have inside : ∀ block ∈ inner ++ moreBlanks, block.ends (2 + level) = false := by
    intro block member
    cases block with
    | folder depth other =>
        rcases List.mem_append.mp member with inInner | inBlanks
        · have deep := below depth other inInner
          exact decide_eq_false (by omega)
        · cases noFolder _ inBlanks
    | item link => rfl
    | raw line => rfl
  obtain ⟨upTo, blanks, isSection, blank, isPlace⟩ :=
    @sectionPlace_append front (2 + level) name _ rest inside fun block isFirst => by
      rw [show 2 + level = level + 1 + 1 by omega]
      exact isEnd block isFirst
  have isResult : result.1 =
      front ++ [Block.folder (2 + level) name] ++ upTo ++ (blanks ++ rest) := by
    rw [isBlocks, ← List.append_assoc inner, isSection]
    simp
  refine ⟨front ++ [Block.folder (2 + level) name] ++ upTo, blanks ++ rest, isResult, ?_, ?_⟩
  · have isWhole : front ++ [Block.folder (2 + level) name] ++ upTo ++ (blanks ++ rest) =
        front ++ [Block.folder (2 + level) name] ++ (inner ++ moreBlanks ++ rest) := by
      rw [isSection]
      simp
    rw [← isWhole, ← List.length_append] at isPlace
    rw [appendItemToSection, isDeepest, isResult, isPlace]
    exact insertIdx_append _ _ _
  · have stillBlank : ∀ block ∈ blanks, block.isFolder = false := fun block member =>
      isFolder_of_isBlank (blank block member)
    have onward : pathAfter path upTo = pathAfter path (inner ++ moreBlanks) := by
      rw [isSection, pathAfter_append, pathAfter_of_no_folder stillBlank]
    rw [pathAfter_append, isPath, onward, pathAfter_append, pathAfter_of_no_folder noFolder]

/-- A bookmark is put in at one place, in its folder or in a folder of that. -/
theorem exists_addBookmark (blocks : List Block) (path : FolderPath) (link : Item) :
    ∃ front back, addBookmark blocks path link = front ++ .item link :: back ∧
      path <+: pathAfter [] front ∧ (pathAfter [] front = path ↔ Flat 0 path blocks) ∧
      placed [] (front ++ back) = placed [] blocks ∧
      Grows (IsHeading path) blocks (front ++ back) := by
  cases path with
  | nil =>
      refine ⟨blocks, [], List.insertIdx_length_self, List.nil_prefix, ?_, by simp, ?_⟩
      · rw [flat_nil_iff]
        exact pathAfter_eq_iff rfl fun _ _ _ => Nat.zero_le _
      · rw [List.append_nil]
        exact .refl blocks
  | cons name rest =>
      have opened : Opened 0 [] [] blocks [] :=
        ⟨rfl, rfl, fun _ _ _ => Nat.zero_le _, [], [], rfl, by simp, by simp⟩
      obtain ⟨before, inner, after, ensured, isFlat⟩ :=
        ensureFrom_spec (name :: rest) opened rfl (.inr (by simp))
      simp only [List.nil_append, List.append_nil, List.length_nil, Nat.zero_add,
        List.length_cons] at ensured
      rw [← ensureFolderPath] at ensured
      obtain ⟨front, back, isResult, isAdded, isLanding⟩ := ensured.append link
      have long := Nat.le_of_eq ensured.opened.isLevel.symm
      refine ⟨front, back, isAdded, ?_, ?_, ?_, ?_⟩
      · have upTo := (take_pathAfter ensured.opened.below long).2
        rw [List.take_of_length_le (Nat.le_of_eq ensured.opened.isLevel)] at upTo
        rw [isLanding]
        exact List.prefix_iff_eq_take.mpr (by rw [ensured.opened.isLevel, upTo])
      · rw [isLanding, ← isFlat]
        exact pathAfter_eq_iff ensured.opened.isLevel ensured.opened.below
      · rw [← isResult, ensured.placed_eq]
      · rw [← isResult]
        exact ensured.grows

/-- Where a bookmark lands: in its folder exactly where that has no folder in it. -/
theorem addBookmark_spec (blocks : List Block) (path : FolderPath) (link : Item) :
    ∃ landing, path <+: landing ∧ (landing = path ↔ Flat 0 path blocks) ∧
      (placed [] (addBookmark blocks path link)).Perm ((landing, link) :: placed [] blocks) ∧
      Grows (IsAdded path link) blocks (addBookmark blocks path link) := by
  obtain ⟨front, back, isAdded, starts, isFlat, samePlaces, grows⟩ :=
    exists_addBookmark blocks path link
  refine ⟨pathAfter [] front, starts, isFlat, ?_, ?_⟩
  · rw [isAdded, ← samePlaces]
    exact placed_insert [] front back link
  · rw [isAdded, ← List.singleton_append]
    refine (grows.mono fun block isHeading => .inr isHeading).trans ?_
    exact .insert front (fun block member => .inl (List.mem_singleton.mp member)) back

end Yggterm.Collections
