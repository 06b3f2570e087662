import Mathlib.Data.List.Nodup
import Yggterm.Collections.Bookmarks
import Yggterm.Library.Runs

/-!
# Importing bookmarks

`merge_bookmarks_into_collection` over a whole list of bookmarks.  A bookmark that lands in a
folder of its folder, or whose key is that of another folder, is not where its tree has it, and is
imported again the next time.
-/

namespace Yggterm.Collections

open Insertions Runs Search Text

/-- The bookmark stands directly in the folder that its path names. -/
def Stands (blocks : List Block) (leaf : BookmarkLeaf) : Prop :=
  ∃ link, (leaf.folderPath, link) ∈ placed [] blocks ∧ link.url = leaf.url

/-- A new bookmark finds its folder without a folder in it, or does not find it. -/
def Fits (merge : BookmarkMerge) (leaf : BookmarkLeaf) : Prop :=
  leaf.placementKey ∉ merge.placements → Flat 0 leaf.folderPath merge.blocks

def Item.ofLeaf (leaf : BookmarkLeaf) : Item := .new leaf.title leaf.url

def IsImported (leaves : List BookmarkLeaf) (block : Block) : Prop :=
  ∃ leaf ∈ leaves, IsAdded leaf.folderPath (.ofLeaf leaf) block

theorem placementKey_not_mem_of_mem_newLeaves {keys : List (List Char × List Char)}
    {leaves : List BookmarkLeaf} {leaf : BookmarkLeaf} (member : leaf ∈ newLeaves keys leaves) :
    leaf.placementKey ∉ keys := by
  induction leaves generalizing keys with
  | nil => cases member
  | cons first rest inductionHypothesis =>
      rw [newLeaves] at member
      split at member
      · exact inductionHypothesis member
      · next fresh =>
          rcases List.mem_cons.mp member with rfl | later
          · exact fresh
          · exact mt (List.mem_cons_of_mem _) (inductionHypothesis later)

theorem mem_of_mem_newLeaves {keys : List (List Char × List Char)}
    {leaves : List BookmarkLeaf} {leaf : BookmarkLeaf} (member : leaf ∈ newLeaves keys leaves) :
    leaf ∈ leaves := by
  induction leaves generalizing keys with
  | nil => cases member
  | cons first rest inductionHypothesis =>
      rw [newLeaves] at member
      split at member
      · exact List.mem_cons_of_mem first (inductionHypothesis member)
      · rcases List.mem_cons.mp member with rfl | later
        · exact List.mem_cons_self
        · exact List.mem_cons_of_mem first (inductionHypothesis later)

/-- Two new bookmarks with one key are one. -/
theorem eq_of_mem_newLeaves {keys : List (List Char × List Char)}
    {leaves : List BookmarkLeaf} {first second : BookmarkLeaf}
    (isFirst : first ∈ newLeaves keys leaves) (isSecond : second ∈ newLeaves keys leaves)
    (same : first.placementKey = second.placementKey) : first = second := by
  induction leaves generalizing keys with
  | nil => cases isFirst
  | cons leaf rest inductionHypothesis =>
      rw [newLeaves] at isFirst isSecond
      split at isFirst
      · next known =>
          rw [if_pos known] at isSecond
          exact inductionHypothesis isFirst isSecond
      · next fresh =>
          rw [if_neg fresh] at isSecond
          rcases List.mem_cons.mp isFirst with rfl | firstLater
          · rcases List.mem_cons.mp isSecond with rfl | secondLater
            · rfl
            · have isNew := placementKey_not_mem_of_mem_newLeaves secondLater
              rw [← same] at isNew
              exact absurd List.mem_cons_self isNew
          · rcases List.mem_cons.mp isSecond with rfl | secondLater
            · have isNew := placementKey_not_mem_of_mem_newLeaves firstLater
              rw [same] at isNew
              exact absurd List.mem_cons_self isNew
            · exact inductionHypothesis firstLater secondLater

/-! ## The run -/

/-- What a run over bookmarks leaves: each new one with the path that it landed under. -/
structure Logged (merge : BookmarkMerge) (leaves : List BookmarkLeaf)
    (log : List (BookmarkLeaf × FolderPath)) : Prop where
  isNew : log.map Prod.fst = newLeaves merge.placements leaves
  starts : ∀ entry ∈ log, entry.1.folderPath <+: entry.2
  places : (placed [] (run BookmarkMerge.visit merge leaves).blocks).Perm
    (log.map (fun entry => (entry.2, Item.ofLeaf entry.1)) ++ placed [] merge.blocks)
  fits : Guarded BookmarkMerge.visit Fits merge leaves ↔
    ∀ entry ∈ log, entry.2 = entry.1.folderPath
  grows : Grows (IsImported (newLeaves merge.placements leaves)) merge.blocks
    (run BookmarkMerge.visit merge leaves).blocks

theorem IsImported.mono {few many : List BookmarkLeaf} (isPart : ∀ leaf ∈ few, leaf ∈ many)
    (block : Block) (isImported : IsImported few block) : IsImported many block := by
  obtain ⟨leaf, member, isAdded⟩ := isImported
  exact ⟨leaf, isPart leaf member, isAdded⟩

theorem exists_log (merge : BookmarkMerge) (leaves : List BookmarkLeaf) :
    ∃ log, Logged merge leaves log := by
  induction leaves generalizing merge with
  | nil => exact ⟨[], rfl, by simp, .refl _, by simp [Guarded], .refl _⟩
  | cons leaf rest inductionHypothesis =>
      obtain ⟨log, logged⟩ := inductionHypothesis (merge.visit leaf)
      by_cases known : leaf.placementKey ∈ merge.placements
      · have isVisit : merge.visit leaf = { merge with duplicates := merge.duplicates + 1 } :=
          if_pos known
        have sameLeaves : newLeaves merge.placements (leaf :: rest) =
            newLeaves merge.placements rest := if_pos known
        rw [isVisit] at logged
        refine ⟨log, ?_, logged.starts, ?_, ?_, ?_⟩
        · rw [sameLeaves]
          exact logged.isNew
        · rw [run_cons, isVisit]
          exact logged.places
        · rw [Guarded, isVisit, logged.fits]
          exact and_iff_right fun fresh => absurd known fresh
        · rw [sameLeaves, run_cons, isVisit]
          exact logged.grows
      · obtain ⟨landing, starts, isFlat, places, grows⟩ :=
          addBookmark_spec merge.blocks leaf.folderPath (.ofLeaf leaf)
        have isVisit : merge.visit leaf =
            { blocks := addBookmark merge.blocks leaf.folderPath (.ofLeaf leaf)
              placements := leaf.placementKey :: merge.placements
              added := merge.added + 1
              duplicates := merge.duplicates } := if_neg known
        have moreLeaves : newLeaves merge.placements (leaf :: rest) =
            leaf :: newLeaves (leaf.placementKey :: merge.placements) rest := if_neg known
        rw [isVisit] at logged
        refine ⟨(leaf, landing) :: log, ?_, ?_, ?_, ?_, ?_⟩
        · rw [moreLeaves, List.map_cons, logged.isNew]
        · exact List.forall_mem_cons.mpr ⟨starts, logged.starts⟩
        · rw [run_cons, isVisit]
          refine logged.places.trans ?_
          rw [List.map_cons, List.cons_append]
          exact (List.Perm.append_left _ places).trans List.perm_middle
        · rw [Guarded, isVisit, logged.fits, List.forall_mem_cons, Fits, isFlat]
          exact and_congr_left' ⟨fun fits => fits known, fun flat _ => flat⟩
        · rw [moreLeaves, run_cons, isVisit]
          refine (grows.mono fun block isAdded => ?_).trans (logged.grows.mono ?_)
          · exact ⟨leaf, List.mem_cons_self, isAdded⟩
          · exact IsImported.mono fun other member => List.mem_cons_of_mem leaf member

/-! ## Where every bookmark stands in its folder -/

theorem Stands.placementKey_mem {blocks : List Block} {leaf : BookmarkLeaf}
    (stands : Stands blocks leaf) : leaf.placementKey ∈ existingPlacements blocks := by
  obtain ⟨link, isPlace, isUrl⟩ := stands
  refine List.mem_map.mpr ⟨_, isPlace, ?_⟩
  rw [BookmarkLeaf.placementKey, ← isUrl]

theorem Logged.mem_newLeaves_iff {merge : BookmarkMerge} {leaves : List BookmarkLeaf}
    {log : List (BookmarkLeaf × FolderPath)} (logged : Logged merge leaves log)
    (leaf : BookmarkLeaf) :
    leaf ∈ newLeaves merge.placements leaves ↔ ∃ entry ∈ log, entry.1 = leaf := by
  rw [← logged.isNew, List.mem_map]

theorem Logged.stands_iff {merge : BookmarkMerge} {leaves : List BookmarkLeaf}
    {log : List (BookmarkLeaf × FolderPath)} (logged : Logged merge leaves log)
    (leaf : BookmarkLeaf) :
    Stands (run BookmarkMerge.visit merge leaves).blocks leaf ↔
      (∃ entry ∈ log, entry.2 = leaf.folderPath ∧ entry.1.url = leaf.url) ∨
        Stands merge.blocks leaf := by
  constructor
  · rintro ⟨link, isPlace, isUrl⟩
    rcases List.mem_append.mp (logged.places.mem_iff.mp isPlace) with isNew | isOld
    · obtain ⟨entry, inLog, same⟩ := List.mem_map.mp isNew
      obtain ⟨samePath, rfl⟩ := Prod.mk.inj same
      exact .inl ⟨entry, inLog, samePath, isUrl⟩
    · exact .inr ⟨link, isOld, isUrl⟩
  · rintro (⟨entry, inLog, samePath, sameUrl⟩ | ⟨link, isOld, isUrl⟩)
    · refine ⟨.ofLeaf entry.1, logged.places.mem_iff.mpr (List.mem_append_left _ ?_), sameUrl⟩
      exact List.mem_map.mpr ⟨entry, inLog, by rw [samePath]⟩
    · exact ⟨link, logged.places.mem_iff.mpr (List.mem_append_right _ isOld), isUrl⟩

/-- Each bookmark stands there already, or a new one has its path and its address. -/
def Apart (blocks : List Block) (leaves : List BookmarkLeaf) : Prop :=
  ∀ leaf ∈ leaves, Stands blocks leaf ∨
    ∃ other ∈ newLeaves (existingPlacements blocks) leaves,
      other.folderPath = leaf.folderPath ∧ other.url = leaf.url

theorem nodup_newLeaves (keys : List (List Char × List Char)) (leaves : List BookmarkLeaf) :
    (newLeaves keys leaves).Nodup := by
  induction leaves generalizing keys with
  | nil => exact List.nodup_nil
  | cons leaf rest inductionHypothesis =>
      rw [newLeaves]
      split
      · exact inductionHypothesis keys
      · apply List.nodup_cons.mpr
        refine ⟨?_, inductionHypothesis _⟩
        intro later
        exact placementKey_not_mem_of_mem_newLeaves later List.mem_cons_self

/-- Where every new bookmark stands in its folder, none has landed elsewhere: the one with the
shortest path would have to be stood in for by one with a shorter path. -/
theorem landed_of_stand {blocks : List Block} {leaves : List BookmarkLeaf}
    {log : List (BookmarkLeaf × FolderPath)} (logged : Logged (.start blocks) leaves log)
    (allStand : ∀ leaf ∈ leaves,
      Stands (run BookmarkMerge.visit (.start blocks) leaves).blocks leaf) :
    ∀ entry ∈ log, entry.2 = entry.1.folderPath := by
  have inj := List.inj_on_of_nodup_map
    (logged.isNew ▸ nodup_newLeaves _ leaves : (log.map Prod.fst).Nodup)
  have isNew : ∀ entry ∈ log, entry.1 ∈ newLeaves (existingPlacements blocks) leaves :=
    fun entry inLog => (logged.mem_newLeaves_iff entry.1).mpr ⟨entry, inLog, rfl⟩
  intro entry inLog
  induction isLength : entry.1.folderPath.length using Nat.strong_induction_on
    generalizing entry with
  | _ length inductionHypothesis =>
      have fresh := isNew entry inLog
      rcases (logged.stands_iff entry.1).mp (allStand entry.1 (mem_of_mem_newLeaves fresh)) with
        ⟨other, otherInLog, samePath, sameUrl⟩ | isOld
      · have starts := logged.starts other otherInLog
        rw [samePath] at starts
        rcases Nat.lt_or_eq_of_le starts.length_le with shorter | sameLength
        · have landed := inductionHypothesis _ (isLength ▸ shorter) other otherInLog rfl
          rw [← landed, samePath] at shorter
          exact absurd shorter (Nat.lt_irrefl _)
        · have isPath := starts.eq_of_length sameLength
          have sameKey : other.1.placementKey = entry.1.placementKey := by
            rw [BookmarkLeaf.placementKey, BookmarkLeaf.placementKey, isPath, sameUrl]
          have sameLeaf := eq_of_mem_newLeaves (isNew other otherInLog) fresh sameKey
          obtain rfl := inj otherInLog inLog sameLeaf
          exact samePath
      · exact absurd isOld.placementKey_mem (placementKey_not_mem_of_mem_newLeaves fresh)

theorem all_stand_iff (blocks : List Block) (leaves : List BookmarkLeaf) :
    (∀ leaf ∈ leaves, Stands (mergeBookmarks blocks leaves).blocks leaf) ↔
      Guarded BookmarkMerge.visit Fits (.start blocks) leaves ∧ Apart blocks leaves := by
  obtain ⟨log, logged⟩ := exists_log (.start blocks) leaves
  constructor
  · intro allStand
    have landed := landed_of_stand logged allStand
    refine ⟨logged.fits.mpr landed, ?_⟩
    intro leaf member
    rcases (logged.stands_iff leaf).mp (allStand leaf member) with
      ⟨entry, inLog, samePath, sameUrl⟩ | isOld
    · have isNew := (logged.mem_newLeaves_iff entry.1).mpr ⟨entry, inLog, rfl⟩
      exact .inr ⟨entry.1, isNew, (landed entry inLog).symm.trans samePath, sameUrl⟩
    · exact .inl isOld
  · rintro ⟨fits, apart⟩ leaf member
    refine (logged.stands_iff leaf).mpr ?_
    rcases apart leaf member with isOld | ⟨other, isNew, samePath, sameUrl⟩
    · exact .inr isOld
    · obtain ⟨entry, inLog, rfl⟩ := (logged.mem_newLeaves_iff other).mp isNew
      exact .inl ⟨entry, inLog, (logged.fits.mp fits entry inLog).trans samePath, sameUrl⟩

/-- A merge of bookmarks that are there already changes nothing. -/
theorem run_visit_of_known {merge : BookmarkMerge} {leaves : List BookmarkLeaf}
    (known : ∀ leaf ∈ leaves, leaf.placementKey ∈ merge.placements) :
    run BookmarkMerge.visit merge leaves =
      { merge with duplicates := merge.duplicates + leaves.length } := by
  induction leaves generalizing merge with
  | nil => rfl
  | cons leaf rest inductionHypothesis =>
      obtain ⟨isKnown, others⟩ := List.forall_mem_cons.mp known
      have isVisit : merge.visit leaf = { merge with duplicates := merge.duplicates + 1 } :=
        if_pos isKnown
      have isRest := @inductionHypothesis { merge with duplicates := merge.duplicates + 1 } others
      rw [run_cons, isVisit, isRest, List.length_cons, Nat.add_comm rest.length, Nat.add_assoc]

/-- Merging again adds nothing. -/
def AddsNothing (blocks : List Block) (leaves : List BookmarkLeaf) : Prop :=
  mergeBookmarks blocks leaves =
    { BookmarkMerge.start blocks with duplicates := leaves.length }

theorem addsNothing_of_stand {blocks : List Block} {leaves : List BookmarkLeaf}
    (allStand : ∀ leaf ∈ leaves, Stands blocks leaf) : AddsNothing blocks leaves := by
  have known : ∀ leaf ∈ leaves, leaf.placementKey ∈ (BookmarkMerge.start blocks).placements :=
    fun leaf member => (allStand leaf member).placementKey_mem
  have isRun := run_visit_of_known known
  rw [AddsNothing]
  refine isRun.trans ?_
  rw [BookmarkMerge.start, Nat.zero_add]

/-! ## The file -/

/-- A block, read back from the line it is written as. -/
def Block.reread (block : Block) : Block := parseBlock block.render

def Block.isItem : Block → Bool
  | .item _ => true
  | _ => false

theorem isFolder_parseBlock_render_new (title url : List Char) :
    (parseBlock (Item.new title url).render).isFolder = false := by
  rw [parseBlock_render_new]
  cases parseItem (Item.new title url).render with
  | none => rfl
  | some parts => rfl

/-- Where only the lines of links are read back differently, the paths are the same. -/
theorem placed_reread {path : FolderPath} {blocks : List Block}
    (others : ∀ block ∈ blocks, block.isItem = false → block.reread = block)
    (links : ∀ block ∈ blocks, block.isItem = true → block.reread.isFolder = false) :
    placed path (blocks.map Block.reread) =
      (placed path blocks).flatMap fun place => stands place.1 (Block.item place.2).reread := by
  induction blocks generalizing path with
  | nil => rfl
  | cons block rest inductionHypothesis =>
      obtain ⟨same, othersLater⟩ := List.forall_mem_cons.mp others
      obtain ⟨noFolder, linksLater⟩ := List.forall_mem_cons.mp links
      rw [List.map_cons, placed, placed, inductionHypothesis othersLater linksLater,
        List.flatMap_append]
      cases block with
      | item link =>
          rw [descend_of_not_folder (noFolder rfl)]
          simp [stands, descend]
      | folder depth name =>
          rw [same rfl]
          rfl
      | raw line =>
          rw [same rfl]
          rfl

theorem mem_stands_iff {path other : FolderPath} {block : Block} {link : Item} :
    (path, link) ∈ stands other block ↔ other = path ∧ block = .item link := by
  cases block with
  | item found =>
      rw [stands, List.mem_singleton, Prod.mk.injEq, Block.item.injEq]
      exact ⟨fun ⟨samePath, sameLink⟩ => ⟨samePath.symm, sameLink.symm⟩,
        fun ⟨samePath, sameLink⟩ => ⟨samePath.symm, sameLink.symm⟩⟩
  | folder depth name => simp [stands]
  | raw line => simp [stands]

theorem holds_iff {block : Block} {url : List Char} :
    block.holds url = true ↔ ∃ link, block = .item link ∧ link.url = url := by
  cases block with
  | item link => simp [Block.holds]
  | folder depth name => simp [Block.holds]
  | raw line => simp [Block.holds]

theorem mem_of_mem_url {line title url trailing : List Char}
    (isItem : parseItem line = some (title, url, trailing)) {char : Char} (member : char ∈ url) :
    char ∈ line := by
  rw [parseItem] at isItem
  obtain ⟨rest, isRest, isItem⟩ := Option.bind_eq_some_iff.mp isItem
  obtain ⟨⟨before, after⟩, isOpen, isItem⟩ := Option.bind_eq_some_iff.mp isItem
  dsimp only at isItem
  split at isItem
  · cases isItem
  · obtain ⟨⟨found, behind⟩, isUrl, isItem⟩ := Option.bind_eq_some_iff.mp isItem
    dsimp only at isItem
    split at isItem
    · cases isItem
    · cases isItem
      have inAfter : char ∈ after := by
        rw [findText_eq isUrl]
        exact List.mem_append_left _ member
      have inRest : char ∈ trimStart rest := by
        rw [findText_eq isOpen]
        exact List.mem_append_right _ (List.mem_append_right _ inAfter)
      have inLine := (List.dropWhile_sublist _).subset inRest
      rcases Option.or_eq_some_iff.mp isRest with dashed | ⟨_, starred⟩
      · rw [stripFront_eq_some_iff.mp dashed]
        exact List.mem_append_right _ inLine
      · rw [stripFront_eq_some_iff.mp starred]
        exact List.mem_append_right _ inLine

theorem trim_of_parseBlock_eq_folder {line name : List Char} {depth : Nat}
    (isFolder : parseBlock line = .folder depth name) : trim name = name := by
  rw [parseBlock] at isFolder
  split at isFolder
  · cases isFolder
    exact trim_trim _
  · split at isFolder
    · cases isFolder
    · cases isFolder

theorem mem_of_parseBlock_eq_item {line : List Char} {link : Item}
    (isItem : parseBlock line = .item link) {char : Char} (member : char ∈ link.url) :
    char ∈ line := by
  rw [parseBlock] at isItem
  split at isItem
  · cases isItem
  · split at isItem
    · next parsed =>
        cases isItem
        exact (List.dropWhile_sublist _).subset (mem_of_mem_url parsed member)
    · cases isItem

/-- The names of a path are names of headings. -/
theorem folder_of_mem_placed {path start : FolderPath} {blocks : List Block} {link : Item}
    (isPlace : (path, link) ∈ placed start blocks) :
    .item link ∈ blocks ∧
      ∀ name ∈ path, name ∈ start ∨ ∃ depth, .folder depth name ∈ blocks := by
  induction blocks generalizing start with
  | nil => cases isPlace
  | cons block rest inductionHypothesis =>
      rw [placed] at isPlace
      rcases List.mem_append.mp isPlace with here | later
      · obtain ⟨rfl, rfl⟩ := mem_stands_iff.mp here
        exact ⟨List.mem_cons_self, fun name member => .inl member⟩
      · obtain ⟨isLink, names⟩ := inductionHypothesis later
        refine ⟨List.mem_cons_of_mem block isLink, ?_⟩
        intro name member
        rcases names name member with inDescent | ⟨depth, isFolder⟩
        · cases block with
          | folder depth other =>
              rw [descend] at inDescent
              rcases List.mem_append.mp inDescent with inStart | isHere
              · exact .inl (List.mem_of_mem_take inStart)
              · rw [List.mem_singleton.mp isHere]
                exact .inr ⟨depth, List.mem_cons_self⟩
          | item other => exact .inl inDescent
          | raw line => exact .inl inDescent
        · exact .inr ⟨depth, List.mem_cons_of_mem block isFolder⟩

/-- What is read from a file stands under trimmed names, with an address on one line. -/
theorem Stands.clean_of_parse {source : List Char} {leaf : BookmarkLeaf}
    (stands : Stands (parse source).blocks leaf) :
    (∀ name ∈ leaf.folderPath, trim name = name) ∧ '\n' ∉ leaf.url := by
  obtain ⟨link, isPlace, isUrl⟩ := stands
  obtain ⟨isLink, names⟩ := folder_of_mem_placed isPlace
  have settled := settled_parse source
  constructor
  · intro name member
    rcases names name member with nowhere | ⟨depth, isFolder⟩
    · cases nowhere
    · exact trim_of_parseBlock_eq_folder (settled.blocks _ isFolder).1
  · intro broken
    obtain ⟨isRead, clean⟩ := settled.blocks _ isLink
    rw [← isUrl] at broken
    exact clean (mem_of_parseBlock_eq_item isRead broken)

/-- The collection after an import. -/
def Collection.imported (collection : Collection) (leaves : List BookmarkLeaf) : Collection :=
  { collection with blocks := (mergeBookmarks collection.blocks leaves).blocks }

/-- Names, titles and addresses on lines of their own. -/
structure OnLines (leaves : List BookmarkLeaf) : Prop where
  titles : ∀ leaf ∈ leaves, '\n' ∉ leaf.title
  urls : ∀ leaf ∈ leaves, '\n' ∉ leaf.url
  names : ∀ leaf ∈ leaves, ∀ name ∈ leaf.folderPath, '\n' ∉ name ∧ trim name = name

theorem onLines_newLeaves {keys : List (List Char × List Char)} {leaves : List BookmarkLeaf}
    (titles : ∀ leaf ∈ leaves, '\n' ∉ leaf.title)
    (names : ∀ leaf ∈ leaves, ∀ name ∈ leaf.folderPath, '\n' ∉ name)
    (trimmed : ∀ leaf ∈ leaves, ∀ name ∈ leaf.folderPath, trim name = name)
    (urls : ∀ leaf ∈ newLeaves keys leaves, '\n' ∉ leaf.url) :
    OnLines (newLeaves keys leaves) where
  titles leaf fresh := titles leaf (mem_of_mem_newLeaves fresh)
  urls := urls
  names leaf fresh name isName :=
    have member := mem_of_mem_newLeaves fresh
    ⟨names leaf member name isName, trimmed leaf member name isName⟩

/-- What an import adds is written on a line of its own, and is no fence. -/
theorem OnLines.clean_of_isImported {leaves : List BookmarkLeaf} (onLines : OnLines leaves)
    {block : Block} (isImported : IsImported leaves block) :
    '\n' ∉ block.render ∧ trimEnd block.render ≠ fence ∧
      (block.isItem = false → block.reread = block) ∧
      (block.isItem = true → block.reread.isFolder = false) := by
  obtain ⟨leaf, member, rfl | rfl | ⟨depth, name, isName, rfl, deep⟩⟩ := isImported
  · exact ⟨newline_not_mem_render_new (onLines.titles leaf member) (onLines.urls leaf member),
      trimEnd_render_new _ _, by simp [Block.isItem],
      fun _ => isFolder_parseBlock_render_new _ _⟩
  · exact ⟨List.not_mem_nil, by decide, fun _ => by decide, by simp [Block.isItem]⟩
  · obtain ⟨clean, trimmed⟩ := onLines.names leaf member name isName
    refine ⟨?_, ?_, fun _ => parseBlock_render_folder deep trimmed, by simp [Block.isItem]⟩
    · simp [Block.render, clean]
    · intro isFence
      have inFence : '#' ∈ fence := by
        rw [← isFence]
        apply mem_trimEnd _ (by decide)
        simp [Block.render]
        omega
      exact absurd inFence (by decide)

theorem grows_import (blocks : List Block) (leaves : List BookmarkLeaf) :
    Grows (IsImported (newLeaves (existingPlacements blocks) leaves)) blocks
      (mergeBookmarks blocks leaves).blocks := by
  obtain ⟨log, logged⟩ := exists_log (.start blocks) leaves
  exact logged.grows

theorem Settled.writable_imported {collection : Collection} (settled : Settled collection)
    {leaves : List BookmarkLeaf}
    (onLines : OnLines (newLeaves (existingPlacements collection.blocks) leaves))
    (nonempty : (collection.imported leaves).blocks ≠ []) :
    Writable (collection.imported leaves) := by
  have grows := grows_import collection.blocks leaves
  refine ⟨nonempty, ?_, ?_, ?_⟩
  · intro block member
    rcases grows.mem member with isOld | isNew
    · exact (settled.blocks block isOld).2
    · exact (onLines.clean_of_isImported isNew).1
  · intro field member
    obtain ⟨inside, _, clean⟩ := settled.fields field member
    exact ⟨inside, clean⟩
  · intro closed block isFirst
    rcases grows.head isFirst with isOld | isNew
    · exact settled.first closed block isOld
    · exact (onLines.clean_of_isImported isNew).2.1

theorem Settled.reread_imported {collection : Collection} (settled : Settled collection)
    {leaves : List BookmarkLeaf}
    (onLines : OnLines (newLeaves (existingPlacements collection.blocks) leaves))
    {block : Block} (member : block ∈ (collection.imported leaves).blocks) :
    (block.isItem = false → block.reread = block) ∧
      (block.isItem = true → block.reread.isFolder = false) := by
  rcases (grows_import collection.blocks leaves).mem member with isOld | isNew
  · have same : block.reread = block := (settled.blocks block isOld).1
    refine ⟨fun _ => same, fun isItem => ?_⟩
    rw [same]
    cases block with
    | item link => rfl
    | folder depth name => cases isItem
    | raw line => rfl
  · exact (onLines.clean_of_isImported isNew).2.2

/-- What stands where, once the file is written and read. -/
theorem Settled.stands_reloaded_iff {collection : Collection} (settled : Settled collection)
    {leaves : List BookmarkLeaf}
    (onLines : OnLines (newLeaves (existingPlacements collection.blocks) leaves))
    (nonempty : (collection.imported leaves).blocks ≠ []) (leaf : BookmarkLeaf) :
    Stands (collection.imported leaves).reloaded.blocks leaf ↔
      ∃ link, (leaf.folderPath, link) ∈ placed [] (collection.imported leaves).blocks ∧
        (Block.item link).reread.holds leaf.url = true := by
  obtain ⟨added, isAdded, isReloaded⟩ :=
    (settled.writable_imported onLines nonempty).blocks_reloaded
  have noPlaces : ∀ path, placed path added = [] := by
    intro path
    rcases isAdded with rfl | rfl
    · rfl
    · rfl
  have isPlaced : placed [] (collection.imported leaves).reloaded.blocks =
      (placed [] (collection.imported leaves).blocks).flatMap
        fun place => stands place.1 (Block.item place.2).reread := by
    rw [isReloaded, placed_append, noPlaces, List.append_nil]
    exact placed_reread (fun block member => (settled.reread_imported onLines member).1)
      fun block member => (settled.reread_imported onLines member).2
  rw [Stands, isPlaced]
  constructor
  · rintro ⟨link, isPlace, isUrl⟩
    obtain ⟨⟨path, found⟩, isThere, stands⟩ := List.mem_flatMap.mp isPlace
    obtain ⟨rfl, isRead⟩ := mem_stands_iff.mp stands
    exact ⟨found, isThere, holds_iff.mpr ⟨link, isRead, isUrl⟩⟩
  · rintro ⟨found, isThere, holds⟩
    obtain ⟨link, isRead, isUrl⟩ := holds_iff.mp holds
    exact ⟨link, List.mem_flatMap.mpr ⟨_, isThere, mem_stands_iff.mpr ⟨rfl, isRead⟩⟩, isUrl⟩

theorem Settled.sublist_reloaded {collection : Collection} (settled : Settled collection)
    {leaves : List BookmarkLeaf}
    (onLines : OnLines (newLeaves (existingPlacements collection.blocks) leaves)) :
    collection.blocks.Sublist (collection.imported leaves).reloaded.blocks := by
  have kept : collection.blocks.Sublist (collection.imported leaves).blocks :=
    (grows_import collection.blocks leaves).sublist
  by_cases empty : (collection.imported leaves).blocks = []
  · rw [empty] at kept
    rw [List.sublist_nil.mp kept]
    exact List.nil_sublist _
  · obtain ⟨added, _, isReloaded⟩ := (settled.writable_imported onLines empty).blocks_reloaded
    have same : collection.blocks.map Block.reread = collection.blocks := by
      conv_rhs => rw [← List.map_id collection.blocks]
      exact List.map_congr_left fun block member => (settled.blocks block member).1
    have rereads := kept.map Block.reread
    rw [same] at rereads
    rw [isReloaded]
    exact rereads.trans (List.sublist_append_left _ _)

/-! ## Faithful imports -/

/-- After an import every bookmark stands in its folder and the blocks from before are there in
their order, a second import adds nothing, and all of this holds of the file as well. -/
structure ImportsFaithfully (collection : Collection) (leaves : List BookmarkLeaf) : Prop where
  stand : ∀ leaf ∈ leaves, Stands (collection.imported leaves).blocks leaf
  kept : collection.blocks.Sublist (collection.imported leaves).blocks
  again : AddsNothing (collection.imported leaves).blocks leaves
  standReloaded : ∀ leaf ∈ leaves, Stands (collection.imported leaves).reloaded.blocks leaf
  keptReloaded : collection.blocks.Sublist (collection.imported leaves).reloaded.blocks
  againReloaded : AddsNothing (collection.imported leaves).reloaded.blocks leaves

/-- When an import is faithful. -/
structure Importable (collection : Collection) (leaves : List BookmarkLeaf) : Prop where
  fits : Guarded BookmarkMerge.visit Fits (.start collection.blocks) leaves
  apart : Apart collection.blocks leaves
  trimmed : ∀ leaf ∈ leaves, ∀ name ∈ leaf.folderPath, trim name = name
  readsBack : ∀ leaf ∈ newLeaves (existingPlacements collection.blocks) leaves,
    '\n' ∉ leaf.url ∧ ∃ other ∈ newLeaves (existingPlacements collection.blocks) leaves,
      other.folderPath = leaf.folderPath ∧
        (Block.item (.ofLeaf other)).reread.holds leaf.url = true

theorem Stands.nonempty {blocks : List Block} {leaf : BookmarkLeaf} (stands : Stands blocks leaf) :
    blocks ≠ [] := by
  rintro rfl
  obtain ⟨link, isPlace, _⟩ := stands
  cases isPlace

/-- A link from before is read back as it was. -/
theorem Settled.holds_reread_iff {collection : Collection} (settled : Settled collection)
    {path : FolderPath} {link : Item} (isPlace : (path, link) ∈ placed [] collection.blocks)
    {url : List Char} :
    (Block.item link).reread.holds url = true ↔ link.url = url := by
  have same : (Block.item link).reread = .item link :=
    (settled.blocks _ (folder_of_mem_placed isPlace).1).1
  rw [same]
  simp [Block.holds]

/-- A folder with a folder in it, and a bookmark behind that. -/
def bookmarksBar : List BookmarkLeaf :=
  [⟨["Bar".toList, "Rust".toList], "A".toList, "a.test".toList⟩,
    ⟨["Bar".toList], "B".toList, "b.test".toList⟩]

def oneBookmark : List BookmarkLeaf := [⟨["Bar".toList], "A".toList, "a.test".toList⟩]

end Yggterm.Collections
