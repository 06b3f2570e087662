import Yggterm.Collections.Survival

/-!
# Adding a link

`add_link` of `web_collection_store.rs` refuses an address that the collection holds, so that
adding twice is adding once.  This rests on the file: the line of the new link has to be read
back with the same address.
-/

namespace Yggterm.Collections

open Search Text

def Item.new (title url : List Char) :
    Item := { title, url, trailing := [], raw := [], dirty := true }

def Collection.containsUrl (collection : Collection) (url : List Char) : Bool :=
  collection.blocks.any (Block.holds url)

/-- A non-empty file ends with a newline. -/
def endsWithNewline (body : List Char) : List Char :=
  if body ≠ [] ∧ body.getLast? ≠ some '\n' then body ++ ['\n'] else body

/-- The title a link is added under. -/
def shownTitle (title url : List Char) : List Char := if trim title = [] then url else title

/-- `add_link`; `false` where the address was already there. -/
def Collection.addLink (collection : Collection) (folder : Option (List Char))
    (title url : List Char) : Bool × Collection :=
  if collection.containsUrl url then (false, collection)
  else (true, collection.addItem folder (.new (shownTitle title url) url))

/-- What is loaded after a save. -/
def Collection.reloaded (collection : Collection) : Collection :=
  parse (endsWithNewline collection.toMarkdown)

/-! ## Files that are read back line by line -/

/-- The lines of the frontmatter stay inside it, and no line breaks. -/
structure Writable (collection : Collection) : Prop where
  nonempty : collection.blocks ≠ []
  blocks : ∀ block ∈ collection.blocks, '\n' ∉ block.render
  fields : ∀ field ∈ collection.fields, trimEnd field.render ≠ fence ∧ '\n' ∉ field.render
  first : collection.opens = false → ∀ block ∈ collection.blocks.head?,
    trimEnd block.render ≠ fence

theorem Writable.bodyLines {collection : Collection} (writable : Writable collection) :
    collection.bodyLines = collection.blocks.map Block.render :=
  if_neg writable.nonempty

theorem Writable.newline_not_mem {collection : Collection} (writable : Writable collection) :
    ∀ line ∈ collection.writtenLines, '\n' ∉ line := by
  apply Collection.newline_not_mem
  · intro field inFields
    exact (writable.fields field inFields).2
  · intro line member
    rw [writable.bodyLines] at member
    obtain ⟨block, inBlocks, rfl⟩ := List.mem_map.mp member
    exact writable.blocks block inBlocks

/-- The save adds one empty line at most. -/
theorem Writable.splitOn_saved {collection : Collection} (writable : Writable collection) :
    ∃ added, (added = [] ∨ added = [[]]) ∧
      (endsWithNewline collection.toMarkdown).splitOn '\n' = collection.writtenLines ++ added := by
  have split := List.splitOn_intercalate '\n' writable.newline_not_mem
    collection.writtenLines_ne_nil
  rw [endsWithNewline]
  split
  · refine ⟨[[]], .inr rfl, ?_⟩
    rw [← split, ← Collection.toMarkdown_eq, List.splitOn_eq_splitOnP,
      List.splitOnP_append_cons _ _ (by simp)]
    rfl
  · refine ⟨[], .inl rfl, ?_⟩
    rw [Collection.toMarkdown_eq, split, List.append_nil]

/-- Every block is read back from the line it was written as. -/
theorem Writable.blocks_reloaded {collection : Collection} (writable : Writable collection) :
    ∃ added, (added = [] ∨ added = [Block.raw []]) ∧
      collection.reloaded.blocks =
        collection.blocks.map (fun block => parseBlock block.render) ++ added := by
  obtain ⟨added, isAdded, isSplit⟩ := writable.splitOn_saved
  refine ⟨added.map parseBlock, ?_, ?_⟩
  · rcases isAdded with rfl | rfl
    · exact .inl rfl
    · exact .inr (by decide)
  · rw [Collection.reloaded, parse, isSplit]
    by_cases opens : (collection.hadFrontmatter || collection.fields ≠ []) = true
    · have isWritten := Collection.writtenLines_of_opens opens
      have inside : ∀ line ∈ collection.fields.map Field.render, trimEnd line ≠ fence := by
        intro line member
        obtain ⟨field, inFields, rfl⟩ := List.mem_map.mp member
        exact (writable.fields field inFields).1
      rw [isWritten, List.cons_append, List.cons_append, List.append_assoc, List.cons_append,
        parseLines, if_pos]
      · rw [List.tail_cons, splitFrontmatter_of_closed inside trimEnd_fence, writable.bodyLines]
        simp
      · rw [List.head?_cons, Option.map_some, trimEnd_fence]
    · have isWritten : collection.writtenLines = collection.blocks.map Block.render := by
        rw [Collection.writtenLines, if_neg opens, writable.bodyLines]
      have plain : (collection.writtenLines ++ added).head?.map trimEnd ≠ some fence := by
        obtain ⟨block, rest, isBlocks⟩ := List.exists_cons_of_ne_nil writable.nonempty
        have first := writable.first (Bool.eq_false_iff.mpr opens) block (by rw [isBlocks]; rfl)
        rw [isWritten, isBlocks]
        simpa using first
      rw [parseLines, if_neg plain, isWritten]
      simp

/-! ## The line of a new link -/

def closing : List Char := "](".toList

theorem findText_closing_append {title : List Char} (absent : findText closing title = none)
    (rest : List Char) : findText closing (title ++ (closing ++ rest)) = some (title, rest) := by
  rw [findText_append_of_skip, findText_append_self (by decide)]
  · simp
  · intro first second isTitle nonempty here
    obtain ⟨char, others, rfl⟩ := List.exists_cons_of_ne_nil nonempty
    cases others with
    | nil => simp [closing] at here
    | cons next others =>
        apply not_isPrefix_of_findText_eq_none absent isTitle
        exact List.prefix_of_prefix_length_le here (List.prefix_append _ _) (by simp [closing])

/-- The line is read back with the address it was written with. -/
def ReadsBack (title url : List Char) : Prop :=
  trim url ≠ [] ∧ ')' ∉ url ∧
    ∀ before after, findText closing (shownTitle title url) = some (before, after) →
      ∃ rest, after = url ++ ')' :: rest

theorem findText_paren_iff {text url : List Char} :
    (∃ trailing, findText ")".toList text = some (url, trailing)) ↔
      (∃ trailing, text = url ++ ')' :: trailing) ∧ ')' ∉ url := by
  constructor
  · rintro ⟨trailing, found⟩
    exact ⟨⟨trailing, findText_eq found⟩, not_mem_of_findText_singleton found⟩
  · rintro ⟨⟨trailing, rfl⟩, clean⟩
    exact ⟨trailing, findText_singleton clean trailing⟩

/-- The rest of the line behind a closing in the title. -/
theorem exists_rest_iff {after url : List Char} (clean : ')' ∉ url) :
    (∃ trailing, after ++ (closing ++ (url ++ [')'])) = url ++ ')' :: trailing) ↔
      ∃ rest, after = url ++ ')' :: rest := by
  constructor
  · rintro ⟨trailing, same⟩
    -- the first parenthesis that closes stands behind the address on both sides
    have firstParen := findText_singleton clean trailing
    rw [← same] at firstParen
    cases found : findText [')'] after with
    | some parts =>
        obtain ⟨before, rest⟩ := parts
        rw [findText_append found] at firstParen
        obtain rfl : before = url := congrArg Prod.fst (Option.some.inj firstParen)
        exact ⟨rest, findText_eq found⟩
    | none =>
        have noParen : ')' ∉ after ++ (closing ++ url) := by
          have notInAfter : ')' ∉ after :=
            mt (List.singleton_infix_iff _ _).mpr (findText_eq_none_iff.mp found)
          simp [notInAfter, clean, closing]
        have longer := findText_singleton noParen []
        have isText : after ++ (closing ++ url) ++ [')'] =
            after ++ (closing ++ (url ++ [')'])) := by
          simp
        rw [isText, firstParen] at longer
        have sameUrl := congrArg (fun found => found.1.length) (Option.some.inj longer)
        simp [closing] at sameUrl
        omega
  · rintro ⟨rest, rfl⟩
    exact ⟨rest ++ (closing ++ (url ++ [')'])), by simp⟩

theorem parseItem_render (title url : List Char) :
    parseItem (Item.new title url).render =
      (findText closing (title ++ (closing ++ (url ++ [')'])))).bind fun found =>
        (findText ")".toList found.2).bind fun link =>
          if trim link.1 = [] then none else some (found.1, link.1, trim link.2) := by
  have isLine : (Item.new title url).render =
      "- ".toList ++ ('[' :: (title ++ (closing ++ (url ++ [')'])))) := by
    simp [Item.render, Item.new, closing]
  have opened : trimStart ('[' :: (title ++ (closing ++ (url ++ [')'])))) =
      '[' :: (title ++ (closing ++ (url ++ [')']))) :=
    List.dropWhile_cons_of_neg (by decide)
  have next : findText closing ('[' :: (title ++ (closing ++ (url ++ [')'])))) =
      (findText closing (title ++ (closing ++ (url ++ [')'])))).map fun found =>
        ('[' :: found.1, found.2) := by
    rw [findText, if_neg (by simp [closing])]
  rw [parseItem, isLine, stripFront, if_pos (List.prefix_append _ _), List.drop_left]
  simp only [Option.some_or, Option.bind_eq_bind, Option.bind_some, opened]
  rw [show "](".toList = closing from rfl, next, Option.bind_map]
  rfl

/-- The line of a link is no heading. -/
theorem parseBlock_render_new (title url : List Char) :
    parseBlock (Item.new title url).render =
      (parseItem (Item.new title url).render).elim (.raw (Item.new title url).render)
        fun parts => .item { title := parts.1, url := parts.2.1, trailing := parts.2.2,
                             raw := (Item.new title url).render, dirty := false } := by
  obtain ⟨rest, isLine⟩ : ∃ rest, (Item.new title url).render = '-' :: rest := by
    simp [Item.render, Item.new]
  have solid : trimStart ('-' :: rest) = '-' :: rest := List.dropWhile_cons_of_neg (by decide)
  have noHeading : stripFront ['#', '#'] ('-' :: rest) = none := by
    rw [stripFront, if_neg (by simp)]
  rw [isLine, parseBlock, solid, noHeading]
  cases parseItem ('-' :: rest) with
  | none => rfl
  | some parts => rfl

theorem holds_parseBlock_iff_parseItem {title url wanted : List Char} :
    Block.holds wanted (parseBlock (Item.new title url).render) = true ↔
      ∃ found trailing, parseItem (Item.new title url).render = some (found, wanted, trailing) := by
  rw [parseBlock_render_new]
  cases parseItem (Item.new title url).render with
  | none => simp [Block.holds]
  | some parts =>
      obtain ⟨found, address, trailing⟩ := parts
      simp [Block.holds]

/-- The line of a link is read back with its address just where the address ends the link. -/
theorem holds_parseBlock_iff {title url : List Char} :
    Block.holds url (parseBlock (Item.new title url).render) = true ↔
      trim url ≠ [] ∧ ')' ∉ url ∧ ∀ before after, findText closing title = some (before, after) →
        ∃ rest, after = url ++ ')' :: rest := by
  have reads : ∀ {before after : List Char},
      findText closing (title ++ (closing ++ (url ++ [')']))) = some (before, after) →
        ((∃ found trailing, parseItem (Item.new title url).render = some (found, url, trailing)) ↔
          trim url ≠ [] ∧ (∃ trailing, after = url ++ ')' :: trailing) ∧ ')' ∉ url) := by
    intro before after isFound
    rw [parseItem_render, isFound, Option.bind_some, ← findText_paren_iff]
    constructor
    · rintro ⟨found, trailing, isItem⟩
      obtain ⟨⟨address, rest⟩, isLink, isItem⟩ := Option.bind_eq_some_iff.mp isItem
      split at isItem
      · cases isItem
      · next notBlank =>
          cases isItem
          exact ⟨notBlank, rest, isLink⟩
    · rintro ⟨notBlank, trailing, isLink⟩
      refine ⟨before, trim trailing, ?_⟩
      rw [isLink, Option.bind_some, if_neg notBlank]
  rw [holds_parseBlock_iff_parseItem]
  cases inTitle : findText closing title with
  | none =>
      rw [reads (findText_closing_append inTitle _)]
      simp
  | some parts =>
      obtain ⟨before, after⟩ := parts
      rw [reads (findText_append inTitle _)]
      constructor
      · rintro ⟨notBlank, isAddress, clean⟩
        refine ⟨notBlank, clean, ?_⟩
        intro _ _ same
        cases same
        exact (exists_rest_iff clean).mp isAddress
      · rintro ⟨notBlank, clean, isAddress⟩
        exact ⟨notBlank, (exists_rest_iff clean).mpr (isAddress before after rfl), clean⟩

/-! ## The reloaded collection -/

/-- After an accepted addition the file has the address and every link it had, and a second
addition of the address changes nothing. -/
structure AddsOnce (source : List Char) (folder : Option (List Char)) (title url : List Char) :
    Prop where
  contains : ((parse source).addLink folder title url).2.reloaded.containsUrl url = true
  keeps : (parse source).links.Subperm ((parse source).addLink folder title url).2.reloaded.links
  again : ∀ otherFolder otherTitle,
    ((parse source).addLink folder title url).2.reloaded.addLink otherFolder otherTitle url =
      (false, ((parse source).addLink folder title url).2.reloaded)

theorem newline_not_mem_render_new {title url : List Char} (titleClean : '\n' ∉ title)
    (urlClean : '\n' ∉ url) : '\n' ∉ (Item.new title url).render := by
  simp [Item.render, Item.new, titleClean, urlClean]

/-- A link is no fence. -/
theorem trimEnd_render_new (title url : List Char) :
    trimEnd (Item.new title url).render ≠ fence := by
  intro isFence
  have member : '[' ∈ trimEnd (Item.new title url).render := by
    apply mem_trimEnd _ (by decide)
    simp [Item.render, Item.new]
  rw [isFence] at member
  exact absurd member (by decide)

theorem Settled.writable_addItem {collection : Collection} (settled : Settled collection)
    (folder : Option Line) {title url : List Char} (titleClean : '\n' ∉ title)
    (urlClean : '\n' ∉ url) :
    Writable (collection.addItem (folder.map Subtype.val) (.new title url)) := by
  obtain ⟨added, isPerm, isAdded⟩ :=
    addItem_perm collection (folder.map Subtype.val) (.new title url)
  obtain ⟨sameFields, sameFlag⟩ :=
    fields_addItem collection (folder.map Subtype.val) (.new title url)
  have lineClean := newline_not_mem_render_new titleClean urlClean
  refine ⟨?_, ?_, ?_, ?_⟩
  · intro empty
    rw [empty] at isPerm
    exact absurd isPerm.length_eq (by simp)
  · intro block member
    rcases List.mem_cons.mp (isPerm.mem_iff.mp member) with rfl | besides
    · exact lineClean
    · rcases List.mem_append.mp besides with isNew | isOld
      · rcases isAdded block isNew with rfl | ⟨name, isName, rfl, _⟩
        · exact List.not_mem_nil
        · obtain ⟨line, _, rfl⟩ := Option.map_eq_some_iff.mp isName
          simp [Block.render, line.property]
      · exact (settled.blocks block isOld).2
  · intro field member
    rw [sameFields] at member
    obtain ⟨inside, _, clean⟩ := settled.fields field member
    exact ⟨inside, clean⟩
  · intro closed block isFirst
    have wasClosed : collection.opens = false := by
      rw [← closed, Collection.opens, Collection.opens, sameFields, sameFlag]
    by_cases empty : collection.blocks = []
    · rcases head_addItem_of_nil empty _ _ block isFirst with rfl | rfl
      · exact trimEnd_render_new title url
      · decide
    · rw [head_addItem empty] at isFirst
      exact settled.first wasClosed block isFirst

/-- What comes back beside the new line: blank lines, a folder, and every block from before. -/
theorem reloads (source : List Char) (folder : Option Line) {title url : List Char}
    (titleClean : '\n' ∉ title) (urlClean : '\n' ∉ url) :
    ∃ besides, (∀ block ∈ besides, ∀ link, block ≠ .item link) ∧
      ((parse source).addItem (folder.map Subtype.val) (.new title url)).reloaded.blocks.Perm
        (parseBlock (Item.new title url).render :: (besides ++ (parse source).blocks)) := by
  have settled := settled_parse source
  obtain ⟨added, isPerm, isAdded⟩ :=
    addItem_perm (parse source) (folder.map Subtype.val) (.new title url)
  obtain ⟨tail, isTail, isReloaded⟩ :=
    (settled.writable_addItem folder titleClean urlClean).blocks_reloaded
  have sameBlocks : (parse source).blocks.map (fun block => parseBlock block.render) =
      (parse source).blocks := by
    conv_rhs => rw [← List.map_id (parse source).blocks]
    exact List.map_congr_left fun block member => (settled.blocks block member).1
  refine ⟨added.map (fun block => parseBlock block.render) ++ tail, ?_, ?_⟩
  · intro block member link
    rcases List.mem_append.mp member with isNew | inTail
    · obtain ⟨original, isOriginal, rfl⟩ := List.mem_map.mp isNew
      rcases isAdded original isOriginal with rfl | ⟨name, _, rfl, _⟩
      · have isRaw : parseBlock (Block.raw []).render = .raw [] := by decide
        rw [isRaw]
        simp
      · have isFolder := @parseBlock_of_heading 0 name
        rw [Block.render]
        rw [isFolder]
        simp
    · rcases isTail with rfl | rfl
      · cases inTail
      · rw [List.mem_singleton.mp inTail]
        simp
  · rw [isReloaded]
    have mapped := (isPerm.map fun block => parseBlock block.render).append_right tail
    rw [List.map_cons, List.map_append, sameBlocks, List.cons_append, List.append_assoc] at mapped
    apply mapped.trans
    rw [List.append_assoc]
    exact (List.perm_append_comm.append_left _).cons _

/-- An accepted addition holds once exactly where the line of the new link is read back. -/
theorem addsOnce_iff (source : List Char) (folder : Option Line) (title url : Line)
    (accepted : (parse source).containsUrl url = false) :
    AddsOnce source (folder.map Subtype.val) title url ↔ ReadsBack title url := by
  have titleClean : '\n' ∉ shownTitle title.val url := by
    rw [shownTitle]
    split
    · exact url.property
    · exact title.property
  obtain ⟨besides, notLinks, isPerm⟩ := reloads source folder titleClean url.property
  have isAdded : (parse source).addLink (folder.map Subtype.val) title url =
      (true, (parse source).addItem (folder.map Subtype.val)
        (.new (shownTitle title url) url)) := by
    rw [Collection.addLink, accepted]
    rfl
  generalize (parse source).addItem (folder.map Subtype.val) (.new (shownTitle title url) url) =
    collection at isAdded isPerm
  have contains : collection.reloaded.containsUrl url = true ↔ ReadsBack title url := by
    have notBesides : besides.any (Block.holds url) = false := by
      apply List.any_eq_false.mpr
      intro block member holds
      cases block with
      | item link => exact notLinks _ member link rfl
      | folder depth name => cases holds
      | raw line => cases holds
    rw [Collection.containsUrl, isPerm.any_eq, List.any_cons, List.any_append, notBesides,
      Bool.false_or]
    rw [Collection.containsUrl] at accepted
    rw [accepted, Bool.or_false, holds_parseBlock_iff, ReadsBack]
  constructor
  · intro adds
    have isThere := adds.contains
    rw [isAdded] at isThere
    exact contains.mp isThere
  · intro readsBack
    have isThere := contains.mpr readsBack
    refine ⟨?_, ?_, ?_⟩
    · rw [isAdded]
      exact isThere
    · rw [isAdded]
      have sameLinks := linksOf_perm isPerm
      rw [← List.singleton_append, linksOf_append, linksOf_append, ← List.append_assoc] at sameLinks
      exact (List.sublist_append_right _ _).subperm.trans sameLinks.symm.subperm
    · intro otherFolder otherTitle
      rw [isAdded, Collection.addLink, if_pos isThere]

def savedLinks : List Char := "- [A](a.test)".toList

theorem addsOnce_second :
    AddsOnce savedLinks none "B".toList "b.test".toList ↔
      ReadsBack "B".toList "b.test".toList :=
  addsOnce_iff savedLinks none ⟨"B".toList, by decide⟩ ⟨"b.test".toList, by decide⟩ (by decide)

def encyclopedia : List Char := "https://en.wikipedia.org/wiki/Rust_(programming_language)".toList

/-- The address is read back up to its own parenthesis. -/
theorem not_addsOnce_parenthesis : ¬AddsOnce [] none "Rust".toList encyclopedia := by
  intro adds
  have lost : ((parse []).addLink none "Rust".toList encyclopedia).2.reloaded.containsUrl
      encyclopedia = false := by decide
  exact absurd (adds.contains.symm.trans lost) (by decide)

end Yggterm.Collections
