import Yggterm.Collections.Edits
import Yggterm.Library.Runs

/-!
# Links through edits

A collection whose blocks and fields all read back as what they are keeps its links through
the file, so long as no fence becomes the first line of a file without frontmatter.
-/

namespace Yggterm.Collections

open Search Text Runs

/-! ## Collections that read back as what they are -/

structure Settled (collection : Collection) : Prop where
  blocks : ∀ block ∈ collection.blocks, parseBlock block.render = block ∧ '\n' ∉ block.render
  fields : ∀ field ∈ collection.fields, trimEnd field.render ≠ fence ∧
    SpelledField field.render ∧ '\n' ∉ field.render
  first : collection.opens = false → ∀ block ∈ collection.blocks.head?,
    trimEnd block.render ≠ fence

theorem Settled.bodyLines {collection : Collection} (settled : Settled collection) :
    ∀ line ∈ collection.bodyLines, (parseBlock line).render = line ∧ '\n' ∉ line := by
  intro line member
  rw [Collection.bodyLines] at member
  split at member
  · rw [List.mem_singleton.mp member]
    decide
  · obtain ⟨block, inBlocks, rfl⟩ := List.mem_map.mp member
    obtain ⟨readsBack, clean⟩ := settled.blocks block inBlocks
    rw [readsBack]
    exact ⟨rfl, clean⟩

theorem Settled.links_bodyLines {collection : Collection} (settled : Settled collection) :
    linksOf (collection.bodyLines.map parseBlock) = collection.links := by
  rw [Collection.bodyLines]
  split
  · next empty =>
      rw [Collection.links, empty]
      decide
  · have readsBack : (collection.blocks.map Block.render).map parseBlock = collection.blocks := by
      rw [List.map_map]
      conv_rhs => rw [← List.map_id collection.blocks]
      apply List.map_congr_left
      intro block member
      exact (settled.blocks block member).1
    rw [readsBack]
    rfl

theorem Collection.newline_not_mem {collection : Collection}
    (fields : ∀ field ∈ collection.fields, '\n' ∉ field.render)
    (body : ∀ line ∈ collection.bodyLines, '\n' ∉ line) :
    ∀ line ∈ collection.writtenLines, '\n' ∉ line := by
  intro line member
  have fenceClean : '\n' ∉ fence := by decide
  rw [Collection.writtenLines] at member
  split at member
  · simp only [List.mem_append, List.mem_cons, List.mem_map, List.not_mem_nil, or_false] at member
    rcases member with ((rfl | ⟨field, inFields, rfl⟩) | rfl) | inBody
    · exact fenceClean
    · exact fields field inFields
    · exact fenceClean
    · exact body line inBody
  · exact body line member

theorem Settled.newline_not_mem {collection : Collection} (settled : Settled collection) :
    ∀ line ∈ collection.writtenLines, '\n' ∉ line :=
  Collection.newline_not_mem (fun field inFields => (settled.fields field inFields).2.2)
    fun line inBody => (settled.bodyLines line inBody).2

/-- A file with frontmatter is the fields between two fences, and the body. -/
theorem Collection.writtenLines_of_opens {collection : Collection}
    (opens : (collection.hadFrontmatter || collection.fields ≠ []) = true) :
    collection.writtenLines =
      fence :: collection.fields.map Field.render ++ fence :: collection.bodyLines := by
  rw [writtenLines, if_pos opens]
  simp

theorem Collection.writtenLines_ne_nil (collection : Collection) :
    collection.writtenLines ≠ [] := by
  rw [writtenLines]
  split
  · simp
  · exact collection.bodyLines_ne_nil

theorem Settled.parse_toMarkdown {collection : Collection} (settled : Settled collection) :
    parse collection.toMarkdown = parseLines collection.writtenLines := by
  rw [parse, Collection.toMarkdown_eq,
    List.splitOn_intercalate '\n' settled.newline_not_mem collection.writtenLines_ne_nil]

/-- The lines of a settled collection are written back as they are, and have its links. -/
theorem Settled.parseLines_writtenLines {collection : Collection} (settled : Settled collection) :
    (parseLines collection.writtenLines).writtenLines = collection.writtenLines ∧
      (parseLines collection.writtenLines).links = collection.links := by
  have body : collection.bodyLines.map (fun line => (parseBlock line).render) =
      collection.bodyLines :=
    (map_eq_self_iff _).mpr fun line member => (settled.bodyLines line member).1
  by_cases opens : (collection.hadFrontmatter || collection.fields ≠ []) = true
  · have isWritten := Collection.writtenLines_of_opens opens
    have inside : ∀ line ∈ collection.fields.map Field.render, trimEnd line ≠ fence := by
      intro line member
      obtain ⟨field, inFields, rfl⟩ := List.mem_map.mp member
      exact (settled.fields field inFields).1
    have fields : (collection.fields.map Field.render).map (fun line => (parseField line).render) =
        collection.fields.map Field.render := by
      apply (map_eq_self_iff _).mpr
      intro line member
      obtain ⟨field, inFields, rfl⟩ := List.mem_map.mp member
      exact (render_parseField_eq_iff _).mpr (settled.fields field inFields).2.1
    rw [isWritten]
    constructor
    · rw [writtenLines_of_closed trimEnd_fence trimEnd_fence inside,
        if_neg collection.bodyLines_ne_nil, fields, body]
      simp
    · rw [← settled.links_bodyLines]
      simp [parseLines, trimEnd_fence, splitFrontmatter_of_closed inside trimEnd_fence,
        Collection.links]
  · have isWritten : collection.writtenLines = collection.bodyLines := by
      rw [Collection.writtenLines, if_neg opens]
    have plain : collection.bodyLines.head?.map trimEnd ≠ some fence := by
      have first := settled.first (Bool.eq_false_iff.mpr opens)
      rw [Collection.bodyLines]
      split
      · decide
      · intro isFence
        cases isHead : collection.blocks.head? with
        | none => simp [isHead] at isFence
        | some block =>
            apply first block isHead
            simpa [isHead] using isFence
    rw [isWritten]
    constructor
    · rw [writtenLines_of_plain collection.bodyLines_ne_nil plain, body]
    · rw [← settled.links_bodyLines, parseLines, if_neg plain]
      rfl

/-! ## What is read is settled -/

theorem parseBlock_render_parseBlock (line : List Char) :
    parseBlock (parseBlock line).render = parseBlock line := by
  cases stripped : stripFront ['#', '#'] (trimStart line) with
  | none => rw [render_parseBlock_of_none stripped]
  | some hashes =>
      have isFolder : parseBlock line = .folder (2 + (hashes.takeWhile (· = '#')).length)
          (trim (hashes.dropWhile (· = '#'))) := by
        rw [parseBlock, stripped]
      rw [isFolder, Block.render, parseBlock_of_heading, trim_trim]

theorem mem_trimEnd {char : Char} {line : List Char} (member : char ∈ line)
    (solid : isWhitespace char = false) : char ∈ trimEnd line := by
  rw [← List.mem_reverse, ← @List.takeWhile_append_dropWhile _ isWhitespace line.reverse] at member
  rcases List.mem_append.mp member with dropped | kept
  · have blank := List.mem_takeWhile_imp dropped
    rw [solid] at blank
    cases blank
  · exact List.mem_reverse.mpr kept

/-- A heading is no fence. -/
theorem trimEnd_of_render_parseBlock {line : List Char}
    (isFence : trimEnd (parseBlock line).render = fence) : trimEnd line = fence := by
  cases stripped : stripFront ['#', '#'] (trimStart line) with
  | none => rwa [render_parseBlock_of_none stripped] at isFence
  | some hashes =>
      rw [parseBlock, stripped] at isFence
      have member : '#' ∈ fence := by
        rw [← isFence]
        apply mem_trimEnd _ (by decide)
        simp [Block.render]
      exact absurd member (by decide)

theorem spelledField_parseField (line : List Char) : SpelledField (parseField line).render := by
  cases found : findText [':'] line with
  | none =>
      rw [render_parseField_of_none found]
      exact (render_parseField_eq_iff line).mp (render_parseField_of_none found)
  | some parts =>
      obtain ⟨key, value⟩ := parts
      have rendered := render_parseField_of_some found
      by_cases blank : trim key = []
      · rw [if_pos blank] at rendered
        rw [rendered]
        exact (render_parseField_eq_iff line).mp rendered
      · rw [if_neg blank] at rendered
        rw [rendered]
        intro otherKey otherValue otherFound _
        have clean : ':' ∉ trim key := fun member =>
          not_mem_of_findText_singleton found (mem_of_mem_trim member)
        rw [findText_singleton clean] at otherFound
        cases otherFound
        exact ⟨trim_trim key, trim value, rfl, trim_trim value⟩

theorem trimEnd_render_parseField {line : List Char} (inside : trimEnd line ≠ fence) :
    trimEnd (parseField line).render ≠ fence := by
  cases found : findText [':'] line with
  | none => rwa [render_parseField_of_none found]
  | some parts =>
      obtain ⟨key, value⟩ := parts
      rw [render_parseField_of_some found]
      split
      · exact inside
      · intro isFence
        have member : ':' ∈ trimEnd (trim key ++ ':' :: ' ' :: trim value) :=
          mem_trimEnd (by simp) (by decide)
        rw [isFence] at member
        exact absurd member (by decide)

theorem mem_of_mem_splitFrontmatter {lines : List (List Char)} {line : List Char} :
    (line ∈ (splitFrontmatter lines).1 → line ∈ lines ∧ trimEnd line ≠ fence) ∧
      (line ∈ (splitFrontmatter lines).2 → line ∈ lines) := by
  rcases closed_or_open lines with ⟨fieldLines, closer, body, rfl, closes, inside⟩ | inside
  · rw [splitFrontmatter_of_closed inside closes]
    refine ⟨fun inFields => ⟨List.mem_append_left _ inFields, inside line inFields⟩, ?_⟩
    intro inBody
    exact List.mem_append_right _ (List.mem_cons_of_mem _ inBody)
  · rw [splitFrontmatter_of_open inside]
    exact ⟨fun inFields => ⟨inFields, inside line inFields⟩, fun inBody => by cases inBody⟩

theorem settled_parse (source : List Char) : Settled (parse source) := by
  have clean : ∀ line ∈ source.splitOn '\n', '\n' ∉ line :=
    fun line member => not_mem_of_mem_splitOn member
  rw [parse, parseLines]
  split
  · next opens =>
      have restClean : ∀ line ∈ (source.splitOn '\n').tail, '\n' ∉ line :=
        fun line member => clean line (List.mem_of_mem_tail member)
      refine ⟨?_, ?_, by simp [Collection.opens]⟩
      · intro block member
        obtain ⟨line, inBody, rfl⟩ := List.mem_map.mp member
        refine ⟨parseBlock_render_parseBlock line, not_mem_of_render_parseBlock ?_⟩
        exact restClean line (mem_of_mem_splitFrontmatter.2 inBody)
      · intro field member
        obtain ⟨line, inFields, rfl⟩ := List.mem_map.mp member
        have inside := mem_of_mem_splitFrontmatter.1 inFields
        exact ⟨trimEnd_render_parseField inside.2, spelledField_parseField line,
          not_mem_of_render_parseField (restClean line inside.1)⟩
  · next plain =>
      refine ⟨?_, by simp, ?_⟩
      · intro block member
        obtain ⟨line, inLines, rfl⟩ := List.mem_map.mp member
        exact ⟨parseBlock_render_parseBlock line, not_mem_of_render_parseBlock (clean line inLines)⟩
      · intro _ block isFirst isFence
        obtain ⟨line, rest, isLines⟩ := List.exists_cons_of_ne_nil (List.splitOn_ne_nil '\n' source)
        rw [isLines] at isFirst plain
        obtain rfl : parseBlock line = block := by simpa using isFirst
        apply plain
        simpa using trimEnd_of_render_parseBlock isFence

/-! ## Setting a field -/

theorem mem_setFirst {key value : List Char} {fields : List Field} {field : Field}
    (member : field ∈ setFirst key value fields) : field ∈ fields ∨ field = ⟨key, value⟩ := by
  induction fields with
  | nil => exact .inr (List.mem_singleton.mp member)
  | cons first rest inductionHypothesis =>
      rw [setFirst] at member
      split at member
      · next isKey =>
          rcases List.mem_cons.mp member with rfl | later
          · exact .inr (by rw [isKey])
          · exact .inl (List.mem_cons_of_mem _ later)
      · rcases List.mem_cons.mp member with rfl | later
        · exact .inl List.mem_cons_self
        · rcases inductionHypothesis later with old | new
          · exact .inl (List.mem_cons_of_mem _ old)
          · exact .inr new

theorem setFirst_ne_nil (key value : List Char) (fields : List Field) :
    setFirst key value fields ≠ [] := by
  cases fields with
  | nil => simp [setFirst]
  | cons first rest =>
      rw [setFirst]
      split
      · simp
      · simp

theorem newline_not_mem_render {key value : List Char} (keyClean : '\n' ∉ key)
    (valueClean : '\n' ∉ value) : '\n' ∉ Field.render ⟨key, value⟩ := by
  unfold Field.render
  split
  · exact valueClean
  · have separatorClean : '\n' ∉ ": ".toList := by decide
    simp only [List.mem_append, keyClean, valueClean, separatorClean, or_false, not_false_eq_true]

theorem Settled.setField {collection : Collection} (settled : Settled collection)
    {key value : List Char} (keyClean : '\n' ∉ key) (valueClean : '\n' ∉ value)
    (noFence : trimEnd (Field.render ⟨key, value⟩) ≠ fence)
    (spelled : SpelledField (Field.render ⟨key, value⟩)) :
    Settled (collection.setField key value) := by
  refine ⟨settled.blocks, ?_, ?_⟩
  · intro field member
    rcases mem_setFirst member with old | rfl
    · exact settled.fields field old
    · exact ⟨noFence, spelled, newline_not_mem_render keyClean valueClean⟩
  · intro closed
    simp [Collection.opens, Collection.setField, setFirst_ne_nil] at closed

/-! ## Moving a link -/

theorem linksOf_append (first second : List Block) :
    linksOf (first ++ second) = linksOf first ++ linksOf second :=
  List.filterMap_append

theorem linksOf_perm {first second : List Block} (same : first.Perm second) :
    (linksOf first).Perm (linksOf second) :=
  same.filterMap _

/-- What a lift takes out: the link, and a blank line or none. -/
theorem closeGap_perm (blocks : List Block) (place : Nat) :
    ∃ gone, blocks.Perm (gone ++ closeGap blocks place) ∧ ∀ block ∈ gone, block.isBlank = true := by
  rw [closeGap]
  split
  · next gap =>
      obtain ⟨_, inside, _, isBlank⟩ := gap
      refine ⟨[blocks[place]], (List.getElem_cons_eraseIdx_perm inside).symm, ?_⟩
      intro block member
      rw [List.mem_singleton.mp member]
      simpa [List.getElem?_eq_getElem inside] using isBlank
  · exact ⟨[], List.Perm.refl _, by simp⟩

theorem stepBack_le (blocks : List Block) (start ends : Nat) :
    stepBack blocks start ends ≤ ends := by
  induction ends with
  | zero => rfl
  | succ before inductionHypothesis =>
      rw [stepBack]
      split
      · exact Nat.le_succ_of_le inductionHypothesis
      · rfl

theorem lt_stepBack {blocks : List Block} {start ends : Nat} (behind : start < ends) :
    start < stepBack blocks start ends := by
  induction ends with
  | zero => cases behind
  | succ before inductionHypothesis =>
      rw [stepBack]
      split
      · next goesOn => exact inductionHypothesis (by omega)
      · exact behind

theorem insertAt_bounds {blocks : List Block} {start : Nat} (inside : start < blocks.length) :
    start < insertAt blocks start ∧ insertAt blocks start ≤ blocks.length := by
  have ends : ∃ ends, insertAt blocks start = stepBack blocks start ends ∧ start < ends ∧
      ends ≤ blocks.length := by
    cases isNext : (blocks.drop (start + 1)).findIdx? Block.isFolder with
    | none => exact ⟨blocks.length, by simp [insertAt, isNext], inside, le_refl _⟩
    | some offset =>
        refine ⟨start + 1 + offset, by simp [insertAt, isNext], by omega, ?_⟩
        have before := (List.findIdx?_eq_some_iff_getElem.mp isNext).1
        rw [List.length_drop] at before
        omega
  obtain ⟨ends, isAt, behind, within⟩ := ends
  rw [isAt]
  exact ⟨lt_stepBack behind, (stepBack_le blocks start ends).trans within⟩

/-- What an addition puts in beside the link: blank lines, and a new folder. -/
theorem addItem_perm (collection : Collection) (folder : Option (List Char)) (link : Item) :
    ∃ added, (collection.addItem folder link).blocks.Perm
        (.item link :: (added ++ collection.blocks)) ∧
      ∀ block ∈ added, block = .raw [] ∨ ∃ name ∈ folder, block = .folder 2 name ∧
        ∀ other ∈ collection.blocks, other.isFolderNamed name = false := by
  cases folder with
  | none => exact ⟨[], List.perm_append_singleton _ _, by simp⟩
  | some name =>
      rw [Collection.addItem]
      cases isStart : collection.blocks.findIdx? (Block.isFolderNamed name) with
      | some start =>
          have inside := (List.findIdx?_eq_some_iff_getElem.mp isStart).1
          exact ⟨[], List.perm_insertIdx _ _ (insertAt_bounds inside).2, by simp⟩
      | none =>
          have absent : ∀ other ∈ collection.blocks, other.isFolderNamed name = false :=
            List.findIdx?_eq_none_iff.mp isStart
          let gap : List Block :=
            if (collection.blocks.getLast?).any Block.isBlank then [] else [.raw []]
          refine ⟨gap ++ [.folder 2 name, .raw []], ?_, ?_⟩
          · have isBlocks : collection.blocks ++ gap ++ [.folder 2 name, .raw [], .item link] =
                (collection.blocks ++ (gap ++ [.folder 2 name, .raw []])) ++ [.item link] := by
              simp
            change (collection.blocks ++ gap ++
              [Block.folder 2 name, Block.raw [], Block.item link]).Perm _
            rw [isBlocks]
            exact (List.perm_append_singleton _ _).trans (List.perm_append_comm.cons _)
          · intro block member
            rcases List.mem_append.mp member with inGap | isNew
            · have isRaw : block = .raw [] := by
                simp only [gap] at inGap
                split at inGap
                · cases inGap
                · exact List.mem_singleton.mp inGap
              exact .inl isRaw
            · rcases List.mem_cons.mp isNew with isFolder | isRaw
              · exact .inr ⟨name, rfl, isFolder, absent⟩
              · exact .inl (List.mem_singleton.mp isRaw)

/-- An addition leaves the first block first. -/
theorem head_addItem {collection : Collection} (nonempty : collection.blocks ≠ [])
    (folder : Option (List Char)) (link : Item) :
    (collection.addItem folder link).blocks.head? = collection.blocks.head? := by
  cases folder with
  | none => exact List.head?_append_of_ne_nil _ nonempty
  | some name =>
      rw [Collection.addItem]
      cases isStart : collection.blocks.findIdx? (Block.isFolderNamed name) with
      | some start =>
          have inside := (List.findIdx?_eq_some_iff_getElem.mp isStart).1
          obtain ⟨place, isPlace⟩ := Nat.exists_eq_add_of_lt (insertAt_bounds inside).1
          obtain ⟨first, rest, isBlocks⟩ := List.exists_cons_of_ne_nil nonempty
          rw [isBlocks] at isPlace
          simp only [isBlocks, isPlace, List.insertIdx_succ_cons, List.head?_cons]
      | none =>
          simp only [List.append_assoc]
          exact List.head?_append_of_ne_nil _ nonempty

theorem head_addItem_of_nil {collection : Collection} (empty : collection.blocks = [])
    (folder : Option (List Char)) (link : Item) :
    ∀ block ∈ (collection.addItem folder link).blocks.head?, block = .item link ∨
        block = .raw [] := by
  intro block isFirst
  cases folder with
  | none =>
      simp only [Collection.addItem, empty, List.nil_append, List.head?_cons, Option.mem_def,
        Option.some.injEq] at isFirst
      exact .inl isFirst.symm
  | some name =>
      simp only [Collection.addItem, empty, List.findIdx?_nil, List.getLast?_nil, Option.any_none,
        List.nil_append] at isFirst
      exact .inr (by simpa using isFirst.symm)

/-- The first block of what a lift leaves. -/
theorem head_closeGap (blocks : List Block) (place : Nat) :
    (closeGap (blocks.eraseIdx place) place).head? =
      if place = 0 then blocks[1]? else blocks.head? := by
  cases place with
  | zero =>
      cases blocks with
      | nil => rfl
      | cons first rest => simp [closeGap, List.head?_eq_getElem?]
  | succ before =>
      cases blocks with
      | nil => simp [closeGap]
      | cons first rest =>
          rw [List.eraseIdx_cons_succ, closeGap]
          split
          · simp
          · simp

/-- A move lifts the first link with the address, or does nothing. -/
theorem moveItem_cases (collection : Collection) (url : List Char) (folder : Option (List Char)) :
    (collection.moveItem url folder).1 = collection ∨
      ∃ place link, collection.blocks[place]? = some (.item link) ∧ link.url = url ∧
        (collection.moveItem url folder).1 =
          ({ collection with
            blocks := closeGap (collection.blocks.eraseIdx place) place } : Collection).addItem
              folder link := by
  unfold Collection.moveItem
  cases isPlace : collection.blocks.findIdx? (Block.holds url) with
  | none => exact .inl rfl
  | some place =>
      obtain ⟨inside, holds, _⟩ := List.findIdx?_eq_some_iff_getElem.mp isPlace
      have isBlock : collection.blocks[place]? = some collection.blocks[place] :=
        List.getElem?_eq_getElem inside
      cases isLink : collection.blocks[place] with
      | item link =>
          rw [isLink] at isBlock holds
          refine .inr ⟨place, link, isBlock, by simpa [Block.holds] using holds, ?_⟩
          simp only [isBlock]
      | folder depth name =>
          rw [isLink] at holds
          cases holds
      | raw line =>
          rw [isLink] at holds
          cases holds

/-- What a move takes out, and what it puts in beside the link. -/
theorem lifted_perm {collection : Collection} {place : Nat} {link : Item}
    (isLink : collection.blocks[place]? = some (.item link)) :
    ∃ gone, collection.blocks.Perm (.item link ::
        (gone ++ closeGap (collection.blocks.eraseIdx place) place)) ∧
      ∀ block ∈ gone, block.isBlank = true := by
  obtain ⟨inside, isBlock⟩ := List.getElem?_eq_some_iff.mp isLink
  obtain ⟨gone, isRest, blank⟩ := closeGap_perm (collection.blocks.eraseIdx place) place
  refine ⟨gone, ?_, blank⟩
  have lifted := List.getElem_cons_eraseIdx_perm inside
  rw [isBlock] at lifted
  exact lifted.symm.trans (isRest.cons _)

theorem linksOf_eq_nil {blocks : List Block}
    (noLink : ∀ block ∈ blocks, ∀ link, block ≠ .item link) :
    linksOf blocks = [] := by
  rw [linksOf, List.filterMap_eq_nil_iff]
  intro block member
  cases block with
  | item link => exact absurd rfl (noLink _ member link)
  | folder depth name => rfl
  | raw line => rfl

theorem links_moveItem (collection : Collection) (url : List Char)
    (folder : Option (List Char)) :
    (collection.moveItem url folder).1.links.Perm collection.links := by
  rcases moveItem_cases collection url folder with same | ⟨place, link, isLink, _, isMoved⟩
  · rw [same]
  · obtain ⟨gone, before, blank⟩ := lifted_perm isLink
    obtain ⟨added, after, isAdded⟩ := addItem_perm
      { collection with blocks := closeGap (collection.blocks.eraseIdx place) place } folder link
    have goneLinks : linksOf gone = [] := by
      apply linksOf_eq_nil
      rintro block member link rfl
      cases blank _ member
    have addedLinks : linksOf added = [] := by
      apply linksOf_eq_nil
      rintro block member link rfl
      rcases isAdded _ member with isRaw | ⟨name, _, isFolder, _⟩
      · cases isRaw
      · cases isFolder
    have linksBefore := linksOf_perm before
    have linksAfter := linksOf_perm after
    rw [← List.singleton_append, linksOf_append, linksOf_append, goneLinks] at linksBefore
    rw [← List.singleton_append, linksOf_append, linksOf_append, addedLinks] at linksAfter
    rw [isMoved]
    exact linksAfter.trans linksBefore.symm

theorem fields_addItem (collection : Collection) (folder : Option (List Char)) (link : Item) :
    (collection.addItem folder link).fields = collection.fields ∧
      (collection.addItem folder link).hadFrontmatter = collection.hadFrontmatter := by
  unfold Collection.addItem
  split
  · exact ⟨rfl, rfl⟩
  · split
    · exact ⟨rfl, rfl⟩
    · exact ⟨rfl, rfl⟩

theorem isFolderNamed_of_isBlank {block : Block} (blank : block.isBlank = true)
    (name : List Char) : block.isFolderNamed name = false := by
  cases block with
  | raw line => rfl
  | folder depth other => cases blank
  | item link => cases blank

/-- A new folder, under a name without blanks around it, reads back as itself. -/
theorem parseBlock_render_folder {name : List Char} {depth : Nat} (deep : 2 ≤ depth)
    (trimmed : trim name = name) :
    parseBlock (Block.render (.folder depth name)) = .folder depth name := by
  obtain ⟨depth, rfl⟩ := Nat.exists_eq_add_of_le deep
  have isFolder := @parseBlock_of_heading depth name
  rwa [trimmed] at isFolder

theorem Settled.blocks_moveItem {collection : Collection} (settled : Settled collection)
    {place : Nat} {link : Item} (isLink : collection.blocks[place]? = some (.item link))
    {folder : Option Line}
    (named : ∀ name ∈ folder, collection.blocks.any (Block.isFolderNamed name) = false →
      trim name.val = name) :
    ∀ block ∈ (({ collection with
        blocks := closeGap (collection.blocks.eraseIdx place) place } : Collection).addItem
          (folder.map Subtype.val) link).blocks,
      parseBlock block.render = block ∧ '\n' ∉ block.render := by
  obtain ⟨gone, before, blank⟩ := lifted_perm isLink
  obtain ⟨added, after, isAdded⟩ := addItem_perm
    { collection with blocks := closeGap (collection.blocks.eraseIdx place) place }
      (folder.map Subtype.val) link
  intro block member
  rcases List.mem_cons.mp (after.mem_iff.mp member) with rfl | besides
  · exact settled.blocks _ (List.mem_of_getElem? isLink)
  rcases List.mem_append.mp besides with isNew | isOld
  · rcases isAdded block isNew with rfl | ⟨name, isName, rfl, absent⟩
    · decide
    · obtain ⟨line, isLine, rfl⟩ := Option.map_eq_some_iff.mp isName
      have trimmed : trim line.val = line := by
        apply named line isLine
        rw [List.any_eq_false]
        intro other inBlocks
        rw [Bool.not_eq_true]
        rcases List.mem_cons.mp (before.mem_iff.mp inBlocks) with rfl | others
        · rfl
        · rcases List.mem_append.mp others with inGone | inLifted
          · exact isFolderNamed_of_isBlank (blank other inGone) line
          · exact absent other inLifted
      refine ⟨parseBlock_render_folder (Nat.le_refl 2) trimmed, ?_⟩
      simp [Block.render, line.property]
  · apply settled.blocks
    rw [before.mem_iff]
    exact List.mem_cons_of_mem _ (List.mem_append_right _ isOld)

theorem Settled.moveItem {collection : Collection} (settled : Settled collection)
    {url : List Char} {folder : Option Line} (safe : (Edit.moveItem url folder).Safe collection) :
    Settled (collection.moveItem url (folder.map Subtype.val)).1 := by
  rcases moveItem_cases collection url (folder.map Subtype.val) with
    same | ⟨place, link, isLink, isUrl, isMoved⟩
  · rwa [same]
  · have holds : Block.holds url (.item link) = true := by simp [Block.holds, isUrl]
    obtain ⟨named, leaves⟩ := safe (List.any_eq_true.mpr ⟨_, List.mem_of_getElem? isLink, holds⟩)
    obtain ⟨sameFields, sameFlag⟩ := fields_addItem
      { collection with blocks := closeGap (collection.blocks.eraseIdx place) place }
        (folder.map Subtype.val) link
    rw [isMoved]
    refine ⟨settled.blocks_moveItem isLink named, ?_, ?_⟩
    · rw [sameFields]
      exact settled.fields
    · intro closed block isFirst
      have wasClosed : collection.opens = false := by
        rw [← closed, Collection.opens, Collection.opens, sameFields, sameFlag]
      by_cases empty : closeGap (collection.blocks.eraseIdx place) place = []
      · rcases head_addItem_of_nil empty _ link block isFirst with rfl | rfl
        · -- nothing else was there, so the link was the first block
          have isZero : place = 0 := by
            have head := head_closeGap collection.blocks place
            rw [empty] at head
            by_contra other
            rw [if_neg other, List.head?_nil, eq_comm, List.head?_eq_none_iff] at head
            simp [head] at isLink
          apply settled.first wasClosed
          rw [List.head?_eq_getElem?, ← isZero]
          exact isLink
        · decide
      · rw [head_addItem empty, head_closeGap] at isFirst
        split at isFirst
        · next isZero =>
            subst isZero
            apply leaves wasClosed _ block isFirst
            rw [List.head?_eq_getElem?, isLink]
            exact holds
        · exact settled.first wasClosed block isFirst

/-! ## Runs of edits -/

theorem Settled.edit {collection : Collection} (settled : Settled collection) {change : Edit}
    (safe : change.Safe collection) : Settled (edit collection change) := by
  cases change with
  | setField key value => exact settled.setField key.property value.property safe.1 safe.2
  | moveItem url folder => exact settled.moveItem safe

theorem links_edit (collection : Collection) (change : Edit) :
    (edit collection change).links.Perm collection.links := by
  cases change with
  | setField key value => rfl
  | moveItem url folder => exact links_moveItem collection url _

theorem survives_of_settled {source : List Char} {collection : Collection}
    (settled : Settled collection) (held : collection.links.Perm (parse source).links) :
    Survives source collection := by
  obtain ⟨sameLines, sameLinks⟩ := settled.parseLines_writtenLines
  refine ⟨held, ?_, ?_⟩
  · rw [settled.parse_toMarkdown, sameLinks]
  · rw [settled.parse_toMarkdown, Collection.toMarkdown_eq, sameLines, Collection.toMarkdown_eq]

/-- Through edits that are all safe where they are made, a collection keeps its links in the
file, and the file is written back as it is. -/
theorem survives_of_safe_edits (source : List Char) (changes : List Edit)
    (safe : Guarded edit (fun collection change => change.Safe collection) (parse source) changes) :
    Always edit (Survives source) (parse source) changes := by
  refine always_of_guarded (?_ : ∀ collection change, Settled collection ∧
    collection.links.Perm (parse source).links → _) ?_ ⟨settled_parse source, List.Perm.refl _⟩ safe
  · rintro collection change ⟨settled, held⟩ isSafe
    exact ⟨settled.edit isSafe, (links_edit collection change).trans held⟩
  · rintro collection ⟨settled, held⟩
    exact survives_of_settled settled held

/-- A link, a rule, and another link. -/
def ruled : List Char := "- [A](a.test)\n---\n- [B](b.test)".toList

/-- The second link moves to a new folder, and the file gets a name. -/
theorem survives_of_move_and_name :
    let changes := [Edit.moveItem "b.test".toList (some ⟨"Later".toList, by decide⟩),
      .setField ⟨"name".toList, by decide⟩ ⟨"Links".toList, by decide⟩]
    Guarded edit (fun collection change => change.Safe collection) (parse ruled) changes ∧
      Always edit (Survives ruled) (parse ruled) changes := by
  intro changes
  have safe : Guarded edit (fun collection change => change.Safe collection) (parse ruled)
      changes := by
    refine ⟨?_, ⟨by decide, ?_⟩, trivial⟩
    · intro _
      refine ⟨?_, ?_⟩
      · rintro name isName _
        cases isName
        decide
      · intro _ isFirst
        exact absurd isFirst (by decide)
    · exact (render_parseField_eq_iff _).mp (by decide)
  exact ⟨safe, survives_of_safe_edits ruled changes safe⟩

/-- With the first link the file loses both: the rule is read as a fence. -/
theorem not_survives_of_first_link :
    let moved := edit (parse ruled) (.moveItem "a.test".toList none)
    ¬ moved.links.Subperm (parse moved.toMarkdown).links := by
  intro moved kept
  exact absurd kept.length_le (by decide)

end Yggterm.Collections
