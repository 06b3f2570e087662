import Yggterm.Library.Search
import Yggterm.Library.Text

/-!
# Collection files

A collection (`yggterm-core/src/web_collection.rs`) is a Markdown file: frontmatter
fields, then folders, links, and whatever else the user wrote.  Texts are lists of
characters.
-/

namespace Yggterm.Collections

open Search Text

/-- A frontmatter entry; a line that could not be read has an empty key. -/
structure Field where
  key : List Char
  value : List Char
  deriving DecidableEq

structure Item where
  title : List Char
  url : List Char
  trailing : List Char
  raw : List Char
  dirty : Bool
  deriving DecidableEq

def Item.render (item : Item) : List Char :=
  if item.dirty = false ∧ item.raw ≠ [] then item.raw
  else
    let line := "- [".toList ++ item.title ++ "](".toList ++ item.url ++ ")".toList
    if item.trailing ≠ [] then line ++ ' ' :: item.trailing else line

inductive Block where
  | folder (depth : Nat) (name : List Char)
  | item (link : Item)
  | raw (line : List Char)
  deriving DecidableEq

structure Collection where
  fields : List Field
  blocks : List Block
  hadFrontmatter : Bool
  deriving DecidableEq

/-! ## Reading -/

def stripFront (front line : List Char) : Option (List Char) :=
  if front <+: line then some (line.drop front.length) else none

/-- Title, address, and the rest of the line. -/
def parseItem (line : List Char) : Option (List Char × List Char × List Char) := do
  let rest ← (stripFront "- ".toList line).or (stripFront "* ".toList line)
  let rest := trimStart rest
  let (beforeClose, after) ← findText "](".toList rest
  if rest.head? ≠ some '[' then none
  else
    let title := beforeClose.drop 1
    let (url, trailing) ← findText ")".toList after
    if trim url = [] then none else some (title, url, trim trailing)

/-- One line of the frontmatter. -/
def parseField (line : List Char) : Field :=
  match findText [':'] line with
  | some (key, value) =>
      if trim key ≠ [] then { key := trim key, value := trim value }
      else { key := [], value := line }
  | none => { key := [], value := line }

/-- One line of the body. -/
def parseBlock (line : List Char) : Block :=
  let trimmed := trimStart line
  match stripFront ['#', '#'] trimmed with
  | some hashes =>
      .folder (2 + (hashes.takeWhile (· = '#')).length) (trim (hashes.dropWhile (· = '#')))
  | none =>
      match parseItem trimmed with
      | some (title, url, trailing) => .item { title, url, trailing, raw := line, dirty := false }
      | none => .raw line

def fence : List Char := "---".toList

/-- The lines of the frontmatter, up to and without the closing fence, and the
lines left for the body. -/
def splitFrontmatter : List (List Char) → List (List Char) × List (List Char)
  | [] => ([], [])
  | line :: rest =>
      if trimEnd line = fence then ([], rest)
      else
        let (fieldLines, body) := splitFrontmatter rest
        (line :: fieldLines, body)

def parseLines (lines : List (List Char)) : Collection :=
  if lines.head?.map trimEnd = some fence then
    let (fieldLines, body) := splitFrontmatter lines.tail
    { fields := fieldLines.map parseField, blocks := body.map parseBlock, hadFrontmatter := true }
  else { fields := [], blocks := lines.map parseBlock, hadFrontmatter := false }

def parse (source : List Char) : Collection := parseLines (source.splitOn '\n')

/-! ## Writing -/

def Field.render (field : Field) : List Char :=
  if field.key = [] then field.value else field.key ++ ": ".toList ++ field.value

def Block.render : Block → List Char
  | .folder depth name => List.replicate depth '#' ++ ' ' :: name
  | .item link => link.render
  | .raw line => line

def Collection.toMarkdown (collection : Collection) : List Char :=
  let frontmatter :=
    if collection.hadFrontmatter || collection.fields ≠ [] then
      fence ++ ['\n'] ++ collection.fields.flatMap (fun field => field.render ++ ['\n']) ++
        fence ++ ['\n']
    else []
  frontmatter ++ ['\n'].intercalate (collection.blocks.map Block.render)

/-! ## Writing back what was read

Links and prose keep their source line; headings, frontmatter fields and fences are
written anew from what was read of them.  So a file comes back unchanged exactly
when those lines already have the spelling the writer gives them. -/

/-! ### The spelling the writer gives -/

/-- A heading is at least two hashes, one blank, and a name without blanks around it. -/
def SpelledHeading (line : List Char) : Prop :=
  ['#', '#'] <+: trimStart line →
    ∃ depth name, 2 ≤ depth ∧ line = List.replicate depth '#' ++ ' ' :: name ∧ trim name = name

/-- A field with a key has no blank around the key, one before the value, and none after it. -/
def SpelledField (line : List Char) : Prop :=
  ∀ key value, findText [':'] line = some (key, value) → trim key ≠ [] →
    trim key = key ∧ ∃ text, value = ' ' :: text ∧ trim text = text

/-- A file that opens with a fence closes the frontmatter with one, on a line that is
not the last. -/
def WellSpelled (lines : List (List Char)) : Prop :=
  if lines.head?.map trimEnd = some fence then
    ∃ fieldLines body, lines = fence :: fieldLines ++ fence :: body ∧ body ≠ [] ∧
      (∀ line ∈ fieldLines, trimEnd line ≠ fence ∧ SpelledField line) ∧
      ∀ line ∈ body, SpelledHeading line
  else ∀ line ∈ lines, SpelledHeading line

/-! ### Single lines -/

theorem render_parseField_of_none {line : List Char} (absent : findText [':'] line = none) :
    (parseField line).render = line := by
  rw [parseField, absent]
  simp [Field.render]

theorem render_parseField_of_some {line key value : List Char}
    (found : findText [':'] line = some (key, value)) :
    (parseField line).render =
      if trim key = [] then line else trim key ++ ':' :: ' ' :: trim value := by
  rw [parseField, found]
  by_cases blank : trim key = []
  · simp [blank, Field.render]
  · simp [blank, Field.render]

theorem render_parseField_eq_iff (line : List Char) :
    (parseField line).render = line ↔ SpelledField line := by
  cases found : findText [':'] line with
  | none =>
      have spelled : SpelledField line := fun key value present => by simp [found] at present
      exact iff_of_true (render_parseField_of_none found) spelled
  | some parts =>
      obtain ⟨key, value⟩ := parts
      have isLine : line = key ++ ':' :: value := findText_eq found
      have keyClean : ':' ∉ key := not_mem_of_findText_singleton found
      rw [render_parseField_of_some found]
      constructor
      · intro same otherKey otherValue otherFound named
        obtain ⟨rfl, rfl⟩ : key = otherKey ∧ value = otherValue := by
          simpa using found.symm.trans otherFound
        rw [if_neg named, isLine] at same
        have trimmedClean : ':' ∉ trim key := fun member => keyClean (mem_of_mem_trim member)
        have split := findText_singleton trimmedClean (' ' :: trim value)
        rw [same, findText_singleton keyClean] at split
        obtain ⟨sameKey, sameValue⟩ : key = trim key ∧ value = ' ' :: trim value := by
          simpa using split
        exact ⟨sameKey.symm, trim value, sameValue, trim_trim value⟩
      · intro spelled
        by_cases blank : trim key = []
        · rw [if_pos blank]
        · obtain ⟨sameKey, text, isValue, trimmed⟩ := spelled key value found blank
          rw [if_neg blank, sameKey, isLine, isValue,
            trim_cons_of_isWhitespace (by decide), trimmed]

theorem stripFront_eq_some_iff {front line rest : List Char} :
    stripFront front line = some rest ↔ line = front ++ rest := by
  constructor
  · intro stripped
    rw [stripFront] at stripped
    split at stripped
    · next here =>
        obtain ⟨after, isLine⟩ := here
        simpa [← isLine] using stripped
    · cases stripped
  · intro isLine
    simp [stripFront, isLine]

/-- A line that is no heading is kept. -/
theorem render_parseBlock_of_none {line : List Char}
    (noHeading : stripFront ['#', '#'] (trimStart line) = none) :
    (parseBlock line).render = line := by
  rw [parseBlock, noHeading]
  cases isItem : parseItem (trimStart line) with
  | none => rfl
  | some parts =>
      have nonempty : line ≠ [] := by
        intro empty
        have noItem : parseItem (trimStart []) = none := by decide
        simp [empty, noItem] at isItem
      simp [Block.render, Item.render, nonempty]

theorem parseBlock_of_heading {depth : Nat} {name : List Char} :
    parseBlock (List.replicate (2 + depth) '#' ++ ' ' :: name) =
      .folder (2 + depth) (trim name) := by
  have trimmed : trimStart (List.replicate (2 + depth) '#' ++ ' ' :: name) =
      ['#', '#'] ++ (List.replicate depth '#' ++ ' ' :: name) := by
    rw [Nat.add_comm, List.replicate_succ, List.replicate_succ]
    exact List.dropWhile_cons_of_neg (by decide)
  rw [parseBlock, trimmed, stripFront_eq_some_iff.mpr rfl]
  have hashes : ∀ char ∈ List.replicate depth '#', (decide (char = '#')) = true := by
    intro char member
    simp [List.eq_of_mem_replicate member]
  have blank : trim (' ' :: name) = trim name := trim_cons_of_isWhitespace (by decide) name
  simp [List.takeWhile_append_of_pos hashes, List.dropWhile_append_of_pos hashes, blank]

theorem render_parseBlock_eq_iff (line : List Char) :
    (parseBlock line).render = line ↔ SpelledHeading line := by
  cases stripped : stripFront ['#', '#'] (trimStart line) with
  | none =>
      have noHeading : ¬ ['#', '#'] <+: trimStart line := by
        intro here
        simp [stripFront, here] at stripped
      exact iff_of_true (render_parseBlock_of_none stripped) fun here => absurd here noHeading
  | some hashes =>
      constructor
      · intro same _
        rw [parseBlock, stripped] at same
        exact ⟨_, _, Nat.le_add_right 2 _, same.symm, trim_trim _⟩
      · intro spelled
        have isHeading := stripFront_eq_some_iff.mp stripped
        obtain ⟨depth, name, deep, rfl, trimmed⟩ := spelled ⟨hashes, isHeading.symm⟩
        obtain ⟨more, rfl⟩ := Nat.exists_eq_add_of_le deep
        rw [parseBlock_of_heading, Block.render, trimmed]

/-! ### Whole files -/

/-- An empty body still ends the file with a newline after the fence. -/
def Collection.bodyLines (collection : Collection) : List (List Char) :=
  if collection.blocks = [] then [[]] else collection.blocks.map Block.render

/-- The lines `toMarkdown` writes. -/
def Collection.writtenLines (collection : Collection) : List (List Char) :=
  if collection.hadFrontmatter || collection.fields ≠ [] then
    (fence :: collection.fields.map Field.render ++ [fence]) ++ collection.bodyLines
  else collection.bodyLines

theorem Collection.bodyLines_ne_nil (collection : Collection) : collection.bodyLines ≠ [] := by
  rw [bodyLines]
  split
  · simp
  · next nonempty => simpa using nonempty

theorem Collection.intercalate_bodyLines (collection : Collection) :
    ['\n'].intercalate (collection.blocks.map Block.render) =
      ['\n'].intercalate collection.bodyLines := by
  rw [bodyLines]
  split
  · next empty => simp [empty, List.intercalate]
  · rfl

theorem Collection.toMarkdown_eq (collection : Collection) :
    collection.toMarkdown = ['\n'].intercalate collection.writtenLines := by
  rw [toMarkdown, writtenLines, intercalate_bodyLines]
  by_cases opened : (collection.hadFrontmatter || collection.fields ≠ []) = true
  · rw [if_pos opened, if_pos opened, Text.intercalate_append collection.bodyLines_ne_nil]
    simp [List.flatMap_append, List.flatMap_map]
  · rw [if_neg opened, if_neg opened, List.nil_append]

theorem splitFrontmatter_of_closed {fieldLines : List (List Char)}
    (inside : ∀ line ∈ fieldLines, trimEnd line ≠ fence) {closer : List Char}
    (closes : trimEnd closer = fence) (body : List (List Char)) :
    splitFrontmatter (fieldLines ++ closer :: body) = (fieldLines, body) := by
  induction fieldLines with
  | nil => simp [splitFrontmatter, closes]
  | cons line rest inductionHypothesis =>
      have lineInside := inside line List.mem_cons_self
      have restInside : ∀ line ∈ rest, trimEnd line ≠ fence :=
        fun line member => inside line (List.mem_cons_of_mem _ member)
      simp [splitFrontmatter, lineInside, inductionHypothesis restInside]

theorem splitFrontmatter_of_open {lines : List (List Char)}
    (inside : ∀ line ∈ lines, trimEnd line ≠ fence) : splitFrontmatter lines = (lines, []) := by
  induction lines with
  | nil => rfl
  | cons line rest inductionHypothesis =>
      have lineInside := inside line List.mem_cons_self
      have restInside : ∀ line ∈ rest, trimEnd line ≠ fence :=
        fun line member => inside line (List.mem_cons_of_mem _ member)
      simp [splitFrontmatter, lineInside, inductionHypothesis restInside]

theorem trimEnd_fence : trimEnd fence = fence := by decide

/-- Either some line closes the frontmatter, or none does. -/
theorem closed_or_open (lines : List (List Char)) :
    (∃ fieldLines closer body, lines = fieldLines ++ closer :: body ∧ trimEnd closer = fence ∧
      ∀ line ∈ fieldLines, trimEnd line ≠ fence) ∨ ∀ line ∈ lines, trimEnd line ≠ fence := by
  induction lines with
  | nil => exact Or.inr (by simp)
  | cons line rest inductionHypothesis =>
      by_cases closes : trimEnd line = fence
      · exact Or.inl ⟨[], line, rest, rfl, closes, by simp⟩
      · rcases inductionHypothesis with ⟨fieldLines, closer, body, rfl, isCloser, inside⟩ | inside
        · refine Or.inl ⟨line :: fieldLines, closer, body, rfl, isCloser, ?_⟩
          exact List.forall_mem_cons.mpr ⟨closes, inside⟩
        · exact Or.inr (List.forall_mem_cons.mpr ⟨closes, inside⟩)

/-! ### The round trip -/

theorem not_mem_of_render_parseField {line : List Char} (clean : '\n' ∉ line) :
    '\n' ∉ (parseField line).render := by
  cases found : findText [':'] line with
  | none => rwa [render_parseField_of_none found]
  | some parts =>
      obtain ⟨key, value⟩ := parts
      have isLine : line = key ++ ':' :: value := findText_eq found
      rw [render_parseField_of_some found]
      split
      · exact clean
      · intro member
        simp only [List.mem_append, List.mem_cons] at member
        rcases member with inKey | isColon | isBlank | inValue
        · exact clean (isLine ▸ List.mem_append_left _ (mem_of_mem_trim inKey))
        · exact absurd isColon (by decide)
        · exact absurd isBlank (by decide)
        · apply clean
          rw [isLine]
          exact List.mem_append_right _ (List.mem_cons_of_mem _ (mem_of_mem_trim inValue))

theorem not_mem_of_render_parseBlock {line : List Char} (clean : '\n' ∉ line) :
    '\n' ∉ (parseBlock line).render := by
  cases stripped : stripFront ['#', '#'] (trimStart line) with
  | none => rwa [render_parseBlock_of_none stripped]
  | some hashes =>
      have inLine : ∀ char ∈ hashes, char ∈ line := by
        intro char member
        apply (List.dropWhile_sublist isWhitespace (l := line)).subset
        change char ∈ trimStart line
        rw [stripFront_eq_some_iff.mp stripped]
        exact List.mem_append_right _ member
      rw [parseBlock, stripped]
      intro member
      simp only [Block.render, List.mem_append, List.mem_cons] at member
      rcases member with isHash | isBlank | inName
      · exact absurd (List.eq_of_mem_replicate isHash) (by decide)
      · exact absurd isBlank (by decide)
      · have inHashes := (List.dropWhile_sublist _).subset (mem_of_mem_trim inName)
        exact clean (inLine _ inHashes)

theorem map_eq_self_iff {render : List Char → List Char} (lines : List (List Char)) :
    lines.map render = lines ↔ ∀ line ∈ lines, render line = line := by
  simpa using List.map_inj_left (l := lines) (f := render) (g := id)

theorem writtenLines_of_plain {lines : List (List Char)} (nonempty : lines ≠ [])
    (plain : lines.head?.map trimEnd ≠ some fence) :
    (parseLines lines).writtenLines = lines.map fun line => (parseBlock line).render := by
  rw [parseLines, if_neg plain]
  simp [Collection.writtenLines, Collection.bodyLines, nonempty]

theorem writtenLines_of_closed {opener closer : List Char} (opens : trimEnd opener = fence)
    (closes : trimEnd closer = fence) {fieldLines : List (List Char)}
    (inside : ∀ line ∈ fieldLines, trimEnd line ≠ fence) (body : List (List Char)) :
    (parseLines (opener :: fieldLines ++ closer :: body)).writtenLines =
      (fence :: fieldLines.map (fun line => (parseField line).render) ++ [fence]) ++
        if body = [] then [[]] else body.map fun line => (parseBlock line).render := by
  simp [parseLines, opens, splitFrontmatter_of_closed inside closes, Collection.writtenLines,
    Collection.bodyLines, Function.comp_def]

theorem writtenLines_of_open {opener : List Char} (opens : trimEnd opener = fence)
    {fieldLines : List (List Char)} (inside : ∀ line ∈ fieldLines, trimEnd line ≠ fence) :
    (parseLines (opener :: fieldLines)).writtenLines =
      (fence :: fieldLines.map (fun line => (parseField line).render) ++ [fence]) ++ [[]] := by
  simp [parseLines, opens, splitFrontmatter_of_open inside, Collection.writtenLines,
    Collection.bodyLines]

theorem not_mem_of_mem_writtenLines {lines : List (List Char)} (nonempty : lines ≠ [])
    (clean : ∀ line ∈ lines, '\n' ∉ line) :
    ∀ line ∈ (parseLines lines).writtenLines, '\n' ∉ line := by
  intro written member
  by_cases plain : lines.head?.map trimEnd = some fence
  · obtain ⟨opener, rest, rfl⟩ := List.exists_cons_of_ne_nil nonempty
    have opens : trimEnd opener = fence := by simpa using plain
    have fenceClean : '\n' ∉ fence := by decide
    rcases closed_or_open rest with ⟨fieldLines, closer, body, rfl, closes, inside⟩ | inside
    · rw [← List.cons_append, writtenLines_of_closed opens closes inside] at member
      simp only [List.mem_append, List.mem_cons, List.mem_map, List.not_mem_nil, or_false]
        at member
      rcases member with ((rfl | ⟨line, inFields, rfl⟩) | rfl) | inBody
      · exact fenceClean
      · exact not_mem_of_render_parseField (clean line (by simp [inFields]))
      · exact fenceClean
      · split at inBody
        · simp_all
        · obtain ⟨line, ofBody, rfl⟩ := List.mem_map.mp inBody
          exact not_mem_of_render_parseBlock (clean line (by simp [ofBody]))
    · rw [writtenLines_of_open opens inside] at member
      simp only [List.mem_append, List.mem_cons, List.mem_map, List.not_mem_nil, or_false]
        at member
      rcases member with ((rfl | ⟨line, inFields, rfl⟩) | rfl) | rfl
      · exact fenceClean
      · exact not_mem_of_render_parseField (clean line (by simp [inFields]))
      · exact fenceClean
      · exact List.not_mem_nil
  · rw [writtenLines_of_plain nonempty plain] at member
    obtain ⟨line, inLines, rfl⟩ := List.mem_map.mp member
    exact not_mem_of_render_parseBlock (clean line inLines)

theorem writtenLines_closed_eq_iff {opener closer : List Char} (opens : trimEnd opener = fence)
    (closes : trimEnd closer = fence) {fieldLines : List (List Char)}
    (inside : ∀ line ∈ fieldLines, trimEnd line ≠ fence) (body : List (List Char)) :
    (parseLines (opener :: fieldLines ++ closer :: body)).writtenLines =
        opener :: fieldLines ++ closer :: body ↔
      opener = fence ∧ closer = fence ∧ body ≠ [] ∧ (∀ line ∈ fieldLines, SpelledField line) ∧
        ∀ line ∈ body, SpelledHeading line := by
  rw [writtenLines_of_closed opens closes inside, List.append_assoc, List.singleton_append,
    List.append_eq_append_iff_of_size_eq_left (by simp), List.cons_eq_cons, List.cons_eq_cons,
    map_eq_self_iff]
  simp only [render_parseField_eq_iff]
  by_cases empty : body = []
  · simp [empty]
  · rw [if_neg empty, map_eq_self_iff]
    simp only [render_parseBlock_eq_iff]
    constructor
    · intro ⟨⟨isOpener, fieldsSpelled⟩, isCloser, headingsSpelled⟩
      exact ⟨isOpener.symm, isCloser.symm, empty, fieldsSpelled, headingsSpelled⟩
    · intro ⟨isOpener, isCloser, _, fieldsSpelled, headingsSpelled⟩
      exact ⟨⟨isOpener.symm, fieldsSpelled⟩, isCloser.symm, headingsSpelled⟩

theorem writtenLines_eq_iff {lines : List (List Char)} (nonempty : lines ≠ []) :
    (parseLines lines).writtenLines = lines ↔ WellSpelled lines := by
  by_cases plain : lines.head?.map trimEnd = some fence
  · rw [WellSpelled, if_pos plain]
    obtain ⟨opener, rest, rfl⟩ := List.exists_cons_of_ne_nil nonempty
    have opens : trimEnd opener = fence := by simpa using plain
    rcases closed_or_open rest with ⟨fieldLines, closer, body, rfl, closes, inside⟩ | inside
    · rw [← List.cons_append, writtenLines_closed_eq_iff opens closes inside]
      constructor
      · rintro ⟨rfl, rfl, bodyNonempty, fieldsSpelled, headingsSpelled⟩
        exact ⟨fieldLines, body, rfl, bodyNonempty,
          fun line member => ⟨inside line member, fieldsSpelled line member⟩, headingsSpelled⟩
      · intro ⟨otherFields, otherBody, same, bodyNonempty, spelled, headingsSpelled⟩
        rw [List.cons_append, List.cons_append, List.cons_eq_cons] at same
        obtain ⟨isOpener, sameRest⟩ := same
        -- reading both spellings of the file finds the same fields and the same body
        have split := splitFrontmatter_of_closed inside closes body
        rw [sameRest, splitFrontmatter_of_closed (fun line member => (spelled line member).1)
          trimEnd_fence otherBody] at split
        obtain ⟨rfl, rfl⟩ : otherFields = fieldLines ∧ otherBody = body := by simpa using split
        have isCloser : closer = fence := by simpa using sameRest
        exact ⟨isOpener, isCloser, bodyNonempty, fun line member => (spelled line member).2,
          headingsSpelled⟩
    · rw [writtenLines_of_open opens inside]
      constructor
      · intro same
        have sameLength := congrArg List.length same
        simp at sameLength
      · intro ⟨fieldLines, body, same, _⟩
        rw [List.cons_append, List.cons_eq_cons] at same
        exact absurd trimEnd_fence (inside fence (by simp [same.2]))
  · rw [WellSpelled, if_neg plain, writtenLines_of_plain nonempty plain, map_eq_self_iff]
    simp only [render_parseBlock_eq_iff]

/-- A file is written back byte for byte exactly when it is spelled as the writer spells. -/
theorem toMarkdown_parse_eq_iff (source : List Char) :
    (parse source).toMarkdown = source ↔ WellSpelled (source.splitOn '\n') := by
  have nonempty := List.splitOn_ne_nil '\n' source
  have clean : ∀ line ∈ source.splitOn '\n', '\n' ∉ line :=
    fun line member => not_mem_of_mem_splitOn member
  have writtenNonempty : (parse source).writtenLines ≠ [] := by
    rw [Collection.writtenLines]
    split
    · simp
    · exact Collection.bodyLines_ne_nil _
  have joined : ['\n'].intercalate (source.splitOn '\n') = source := List.intercalate_splitOn '\n'
  rw [Collection.toMarkdown_eq, ← writtenLines_eq_iff nonempty]
  conv_lhs => rhs; rw [← joined]
  exact intercalate_eq_iff writtenNonempty nonempty
    (not_mem_of_mem_writtenLines nonempty clean) clean

/-- A heading without a blank after its hashes gains one. -/
theorem toMarkdown_parse_not_identity :
    ¬ ∀ source : List Char, (parse source).toMarkdown = source := by
  intro identity
  have written : (parse "##Papers".toList).toMarkdown = "## Papers".toList := by decide
  exact absurd (written.symm.trans (identity "##Papers".toList)) (by decide)

end Yggterm.Collections
