import Mathlib.Data.List.Perm.Basic
import Yggterm.Collections.Markdown

/-!
# Editing a collection

`set_field` changes the frontmatter, `move_item` lifts a link out of the body and puts it
down under a folder.  What should survive an edit is the links, and the file as written.
-/

namespace Yggterm.Collections

open Search Text

/-! ## The edits -/

def setFirst (key value : List Char) : List Field → List Field
  | [] => [⟨key, value⟩]
  | field :: rest =>
      if field.key = key then { field with value } :: rest else field :: setFirst key value rest

/-- `set_field`: in place, or at the end. -/
def Collection.setField (collection : Collection) (key value : List Char) : Collection :=
  { collection with fields := setFirst key value collection.fields }

def Block.isFolder : Block → Bool
  | .folder _ _ => true
  | _ => false

def Block.isFolderNamed (folder : List Char) : Block → Bool
  | .folder _ name => name = folder
  | _ => false

/-- A line of blanks, kept as it is. -/
def Block.isBlank : Block → Bool
  | .raw line => trim line = []
  | _ => false

def Block.holds (url : List Char) : Block → Bool
  | .item link => link.url = url
  | _ => false

/-- Back over the blank lines before a place, but not over the heading. -/
def stepBack (blocks : List Block) (start : Nat) : Nat → Nat
  | 0 => 0
  | before + 1 =>
      if start + 1 < before + 1 ∧ (blocks[before]?).any Block.isBlank then
        stepBack blocks start before
      else before + 1

/-- The place of an addition to the folder whose heading is at `start`. -/
def insertAt (blocks : List Block) (start : Nat) : Nat :=
  let ends := ((blocks.drop (start + 1)).findIdx? Block.isFolder).map (start + 1 + ·)
  stepBack blocks start (ends.getD blocks.length)

def Collection.addItem (collection : Collection) (folder : Option (List Char)) (link : Item) :
    Collection :=
  match folder with
  | none => { collection with blocks := collection.blocks ++ [.item link] }
  | some folder =>
      match collection.blocks.findIdx? (Block.isFolderNamed folder) with
      | some start =>
          { collection with
            blocks := collection.blocks.insertIdx (insertAt collection.blocks start) (.item link) }
      | none =>
          let gap := if (collection.blocks.getLast?).any Block.isBlank then [] else [.raw []]
          { collection with
            blocks := collection.blocks ++ gap ++ [.folder 2 folder, .raw [], .item link] }

/-- One of two blank lines that a lift left touching goes. -/
def closeGap (blocks : List Block) (place : Nat) : List Block :=
  if 0 < place ∧ place < blocks.length ∧ (blocks[place - 1]?).any Block.isBlank ∧
      (blocks[place]?).any Block.isBlank then
    blocks.eraseIdx place
  else blocks

/-- `move_item`; a link that is not there moves nothing. -/
def Collection.moveItem (collection : Collection) (url : List Char)
    (folder : Option (List Char)) : Collection × Bool :=
  match collection.blocks.findIdx? (Block.holds url) with
  | none => (collection, false)
  | some place =>
      match collection.blocks[place]? with
      | some (.item link) =>
          ({ collection with blocks := closeGap (collection.blocks.eraseIdx place) place }.addItem
            folder link, true)
      | _ => (collection, false)

/-- A text without line breaks. -/
abbrev Line := { text : List Char // '\n' ∉ text }

inductive Edit where
  | setField (key value : Line)
  | moveItem (url : List Char) (folder : Option Line)

def edit (collection : Collection) : Edit → Collection
  | .setField key value => collection.setField key.val value.val
  | .moveItem url folder => (collection.moveItem url (folder.map Subtype.val)).1

/-! ## What should survive -/

/-- Title, address and trailing text of every link. -/
def linksOf (blocks : List Block) : List (List Char × List Char × List Char) :=
  blocks.filterMap fun block =>
    match block with
    | .item link => some (link.title, link.url, link.trailing)
    | _ => none

def Collection.links (collection : Collection) : List (List Char × List Char × List Char) :=
  linksOf collection.blocks

/-- The links a collection began with are there, the file it is written to has them, and
that file is written back as it is. -/
structure Survives (source : List Char) (collection : Collection) : Prop where
  held : collection.links.Perm (parse source).links
  kept : collection.links.Subperm (parse collection.toMarkdown).links
  same : (parse collection.toMarkdown).toMarkdown = collection.toMarkdown

/-- Whether the file has a frontmatter. -/
def Collection.opens (collection : Collection) : Bool :=
  collection.hadFrontmatter || collection.fields ≠ []

/-- The condition on an edit: a field is written as a line that reads back as itself and is
no fence; a new folder's name has no blanks around it; and the first block of a file without
frontmatter does not leave a fence behind as the first line. -/
def Edit.Safe (collection : Collection) : Edit → Prop
  | .setField key value =>
      trimEnd (Field.render ⟨key, value⟩) ≠ fence ∧ SpelledField (Field.render ⟨key, value⟩)
  | .moveItem url folder =>
      collection.blocks.any (Block.holds url) = true →
        (∀ name ∈ folder, collection.blocks.any (Block.isFolderNamed name) = false →
          trim name.val = name) ∧
        (collection.opens = false → (collection.blocks.head?).any (Block.holds url) = true →
          ∀ next ∈ collection.blocks[1]?, trimEnd next.render ≠ fence)

end Yggterm.Collections
