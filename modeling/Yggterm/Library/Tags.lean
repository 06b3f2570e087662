import Mathlib.Data.List.Infix

/-!
# Texts that begin with a tag

A table gives each of its entries a tag, and a text is read by the first entry whose tag it begins
with.  Where no tag begins another, this is the entry that the text was written with.
-/

namespace Tags

universe u v

variable {Entry : Type u} {Symbol : Type v} [DecidableEq Symbol]

/-- The first entry whose tag the text begins with, and what follows the tag. -/
def readTag (tag : Entry → List Symbol) (table : List Entry) (text : List Symbol) :
    Option (Entry × List Symbol) :=
  table.findSome? fun entry =>
    if tag entry <+: text then some (entry, text.drop (tag entry).length) else none

/-- No tag begins another. -/
def PrefixFree (tag : Entry → List Symbol) (table : List Entry) : Prop :=
  ∀ first ∈ table, ∀ second ∈ table, tag first <+: tag second → first = second

variable {tag : Entry → List Symbol} {table : List Entry}

omit [DecidableEq Symbol] in
theorem PrefixFree.sublist {part : List Entry} (free : PrefixFree tag table)
    (isPart : part.Sublist table) : PrefixFree tag part :=
  fun first isFirst second isSecond =>
    free first (isPart.subset isFirst) second (isPart.subset isSecond)

omit [DecidableEq Symbol] in
/-- What begins with the tags of two entries begins with one tag. -/
theorem PrefixFree.eq_of_prefix (free : PrefixFree tag table) {first second : Entry}
    (isFirst : first ∈ table) (isSecond : second ∈ table) {text : List Symbol}
    (beginsFirst : tag first <+: text) (beginsSecond : tag second <+: text) : first = second := by
  rcases List.prefix_or_prefix_of_prefix beginsFirst beginsSecond with within | within
  · exact free first isFirst second isSecond within
  · exact (free second isSecond first isFirst within).symm

theorem readTag_append (free : PrefixFree tag table) {entry : Entry} (member : entry ∈ table)
    (rest : List Symbol) : readTag tag table (tag entry ++ rest) = some (entry, rest) := by
  have begins := List.prefix_append (tag entry) rest
  have isRead : ∀ part : List Entry, part.Sublist table → entry ∈ part →
      readTag tag part (tag entry ++ rest) = some (entry, rest) := by
    intro part isPart inPart
    induction part with
    | nil => cases inPart
    | cons first others inductionHypothesis =>
        rw [readTag, List.findSome?_cons]
        by_cases here : tag first <+: tag entry ++ rest
        · obtain rfl := free.eq_of_prefix (isPart.subset List.mem_cons_self) member here begins
          rw [if_pos here, List.drop_left]
        · rw [if_neg here]
          apply inductionHypothesis ((List.sublist_cons_self first others).trans isPart)
          refine (List.mem_cons.mp inPart).resolve_left ?_
          rintro rfl
          exact here begins
  exact isRead table (.refl table) member

end Tags
