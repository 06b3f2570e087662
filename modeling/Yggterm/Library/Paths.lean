import Mathlib.Data.Char
import Mathlib.Data.List.Lex
import Mathlib.Data.Prod.Lex
import Yggterm.Library.Text

/-!
# Unix paths

A path is a text.  What it names is the list of its components, which leave out repeated
separators and the dots that stand for the directory itself; two paths are equal, and
ordered, as their components are.
-/

namespace Paths

/-- `std::path::Component` on Unix. -/
inductive Component where
  | rootDir
  | curDir
  | parentDir
  | normal (name : List Char)
  deriving DecidableEq

/-- What stands between two separators. -/
def component? (piece : List Char) : Option Component :=
  if piece = [] ∨ piece = ['.'] then none
  else if piece = ['.', '.'] then some .parentDir
  else some (.normal piece)

/-- `Path::components`. -/
def components (path : List Char) : List Component :=
  let pieces := path.splitOn '/'
  let front :=
    if path.head? = some '/' then [.rootDir]
    else if pieces.head? = some ['.'] then [.curDir]
    else []
  front ++ pieces.filterMap component?

/-- `Path::join`. -/
def join (path other : List Char) : List Char :=
  if other.head? = some '/' then other
  else if path = [] ∨ path.getLast? = some '/' then path ++ other
  else path ++ '/' :: other

/-- `Path::file_name`. -/
def fileName (path : List Char) : Option (List Char) :=
  match (components path).getLast? with
  | some (.normal name) => some name
  | _ => none

/-- Where a component stands in the order of components. -/
def Component.rank : Component → Nat ×ₗ List Char
  | .rootDir => toLex (0, [])
  | .curDir => toLex (1, [])
  | .parentDir => toLex (2, [])
  | .normal name => toLex (3, name)

/-- What paths are ordered by. -/
def rank (path : List Char) : List (Nat ×ₗ List Char) := (components path).map Component.rank

/-- A name of one entry of a directory. -/
structure IsEntryName (name : List Char) : Prop where
  nonempty : name ≠ []
  not_dot : name ≠ ['.']
  not_dots : name ≠ ['.', '.']
  not_mem : '/' ∉ name

variable {name : List Char}

theorem IsEntryName.splitOn (isName : IsEntryName name) : name.splitOn '/' = [name] :=
  List.splitOn_eq_singleton isName.not_mem

theorem IsEntryName.component? (isName : IsEntryName name) :
    component? name = some (.normal name) := by
  simp [Paths.component?, isName.nonempty, isName.not_dot, isName.not_dots]

theorem IsEntryName.head? (isName : IsEntryName name) : name.head? ≠ some '/' :=
  fun isHead => isName.not_mem (List.mem_of_head? isHead)

theorem components_of_isEntryName (isName : IsEntryName name) :
    components name = [.normal name] := by
  simp [components, isName.splitOn, isName.head?, isName.not_dot, isName.component?]

/-- A name behind a separator adds itself to the components. -/
theorem components_append_cons (isName : IsEntryName name) {path : List Char}
    (nonempty : path ≠ []) :
    components (path ++ '/' :: name) = components path ++ [.normal name] := by
  have headPath : (path ++ '/' :: name).head? = path.head? :=
    List.head?_append_of_ne_nil path nonempty
  have headPieces : (path.splitOn '/' ++ [name]).head? = (path.splitOn '/').head? :=
    List.head?_append_of_ne_nil _ (List.splitOn_ne_nil '/' path)
  rw [components, List.splitOn_append_cons_self, isName.splitOn, headPath, headPieces,
    List.filterMap_append, ← List.append_assoc, List.filterMap_cons, isName.component?]
  rfl

theorem components_concat_separator {path : List Char} (nonempty : path ≠ []) :
    components (path ++ ['/']) = components path := by
  have headPath : (path ++ ['/']).head? = path.head? := List.head?_append_of_ne_nil path nonempty
  have headPieces : (path.splitOn '/' ++ [[]]).head? = (path.splitOn '/').head? :=
    List.head?_append_of_ne_nil _ (List.splitOn_ne_nil '/' path)
  rw [components, List.splitOn_append_cons_self, List.splitOn_nil, headPath, headPieces,
    List.filterMap_append]
  simp [components, component?]

/-- The entry of a directory lies one component below it. -/
theorem components_join (isName : IsEntryName name) (path : List Char) :
    components (join path name) = components path ++ [.normal name] := by
  rw [join, if_neg isName.head?]
  split
  · next bare =>
      rcases bare with rfl | isLast
      · rw [List.nil_append, components_of_isEntryName isName]
        rfl
      · obtain ⟨directory, rfl⟩ := List.getLast?_eq_some_iff.mp isLast
        rw [List.append_assoc, List.singleton_append]
        rcases eq_or_ne directory [] with rfl | nonempty
        · have split : ('/' :: name).splitOn '/' = [[], name] := by
            rw [List.splitOn_cons_eq_if_modifyHead, isName.splitOn]
            rfl
          have alone : ['/'].splitOn '/' = [[], []] := rfl
          have entry : [name].filterMap component? = [.normal name] := by
            rw [List.filterMap_cons, isName.component?]
            rfl
          simp [components, split, alone, entry, component?]
        · rw [components_append_cons isName nonempty, components_concat_separator nonempty]
  · next other => exact components_append_cons isName fun isNil => other (.inl isNil)

end Paths
