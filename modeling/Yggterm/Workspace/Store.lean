import Mathlib.Data.Char
import Mathlib.Data.List.Lex
import Yggterm.Library.Tables
import Yggterm.Library.Text

/-!
# The workspace store

Documents and groups at virtual paths, as the workspace database keeps them
(`yggterm-core/src/workspace.rs`).  Writes run in transactions, each statement of which the
database may refuse; what is not committed is not written.
-/

namespace Yggterm.Workspace

open Tables Text

universe u

/-! ## Rows -/

inductive WorkspaceDocumentKind where
  | note
  | terminalRecipe
  deriving DecidableEq

inductive WorkspaceGroupKind where
  | folder
  | separator
  deriving DecidableEq

structure WorkspaceDocument where
  id : List Char
  virtualPath : List Char
  title : List Char
  kind : WorkspaceDocumentKind
  body : List Char
  sourceSessionPath : Option (List Char)
  sourceSessionKind : Option (List Char)
  sourceSessionCwd : Option (List Char)
  replayCommands : List (List Char)
  createdAt : List Char
  updatedAt : List Char
  deriving DecidableEq

structure WorkspaceDocumentSummary where
  id : List Char
  virtualPath : List Char
  title : List Char
  kind : WorkspaceDocumentKind
  updatedAt : List Char
  deriving DecidableEq

structure WorkspaceGroup where
  id : List Char
  virtualPath : List Char
  title : List Char
  kind : WorkspaceGroupKind
  createdAt : List Char
  updatedAt : List Char
  deriving DecidableEq

abbrev Documents := Table WorkspaceDocument (List Char) WorkspaceDocument.virtualPath

abbrev Groups := Table WorkspaceGroup (List Char) WorkspaceGroup.virtualPath

structure Store where
  documents : Documents
  groups : Groups

def noteAt (virtualPath : List Char) : WorkspaceDocument :=
  ⟨[], virtualPath, [], .note, [], none, none, none, [], [], []⟩

def folderAt (virtualPath : List Char) : WorkspaceGroup := ⟨[], virtualPath, [], .folder, [], []⟩

/-! ## Virtual paths -/

/-- The characters that a segment may not have become underscores. -/
def plainChar (char : Char) : Char :=
  if char = '\\' ∨ char = ':' ∨ char = Char.ofNat 0 then '_' else char

def plainSegment (segment : List Char) : Option (List Char) :=
  let trimmed := trim segment
  if trimmed = [] ∨ trimmed = ['.'] ∨ trimmed = ['.', '.'] then none
  else some (trimmed.map plainChar)

/-- A slash before each segment; without segments, the path of an untitled document. -/
def joinSegments (segments : List (List Char)) : List Char :=
  if segments = [] then "/documents/untitled".toList else '/' :: ['/'].intercalate segments

def normalizeVirtualDocumentPath (input : List Char) : List Char :=
  joinSegments ((input.splitOn '/').filterMap plainSegment)

def normalizeVirtualGroupPath (input : List Char) : List Char :=
  normalizeVirtualDocumentPath input

def isSameOrDescendantPath (candidate parent : List Char) : Bool :=
  candidate = parent || parent <+: candidate && (candidate.drop parent.length).head? = some '/'

def rewriteVirtualPrefix (path source target : List Char) : List Char :=
  if path = source then target
  else if source ++ ['/'] <+: path then
    target.rdropWhile (· = '/') ++ '/' :: path.drop (source.length + 1)
  else path

/-! ## Reading -/

def getDocument (store : Store) (virtualPath : List Char) : Option WorkspaceDocument :=
  store.documents.find? (normalizeVirtualDocumentPath virtualPath)

def getGroup (store : Store) (virtualPath : List Char) : Option WorkspaceGroup :=
  store.groups.find? (normalizeVirtualGroupPath virtualPath)

/-- `list_documents`, as far as their paths are read. -/
def listDocuments (store : Store) : List WorkspaceDocument :=
  store.documents.rows.mergeSort fun first second => first.virtualPath ≤ second.virtualPath

def listGroups (store : Store) : List WorkspaceGroup :=
  store.groups.rows.mergeSort fun first second => first.virtualPath ≤ second.virtualPath

/-! ## Writing -/

inductive Error where
  | bail (message : List Char)
  | sqlite
  deriving DecidableEq

/-- Which statements of a transaction the database refuses. -/
structure Refusals where
  begins : Bool
  executes : Nat → Bool
  commits : Bool

/-- Every statement is accepted. -/
def Refusals.none : Refusals := ⟨false, fun _ => false, false⟩

/-- `BEGIN IMMEDIATE`, the statements, and `COMMIT`; or `ROLLBACK` when one failed. -/
def transaction {Value : Type u} (refusals : Refusals)
    (body : Store → Except Error (Value × Store)) (store : Store) :
    Except Error Value × Store :=
  if refusals.begins then (.error .sqlite, store)
  else
    match body store with
    | .error error => (.error error, store)
    | .ok (value, after) =>
        if refusals.commits then (.error .sqlite, store) else (.ok value, after)

/-- A statement, which fails when it is refused or breaks the unique column. -/
def execute (refused : Bool) (written : Option Store) : Except Error Store :=
  if refused then .error .sqlite
  else
    match written with
    | none => .error .sqlite
    | some after => .ok after

theorem transaction_of_error {Value : Type u} {refusals : Refusals}
    {body : Store → Except Error (Value × Store)} {store after : Store} {error : Error}
    (failed : transaction refusals body store = (.error error, after)) : after = store := by
  rw [transaction] at failed
  split at failed
  · exact (congrArg Prod.snd failed).symm
  · split at failed
    · exact (congrArg Prod.snd failed).symm
    · split at failed
      · exact (congrArg Prod.snd failed).symm
      · cases failed

theorem transaction_of_ok {Value : Type u} {refusals : Refusals}
    {body : Store → Except Error (Value × Store)} {store after : Store} {value : Value}
    (committed : transaction refusals body store = (.ok value, after)) :
    body store = .ok (value, after) := by
  rw [transaction] at committed
  split at committed
  · cases committed
  · split at committed
    · cases committed
    · next isBody =>
        split at committed
        · cases committed
        · rw [isBody]
          cases committed
          rfl

theorem eq_of_execute {refused : Bool} {written : Option Store} {after : Store}
    (done : execute refused written = .ok after) : written = some after := by
  unfold execute at done
  split at done
  · cases done
  · split at done
    · cases done
    · cases done
      rfl

/-! ## Normal paths -/

/-- What normalising leaves of a segment, and leaves as it is. -/
structure IsSegment (segment : List Char) : Prop where
  isPlain : plainSegment segment = some segment
  not_mem : '/' ∉ segment

theorem IsSegment.ne_nil {segment : List Char} (isSegment : IsSegment segment) : segment ≠ [] := by
  rintro rfl
  have isPlain := isSegment.isPlain
  simp [plainSegment, trim] at isPlain

theorem plainChar_eq {char other : Char} (isOther : plainChar char = other)
    (different : other ≠ '_') : char = other := by
  rw [plainChar] at isOther
  split at isOther
  · exact absurd isOther.symm different
  · exact isOther

theorem plainChar_plainChar (char : Char) : plainChar (plainChar char) = plainChar char := by
  by_cases kept : plainChar char = '_'
  · rw [kept]
    rfl
  · exact (congrArg plainChar (plainChar_eq rfl kept)).symm

theorem isWhitespace_plainChar (char : Char) :
    isWhitespace (plainChar char) = isWhitespace char := by
  rw [plainChar]
  split
  · next isSpecial =>
      rcases isSpecial with rfl | rfl | rfl
      · rfl
      · rfl
      · rfl
  · rfl

theorem trim_map_plainChar (text : List Char) :
    trim (text.map plainChar) = (trim text).map plainChar := by
  have blank : isWhitespace ∘ plainChar = isWhitespace := funext isWhitespace_plainChar
  rw [trim, trim, List.dropWhile_map, blank, ← List.map_reverse, List.dropWhile_map, blank,
    List.map_reverse]

/-- A text without underscores comes from itself only. -/
theorem eq_of_map_plainChar {text plain : List Char} (isPlain : text.map plainChar = plain)
    (kept : '_' ∉ plain) : text = plain := by
  subst isPlain
  have same : text.map id = text.map plainChar := by
    apply List.map_congr_left
    intro char member
    apply plainChar_eq rfl
    intro isUnderscore
    exact kept (isUnderscore ▸ List.mem_map_of_mem member)
  rw [← same, List.map_id]

theorem isSegment_of_plainSegment {raw segment : List Char} (clean : '/' ∉ raw)
    (isPlain : plainSegment raw = some segment) : IsSegment segment := by
  rw [plainSegment] at isPlain
  split at isPlain
  · cases isPlain
  · next proper =>
      obtain rfl := Option.some.inj isPlain
      obtain ⟨notEmpty, notDot, notDots⟩ := not_or.mp proper |>.imp_right not_or.mp
      constructor
      · have again : plainChar ∘ plainChar = plainChar := funext plainChar_plainChar
        rw [plainSegment, trim_map_plainChar, trim_trim, List.map_map, again, if_neg]
        rintro (isEmpty | isDot | isDots)
        · exact notEmpty (List.map_eq_nil_iff.mp isEmpty)
        · exact notDot (eq_of_map_plainChar isDot (by decide))
        · exact notDots (eq_of_map_plainChar isDots (by decide))
      · intro slash
        obtain ⟨char, member, isSlash⟩ := List.mem_map.mp slash
        obtain rfl := plainChar_eq isSlash (by decide)
        exact clean (mem_of_mem_trim member)

/-- The normal form of a path is made of segments. -/
theorem exists_segments_of_normalize (input : List Char) : ∃ segments, segments ≠ [] ∧
    (∀ segment ∈ segments, IsSegment segment) ∧
    normalizeVirtualDocumentPath input = '/' :: ['/'].intercalate segments := by
  rw [normalizeVirtualDocumentPath, joinSegments]
  split
  · refine ⟨["documents".toList, "untitled".toList], List.cons_ne_nil _ _, ?_, by decide⟩
    intro segment member
    rcases List.mem_pair.mp member with rfl | rfl
    · exact ⟨by decide, by decide⟩
    · exact ⟨by decide, by decide⟩
  · next nonempty =>
      refine ⟨_, nonempty, ?_, rfl⟩
      intro segment member
      obtain ⟨raw, isRaw, isPlain⟩ := List.mem_filterMap.mp member
      exact isSegment_of_plainSegment (not_mem_of_mem_splitOn isRaw) isPlain

theorem normalize_of_segments {segments : List (List Char)} (nonempty : segments ≠ [])
    (areSegments : ∀ segment ∈ segments, IsSegment segment) :
    normalizeVirtualDocumentPath ('/' :: ['/'].intercalate segments) =
      '/' :: ['/'].intercalate segments := by
  have split : ('/' :: ['/'].intercalate segments).splitOn '/' = [] :: segments := by
    rw [List.splitOn_cons_eq_if_modifyHead, if_pos (by simp), List.splitOn_intercalate '/'
      (fun segment member => (areSegments segment member).not_mem) nonempty]
  have kept : segments.filterMap plainSegment = segments := by
    rw [List.filterMap_congr (g := some) fun segment member => (areSegments segment member).isPlain,
      List.filterMap_some]
  have blank : plainSegment [] = none := rfl
  rw [normalizeVirtualDocumentPath, split, List.filterMap_cons_none blank, kept, joinSegments,
    if_neg nonempty]

theorem last_of_segments {segments : List (List Char)} (nonempty : segments ≠ [])
    (areSegments : ∀ segment ∈ segments, IsSegment segment) :
    ∃ front char, ['/'].intercalate segments = front ++ [char] ∧ char ≠ '/' := by
  induction segments with
  | nil => exact absurd rfl nonempty
  | cons segment rest inductionHypothesis =>
      obtain ⟨isSegment, restSegments⟩ := List.forall_mem_cons.mp areSegments
      cases rest with
      | nil =>
          obtain ⟨front, char, rfl⟩ := (List.eq_nil_or_concat segment).resolve_left isSegment.ne_nil
          refine ⟨front, char, by simp, ?_⟩
          rintro rfl
          exact isSegment.not_mem (by simp)
      | cons next later =>
          obtain ⟨front, char, isRest, other⟩ :=
            inductionHypothesis (List.cons_ne_nil _ _) restSegments
          refine ⟨segment ++ '/' :: front, char, ?_, other⟩
          rw [List.intercalate_cons_cons, isRest]
          simp

theorem normalize_ne_nil (input : List Char) : normalizeVirtualDocumentPath input ≠ [] := by
  obtain ⟨_, _, _, isNormal⟩ := exists_segments_of_normalize input
  rw [isNormal]
  exact List.cons_ne_nil _ _

/-- No normal path ends in a slash. -/
theorem rdropWhile_normalize (input : List Char) :
    (normalizeVirtualDocumentPath input).rdropWhile (· = '/') =
      normalizeVirtualDocumentPath input := by
  obtain ⟨segments, nonempty, areSegments, isNormal⟩ := exists_segments_of_normalize input
  obtain ⟨front, char, isJoined, other⟩ := last_of_segments nonempty areSegments
  rw [isNormal, isJoined, ← List.cons_append]
  exact List.rdropWhile_concat_neg _ _ _ (by simpa using other)

theorem normalize_normalize (input : List Char) :
    normalizeVirtualDocumentPath (normalizeVirtualDocumentPath input) =
      normalizeVirtualDocumentPath input := by
  obtain ⟨segments, nonempty, areSegments, isNormal⟩ := exists_segments_of_normalize input
  rw [isNormal, normalize_of_segments nonempty areSegments]

end Yggterm.Workspace
