import Yggterm.Library.Patterns
import Yggterm.Workspace.Store

/-!
# Paths of earlier versions

The rewriting of paths of earlier versions, and of paths in which order numbers piled up
(`yggterm-core/src/workspace.rs`).
-/

namespace Yggterm.Workspace

open Patterns Text

/-! ## Order numbers -/

/-- Four digits and a dash, and something behind them. -/
def isOrdered (rest : List Char) : Bool :=
  5 < rest.length && rest[4]? = some '-' && (rest.take 4).all Char.isDigit

theorem length_of_isOrdered {rest : List Char} (ordered : isOrdered rest = true) :
    5 < rest.length := by
  simp only [isOrdered, Bool.and_eq_true, decide_eq_true_eq] at ordered
  exact ordered.1.1

def stripOrders (rest : List Char) : List Char :=
  if isOrdered rest then stripOrders (rest.drop 5) else rest
termination_by rest.length
decreasing_by
  rename_i ordered
  have longer := length_of_isOrdered ordered
  simp only [List.length_drop]
  omega

/-- The first order number is kept, and those behind it go. -/
def keepFirstOrder (rest : List Char) : List Char :=
  if isOrdered rest then rest.take 5 ++ stripOrders rest else rest

def simplifyWorkspaceOrderPart (part : List Char) : List Char :=
  match part with
  | '!' :: rest => '!' :: keepFirstOrder rest
  | rest => keepFirstOrder rest

def simplifySegment (segment : List Char) : List Char :=
  ['~'].intercalate ((segment.splitOn '~').map simplifyWorkspaceOrderPart)

def simplifyWorkspaceOrderPath (path : List Char) : List Char :=
  joinSegments (((path.splitOn '/').filter (· ≠ [])).map simplifySegment)

/-! ## Paths of earlier versions -/

def stripLocal (path : List Char) : List Char :=
  if "/local".toList <+: path then
    let rest := path.drop "/local".toList.length
    if rest = [] then ['/'] else rest
  else path

def doubledNotes : List Char := "/notes/notes/".toList

theorem length_undouble_le {text : List Char} (doubled : doubledNotes <:+: text) :
    (replaceAll doubledNotes "/notes/".toList text).length + 6 ≤ text.length :=
  length_replaceAll_le (by decide) (by decide) doubled

/-- Notes in notes are notes, until there are none. -/
def undoubleNotes (text : List Char) : List Char :=
  if doubledNotes <:+: text then
    undoubleNotes (replaceAll doubledNotes "/notes/".toList text)
  else text
termination_by text.length
decreasing_by
  rename_i doubled
  have shorter := length_undouble_le doubled
  omega

def rewriteLegacyWorkspacePath (path : List Char) : List Char := undoubleNotes (stripLocal path)

/-! ## Order numbers, once and again -/

theorem stripOrders_of_isOrdered {rest : List Char} (ordered : isOrdered rest = true) :
    stripOrders rest = stripOrders (rest.drop 5) := by
  rw [stripOrders, if_pos ordered]

theorem stripOrders_of_not_isOrdered {rest : List Char} (plain : isOrdered rest = false) :
    stripOrders rest = rest := by
  rw [stripOrders, if_neg (by simp [plain])]

/-- What is left has no order number, and is something unless there was nothing. -/
theorem stripOrders_spec (rest : List Char) : stripOrders rest <:+ rest ∧
    isOrdered (stripOrders rest) = false ∧ (stripOrders rest = [] → rest = []) := by
  fun_induction stripOrders rest with
  | case1 rest ordered inductionHypothesis =>
      obtain ⟨isSuffix, plain, empty⟩ := inductionHypothesis
      refine ⟨isSuffix.trans (List.drop_suffix 5 rest), plain, ?_⟩
      intro isEmpty
      have longer := length_of_isOrdered ordered
      have short := List.drop_eq_nil_iff.mp (empty isEmpty)
      omega
  | case2 rest plain => exact ⟨List.suffix_rfl, by simpa using plain, id⟩

theorem isOrdered_iff {rest : List Char} : isOrdered rest = true ↔
    ∃ number more, rest = number ++ '-' :: more ∧ number.length = 4 ∧
      number.all Char.isDigit = true ∧ more ≠ [] := by
  simp only [isOrdered, Bool.and_eq_true, decide_eq_true_eq, and_assoc]
  constructor
  · rintro ⟨longer, dash, digits⟩
    refine ⟨rest.take 4, rest.drop 5, ?_, by simp; omega, digits, ?_⟩
    · obtain ⟨bound, isDash⟩ := List.getElem?_eq_some_iff.mp dash
      rw [← isDash, ← List.drop_eq_getElem_cons bound, List.take_append_drop]
    · rw [Ne, List.drop_eq_nil_iff]
      omega
  · rintro ⟨number, more, rfl, length, digits, nonempty⟩
    have positive := List.length_pos_iff.mpr nonempty
    refine ⟨?_, ?_, ?_⟩
    · simp only [List.length_append, List.length_cons]
      omega
    · rw [List.getElem?_append_right (by omega), length]
      rfl
    · rwa [← length, List.take_left]

theorem keepFirstOrder_of_number {number more : List Char} (length : number.length = 4)
    (digits : number.all Char.isDigit = true) (nonempty : more ≠ []) :
    keepFirstOrder (number ++ '-' :: more) = number ++ '-' :: stripOrders more := by
  have ordered : isOrdered (number ++ '-' :: more) = true :=
    isOrdered_iff.mpr ⟨number, more, rfl, length, digits, nonempty⟩
  have isSplit : number ++ '-' :: more = (number ++ ['-']) ++ more := by simp
  have front : (number ++ ['-']).length = 5 := by simp [length]
  rw [keepFirstOrder, if_pos ordered, stripOrders_of_isOrdered ordered, isSplit, ← front,
    List.take_left, List.drop_left]
  simp

theorem keepFirstOrder_of_plain {rest : List Char} (plain : isOrdered rest = false) :
    keepFirstOrder rest = rest := by
  rw [keepFirstOrder, if_neg (by simp [plain])]

theorem keepFirstOrder_keepFirstOrder (rest : List Char) :
    keepFirstOrder (keepFirstOrder rest) = keepFirstOrder rest := by
  cases ordered : isOrdered rest with
  | false => rw [keepFirstOrder_of_plain ordered, keepFirstOrder_of_plain ordered]
  | true =>
      obtain ⟨number, more, rfl, length, digits, nonempty⟩ := isOrdered_iff.mp ordered
      obtain ⟨_, plain, empty⟩ := stripOrders_spec more
      rw [keepFirstOrder_of_number length digits nonempty,
        keepFirstOrder_of_number length digits (mt empty nonempty),
        stripOrders_of_not_isOrdered plain]

/-- Nothing is added, and the first character is kept. -/
theorem keepFirstOrder_spec (rest : List Char) :
    (keepFirstOrder rest).Sublist rest ∧ (keepFirstOrder rest).head? = rest.head? := by
  cases ordered : isOrdered rest with
  | false =>
      rw [keepFirstOrder_of_plain ordered]
      exact ⟨.refl _, rfl⟩
  | true =>
      obtain ⟨number, more, rfl, length, digits, nonempty⟩ := isOrdered_iff.mp ordered
      obtain ⟨isSuffix, _, _⟩ := stripOrders_spec more
      rw [keepFirstOrder_of_number length digits nonempty]
      refine ⟨(isSuffix.sublist.cons_cons '-').append_left number, ?_⟩
      obtain ⟨first, others, rfl⟩ := List.exists_cons_of_length_eq_add_one length
      rfl

theorem simplifyPart_of_head {part : List Char} (plain : part.head? ≠ some '!') :
    simplifyWorkspaceOrderPart part = keepFirstOrder part := by
  unfold simplifyWorkspaceOrderPart
  split
  · exact absurd rfl plain
  · rfl

theorem simplifyPart_simplifyPart (part : List Char) :
    simplifyWorkspaceOrderPart (simplifyWorkspaceOrderPart part) =
      simplifyWorkspaceOrderPart part := by
  by_cases bang : part.head? = some '!'
  · obtain ⟨rest, rfl⟩ : ∃ rest, part = '!' :: rest := List.head?_eq_some_iff.mp bang
    exact congrArg (List.cons '!') (keepFirstOrder_keepFirstOrder rest)
  · rw [simplifyPart_of_head bang, simplifyPart_of_head, keepFirstOrder_keepFirstOrder]
    rwa [(keepFirstOrder_spec part).2]

theorem simplifyPart_sublist (part : List Char) :
    (simplifyWorkspaceOrderPart part).Sublist part := by
  by_cases bang : part.head? = some '!'
  · obtain ⟨rest, rfl⟩ : ∃ rest, part = '!' :: rest := List.head?_eq_some_iff.mp bang
    exact (keepFirstOrder_spec rest).1.cons_cons '!'
  · rw [simplifyPart_of_head bang]
    exact (keepFirstOrder_spec part).1

theorem eq_nil_of_simplifyPart {part : List Char} (isNil : simplifyWorkspaceOrderPart part = []) :
    part = [] := by
  by_cases bang : part.head? = some '!'
  · obtain ⟨rest, rfl⟩ : ∃ rest, part = '!' :: rest := List.head?_eq_some_iff.mp bang
    cases isNil
  · rw [simplifyPart_of_head bang] at isNil
    have head := (keepFirstOrder_spec part).2
    rw [isNil] at head
    exact List.head?_eq_none_iff.mp head.symm

/-! ## Segments -/

theorem splitOn_simplifySegment (segment : List Char) : (simplifySegment segment).splitOn '~' =
    (segment.splitOn '~').map simplifyWorkspaceOrderPart := by
  apply List.splitOn_intercalate
  · intro part member
    obtain ⟨raw, isRaw, rfl⟩ := List.mem_map.mp member
    exact fun inside => not_mem_of_mem_splitOn isRaw ((simplifyPart_sublist raw).subset inside)
  · simp

theorem simplifySegment_simplifySegment (segment : List Char) :
    simplifySegment (simplifySegment segment) = simplifySegment segment := by
  have again : simplifyWorkspaceOrderPart ∘ simplifyWorkspaceOrderPart =
      simplifyWorkspaceOrderPart := funext simplifyPart_simplifyPart
  rw [simplifySegment, splitOn_simplifySegment, List.map_map, again, simplifySegment]

theorem simplifySegment_sublist (segment : List Char) :
    (simplifySegment segment).Sublist segment := by
  have shorter := intercalate_map_sublist '~' simplifyPart_sublist (segment.splitOn '~')
  rwa [List.intercalate_splitOn] at shorter

theorem simplifySegment_ne_nil {segment : List Char} (nonempty : segment ≠ []) :
    simplifySegment segment ≠ [] := by
  intro isNil
  have parts := splitOn_simplifySegment segment
  rw [isNil, List.splitOn_nil] at parts
  obtain ⟨part, isParts, isEmpty⟩ := List.map_eq_singleton_iff.mp parts.symm
  have whole : ['~'].intercalate (segment.splitOn '~') = segment := List.intercalate_splitOn '~'
  rw [isParts, List.intercalate_singleton, eq_nil_of_simplifyPart isEmpty] at whole
  exact nonempty whole.symm

/-! ## Whole paths -/

def untitled : List Char := "/documents/untitled".toList

theorem joinSegments_eq {segments : List (List Char)} (nonempty : segments ≠ []) :
    joinSegments segments = segments.flatMap ('/' :: ·) := by
  rw [joinSegments, if_neg nonempty, cons_intercalate nonempty]

/-- The segments of a path without the empty ones. -/
def segmentsOf (path : List Char) : List (List Char) := (path.splitOn '/').filter (· ≠ [])

theorem simplifyWorkspaceOrderPath_eq (path : List Char) :
    simplifyWorkspaceOrderPath path = joinSegments ((segmentsOf path).map simplifySegment) :=
  rfl

/-- A path is made of its segments. -/
theorem segmentsOf_joinSegments {segments : List (List Char)} (nonempty : segments ≠ [])
    (proper : ∀ segment ∈ segments, segment ≠ [] ∧ '/' ∉ segment) :
    segmentsOf (joinSegments segments) = segments := by
  have split : ('/' :: ['/'].intercalate segments).splitOn '/' = [] :: segments := by
    rw [List.splitOn_cons_eq_if_modifyHead, if_pos (by simp), List.splitOn_intercalate '/'
      (fun segment member => (proper segment member).2) nonempty]
  rw [segmentsOf, joinSegments, if_neg nonempty, split, List.filter_cons_of_neg (by simp)]
  apply List.filter_eq_self.mpr
  exact fun segment member => decide_eq_true (proper segment member).1

theorem proper_of_mem_segmentsOf {path segment : List Char} (member : segment ∈ segmentsOf path) :
    segment ≠ [] ∧ '/' ∉ segment := by
  obtain ⟨isSegment, nonempty⟩ := List.mem_filter.mp member
  exact ⟨of_decide_eq_true nonempty, not_mem_of_mem_splitOn isSegment⟩

theorem proper_simplifySegment {segment : List Char} (proper : segment ≠ [] ∧ '/' ∉ segment) :
    simplifySegment segment ≠ [] ∧ '/' ∉ simplifySegment segment :=
  ⟨simplifySegment_ne_nil proper.1, fun slash =>
    proper.2 ((simplifySegment_sublist _).subset slash)⟩

theorem simplify_simplify (path : List Char) :
    simplifyWorkspaceOrderPath (simplifyWorkspaceOrderPath path) =
      simplifyWorkspaceOrderPath path := by
  by_cases isEmpty : segmentsOf path = []
  · rw [simplifyWorkspaceOrderPath_eq path, isEmpty]
    decide
  · have again : simplifySegment ∘ simplifySegment = simplifySegment :=
      funext simplifySegment_simplifySegment
    have isSegments : segmentsOf (simplifyWorkspaceOrderPath path) =
        (segmentsOf path).map simplifySegment := by
      rw [simplifyWorkspaceOrderPath_eq path]
      apply segmentsOf_joinSegments (by simpa using isEmpty)
      intro segment member
      obtain ⟨raw, isRaw, rfl⟩ := List.mem_map.mp member
      exact proper_simplifySegment (proper_of_mem_segmentsOf isRaw)
    rw [simplifyWorkspaceOrderPath_eq (simplifyWorkspaceOrderPath path), isSegments, List.map_map,
      again, simplifyWorkspaceOrderPath_eq]

/-! ## Lengths -/

/-- The length of the path of some segments. -/
def pathLength (segments : List (List Char)) : Nat :=
  (segments.flatMap ('/' :: ·)).length

theorem pathLength_cons (segment : List Char) (rest : List (List Char)) :
    pathLength (segment :: rest) = segment.length + 1 + pathLength rest := by
  simp [pathLength]
  omega

theorem pathLength_splitOn (text : List Char) :
    pathLength (text.splitOn '/') = text.length + 1 := by
  rw [pathLength, ← cons_intercalate (List.splitOn_ne_nil _ _), List.intercalate_splitOn]
  rfl

theorem pathLength_filterMap_le {choose : List Char → Option (List Char)}
    (shorter : ∀ segment chosen, choose segment = some chosen → chosen.length ≤ segment.length)
    (segments : List (List Char)) :
    pathLength (segments.filterMap choose) ≤ pathLength segments := by
  induction segments with
  | nil => exact le_rfl
  | cons segment rest inductionHypothesis =>
      rw [pathLength_cons]
      cases chosen : choose segment with
      | none =>
          rw [List.filterMap_cons_none chosen]
          omega
      | some other =>
          have isShorter := shorter segment other chosen
          rw [List.filterMap_cons_some chosen, pathLength_cons]
          omega

theorem length_joinSegments (segments : List (List Char)) :
    joinSegments segments = untitled ∨ (joinSegments segments).length = pathLength segments := by
  by_cases isEmpty : segments = []
  · rw [isEmpty]
    exact .inl rfl
  · rw [joinSegments_eq isEmpty]
    exact .inr rfl

theorem length_normalize_le (path : List Char) : normalizeVirtualDocumentPath path = untitled ∨
    (normalizeVirtualDocumentPath path).length ≤ path.length + 1 := by
  rw [normalizeVirtualDocumentPath]
  apply (length_joinSegments _).imp_right
  intro isLength
  rw [isLength, ← pathLength_splitOn]
  apply pathLength_filterMap_le
  intro segment chosen isChosen
  rw [plainSegment] at isChosen
  split at isChosen
  · cases isChosen
  · obtain rfl := Option.some.inj isChosen
    rw [List.length_map]
    exact (trim_sublist segment).length_le

theorem length_simplify_le (path : List Char) : simplifyWorkspaceOrderPath path = untitled ∨
    (simplifyWorkspaceOrderPath path).length ≤ path.length + 1 := by
  rw [simplifyWorkspaceOrderPath_eq]
  apply (length_joinSegments _).imp_right
  intro isLength
  have isFiltered : (segmentsOf path).map simplifySegment = (path.splitOn '/').filterMap
      (Option.map simplifySegment ∘ Option.guard (· ≠ [])) := by
    rw [segmentsOf, ← List.filterMap_eq_filter, List.map_filterMap]
    rfl
  rw [isLength, isFiltered, ← pathLength_splitOn]
  apply pathLength_filterMap_le
  intro segment chosen isChosen
  obtain ⟨same, isGuard, rfl⟩ := Option.map_eq_some_iff.mp isChosen
  rw [(Option.guard_eq_some_iff.mp isGuard).1]
  exact (simplifySegment_sublist _).length_le

/-! ## Which paths are rewritten -/

def IsLegacy (path : List Char) : Prop := "/local".toList <+: path ∨ doubledNotes <:+: path

instance (path : List Char) : Decidable (IsLegacy path) := inferInstanceAs (Decidable (_ ∨ _))

/-- Where a path of an earlier version goes. -/
def legacyTarget (path : List Char) : List Char :=
  normalizeVirtualDocumentPath (rewriteLegacyWorkspacePath path)

theorem undoubleNotes_of_clean {text : List Char} (clean : ¬ doubledNotes <:+: text) :
    undoubleNotes text = text := by
  rw [undoubleNotes, if_neg clean]

theorem length_undoubleNotes_le (text : List Char) : (undoubleNotes text).length ≤ text.length := by
  fun_induction undoubleNotes text with
  | case1 text doubled inductionHypothesis =>
      have shorter := length_undouble_le doubled
      omega
  | case2 => exact le_rfl

theorem length_undoubleNotes_of_doubled {text : List Char} (doubled : doubledNotes <:+: text) :
    (undoubleNotes text).length + 6 ≤ text.length := by
  have shorter := length_undouble_le doubled
  have later := length_undoubleNotes_le (replaceAll doubledNotes "/notes/".toList text)
  rw [undoubleNotes, if_pos doubled]
  omega

theorem rewrite_of_not_legacy {path : List Char} (current : ¬ IsLegacy path) :
    rewriteLegacyWorkspacePath path = path := by
  obtain ⟨notLocal, clean⟩ := not_or.mp current
  rw [rewriteLegacyWorkspacePath, stripLocal, if_neg notLocal, undoubleNotes_of_clean clean]

/-- A path of an earlier version gets shorter, or becomes the path of an untitled document. -/
theorem length_rewrite {path : List Char} (legacy : IsLegacy path) :
    rewriteLegacyWorkspacePath path = ['/'] ∨
      (rewriteLegacyWorkspacePath path).length + 6 ≤ path.length := by
  rw [rewriteLegacyWorkspacePath, stripLocal]
  split
  · next isLocal =>
      obtain ⟨rest, rfl⟩ := isLocal
      rw [List.drop_left]
      dsimp only
      split
      · exact .inl (undoubleNotes_of_clean (by decide))
      · have shorter := length_undoubleNotes_le rest
        have six : "/local".toList.length = 6 := rfl
        rw [List.length_append]
        omega
  · next notLocal => exact .inr (length_undoubleNotes_of_doubled (legacy.resolve_left notLocal))

theorem rewrite_eq_self_iff {path : List Char} :
    rewriteLegacyWorkspacePath path = path ↔ ¬ IsLegacy path := by
  refine ⟨?_, rewrite_of_not_legacy⟩
  intro same legacy
  rcases length_rewrite legacy with isRoot | shorter
  · rw [← same, isRoot] at legacy
    exact absurd legacy (by decide)
  · rw [same] at shorter
    omega

theorem not_legacy_untitled : ¬ IsLegacy untitled := by decide

theorem length_legacyTarget {path : List Char} (legacy : IsLegacy path) :
    legacyTarget path = untitled ∨ (legacyTarget path).length + 5 ≤ path.length := by
  rcases length_rewrite legacy with isRoot | shorter
  · left
    rw [legacyTarget, isRoot]
    decide
  · apply (length_normalize_le _).imp_right
    intro isShort
    rw [legacyTarget]
    omega

theorem legacyTarget_ne {path : List Char} (legacy : IsLegacy path) : legacyTarget path ≠ path := by
  intro same
  rcases length_legacyTarget legacy with isUntitled | shorter
  · rw [← same, isUntitled] at legacy
    exact not_legacy_untitled legacy
  · rw [same] at shorter
    omega

theorem simplify_legacyTarget_ne {path : List Char} (legacy : IsLegacy path) :
    simplifyWorkspaceOrderPath (legacyTarget path) ≠ path := by
  have notUntitled : path ≠ untitled := by
    rintro rfl
    exact not_legacy_untitled legacy
  intro same
  rcases length_legacyTarget legacy with isUntitled | shorter
  · rw [isUntitled] at same
    have kept : simplifyWorkspaceOrderPath untitled = untitled := by decide
    exact notUntitled (same.symm.trans kept)
  · rcases length_simplify_le (legacyTarget path) with isUntitled | isShort
    · exact notUntitled (same.symm.trans isUntitled)
    · rw [same] at isShort
      omega

/-! ## Order numbers in paths of earlier versions -/

/-- A word that is no order number is left at the start of a segment. -/
theorem prefix_simplifySegment {word segment : List Char} (isWord : word <+: segment)
    (clean : '~' ∉ word) {first : Char} (isFirst : word.head? = some first) (plain : first ≠ '!')
    (letter : first.isDigit = false) : word <+: simplifySegment segment := by
  obtain ⟨part, parts, isSplit⟩ := List.exists_cons_of_ne_nil (List.splitOn_ne_nil '~' segment)
  have whole : ['~'].intercalate (segment.splitOn '~') = segment := List.intercalate_splitOn '~'
  rw [isSplit] at whole
  have inPart : word <+: part := by
    cases parts with
    | nil =>
        rw [List.intercalate_singleton] at whole
        rwa [whole]
    | cons next later =>
        rw [List.intercalate_cons_cons, List.append_assoc] at whole
        rw [← whole] at isWord
        exact prefix_of_prefix_append isWord (by simpa using clean)
  have isHead : part.head? = some first := by
    obtain ⟨rest, rfl⟩ := inPart
    rw [List.head?_append, isFirst]
    rfl
  have kept : simplifyWorkspaceOrderPart part = part := by
    rw [simplifyPart_of_head (by simpa [isHead] using plain)]
    apply keepFirstOrder_of_plain
    rw [← Bool.not_eq_true, isOrdered_iff]
    rintro ⟨number, more, rfl, length, digits, _⟩
    obtain ⟨digit, others, rfl⟩ := List.exists_cons_of_length_eq_add_one length
    obtain rfl := Option.some.inj isHead
    simp [letter] at digits
  rw [simplifySegment, isSplit, List.map_cons, kept]
  cases parts with
  | nil => simpa using inPart
  | cons next later =>
      rw [List.map_cons, List.intercalate_cons_cons, List.append_assoc]
      exact inPart.trans (List.prefix_append part _)

theorem doubledNotes_eq : doubledNotes =
    '/' :: ("notes".toList ++ '/' :: ("notes".toList ++ ['/'])) :=
  rfl

/-- A normal path of an earlier version stays one without its order numbers. -/
theorem legacy_simplify {input : List Char}
    (legacy : IsLegacy (normalizeVirtualDocumentPath input)) :
    IsLegacy (simplifyWorkspaceOrderPath (normalizeVirtualDocumentPath input)) := by
  obtain ⟨segments, nonempty, areSegments, isNormal⟩ := exists_segments_of_normalize input
  have isJoined : normalizeVirtualDocumentPath input = joinSegments segments := by
    rw [isNormal, joinSegments, if_neg nonempty]
  have simplified : simplifyWorkspaceOrderPath (normalizeVirtualDocumentPath input) =
      (segments.map simplifySegment).flatMap ('/' :: ·) := by
    rw [simplifyWorkspaceOrderPath_eq, isJoined, segmentsOf_joinSegments nonempty,
      joinSegments_eq (by simpa using nonempty)]
    exact fun segment member =>
      ⟨(areSegments segment member).ne_nil, (areSegments segment member).not_mem⟩
  rw [isJoined, joinSegments_eq nonempty] at legacy
  rw [simplified]
  rcases legacy with isLocal | doubled
  · left
    obtain ⟨first, rest, rfl⟩ := List.exists_cons_of_ne_nil nonempty
    have isWord : "local".toList <+: first ++ rest.flatMap ('/' :: ·) :=
      (List.cons_prefix_cons.mp isLocal).2
    have inFirst : "local".toList <+: first := by
      apply prefix_of_prefix_append isWord
      intro char isHead
      cases rest with
      | nil => cases isHead
      | cons next later =>
          obtain rfl := Option.some.inj isHead
          decide
    have kept := prefix_simplifySegment inFirst (by decide) rfl (by decide) (by decide)
    rw [List.map_cons, List.flatMap_cons]
    exact List.cons_prefix_cons.mpr ⟨rfl, kept.trans (List.prefix_append _ _)⟩
  · right
    obtain ⟨front, later, isDoubled⟩ := doubled
    have areNotes : segments.flatMap ('/' :: ·) =
        front ++ '/' :: ("notes".toList ++ '/' :: ("notes".toList ++ '/' :: later)) := by
      rw [← isDoubled, doubledNotes_eq]
      simp only [List.append_assoc, List.cons_append, List.nil_append]
    have split := congrArg (List.splitOn '/') areNotes
    rw [← cons_intercalate nonempty, List.splitOn_append_cons_self,
      List.splitOn_append_cons_self_of_not_mem (by decide),
      List.splitOn_append_cons_self_of_not_mem (by decide), List.splitOn_cons_eq_if_modifyHead,
      if_pos (by simp), List.splitOn_intercalate '/'
        (fun segment member => (areSegments segment member).not_mem) nonempty] at split
    obtain ⟨head, before, isBefore⟩ := List.exists_cons_of_ne_nil (List.splitOn_ne_nil '/' front)
    obtain ⟨next, after, isAfter⟩ := List.exists_cons_of_ne_nil (List.splitOn_ne_nil '/' later)
    rw [isBefore, isAfter, List.cons_append] at split
    obtain ⟨_, rfl⟩ := List.cons_eq_cons.mp split
    have kept : simplifySegment "notes".toList = "notes".toList := by decide
    refine ⟨(before.map simplifySegment).flatMap ('/' :: ·),
      simplifySegment next ++ (after.map simplifySegment).flatMap ('/' :: ·), ?_⟩
    rw [doubledNotes_eq, List.map_append, List.map_cons, List.map_cons, List.map_cons, kept,
      List.flatMap_append, List.flatMap_cons, List.flatMap_cons, List.flatMap_cons]
    simp only [List.append_assoc, List.cons_append, List.nil_append]

end Yggterm.Workspace
