import Mathlib.Algebra.Ring.Nat
import Yggterm.Library.Ascii
import Yggterm.Library.Fields
import Yggterm.Library.Text

/-!
# A name becomes a filename

`slugify` and `allocate_id` of `web_collection_store.rs`: the alphanumeric runs of a name are
joined with dashes and cut to the length of an id, and what is already taken gets a number.
-/

namespace Yggterm.Collections

open Fields

/-- Longest id the store will allocate or accept. -/
def collectionIdMaxLen : Nat := 64

/-- Filenames Windows refuses to open no matter the extension. -/
def reservedFileStems : List (List Char) :=
  ["con", "prn", "aux", "nul", "com1", "com2", "com3", "com4", "com5", "com6", "com7", "com8",
    "com9", "lpt1", "lpt2", "lpt3", "lpt4", "lpt5", "lpt6", "lpt7", "lpt8",
      "lpt9"].map String.toList

def trimDashes (text : List Char) : List Char := (text.dropWhile (· = '-')).rdropWhile (· = '-')

/-- The loop of `slugify`, which looks at the length after each character. -/
def slugLoop (out : List Char) (pendingDash : Bool) : List Char → List Char
  | [] => out
  | char :: rest =>
      let (out, pendingDash) :=
        if char.isAlphanum then
          ((if pendingDash && out ≠ [] then out ++ ['-'] else out) ++ [char.toLower], false)
        else (out, true)
      if collectionIdMaxLen ≤ out.length then out else slugLoop out pendingDash rest

def slugify (name : List Char) : List Char :=
  let trimmed := trimDashes (slugLoop [] false name)
  if trimmed = [] then "collection".toList else trimmed

def idIsValid (id : List Char) : Bool :=
  id ≠ [] && id.length ≤ collectionIdMaxLen &&
    id.all fun char => char.isAlphanum || char = '-' || char = '_'

def isFree (taken : List (List Char)) (candidate : List Char) : Bool :=
  !reservedFileStems.contains candidate && !taken.contains candidate

/-- The candidate with a number, cut so that the number fits. -/
def numbered (base : List Char) (suffix : Nat) : List Char :=
  let tail := '-' :: Nat.toDigits 10 suffix
  let headLen := collectionIdMaxLen - tail.length
  let head := if headLen ≤ base.length then base.take headLen else base
  head.rdropWhile (· = '-') ++ tail

/-- `2..=9999` -/
def suffixes : List Nat := List.range' 2 9998

def allocateId (name : List Char) (taken : List (List Char)) : List Char :=
  let base := slugify name
  if isFree taken base then base
  else ((suffixes.map (numbered base)).find? (isFree taken)).getD (base ++ "-x".toList)

/-! ## The runs of a name -/

/-- The alphanumeric runs of a name. -/
def runs (name : List Char) : List (List Char) :=
  (name.splitOnP fun char => !char.isAlphanum).filter (· ≠ [])

/-- The runs in lower case, joined with dashes. -/
def joinedRuns (name : List Char) : List Char := (['-'].intercalate (runs name)).map Char.toLower

/-- What the loop still appends, when no length stops it. -/
def appended (pendingDash started : Bool) : List Char → List Char
  | [] => []
  | char :: rest =>
      if char.isAlphanum then
        (if pendingDash && started then ['-'] else []) ++
          char.toLower :: appended false true rest
      else appended true started rest

/-- Runs that follow another one. -/
def dashed (runs : List (List Char)) : List Char :=
  (runs.flatMap fun run => '-' :: run).map Char.toLower

theorem intercalate_cons_eq (run : List Char) (runs : List (List Char)) :
    (['-'].intercalate (run :: runs)).map Char.toLower = run.map Char.toLower ++ dashed runs := by
  cases runs with
  | nil => simp [dashed]
  | cons next later =>
      rw [List.intercalate_cons_cons, List.append_assoc, List.singleton_append,
        Text.cons_intercalate (List.cons_ne_nil next later), List.map_append, dashed]

/-- In the middle of a run, between two runs, and before the first. -/
theorem appended_eq (name : List Char) :
    ∃ run others, name.splitOnP (fun char => !char.isAlphanum) = run :: others ∧
      appended false true name = run.map Char.toLower ++ dashed (others.filter (· ≠ [])) ∧
      appended true true name = dashed (runs name) ∧
      ∀ pendingDash, appended pendingDash false name = joinedRuns name := by
  induction name with
  | nil => exact ⟨[], [], rfl, rfl, rfl, fun _ => rfl⟩
  | cons char rest inductionHypothesis =>
      obtain ⟨run, others, isSplit, inRun, between, before⟩ := inductionHypothesis
      by_cases alphanum : char.isAlphanum = true
      · have isCons : (char :: rest).splitOnP (fun char => !char.isAlphanum) =
            (char :: run) :: others := by
          rw [List.splitOnP_cons_eq_if_modifyHead, if_neg (by simp [alphanum]), isSplit]
          rfl
        have isRuns : runs (char :: rest) = (char :: run) :: others.filter (· ≠ []) := by
          rw [runs, isCons, List.filter_cons_of_pos (by simp)]
        refine ⟨char :: run, others, isCons, ?_, ?_, ?_⟩
        · rw [appended, if_pos alphanum, inRun]
          simp
        · rw [appended, if_pos alphanum, inRun, isRuns]
          simp [dashed]
        · intro pendingDash
          rw [appended, if_pos alphanum, inRun, joinedRuns, isRuns, intercalate_cons_eq]
          simp
      · have isCons : (char :: rest).splitOnP (fun char => !char.isAlphanum) =
            [] :: run :: others := by
          rw [List.splitOnP_cons_eq_if_modifyHead, if_pos (by simp [alphanum]), isSplit]
        have isRuns : runs (char :: rest) = runs rest := by
          rw [runs, isCons, List.filter_cons_of_neg (by simp), runs, isSplit]
        refine ⟨[], run :: others, isCons, ?_, ?_, ?_⟩
        · rw [appended, if_neg alphanum, between, runs, isSplit]
          rfl
        · rw [appended, if_neg alphanum, between, isRuns]
        · intro pendingDash
          rw [appended, if_neg alphanum, before, joinedRuns, joinedRuns, isRuns]

/-! ## The cut -/

/-- The loop stops at the length of an id, or one further where a dash comes last. -/
def cutAtMax (text : List Char) : List Char :=
  if text[collectionIdMaxLen - 1]? = some '-' then text.take (collectionIdMaxLen + 1)
  else text.take collectionIdMaxLen

theorem cutAtMax_of_short {text : List Char} (short : text.length ≤ collectionIdMaxLen) :
    cutAtMax text = text := by
  rw [cutAtMax]
  split
  · exact List.take_of_length_le (Nat.le_succ_of_le short)
  · exact List.take_of_length_le short

theorem cutAtMax_of_letter {front : List Char} {last : Char} (isLetter : last ≠ '-')
    (full : front.length + 1 = collectionIdMaxLen) (more : List Char) :
    cutAtMax (front ++ last :: more) = front ++ [last] := by
  have isLast : (front ++ last :: more)[collectionIdMaxLen - 1]? = some last := by
    rw [← full, Nat.add_sub_cancel, List.getElem?_append_right (Nat.le_refl _), Nat.sub_self]
    rfl
  rw [cutAtMax, isLast, if_neg (by simpa using isLetter), ← full, List.take_length_add_append]
  rfl

theorem cutAtMax_of_dash {front : List Char} {last : Char}
    (full : front.length + 1 = collectionIdMaxLen) (more : List Char) :
    cutAtMax (front ++ '-' :: last :: more) = front ++ ['-', last] := by
  have isDash : (front ++ '-' :: last :: more)[collectionIdMaxLen - 1]? = some '-' := by
    rw [← full, Nat.add_sub_cancel, List.getElem?_append_right (Nat.le_refl _), Nat.sub_self]
    rfl
  rw [cutAtMax, isDash, if_pos rfl, ← full, Nat.add_assoc, List.take_length_add_append]
  rfl

theorem ne_dash_of_isAlphanum {char : Char} (alphanum : char.isAlphanum = true) : char ≠ '-' := by
  rintro rfl
  exact absurd alphanum (by decide)

theorem slugLoop_eq {name out : List Char} {pendingDash : Bool}
    (room : out.length < collectionIdMaxLen) :
    slugLoop out pendingDash name = cutAtMax (out ++ appended pendingDash (out ≠ []) name) := by
  induction name generalizing out pendingDash with
  | nil =>
      rw [slugLoop, appended, List.append_nil, cutAtMax_of_short room.le]
  | cons char rest inductionHypothesis =>
      rw [slugLoop, appended]
      by_cases alphanum : char.isAlphanum = true
      · have isLetter := ne_dash_of_isAlphanum (Ascii.isAlphanum_toLower alphanum)
        rw [if_pos alphanum, if_pos alphanum]
        dsimp only
        by_cases joins : (pendingDash && decide (out ≠ [])) = true
        · rw [if_pos joins, if_pos joins]
          split
          · next full =>
              simp only [List.length_append, List.length_singleton] at full
              by_cases isDash : out.length + 1 = collectionIdMaxLen
              · rw [List.singleton_append, cutAtMax_of_dash isDash, List.append_assoc,
                  List.singleton_append]
              · rw [← List.append_assoc, cutAtMax_of_letter isLetter]
                rw [List.length_append, List.length_singleton]
                omega
          · next stillRoom =>
              rw [inductionHypothesis (Nat.lt_of_not_le stillRoom)]
              simp
        · rw [if_neg joins, if_neg joins]
          split
          · next full =>
              rw [List.length_append, List.length_singleton] at full
              rw [List.nil_append, cutAtMax_of_letter isLetter (by omega)]
          · next stillRoom =>
              rw [inductionHypothesis (Nat.lt_of_not_le stillRoom)]
              simp
      · rw [if_neg alphanum, if_neg alphanum]
        dsimp only
        rw [if_neg (Nat.not_le.mpr room), inductionHypothesis room]

/-! ## The slug -/

/-- Letters, digits and dashes, with no dash at an end. -/
structure IsSlug (text : List Char) : Prop where
  chars : ∀ char ∈ text, char.isAlphanum = true ∨ char = '-'
  opens : ∀ first ∈ text.head?, first ≠ '-'
  closes : ∀ last ∈ text.getLast?, last ≠ '-'

theorem isSlug_nil : IsSlug [] := ⟨by simp, by simp, by simp⟩

theorem IsSlug.append_letter {text : List Char} (isSlug : IsSlug text) {dash : List Char}
    (isDash : dash = [] ∨ dash = ['-'] ∧ text ≠ []) {letter : Char}
    (alphanum : letter.isAlphanum = true) : IsSlug (text ++ dash ++ [letter]) where
  chars := by
    intro char member
    rcases List.mem_append.mp member with early | isLetter
    · rcases List.mem_append.mp early with inText | inDash
      · exact isSlug.chars char inText
      · rcases isDash with rfl | ⟨rfl, _⟩
        · cases inDash
        · exact .inr (List.mem_singleton.mp inDash)
    · exact .inl (List.mem_singleton.mp isLetter ▸ alphanum)
  opens := by
    intro first isFirst
    cases text with
    | nil =>
        rcases isDash with rfl | ⟨_, nonempty⟩
        · cases isFirst
          exact ne_dash_of_isAlphanum alphanum
        · exact absurd rfl nonempty
    | cons char rest => exact isSlug.opens first isFirst
  closes := by
    intro last isLast
    rw [List.getLast?_concat] at isLast
    cases isLast
    exact ne_dash_of_isAlphanum alphanum

theorem isSlug_slugLoop {name out : List Char} {pendingDash : Bool} (isSlug : IsSlug out) :
    IsSlug (slugLoop out pendingDash name) := by
  induction name generalizing out pendingDash with
  | nil => exact isSlug
  | cons char rest inductionHypothesis =>
      rw [slugLoop]
      by_cases alphanum : char.isAlphanum = true
      · rw [if_pos alphanum]
        dsimp only
        have longer : IsSlug ((if (pendingDash && decide (out ≠ [])) = true then out ++ ['-']
            else out) ++ [char.toLower]) := by
          have isLetter := Ascii.isAlphanum_toLower alphanum
          split
          · next joins =>
              have nonempty := of_decide_eq_true (Bool.and_eq_true_iff.mp joins).2
              exact isSlug.append_letter (.inr ⟨rfl, nonempty⟩) isLetter
          · rw [← List.append_nil out]
            exact isSlug.append_letter (.inl rfl) isLetter
        generalize (if (pendingDash && decide (out ≠ [])) = true then out ++ ['-']
          else out) ++ [char.toLower] = next at longer ⊢
        split
        · exact longer
        · exact inductionHypothesis longer
      · rw [if_neg alphanum]
        dsimp only
        split
        · exact isSlug
        · exact inductionHypothesis isSlug

theorem IsSlug.trimDashes_eq {text : List Char} (isSlug : IsSlug text) :
    trimDashes text = text := by
  have front : text.dropWhile (· = '-') = text := by
    cases text with
    | nil => rfl
    | cons first rest => exact List.dropWhile_cons_of_neg (by simpa using isSlug.opens first rfl)
  rw [trimDashes, front]
  apply List.rdropWhile_eq_self_iff.mpr
  intro nonempty isDash
  exact isSlug.closes _ (List.getLast?_eq_some_getLast nonempty) (of_decide_eq_true isDash)

/-- The slug, said of the name as a whole. -/
def slugOf (name : List Char) : List Char :=
  if joinedRuns name = [] then "collection".toList else cutAtMax (joinedRuns name)

theorem slugLoop_start (name : List Char) :
    slugLoop [] false name = cutAtMax (joinedRuns name) := by
  obtain ⟨_, _, _, _, _, before⟩ := appended_eq name
  rw [slugLoop_eq (by decide), List.nil_append, decide_eq_false (not_not.mpr rfl), before]

theorem isSlug_cutAtMax (name : List Char) : IsSlug (cutAtMax (joinedRuns name)) :=
  slugLoop_start name ▸ isSlug_slugLoop isSlug_nil

theorem cutAtMax_eq_nil_iff {text : List Char} : cutAtMax text = [] ↔ text = [] := by
  rw [cutAtMax]
  split
  · simp
  · simp [collectionIdMaxLen]

theorem slugify_eq (name : List Char) : slugify name = slugOf name := by
  rw [slugify, slugLoop_start, (isSlug_cutAtMax name).trimDashes_eq, slugOf]
  simp only [cutAtMax_eq_nil_iff]

theorem isSlug_collection : IsSlug "collection".toList where
  chars := by
    have letters : ("collection".toList.all Char.isAlphanum) = true := by decide
    exact fun char member => .inl (List.all_eq_true.mp letters char member)
  opens := by
    intro first isFirst
    cases isFirst
    decide
  closes := by
    intro last isLast
    cases isLast
    decide

theorem isSlug_slugOf (name : List Char) : IsSlug (slugOf name) ∧ slugOf name ≠ [] := by
  rw [slugOf]
  split
  · exact ⟨isSlug_collection, by decide⟩
  · next nonempty => exact ⟨isSlug_cutAtMax name, mt cutAtMax_eq_nil_iff.mp nonempty⟩

/-- The slug is too long just where a dash would be its last character. -/
theorem length_slugOf_le_iff {name : List Char} :
    (slugOf name).length ≤ collectionIdMaxLen ↔
      (joinedRuns name)[collectionIdMaxLen - 1]? ≠ some '-' := by
  have closes := (isSlug_cutAtMax name).closes
  rw [slugOf]
  split
  · next empty => exact iff_of_true (by decide) (by simp [empty])
  · rw [cutAtMax] at closes ⊢
    split at closes
    · next isDash =>
        rw [if_pos isDash]
        refine iff_of_false ?_ (not_not.mpr isDash)
        intro short
        obtain ⟨long, _⟩ := List.getElem?_eq_some_iff.mp isDash
        have isLength : (joinedRuns name).length = collectionIdMaxLen := by
          rw [List.length_take] at short
          omega
        apply closes '-' _ rfl
        rw [List.take_of_length_le (Nat.le_succ_of_le isLength.le), List.getLast?_eq_getElem?,
          isLength]
        exact isDash
    · next noDash =>
        rw [if_neg noDash]
        exact iff_of_true (List.length_take_le _ _) noDash

/-! ## Allocation -/

theorem IsSlug.validChars {text : List Char} (isSlug : IsSlug text) :
    (text.all fun char => char.isAlphanum || char = '-' || char = '_') = true := by
  apply List.all_eq_true.mpr
  intro char member
  rcases isSlug.chars char member with alphanum | rfl
  · simp [alphanum]
  · rfl

theorem idIsValid_iff {id : List Char} :
    idIsValid id = true ↔ id ≠ [] ∧ id.length ≤ collectionIdMaxLen ∧
      (id.all fun char => char.isAlphanum || char = '-' || char = '_') = true := by
  simp [idIsValid, and_assoc]

theorem isFree_iff {taken : List (List Char)} {candidate : List Char} :
    isFree taken candidate = true ↔ candidate ∉ reservedFileStems ∧ candidate ∉ taken := by
  simp [isFree]

theorem idIsValid_slugOf_iff {name : List Char} :
    idIsValid (slugOf name) = true ↔ (joinedRuns name)[collectionIdMaxLen - 1]? ≠ some '-' := by
  obtain ⟨isSlug, nonempty⟩ := isSlug_slugOf name
  rw [idIsValid_iff, and_iff_right nonempty, and_iff_left isSlug.validChars, length_slugOf_le_iff]

/-- What is kept of the slug before a number. -/
theorem exists_numbered (base : List Char) (suffix : Nat) :
    ∃ head : List Char, head <+: base ∧
      head.length ≤ collectionIdMaxLen - ('-' :: Nat.toDigits 10 suffix).length ∧
      numbered base suffix = head ++ '-' :: Nat.toDigits 10 suffix := by
  refine ⟨_, ?_, ?_, rfl⟩
  · apply (List.rdropWhile_prefix _ _).trans
    split
    · exact List.take_prefix _ _
    · exact List.prefix_rfl
  · apply (List.rdropWhile_prefix _ _).length_le.trans
    split
    · exact List.length_take_le _ _
    · next short => exact Nat.le_of_not_le short

theorem length_toDigits_of_mem_suffixes {suffix : Nat} (isSuffix : suffix ∈ suffixes) :
    (Nat.toDigits 10 suffix).length ≤ 4 := by
  have bounds := List.mem_range'_1.mp isSuffix
  have below : suffix < 10 ^ 4 := by omega
  exact (Nat.length_toDigits_le_iff (by decide) (by decide)).mpr below

theorem idIsValid_numbered {base : List Char} (isSlug : IsSlug base) {suffix : Nat}
    (isSuffix : suffix ∈ suffixes) : idIsValid (numbered base suffix) = true := by
  obtain ⟨head, isPrefix, short, isNumbered⟩ := exists_numbered base suffix
  have digits := length_toDigits_of_mem_suffixes isSuffix
  rw [idIsValid_iff, isNumbered]
  refine ⟨by simp, ?_, ?_⟩
  · rw [List.length_cons, collectionIdMaxLen] at short
    rw [List.length_append, List.length_cons, collectionIdMaxLen]
    omega
  · rw [List.all_append, List.all_cons, Bool.and_eq_true, Bool.and_eq_true]
    refine ⟨?_, rfl, ?_⟩
    · exact List.all_eq_true.mpr fun char member =>
        List.all_eq_true.mp isSlug.validChars char (isPrefix.subset member)
    · apply List.all_eq_true.mpr
      intro char member
      have isDigit := Nat.isDigit_of_mem_toDigits (by decide) (by decide) member
      simp [Char.isAlphanum, isDigit]

theorem idIsValid_append_x_iff {base : List Char} (isSlug : IsSlug base) :
    idIsValid (base ++ "-x".toList) = true ↔ base.length + 2 ≤ collectionIdMaxLen := by
  have valid : ((base ++ "-x".toList).all fun char => char.isAlphanum || char = '-' || char = '_') =
      true := by
    rw [List.all_append, isSlug.validChars]
    rfl
  rw [idIsValid_iff, and_iff_right (by simp), and_iff_left valid, List.length_append]
  rfl

/-- An id that a new collection can be stored under. -/
def Usable (taken : List (List Char)) (id : List Char) : Prop :=
  idIsValid id = true ∧ id ∉ taken ∧ id ∉ reservedFileStems

/-- The slug is not taken and fits, or it is taken and one of its numbered forms is not, or they
all are and there is room for the last resort, which is not taken. -/
def Allocates (name : List Char) (taken : List (List Char)) : Prop :=
  if isFree taken (slugOf name) then (joinedRuns name)[collectionIdMaxLen - 1]? ≠ some '-'
  else (∃ suffix ∈ suffixes, isFree taken (numbered (slugOf name) suffix) = true) ∨
    (slugOf name).length + 2 ≤ collectionIdMaxLen ∧ slugOf name ++ "-x".toList ∉ taken

theorem append_x_not_mem_reserved (base : List Char) : base ++ "-x".toList ∉ reservedFileStems := by
  intro member
  have noDash : (reservedFileStems.any fun stem => "-x".toList <:+ stem) = false := by decide
  have isDash := List.any_eq_false.mp noDash _ member
  exact isDash (decide_eq_true (List.suffix_append base _))

theorem allocateId_usable_iff (name : List Char) (taken : List (List Char)) :
    Usable taken (allocateId name taken) ↔ Allocates name taken := by
  rw [allocateId, slugify_eq, Allocates]
  split
  · next free =>
      obtain ⟨notReserved, notTaken⟩ := isFree_iff.mp free
      rw [Usable, idIsValid_slugOf_iff]
      exact and_iff_left ⟨notTaken, notReserved⟩
  · next occupied =>
      obtain ⟨isSlug, _⟩ := isSlug_slugOf name
      cases found : (suffixes.map (numbered (slugOf name))).find? (isFree taken) with
      | some candidate =>
          obtain ⟨suffix, isSuffix, isCandidate⟩ :=
            List.mem_map.mp (List.mem_of_find?_eq_some found)
          have free := List.find?_some found
          obtain ⟨notReserved, notTaken⟩ := isFree_iff.mp free
          refine iff_of_true ⟨?_, notTaken, notReserved⟩ (.inl ⟨suffix, isSuffix, ?_⟩)
          · rw [Option.getD_some, ← isCandidate]
            exact idIsValid_numbered isSlug isSuffix
          · rw [isCandidate]
            exact free
      | none =>
          have noneFree : ¬ ∃ suffix ∈ suffixes,
              isFree taken (numbered (slugOf name) suffix) = true := by
            rintro ⟨suffix, isSuffix, free⟩
            exact List.find?_eq_none.mp found _ (List.mem_map_of_mem isSuffix) free
          rw [or_iff_right noneFree, Option.getD_none, Usable, idIsValid_append_x_iff isSlug,
            and_iff_left (append_x_not_mem_reserved _)]

/-- The second word begins at the last place of an id. -/
def longName : List Char := List.replicate 63 'a' ++ " b".toList

theorem not_usable_longName : ¬ Usable [] (allocateId longName []) := by
  intro usable
  exact absurd usable.1 (by decide)

end Yggterm.Collections
