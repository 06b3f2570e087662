import Yggterm.AttachSeed.Classify

/-!
# Who asked for a row

A stamp is written once, as one line of `key=value` words with the free text of the purpose at
the end.  The purpose is found by the first occurrence of its key.
-/

namespace Yggterm.Tenancy

open AttachSeed (splitWhitespace splitWhitespace_append_cons splitWhitespace_of_solid
  solid_of_mem_splitWhitespace)
open Search
open Text

def unknownHostToken : List Char := "unknown-host".toList

/-- Longest purpose text kept on a stamp. -/
def maxPurposeChars : Nat := 200

def purposeMarker : List Char := "purpose=".toList

structure CreatorStamp where
  pid : Fin (2 ^ 32)
  host : List Char
  purpose : Option (List Char)
  /-- The row that spawned this one. -/
  parentSessionPath : Option (List Char)
  deriving DecidableEq

def hyphenate (char : Char) : Char := if isWhitespace char then '-' else char

def sanitizeToken (value : List Char) : List Char :=
  let cleaned := (trim value).map hyphenate
  if cleaned = [] then unknownHostToken else cleaned

def sanitizePathToken (value : List Char) : List Char :=
  (trim value).filter fun char => !isWhitespace char

def joinWords (value : List Char) : List Char := [' '].intercalate (splitWhitespace value)

def sanitizeFreeText (value : List Char) : List Char := (joinWords value).take maxPurposeChars

def nonBlank (text : List Char) : Option (List Char) := if text = [] then none else some text

/-- `head`, plus the text after the first occurrence of `marker` if there is one. -/
def splitTrailingFreeText (value marker : List Char) : List Char × Option (List Char) :=
  match findText marker value with
  | some (head, tail) => (head, nonBlank (trim tail))
  | none => (value, none)

/-- What the words of the head say; a later word speaks over an earlier one. -/
structure HeadFields where
  pid : Option (Fin (2 ^ 32)) := none
  host : Option (List Char) := none
  parentSessionPath : Option (List Char) := none

def HeadFields.read (fields : HeadFields) (token : List Char) : HeadFields :=
  match token.dropPrefix? "pid=".toList with
  | some rest => { fields with pid := (parseUnsigned 32 rest).map (Fin.ofNat (2 ^ 32)) }
  | none =>
      match token.dropPrefix? "host=".toList with
      | some rest => { fields with host := some rest }
      | none =>
          match token.dropPrefix? "parent=".toList with
          | some rest => { fields with parentSessionPath := nonBlank rest }
          | none => fields

def readHead (head : List Char) : HeadFields := (splitWhitespace head).foldl HeadFields.read {}

namespace CreatorStamp

def new (pid : Fin (2 ^ 32)) (host : List Char) (purpose : Option (List Char)) : CreatorStamp where
  pid
  host := sanitizeToken host
  purpose := (purpose.map sanitizeFreeText).filter (· ≠ [])
  parentSessionPath := none

/-- Name the spawning row; a blank clears it. -/
def withParentSessionPath (stamp : CreatorStamp) (parent : Option (List Char)) : CreatorStamp :=
  { stamp with parentSessionPath := (parent.map sanitizePathToken).filter (· ≠ []) }

def pidWord (pid : Fin (2 ^ 32)) : List Char := "pid=".toList ++ Nat.toDigits 10 pid

def encodeIdentity (stamp : CreatorStamp) : List Char :=
  pidWord stamp.pid ++ ' ' :: "host=".toList

def encodeParent : Option (List Char) → List Char
  | none => []
  | some parent => ' ' :: "parent=".toList ++ parent

def encodePurpose : Option (List Char) → List Char
  | none => []
  | some purpose => ' ' :: purposeMarker ++ purpose

/-- `pid=<n> host=<h>[ parent=<path>][ purpose=<free text>]` -/
def encode (stamp : CreatorStamp) : List Char :=
  stamp.encodeIdentity ++ (stamp.host ++ encodeParent stamp.parentSessionPath) ++
    encodePurpose stamp.purpose

def parse (value : List Char) : Option CreatorStamp := do
  let (head, purpose) := splitTrailingFreeText value purposeMarker
  let fields := readHead head
  let pid ← fields.pid
  let host ← fields.host
  return ⟨pid, host, purpose, fields.parentSessionPath⟩

end CreatorStamp

open CreatorStamp

/-! ## The head -/

/-- A word that stands in the head of a stamp. -/
def Solid (word : List Char) : Prop := ∀ char ∈ word, isWhitespace char = false

theorem solid_of_all {word : List Char} (solid : (word.all fun char => !isWhitespace char) = true) :
    Solid word := by
  intro char member
  simpa using List.all_eq_true.mp solid char member

theorem Solid.append {first second : List Char} (isFirst : Solid first) (isSecond : Solid second) :
    Solid (first ++ second) := by
  intro char member
  rcases List.mem_append.mp member with inFirst | inSecond
  · exact isFirst char inFirst
  · exact isSecond char inSecond

theorem solid_pidWord (pid : Fin (2 ^ 32)) : Solid (pidWord pid) := by
  apply Solid.append (solid_of_all rfl)
  intro char member
  exact isWhitespace_of_isDigit (Nat.isDigit_of_mem_toDigits (by decide) (by decide) member)

theorem read_pidWord (fields : HeadFields) (pid : Fin (2 ^ 32)) :
    fields.read (pidWord pid) = { fields with pid := some pid } := by
  have dropped : (pidWord pid).dropPrefix? "pid=".toList = some (Nat.toDigits 10 pid) :=
    List.dropPrefix?_append_of_beq _ BEq.rfl
  rw [HeadFields.read, dropped]
  simp only [parseUnsigned_toDigits, pid.isLt, if_true, Option.map_some]
  congr 2
  exact Fin.ext (Nat.mod_eq_of_lt pid.isLt)

theorem read_hostWord (fields : HeadFields) (host : List Char) :
    fields.read ("host=".toList ++ host) = { fields with host := some host } := by
  have notPid : ("host=".toList ++ host).dropPrefix? "pid=".toList = none := by
    simp [List.dropPrefix?]
  rw [HeadFields.read, notPid, List.dropPrefix?_append_of_beq _ BEq.rfl]

theorem read_parentWord (fields : HeadFields) (parent : List Char) :
    fields.read ("parent=".toList ++ parent) =
      { fields with parentSessionPath := nonBlank parent } := by
  have notPid : ("parent=".toList ++ parent).dropPrefix? "pid=".toList = none := by
    simp [List.dropPrefix?]
  have notHost : ("parent=".toList ++ parent).dropPrefix? "host=".toList = none := by
    simp [List.dropPrefix?]
  rw [HeadFields.read, notPid, notHost, List.dropPrefix?_append_of_beq _ BEq.rfl]

theorem readHead_word {word : List Char} (solid : Solid word) (nonempty : word ≠ []) :
    readHead word = HeadFields.read {} word := by
  rw [readHead, splitWhitespace_of_solid solid nonempty]
  rfl

theorem readHead_append_word {word : List Char} (solid : Solid word) (nonempty : word ≠ [])
    (head : List Char) : readHead (head ++ ' ' :: word) = (readHead head).read word := by
  rw [readHead, splitWhitespace_append_cons (by decide), splitWhitespace_of_solid solid nonempty,
    List.foldl_concat]
  rfl

theorem readHead_append_blank (head : List Char) : readHead (head ++ [' ']) = readHead head := by
  rw [readHead, splitWhitespace_append_cons (by decide)]
  simp [readHead, splitWhitespace]

theorem readHead_host {host : List Char} (stamp : CreatorStamp) (solid : Solid host) :
    readHead (stamp.encodeIdentity ++ host) = { pid := some stamp.pid, host := some host } := by
  have isHost : Solid ("host=".toList ++ host) := Solid.append (solid_of_all rfl) solid
  rw [encodeIdentity, List.append_assoc, List.cons_append,
    readHead_append_word isHost (by simp),
      readHead_word (solid_pidWord stamp.pid) (by simp [pidWord]),
    read_pidWord, read_hostWord]

theorem readHead_parent {host parent : List Char} (stamp : CreatorStamp) (solidHost : Solid host)
    (solidParent : Solid parent) :
    readHead (stamp.encodeIdentity ++ (host ++ encodeParent (some parent))) =
      { pid := some stamp.pid, host := some host, parentSessionPath := nonBlank parent } := by
  have isParent : Solid ("parent=".toList ++ parent) := Solid.append (solid_of_all rfl) solidParent
  rw [encodeParent, ← List.append_assoc, List.cons_append,
    readHead_append_word isParent (by simp), readHead_host stamp solidHost, read_parentWord]

/-! ## Where the purpose is found -/

theorem findText_identity (stamp : CreatorStamp) (text : List Char) :
    findText purposeMarker (stamp.encodeIdentity ++ text) =
      (findText purposeMarker text).map fun found =>
          (stamp.encodeIdentity ++ found.1, found.2) := by
  have noLetter : 'p' ∉ Nat.toDigits 10 (stamp.pid : Nat) := by
    intro member
    have digit := Nat.isDigit_of_mem_toDigits (by decide) (by decide) member
    exact absurd digit (by decide)
  have digits : Clear purposeMarker (Nat.toDigits 10 (stamp.pid : Nat)) := clear_of_not_mem noLetter
  have key : Clear purposeMarker "pid=".toList := by decide
  have next : Clear purposeMarker (' ' :: "host=".toList) := by decide
  rw [encodeIdentity, pidWord, List.append_assoc, List.append_assoc, findText_append_of_clear key,
    findText_append_of_clear digits, findText_append_of_clear next, Option.map_map, Option.map_map]
  simp [Function.comp_def]

theorem findText_encode_of_host {stamp : CreatorStamp} {before after : List Char}
    (found : findText purposeMarker stamp.host = some (before, after)) :
    ∃ rest, findText purposeMarker stamp.encode = some (stamp.encodeIdentity ++ before, rest) := by
  rw [encode, List.append_assoc, List.append_assoc, findText_identity, findText_append found]
  exact ⟨_, rfl⟩

theorem findText_encode_of_parent {stamp : CreatorStamp} {parent before after : List Char}
    (absent : findText purposeMarker stamp.host = none)
    (isParent : stamp.parentSessionPath = some parent)
    (found : findText purposeMarker parent = some (before, after)) :
    ∃ rest, findText purposeMarker stamp.encode =
      some (stamp.encodeIdentity ++ (stamp.host ++ encodeParent (some before)), rest) := by
  have key : Clear purposeMarker "parent=".toList := by decide
  rw [encode, isParent, encodeParent, List.append_assoc, List.append_assoc, List.cons_append,
    List.cons_append, findText_identity, findText_append_cons (by decide) absent, List.append_assoc,
    findText_append_of_clear key, findText_append found]
  exact ⟨_, rfl⟩

theorem findText_head {stamp : CreatorStamp} (absent : findText purposeMarker stamp.host = none)
    (absentParent : ∀ parent ∈ stamp.parentSessionPath, findText purposeMarker parent = none) :
    findText purposeMarker
      (stamp.encodeIdentity ++ (stamp.host ++ encodeParent stamp.parentSessionPath)) = none := by
  rw [findText_identity]
  cases isParent : stamp.parentSessionPath with
  | none => rw [encodeParent, List.append_nil, absent, Option.map_none]
  | some parent =>
      have key : Clear purposeMarker "parent=".toList := by decide
      rw [encodeParent, List.cons_append, findText_append_cons (by decide) absent,
        findText_append_of_clear key, absentParent parent isParent, Option.map_none,
          Option.map_none,
        Option.map_none]

theorem findText_encode {stamp : CreatorStamp} {purpose : List Char}
    (isPurpose : stamp.purpose = some purpose)
    (absent : findText purposeMarker
      (stamp.encodeIdentity ++ (stamp.host ++ encodeParent stamp.parentSessionPath)) = none) :
    findText purposeMarker stamp.encode = some (stamp.encodeIdentity ++
      (stamp.host ++ encodeParent stamp.parentSessionPath) ++ [' '], purpose) := by
  rw [encode, isPurpose, encodePurpose, List.cons_append, findText_append_cons (by decide) absent,
    findText_append_self (by decide), Option.map_some]

/-! ## Reading a stamp back -/

theorem parse_of_found {value head tail : List Char} {pid : Fin (2 ^ 32)} {host : List Char}
    {parent : Option (List Char)} (found : findText purposeMarker value = some (head, tail))
    (isHead : readHead head = { pid := some pid, host := some host, parentSessionPath := parent }) :
    parse value = some ⟨pid, host, nonBlank (trim tail), parent⟩ := by
  simp [parse, splitTrailingFreeText, found, isHead]

theorem parse_of_absent {value : List Char} {pid : Fin (2 ^ 32)} {host : List Char}
    {parent : Option (List Char)} (absent : findText purposeMarker value = none)
    (isHead : readHead value =
    { pid := some pid, host := some host, parentSessionPath := parent }) :
    parse value = some ⟨pid, host, none, parent⟩ := by
  simp [parse, splitTrailingFreeText, absent, isHead]

/-- What the sanitizers leave in the fields. -/
structure WellFormed (stamp : CreatorStamp) : Prop where
  host : Solid stamp.host
  parent : ∀ parent ∈ stamp.parentSessionPath, parent ≠ [] ∧ Solid parent
  purpose : ∀ purpose ∈ stamp.purpose, purpose ≠ []

theorem nonBlank_of_ne {text : List Char} (nonempty : text ≠ []) : nonBlank text = some text :=
  if_neg nonempty

theorem readHead_encode {stamp : CreatorStamp} (wellFormed : WellFormed stamp) :
    readHead (stamp.encodeIdentity ++ (stamp.host ++ encodeParent stamp.parentSessionPath)) =
      { pid := some stamp.pid, host := some stamp.host,
        parentSessionPath := stamp.parentSessionPath } := by
  cases isParent : stamp.parentSessionPath with
  | none => rw [encodeParent, List.append_nil, readHead_host stamp wellFormed.host]
  | some parent =>
      obtain ⟨nonempty, solid⟩ := wellFormed.parent parent isParent
      rw [readHead_parent stamp wellFormed.host solid, nonBlank_of_ne nonempty]

theorem parse_encode_of_host {stamp : CreatorStamp} (wellFormed : WellFormed stamp)
    (marked : purposeMarker <:+: stamp.host) : parse stamp.encode ≠ some stamp := by
  cases found : findText purposeMarker stamp.host with
  | none => exact absurd marked (findText_eq_none_iff.mp found)
  | some parts =>
      obtain ⟨before, after⟩ := parts
      have isHost := findText_eq found
      have solid : Solid before := fun char member =>
        wellFormed.host char (isHost ▸ List.mem_append_left _ member)
      obtain ⟨rest, first⟩ := findText_encode_of_host found
      rw [parse_of_found first (readHead_host stamp solid)]
      intro same
      have sameHost : before = stamp.host := by rw [← Option.some.inj same]
      rw [← sameHost, List.self_eq_append_right] at isHost
      exact absurd (List.append_eq_nil_iff.mp isHost).1 (by decide)

theorem parse_encode_of_parent {stamp : CreatorStamp} (wellFormed : WellFormed stamp)
    (clean : ¬ purposeMarker <:+: stamp.host) {parent : List Char}
    (isParent : stamp.parentSessionPath = some parent) (marked : purposeMarker <:+: parent) :
    parse stamp.encode ≠ some stamp := by
  cases found : findText purposeMarker parent with
  | none => exact absurd marked (findText_eq_none_iff.mp found)
  | some parts =>
      obtain ⟨before, after⟩ := parts
      have isText := findText_eq found
      have solid : Solid before := fun char member =>
        (wellFormed.parent parent isParent).2 char (isText ▸ List.mem_append_left _ member)
      obtain ⟨rest, first⟩ :=
        findText_encode_of_parent (findText_eq_none_iff.mpr clean) isParent found
      rw [parse_of_found first (readHead_parent stamp wellFormed.host solid)]
      intro same
      have sameParent : nonBlank before = some parent := by
        rw [← isParent, ← Option.some.inj same]
      have isBefore : before = parent := by
        rw [nonBlank] at sameParent
        split at sameParent
        · cases sameParent
        · exact Option.some.inj sameParent
      rw [← isBefore, List.self_eq_append_right] at isText
      exact absurd (List.append_eq_nil_iff.mp isText).1 (by decide)

theorem parse_encode_of_clean {stamp : CreatorStamp} (wellFormed : WellFormed stamp)
    (clean : ¬ purposeMarker <:+: stamp.host)
    (cleanParent : ∀ parent ∈ stamp.parentSessionPath, ¬ purposeMarker <:+: parent) :
    parse stamp.encode = some stamp ↔ ∀ purpose ∈ stamp.purpose, trim purpose = purpose := by
  have absent := findText_head (findText_eq_none_iff.mpr clean)
    fun parent isParent => findText_eq_none_iff.mpr (cleanParent parent isParent)
  cases isPurpose : stamp.purpose with
  | none =>
      have isEncoded : stamp.encode =
          stamp.encodeIdentity ++ (stamp.host ++ encodeParent stamp.parentSessionPath) := by
        rw [encode, isPurpose, encodePurpose, List.append_nil]
      rw [isEncoded, parse_of_absent absent (readHead_encode wellFormed), ← isPurpose]
      refine iff_of_true rfl ?_
      intro purpose impossible
      rw [isPurpose] at impossible
      cases impossible
  | some purpose =>
      have isHead := (readHead_append_blank _).trans (readHead_encode wellFormed)
      have nonempty := wellFormed.purpose purpose isPurpose
      rw [parse_of_found (findText_encode isPurpose absent) isHead]
      constructor
      · intro same other isOther
        cases isOther
        have samePurpose : nonBlank (trim purpose) = some purpose := by
          rw [← isPurpose, ← Option.some.inj same]
        rw [nonBlank] at samePurpose
        split at samePurpose
        · cases samePurpose
        · exact Option.some.inj samePurpose
      · intro trimmed
        rw [trimmed purpose rfl, nonBlank_of_ne nonempty, ← isPurpose]

theorem parse_encode_iff_of_wellFormed {stamp : CreatorStamp} (wellFormed : WellFormed stamp) :
    parse stamp.encode = some stamp ↔
      ¬ purposeMarker <:+: stamp.host ∧
        (∀ parent ∈ stamp.parentSessionPath, ¬ purposeMarker <:+: parent) ∧
        ∀ purpose ∈ stamp.purpose, trim purpose = purpose := by
  by_cases marked : purposeMarker <:+: stamp.host
  · exact iff_of_false (parse_encode_of_host wellFormed marked) fun holds => holds.1 marked
  · rw [and_iff_right marked]
    by_cases clean : ∀ parent ∈ stamp.parentSessionPath, ¬ purposeMarker <:+: parent
    · rw [parse_encode_of_clean wellFormed marked clean, and_iff_right clean]
    · refine iff_of_false ?_ fun holds => clean holds.1
      push Not at clean
      obtain ⟨parent, isParent, inParent⟩ := clean
      exact parse_encode_of_parent wellFormed marked isParent inParent

/-! ## What the sanitizers leave -/

theorem isWhitespace_hyphenate (char : Char) : isWhitespace (hyphenate char) = false := by
  rw [hyphenate]
  split
  · decide
  · next solid => exact Bool.eq_false_iff.mpr solid

theorem hyphenate_eq_iff {char wanted : Char} (solid : isWhitespace wanted = false)
    (other : wanted ≠ '-') : hyphenate char = wanted ↔ char = wanted := by
  rw [hyphenate]
  split
  · next blank =>
      refine iff_of_false other.symm ?_
      rintro rfl
      exact absurd blank (by simp [solid])
  · rfl

theorem solid_sanitizeToken (value : List Char) : Solid (sanitizeToken value) := by
  rw [sanitizeToken]
  split
  · exact solid_of_all rfl
  · intro char member
    obtain ⟨original, _, rfl⟩ := List.mem_map.mp member
    exact isWhitespace_hyphenate original

theorem marked_sanitizeToken_iff {value : List Char} :
    purposeMarker <:+: sanitizeToken value ↔ purposeMarker <:+: value := by
  have mapped : purposeMarker <:+: (trim value).map hyphenate ↔ purposeMarker <:+: value := by
    have trimmed : purposeMarker <:+: trim value ↔ purposeMarker <:+: value :=
      infix_trim_iff rfl rfl (by decide) (by decide)
    rw [← trimmed, List.infix_map_iff]
    have letters : ∀ letter ∈ purposeMarker, isWhitespace letter = false ∧ letter ≠ '-' := by
      intro letter member
      have all : (purposeMarker.all fun letter => !isWhitespace letter && letter != '-') = true :=
        rfl
      simpa using List.all_eq_true.mp all letter member
    constructor
    · rintro ⟨word, inside, isMarker⟩
      have same : word.map hyphenate = word := by
        conv_rhs => rw [← List.map_id word]
        apply List.map_congr_left
        intro char member
        obtain ⟨solid, other⟩ := letters (hyphenate char) (isMarker ▸ List.mem_map_of_mem member)
        exact ((hyphenate_eq_iff solid other).mp rfl).symm
      rwa [isMarker, same]
    · exact fun inside => ⟨purposeMarker, inside, by decide⟩
  rw [sanitizeToken]
  split
  · next empty =>
      rw [empty] at mapped
      exact iff_of_false (by decide) (fun marked => absurd (mapped.mpr marked) (by decide))
  · exact mapped

theorem sanitizePathToken_eq (value : List Char) :
    sanitizePathToken value = value.filter fun char => !isWhitespace char := by
  obtain ⟨front, back, isValue, blankFront, blankBack⟩ := exists_trim value
  have noFront : front.filter (fun char => !isWhitespace char) = [] := by
    simpa using blankFront
  have noBack : back.filter (fun char => !isWhitespace char) = [] := by
    simpa using blankBack
  conv_rhs => rw [isValue]
  rw [List.filter_append, List.filter_append, noFront, noBack, List.append_nil, List.nil_append,
    sanitizePathToken]

theorem solid_sanitizePathToken (value : List Char) : Solid (sanitizePathToken value) := by
  intro char member
  simpa using (List.mem_filter.mp member).2

/-! ## The purpose -/

theorem eq_blank_of_mem_joinWords {words : List (List Char)} (solid : ∀ word ∈ words, Solid word)
    {char : Char} (member : char ∈ [' '].intercalate words) (blank : isWhitespace char = true) :
    char = ' ' := by
  induction words with
  | nil => cases member
  | cons word rest inductionHypothesis =>
      obtain ⟨wordSolid, restSolid⟩ := List.forall_mem_cons.mp solid
      have notInWord : char ∉ word := fun inWord => by simp [wordSolid char inWord] at blank
      cases rest with
      | nil => exact absurd (by simpa using member) notInWord
      | cons next later =>
          rw [List.intercalate_cons_cons, List.append_assoc] at member
          rcases List.mem_append.mp member with inWord | behind
          · exact absurd inWord notInWord
          · rcases List.mem_append.mp behind with isBlank | inRest
            · exact List.mem_singleton.mp isBlank
            · exact inductionHypothesis restSolid inRest

theorem head_joinWords {words : List (List Char)}
    (solid : ∀ word ∈ words, word ≠ [] ∧ Solid word) :
    ∀ first ∈ ([' '].intercalate words).head?, isWhitespace first = false := by
  intro first isFirst
  cases words with
  | nil => cases isFirst
  | cons word rest =>
      obtain ⟨nonempty, wordSolid⟩ := solid word List.mem_cons_self
      obtain ⟨letter, letters, rfl⟩ := List.exists_cons_of_ne_nil nonempty
      rw [List.intercalate_cons_cons_left, List.head?_cons] at isFirst
      exact wordSolid first (Option.some.inj isFirst ▸ List.mem_cons_self)

theorem getLast_joinWords {words : List (List Char)}
    (solid : ∀ word ∈ words, word ≠ [] ∧ Solid word) :
    ∀ last ∈ ([' '].intercalate words).getLast?, isWhitespace last = false := by
  induction words with
  | nil => nofun
  | cons word rest inductionHypothesis =>
      obtain ⟨⟨nonempty, wordSolid⟩, restSolid⟩ := List.forall_mem_cons.mp solid
      intro last isLast
      cases rest with
      | nil =>
          rw [List.intercalate_singleton] at isLast
          exact wordSolid last (List.mem_of_getLast? isLast)
      | cons next later =>
          obtain ⟨letter, letters, rfl⟩ :=
            List.exists_cons_of_ne_nil (restSolid next List.mem_cons_self).1
          rw [List.intercalate_cons_cons, List.intercalate_cons_cons_left,
            List.getLast?_append_of_ne_nil _ (List.cons_ne_nil _ _),
            ← List.intercalate_cons_cons_left] at isLast
          exact inductionHypothesis restSolid last isLast

theorem trim_sanitizeFreeText_iff {value : List Char} :
    trim (sanitizeFreeText value) = sanitizeFreeText value ↔
      (joinWords value)[maxPurposeChars - 1]? ≠ some ' ' := by
  have solid : ∀ word ∈ splitWhitespace value, word ≠ [] ∧ Solid word :=
    fun word member => solid_of_mem_splitWhitespace member
  have opens : ∀ first ∈ (joinWords value).head?, isWhitespace first = false :=
    head_joinWords solid
  have closes : ∀ last ∈ (joinWords value).getLast?, isWhitespace last = false :=
    getLast_joinWords solid
  rw [trim_eq_self_iff, sanitizeFreeText, List.head?_take, List.getLast?_take,
    if_neg (by decide : maxPurposeChars ≠ 0), if_neg (by decide : maxPurposeChars ≠ 0),
    and_iff_right opens]
  cases cut : (joinWords value)[maxPurposeChars - 1]? with
  | none => simpa using closes
  | some char =>
      have member := List.mem_of_getElem? cut
      constructor
      · rintro solidCut same
        cases Option.some.inj same
        exact absurd (solidCut ' ' rfl) (by decide)
      · rintro notBlank last isLast
        cases isLast
        apply Bool.eq_false_iff.mpr
        intro blank
        exact notBlank (congrArg some (eq_blank_of_mem_joinWords (fun word member =>
          (solid word member).2) member blank))

/-! ## The round trip -/

theorem forall_mem_filter_map_iff {field : Option (List Char)} {sanitize : List Char → List Char}
    (Holds : List Char → Prop) (empty : Holds []) :
    (∀ text ∈ (field.map sanitize).filter (· ≠ []), Holds text) ↔
      ∀ text ∈ field, Holds (sanitize text) := by
  constructor
  · intro holds text isField
    by_cases nothing : sanitize text = []
    · exact nothing ▸ empty
    · apply holds
      apply Option.filter_eq_some_iff.mpr
      exact ⟨Option.map_eq_some_iff.mpr ⟨text, isField, rfl⟩, decide_eq_true nothing⟩
  · intro holds text kept
    obtain ⟨isMapped, _⟩ := Option.filter_eq_some_iff.mp kept
    obtain ⟨original, isField, rfl⟩ := Option.map_eq_some_iff.mp isMapped
    exact holds original isField

/-- No field holds the key of the purpose, and the cut of the purpose leaves no blank at its end. -/
structure Survives (host : List Char) (parent purpose : Option (List Char)) : Prop where
  host : ¬ purposeMarker <:+: host
  parent : ∀ path ∈ parent, ¬ purposeMarker <:+: path.filter fun char => !isWhitespace char
  purpose : ∀ text ∈ purpose, (joinWords text)[maxPurposeChars - 1]? ≠ some ' '

theorem wellFormed_new (pid : Fin (2 ^ 32)) (host : List Char)
    (parent purpose : Option (List Char)) :
    WellFormed ((CreatorStamp.new pid host purpose).withParentSessionPath parent) where
  host := solid_sanitizeToken host
  parent := by
    intro path isPath
    obtain ⟨isMapped, nonempty⟩ := Option.filter_eq_some_iff.mp isPath
    obtain ⟨original, _, rfl⟩ := Option.map_eq_some_iff.mp isMapped
    exact ⟨of_decide_eq_true nonempty, solid_sanitizePathToken original⟩
  purpose := by
    intro text isText
    exact of_decide_eq_true (Option.filter_eq_some_iff.mp isText).2

theorem parse_encode_iff (pid : Fin (2 ^ 32)) (host : List Char)
    (parent purpose : Option (List Char)) :
    parse ((CreatorStamp.new pid host purpose).withParentSessionPath parent).encode =
        some ((CreatorStamp.new pid host purpose).withParentSessionPath parent) ↔
      Survives host parent purpose := by
  have sameHost : purposeMarker <:+: sanitizeToken host ↔ purposeMarker <:+: host :=
    marked_sanitizeToken_iff
  have sameParent : (∀ path ∈ (parent.map sanitizePathToken).filter (· ≠ []),
      ¬ purposeMarker <:+: path) ↔ ∀ path ∈ parent,
        ¬ purposeMarker <:+: path.filter fun char => !isWhitespace char := by
    rw [forall_mem_filter_map_iff (¬ purposeMarker <:+: ·) (by decide)]
    simp only [sanitizePathToken_eq]
  have samePurpose : (∀ text ∈ (purpose.map sanitizeFreeText).filter (· ≠ []), trim text = text) ↔
      ∀ text ∈ purpose, (joinWords text)[maxPurposeChars - 1]? ≠ some ' ' := by
    rw [forall_mem_filter_map_iff (fun text => trim text = text) rfl]
    simp only [trim_sanitizeFreeText_iff]
  rw [parse_encode_iff_of_wellFormed (wellFormed_new pid host parent purpose)]
  exact ⟨fun holds => ⟨mt sameHost.mpr holds.1, sameParent.mp holds.2.1, samePurpose.mp holds.2.2⟩,
    fun survives => ⟨mt sameHost.mp survives.host, sameParent.mpr survives.parent,
      samePurpose.mpr survives.purpose⟩⟩

/-- The two hundredth character of the purpose is a blank. -/
def longPurpose : List Char := List.replicate 199 'a' ++ " b".toList

theorem parse_encode_ne_of_longPurpose :
    parse (CreatorStamp.new 4242 "host-a".toList (some longPurpose)).encode ≠
      some (CreatorStamp.new 4242 "host-a".toList (some longPurpose)) := by
  decide +kernel

end Yggterm.Tenancy
