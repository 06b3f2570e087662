import Yggterm.AttachSeed.Classify
import Yggterm.Library.Lines

/-!
# Cookie jars

`netscape_cookie_jar.rs` writes a cookie as seven fields with tabs between them, on one line.  The
marker of a cookie that is for HTTP only stands before the domain, where a comment would begin.
-/

namespace Yggterm.WebProfiles

open AttachSeed (toAsciiLowercase)
open Text

structure CookieSpec where
  name : List Char
  value : List Char
  domain : List Char
  path : List Char
  /-- `none` is a session cookie. -/
  expiresUnix : Option Int64
  secure : Bool
  httpOnly : Bool
  deriving DecidableEq

def httpOnlyMarker : List Char := "#HttpOnly_".toList

/-- The expiry of a line (counted from one) is no number. -/
structure BadExpires where
  line : Nat
  field : List Char
  deriving DecidableEq

/-- `eq_ignore_ascii_case("TRUE")` -/
def readsTrue (field : List Char) : Bool := toAsciiLowercase (trim field) = "true".toList

/-- The dot before a domain says that its subdomains are included. -/
def dottedDomain (includeSubdomains : Bool) (fileDomain : List Char) : List Char :=
  if includeSubdomains = true ∧ fileDomain.head? ≠ some '.' then '.' :: fileDomain else fileDomain

def readFields (httpOnly : Bool) (number : Nat) (line : List Char) :
    Except BadExpires (Option CookieSpec) :=
  match line.splitOn '\t' with
  | domain :: subdomains :: path :: secure :: expires :: name :: value :: more =>
      match parseSigned 64 (trim expires) with
      | none => .error ⟨number, expires⟩
      | some seconds =>
          .ok (some
            { name := trim name
              value := ['\t'].intercalate (value :: more)
              domain := dottedDomain (readsTrue subdomains) (trim domain)
              path := trim path
              expiresUnix := if seconds ≠ 0 then some (Int64.ofInt seconds) else none
              secure := readsTrue secure
              httpOnly })
  | _ => .ok none

def readLine (number : Nat) (raw : List Char) : Except BadExpires (Option CookieSpec) :=
  let line := raw.rdropWhile (· ∈ ['\r', '\n'])
  if trim line = [] then .ok none
  else if httpOnlyMarker <+: line then readFields true number (line.drop httpOnlyMarker.length)
  else if (trimStart line).head? = some '#' then .ok none
  else readFields false number line

def readLines : Nat → List (List Char) → Except BadExpires (List CookieSpec)
  | _, [] => .ok []
  | number, raw :: rest => do
      let cookie ← readLine number raw
      let others ← readLines (number + 1) rest
      return cookie.toList ++ others

def parseNetscapeJar (text : List Char) : Except BadExpires (List CookieSpec) :=
  readLines 1 (lines text)

def writeFlag (flag : Bool) : List Char := if flag then "TRUE".toList else "FALSE".toList

def CookieSpec.fields (cookie : CookieSpec) : List (List Char) :=
  [cookie.domain,
    writeFlag (cookie.domain.head? = some '.'),
    if cookie.path = [] then ['/'] else cookie.path,
    writeFlag cookie.secure,
    writeSigned (cookie.expiresUnix.getD 0).toInt,
    cookie.name,
    cookie.value]

def CookieSpec.line (cookie : CookieSpec) : List Char :=
  (if cookie.httpOnly then httpOnlyMarker else []) ++ ['\t'].intercalate cookie.fields

def jarHeader : List (List Char) :=
  ["# Netscape HTTP Cookie File".toList,
    "# Written by yggterm (web cookies --export)".toList,
    []]

def formatNetscapeJar (cookies : List CookieSpec) : List Char :=
  (jarHeader ++ cookies.map CookieSpec.line).flatMap (· ++ ['\n'])

/-! ## Lines -/

/-- The fields of a line do not break it; tabs in the value belong to the value. -/
structure CookieSpec.Framed (cookie : CookieSpec) : Prop where
  nameTab : '\t' ∉ cookie.name
  domainTab : '\t' ∉ cookie.domain
  pathTab : '\t' ∉ cookie.path
  nameLine : '\n' ∉ cookie.name
  valueLine : '\n' ∉ cookie.value
  domainLine : '\n' ∉ cookie.domain
  pathLine : '\n' ∉ cookie.path

/-- An empty path is written as the root. -/
def CookieSpec.rooted (cookie : CookieSpec) : CookieSpec :=
  { cookie with path := if cookie.path = [] then ['/'] else cookie.path }

def endsLine (char : Char) : Bool := char ∈ ['\r', '\n']

/-- What is read where the text before the first tab is the domain. -/
def CookieSpec.readAs (cookie : CookieSpec) (httpOnly : Bool) (domain : List Char) :
    CookieSpec where
  name := trim cookie.name
  value := cookie.value.rdropWhile endsLine
  domain := dottedDomain (cookie.domain.head? = some '.') (trim domain)
  path := trim cookie.rooted.path
  expiresUnix := if cookie.expiresUnix = some 0 then none else cookie.expiresUnix
  secure := cookie.secure
  httpOnly

/-- What the line of a cookie is read as. -/
def CookieSpec.reread (cookie : CookieSpec) : Option CookieSpec :=
  if cookie.httpOnly then some (cookie.readAs true cookie.domain)
  else if httpOnlyMarker <+: cookie.domain then
    some (cookie.readAs true (cookie.domain.drop httpOnlyMarker.length))
  else if (trimStart cookie.domain).head? = some '#' then none
  else some (cookie.readAs false cookie.domain)

theorem tab_not_mem_writeFlag (flag : Bool) : '\t' ∉ writeFlag flag := by
  cases flag <;> decide

theorem readsTrue_writeFlag (flag : Bool) : readsTrue (writeFlag flag) = flag := by
  cases flag <;> decide

theorem tab_not_mem_writeSigned (value : Int) : '\t' ∉ writeSigned value := by
  intro member
  rcases isDigit_of_mem_writeSigned member with same | digit
  · exact absurd same (by decide)
  · exact absurd digit (by decide)

theorem CookieSpec.Framed.tab_not_mem_rooted {cookie : CookieSpec} (framed : cookie.Framed) :
    '\t' ∉ cookie.rooted.path := by
  simp only [CookieSpec.rooted]
  split
  · decide
  · exact framed.pathTab

/-- The fields between tabs, where other texts stand for the domain and the value. -/
def CookieSpec.body (cookie : CookieSpec) (domain value : List Char) : List Char :=
  ['\t'].intercalate [domain, writeFlag (cookie.domain.head? = some '.'), cookie.rooted.path,
    writeFlag cookie.secure, writeSigned (cookie.expiresUnix.getD 0).toInt, cookie.name, value]

theorem body_eq (cookie : CookieSpec) (domain value : List Char) : cookie.body domain value =
    domain ++ '\t' :: (writeFlag (cookie.domain.head? = some '.') ++ '\t' :: (cookie.rooted.path ++
      '\t' :: (writeFlag cookie.secure ++ '\t' :: (writeSigned (cookie.expiresUnix.getD 0).toInt ++
        '\t' :: (cookie.name ++ '\t' :: value))))) := by
  simp [CookieSpec.body, List.intercalate]

theorem splitOn_body {cookie : CookieSpec} (framed : cookie.Framed) {domain : List Char}
    (domainTab : '\t' ∉ domain) (value : List Char) :
    (cookie.body domain value).splitOn '\t' =
      domain :: writeFlag (cookie.domain.head? = some '.') :: cookie.rooted.path ::
        writeFlag cookie.secure :: writeSigned (cookie.expiresUnix.getD 0).toInt ::
          cookie.name :: value.splitOn '\t' := by
  rw [body_eq, List.splitOn_append_cons_self_of_not_mem domainTab,
    List.splitOn_append_cons_self_of_not_mem (tab_not_mem_writeFlag _),
    List.splitOn_append_cons_self_of_not_mem framed.tab_not_mem_rooted,
    List.splitOn_append_cons_self_of_not_mem (tab_not_mem_writeFlag _),
    List.splitOn_append_cons_self_of_not_mem (tab_not_mem_writeSigned _),
    List.splitOn_append_cons_self_of_not_mem framed.nameTab]

theorem parseSigned_expires (expires : Int64) :
    parseSigned 64 (trim (writeSigned expires.toInt)) = some expires.toInt := by
  rw [trim_writeSigned]
  exact parseSigned_writeSigned expires.le_toInt expires.toInt_lt

/-- Seconds are read back, where no second stands for no expiry. -/
theorem expires_reread (expires : Option Int64) :
    (if (expires.getD 0).toInt ≠ 0 then some (Int64.ofInt (expires.getD 0).toInt) else none) =
      if expires = some 0 then none else expires := by
  have zero : ∀ seconds : Int64, seconds.toInt = 0 ↔ seconds = 0 := fun seconds =>
    Int64.toInt_inj (y := 0)
  cases expires with
  | none => rfl
  | some seconds =>
      simp only [Option.getD_some, ne_eq, zero, Int64.ofInt_toInt, Option.some.injEq, ite_not]

theorem readFields_body {cookie : CookieSpec} (framed : cookie.Framed) {domain : List Char}
    (domainTab : '\t' ∉ domain) (httpOnly : Bool) (number : Nat) :
    readFields httpOnly number (cookie.body domain (cookie.value.rdropWhile endsLine)) =
      .ok (some (cookie.readAs httpOnly domain)) := by
  obtain ⟨value, more, isSplit⟩ := List.exists_cons_of_ne_nil
    (List.splitOn_ne_nil '\t' (cookie.value.rdropWhile endsLine))
  have joined : ['\t'].intercalate (value :: more) = cookie.value.rdropWhile endsLine := by
    rw [← isSplit]
    exact List.intercalate_splitOn '\t'
  rw [readFields, splitOn_body framed domainTab, isSplit]
  simp only [parseSigned_expires, readsTrue_writeFlag, joined, expires_reread]
  rfl

/-- What ends a line is dropped only behind the last character that does not end one. -/
theorem rdropWhile_append_cons {drops : Char → Bool} {char : Char} (kept : drops char = false)
    (front back : List Char) :
    (front ++ char :: back).rdropWhile drops = front ++ char :: back.rdropWhile drops := by
  induction back using List.reverseRecOn with
  | nil => exact List.rdropWhile_concat_neg drops front char (by simp [kept])
  | append_singleton rest last inductionHypothesis =>
      rw [← List.cons_append, ← List.append_assoc, List.rdropWhile_concat, List.rdropWhile_concat]
      split
      · exact inductionHypothesis
      · simp

theorem rdropWhile_dropReturn (line : List Char) :
    (dropReturn line).rdropWhile endsLine = line.rdropWhile endsLine := by
  rw [dropReturn]
  split
  · next ends =>
      conv_rhs => rw [eq_append_of_getLast ends]
      exact (List.rdropWhile_concat_pos endsLine line.dropLast '\r' (by decide)).symm
  · rfl

theorem line_eq (cookie : CookieSpec) : cookie.line =
    (if cookie.httpOnly then httpOnlyMarker else []) ++ cookie.body cookie.domain cookie.value :=
  rfl

theorem rdropWhile_body (cookie : CookieSpec) (front : List Char) :
    (front ++ cookie.body cookie.domain cookie.value).rdropWhile endsLine =
      front ++ cookie.body cookie.domain (cookie.value.rdropWhile endsLine) := by
  have isTab : endsLine '\t' = false := by decide
  have split : ∀ value : List Char, front ++ cookie.body cookie.domain value =
      (front ++ cookie.domain ++ '\t' :: (writeFlag (cookie.domain.head? = some '.') ++
        '\t' :: (cookie.rooted.path ++ '\t' :: (writeFlag cookie.secure ++
          '\t' :: (writeSigned (cookie.expiresUnix.getD 0).toInt ++ '\t' :: cookie.name))))) ++
        '\t' :: value := by
    intro value
    rw [body_eq]
    simp
  rw [split, split, rdropWhile_append_cons isTab]

theorem mem_writeFlag (flag : Bool) : 'E' ∈ writeFlag flag := by
  cases flag with
  | true => decide
  | false => decide

/-- A flag starts with a letter. -/
theorem writeFlag_eq_cons (flag : Bool) : ∃ first rest,
    writeFlag flag = first :: rest ∧ isWhitespace first = false ∧ first ≠ '#' := by
  cases flag with
  | true => exact ⟨'T', ['R', 'U', 'E'], rfl, by decide, by decide⟩
  | false => exact ⟨'F', ['A', 'L', 'S', 'E'], rfl, by decide, by decide⟩

theorem trim_body_ne_nil (cookie : CookieSpec) (front value : List Char) :
    trim (front ++ cookie.body cookie.domain value) ≠ [] := by
  intro blank
  have member : 'E' ∈ front ++ cookie.body cookie.domain value := by
    have written : 'E' ∈ writeFlag cookie.secure := mem_writeFlag cookie.secure
    rw [body_eq]
    simp only [List.mem_append, List.mem_cons, written, true_or, or_true]
  exact absurd (trim_eq_nil_iff.mp blank 'E' member) (by decide)

theorem marker_prefix_body_iff (cookie : CookieSpec) (value : List Char) :
    httpOnlyMarker <+: cookie.body cookie.domain value ↔ httpOnlyMarker <+: cookie.domain := by
  rw [body_eq]
  constructor
  · intro isPrefix
    apply prefix_of_prefix_append isPrefix
    rintro _ ⟨⟩
    decide
  · exact fun isPrefix => isPrefix.trans (List.prefix_append _ _)

theorem trimStart_body_head? (cookie : CookieSpec) (value : List Char) :
    (trimStart (cookie.body cookie.domain value)).head? = some '#' ↔
      (trimStart cookie.domain).head? = some '#' := by
  rw [body_eq, trimStart, trimStart, List.dropWhile_append]
  split
  · next blank =>
      have tabBlank : isWhitespace '\t' = true := by decide
      rw [List.isEmpty_iff.mp blank, List.dropWhile_cons_of_pos tabBlank]
      obtain ⟨first, rest, isFlag, solid, notHash⟩ :=
        writeFlag_eq_cons (decide (cookie.domain.head? = some '.'))
      rw [isFlag, List.cons_append, List.dropWhile_cons_of_neg (by simp [solid])]
      simp [notHash]
  · next solid =>
      obtain ⟨first, rest, isDomain⟩ := List.exists_cons_of_ne_nil
        (fun blank => solid (List.isEmpty_iff.mpr blank))
      simp [isDomain]

/-- The line of a cookie is read as the cookie that its text spells. -/
theorem readLine_line {cookie : CookieSpec} (framed : cookie.Framed) (number : Nat) :
    readLine number (dropReturn cookie.line) = .ok cookie.reread := by
  have stripped : (dropReturn cookie.line).rdropWhile (· ∈ ['\r', '\n']) =
      (if cookie.httpOnly then httpOnlyMarker else []) ++
        cookie.body cookie.domain (cookie.value.rdropWhile endsLine) := by
    rw [← rdropWhile_body, ← line_eq]
    exact rdropWhile_dropReturn cookie.line
  simp only [readLine, stripped, CookieSpec.reread]
  rw [if_neg (trim_body_ne_nil _ _ _)]
  cases cookie.httpOnly with
  | true =>
      simp only [if_true]
      rw [if_pos (List.prefix_append _ _), List.drop_left]
      exact readFields_body framed framed.domainTab true number
  | false =>
      simp only [Bool.false_eq_true, if_false, List.nil_append, marker_prefix_body_iff,
        trimStart_body_head?]
      split
      · next isPrefix =>
          obtain ⟨rest, isDomain⟩ := isPrefix
          have isRest : cookie.domain.drop httpOnlyMarker.length = rest := by
            rw [← isDomain, List.drop_left]
          have isBody : (cookie.body cookie.domain (cookie.value.rdropWhile endsLine)).drop
              httpOnlyMarker.length = cookie.body rest (cookie.value.rdropWhile endsLine) := by
            rw [body_eq, body_eq, ← isDomain, List.append_assoc, List.drop_left]
          rw [isBody, isRest]
          apply readFields_body framed
          intro member
          exact framed.domainTab (isDomain ▸ List.mem_append_right _ member)
      · split
        · rfl
        · exact readFields_body framed framed.domainTab false number

theorem newline_not_mem_line {cookie : CookieSpec} (framed : cookie.Framed) :
    '\n' ∉ cookie.line := by
  have noFlag : ∀ flag : Bool, '\n' ∉ writeFlag flag := by decide
  have noNumber : '\n' ∉ writeSigned (cookie.expiresUnix.getD 0).toInt := by
    intro member
    rcases isDigit_of_mem_writeSigned member with same | digit
    · exact absurd same (by decide)
    · exact absurd digit (by decide)
  have noPath : '\n' ∉ cookie.rooted.path := by
    simp only [CookieSpec.rooted]
    split
    · decide
    · exact framed.pathLine
  have noMarker : '\n' ∉ if cookie.httpOnly then httpOnlyMarker else [] := by
    split <;> decide
  rw [line_eq, body_eq]
  simp [noMarker, framed.domainLine, noFlag, noPath, noNumber, framed.nameLine, framed.valueLine]

theorem readLines_lines {cookies : List CookieSpec} (framed : ∀ cookie ∈ cookies, cookie.Framed)
    (number : Nat) :
    readLines number (cookies.map fun cookie => dropReturn cookie.line) =
      .ok (cookies.filterMap CookieSpec.reread) := by
  induction cookies generalizing number with
  | nil => rfl
  | cons cookie rest inductionHypothesis =>
      obtain ⟨isFramed, others⟩ := List.forall_mem_cons.mp framed
      rw [List.map_cons, readLines, readLine_line isFramed, inductionHypothesis others]
      change Except.ok (cookie.reread.toList ++ rest.filterMap CookieSpec.reread) = _
      cases isReread : cookie.reread with
      | none => rw [List.filterMap_cons_none isReread]; rfl
      | some other => rw [List.filterMap_cons_some isReread]; rfl

theorem readLines_header (number : Nat) (rest : List (List Char)) :
    readLines number (jarHeader ++ rest) = readLines (number + 3) rest := by
  have noCookie : ∀ (number : Nat) (raw : List Char) (others : List (List Char)),
      readLine number raw = .ok none →
        readLines number (raw :: others) = readLines (number + 1) others := by
    intro number raw others isNone
    rw [readLines, isNone]
    change (readLines (number + 1) others >>= fun cookies => Except.ok cookies) = _
    cases readLines (number + 1) others with
    | error error => rfl
    | ok cookies => rfl
  rw [jarHeader, List.cons_append, List.cons_append, List.cons_append, noCookie, noCookie,
    noCookie]
  · rfl
  · rfl
  · rfl
  · rfl

/-- A written jar is read line by line. -/
theorem parse_format {cookies : List CookieSpec} (framed : ∀ cookie ∈ cookies, cookie.Framed) :
    parseNetscapeJar (formatNetscapeJar cookies) =
      .ok (cookies.filterMap CookieSpec.reread) := by
  have clean : ∀ line ∈ jarHeader ++ cookies.map CookieSpec.line, '\n' ∉ line := by
    intro line member
    rcases List.mem_append.mp member with inHeader | isCookie
    · have headerClean : ∀ line ∈ jarHeader, '\n' ∉ line := by decide
      exact headerClean line inHeader
    · obtain ⟨cookie, inCookies, rfl⟩ := List.mem_map.mp isCookie
      exact newline_not_mem_line (framed cookie inCookies)
  have isLines : lines (formatNetscapeJar cookies) =
      jarHeader ++ cookies.map fun cookie => dropReturn cookie.line := by
    have ended := lines_flatMap_newline clean []
    rw [List.append_nil, lines_nil, List.append_nil, List.map_append, List.map_map] at ended
    exact ended
  rw [parseNetscapeJar, isLines, readLines_header, readLines_lines framed]

/-! ## What a jar keeps -/

/-- The cookies whose lines are read as they are: blanks around fields are cut off, no second stands
for no expiry, and `#` before a domain begins a comment. -/
structure CookieSpec.Legible (cookie : CookieSpec) : Prop where
  name : trim cookie.name = cookie.name
  value : cookie.value.getLast? ≠ some '\r'
  domain : trim cookie.domain = cookie.domain
  path : trim cookie.path = cookie.path
  expires : cookie.expiresUnix ≠ some 0
  noComment : cookie.httpOnly = false → cookie.domain.head? ≠ some '#'

theorem rdropWhile_endsLine_iff {text : List Char} (clean : '\n' ∉ text) :
    text.rdropWhile endsLine = text ↔ text.getLast? ≠ some '\r' := by
  rw [List.rdropWhile_eq_self_iff]
  constructor
  · intro kept isReturn
    obtain ⟨front, rfl⟩ := List.getLast?_eq_some_iff.mp isReturn
    exact kept (by simp) (by rw [List.getLast_concat]; decide)
  · intro noReturn nonempty ends
    rcases List.mem_cons.mp (of_decide_eq_true ends) with isReturn | isNewline
    · exact noReturn (by rw [List.getLast?_eq_some_getLast nonempty, isReturn])
    · exact clean (List.mem_singleton.mp isNewline ▸ List.getLast_mem nonempty)

/-- The dot is there already. -/
theorem dottedDomain_trim (domain : List Char) :
    dottedDomain (domain.head? = some '.') (trim domain) = trim domain := by
  apply if_neg
  rintro ⟨isDot, noDot⟩
  obtain ⟨rest, rfl⟩ := List.head?_eq_some_iff.mp (of_decide_eq_true isDot)
  obtain ⟨others, isTrim⟩ : ∃ others, trim ('.' :: rest) = '.' :: others :=
    exists_trim_cons (by decide) rest
  exact noDot (by rw [isTrim]; rfl)

theorem trim_rooted_iff (cookie : CookieSpec) :
    trim cookie.rooted.path = cookie.rooted.path ↔ trim cookie.path = cookie.path := by
  simp only [CookieSpec.rooted]
  split
  · next empty =>
      rw [empty]
      exact iff_of_true (by decide) (by decide)
  · rfl

theorem trimStart_of_trim {text : List Char} (trimmed : trim text = text) :
    trimStart text = text := by
  obtain ⟨solid, _⟩ := trim_eq_self_iff.mp trimmed
  cases text with
  | nil => rfl
  | cons first rest => exact List.dropWhile_cons_of_neg (by simpa using solid)

theorem readAs_eq_rooted_iff {cookie : CookieSpec} (framed : cookie.Framed) :
    cookie.readAs cookie.httpOnly cookie.domain = cookie.rooted ↔
      trim cookie.name = cookie.name ∧ cookie.value.getLast? ≠ some '\r' ∧
        trim cookie.domain = cookie.domain ∧ trim cookie.path = cookie.path ∧
        cookie.expiresUnix ≠ some 0 := by
  have expires : (if cookie.expiresUnix = some 0 then none else cookie.expiresUnix) =
      cookie.expiresUnix ↔ cookie.expiresUnix ≠ some 0 := by
    split
    · next zero => simp [zero]
    · next other => simp [other]
  have isRooted : cookie.rooted = ⟨cookie.name, cookie.value, cookie.domain, cookie.rooted.path,
      cookie.expiresUnix, cookie.secure, cookie.httpOnly⟩ := rfl
  rw [isRooted]
  simp only [CookieSpec.readAs, CookieSpec.mk.injEq, dottedDomain_trim, expires,
    rdropWhile_endsLine_iff framed.valueLine, trim_rooted_iff, and_true]

/-- A line is read as the cookie it was written for exactly where the cookie is legible. -/
theorem reread_eq_some_iff {cookie : CookieSpec} (framed : cookie.Framed) :
    cookie.reread = some cookie.rooted ↔ cookie.Legible := by
  have isRead := readAs_eq_rooted_iff framed
  rw [CookieSpec.reread]
  cases isHttpOnly : cookie.httpOnly with
  | true =>
      rw [isHttpOnly] at isRead
      rw [if_pos rfl, Option.some.injEq, isRead]
      constructor
      · rintro ⟨name, value, domain, path, expires⟩
        exact ⟨name, value, domain, path, expires, by simp [isHttpOnly]⟩
      · rintro ⟨name, value, domain, path, expires, _⟩
        exact ⟨name, value, domain, path, expires⟩
  | false =>
      rw [isHttpOnly] at isRead
      rw [if_neg (by simp)]
      constructor
      · intro same
        split at same
        · have httpOnly := congrArg (Option.map CookieSpec.httpOnly) same
          simp [CookieSpec.readAs, CookieSpec.rooted, isHttpOnly] at httpOnly
        · split at same
          · cases same
          · next noComment =>
              obtain ⟨name, value, domain, path, expires⟩ := isRead.mp (Option.some.inj same)
              rw [trimStart_of_trim domain] at noComment
              exact ⟨name, value, domain, path, expires, fun _ => noComment⟩
      · rintro ⟨name, value, domain, path, expires, noComment⟩
        have noHash := noComment isHttpOnly
        have noMarker : ¬httpOnlyMarker <+: cookie.domain := by
          rintro ⟨rest, isDomain⟩
          exact noHash (by rw [← isDomain]; rfl)
        rw [if_neg noMarker, trimStart_of_trim domain, if_neg noHash,
          isRead.mpr ⟨name, value, domain, path, expires⟩]

theorem parse_format_iff {cookies : List CookieSpec} (framed : ∀ cookie ∈ cookies, cookie.Framed) :
    parseNetscapeJar (formatNetscapeJar cookies) = .ok (cookies.map CookieSpec.rooted) ↔
      ∀ cookie ∈ cookies, cookie.Legible := by
  rw [parse_format framed, Except.ok.injEq, List.filterMap_eq_map_iff_forall_eq_some]
  exact forall₂_congr fun cookie member => reread_eq_some_iff (framed cookie member)

/-! ## What is read -/

theorem not_mem_trim {char : Char} {text : List Char} (clean : char ∉ text) : char ∉ trim text :=
  fun member => clean (mem_of_mem_trim member)

theorem not_mem_dottedDomain {char : Char} (other : char ≠ '.') {flag : Bool} {domain : List Char}
    (clean : char ∉ domain) : char ∉ dottedDomain flag domain := by
  rw [dottedDomain]
  split
  · exact List.not_mem_cons_of_ne_of_not_mem other clean
  · exact clean

theorem trim_dottedDomain (flag : Bool) (domain : List Char) :
    trim (dottedDomain flag (trim domain)) = dottedDomain flag (trim domain) := by
  rw [dottedDomain]
  split
  · apply trim_eq_self_iff.mpr
    obtain ⟨_, solidLast⟩ := trim_eq_self_iff.mp (trim_trim domain)
    refine ⟨by simp; decide, ?_⟩
    intro last isLast
    rw [List.getLast?_cons] at isLast
    cases ends : (trim domain).getLast? with
    | none =>
        rw [ends] at isLast
        cases isLast
        decide
    | some char =>
        rw [ends] at isLast
        cases isLast
        exact solidLast char ends
  · exact trim_trim domain

theorem expires_ne_zero {text : List Char} {seconds : Int}
    (isNumber : parseSigned 64 text = some seconds) :
    (if seconds ≠ 0 then some (Int64.ofInt seconds) else none) ≠ some 0 := by
  obtain ⟨low, high⟩ := bounds_of_parseSigned isNumber
  split
  · next other =>
      intro zero
      apply other
      rw [← Int64.toInt_ofInt_of_le low high, Option.some.inj zero]
      rfl
  · nofun

/-- Before a domain that begins a comment stands no dot. -/
theorem head?_of_dottedDomain {flag : Bool} {domain : List Char}
    (isHash : (dottedDomain flag (trim domain)).head? = some '#') :
    (trimStart domain).head? = some '#' := by
  rw [dottedDomain] at isHash
  split at isHash
  · cases isHash
  · obtain ⟨others, isTrim⟩ := List.head?_eq_some_iff.mp isHash
    have begins : trim domain <+: trimStart domain := List.rdropWhile_prefix _ _
    obtain ⟨rest, isStart⟩ := begins
    rw [← isStart, isTrim]
    rfl

theorem head?_trimStart_append {char : Char} {text : List Char}
    (isHead : (trimStart text).head? = some char) (rest : List Char) :
    (trimStart (text ++ rest)).head? = some char := by
  obtain ⟨others, isStart⟩ := List.head?_eq_some_iff.mp isHead
  rw [trimStart] at isStart
  rw [trimStart, List.dropWhile_append, isStart]
  rfl

/-- A cookie that was read fits on a line and is legible. -/
theorem framed_and_legible_of_readFields {httpOnly : Bool} {number : Nat} {line : List Char}
    {cookie : CookieSpec} (clean : '\n' ∉ line) (ends : line.getLast? ≠ some '\r')
    (noComment : httpOnly = false → (trimStart line).head? ≠ some '#')
    (isRead : readFields httpOnly number line = .ok (some cookie)) :
    cookie.Framed ∧ cookie.Legible := by
  rw [readFields] at isRead
  split at isRead
  · next domain subdomains path secure expires name value more isSplit =>
      have isLine : ['\t'].intercalate
          (domain :: subdomains :: path :: secure :: expires :: name :: value :: more) = line := by
        rw [← isSplit]
        exact List.intercalate_splitOn '\t'
      have noTab : ∀ field ∈ domain :: subdomains :: path :: secure :: expires :: name ::
          value :: more, '\t' ∉ field := by
        rw [← isSplit]
        exact fun field member => not_mem_of_mem_splitOn member
      simp only [List.intercalate_cons_cons, List.append_assoc, List.singleton_append] at isLine
      obtain ⟨noDomain, noSubdomains, noPath, noSecure, noExpires, noName, noValue⟩ :
          '\n' ∉ domain ∧ '\n' ∉ subdomains ∧ '\n' ∉ path ∧ '\n' ∉ secure ∧ '\n' ∉ expires ∧
            '\n' ∉ name ∧ '\n' ∉ ['\t'].intercalate (value :: more) := by
        rw [← isLine] at clean
        simpa using clean
      split at isRead
      · cases isRead
      · next seconds isNumber =>
          cases isRead
          constructor
          · exact ⟨not_mem_trim (noTab name (by simp)),
              not_mem_dottedDomain (by decide) (not_mem_trim (noTab domain (by simp))),
              not_mem_trim (noTab path (by simp)), not_mem_trim noName, noValue,
              not_mem_dottedDomain (by decide) (not_mem_trim noDomain), not_mem_trim noPath⟩
          · refine ⟨trim_trim name, ?_, trim_dottedDomain _ domain, trim_trim path, ?_, ?_⟩
            · intro isReturn
              change (['\t'].intercalate (value :: more)).getLast? = some '\r' at isReturn
              obtain ⟨front, isValue⟩ := List.getLast?_eq_some_iff.mp isReturn
              have isBack : line = (domain ++ '\t' :: (subdomains ++ '\t' :: (path ++ '\t' ::
                  (secure ++ '\t' :: (expires ++ '\t' :: (name ++ '\t' :: front)))))) ++
                    ['\r'] := by
                rw [← isLine, isValue]
                simp
              exact ends (by rw [isBack, List.getLast?_concat])
            · exact expires_ne_zero isNumber
            · intro isHttpOnly isHash
              apply noComment isHttpOnly
              rw [← isLine]
              exact head?_trimStart_append (head?_of_dottedDomain isHash) _
  · cases isRead

theorem framed_and_legible_of_readLine {number : Nat} {raw : List Char} {cookie : CookieSpec}
    (clean : '\n' ∉ raw) (isRead : readLine number raw = .ok (some cookie)) :
    cookie.Framed ∧ cookie.Legible := by
  have isPart : raw.rdropWhile (· ∈ ['\r', '\n']) <+: raw := List.rdropWhile_prefix _ _
  have lineClean : '\n' ∉ raw.rdropWhile (· ∈ ['\r', '\n']) :=
    fun member => clean (isPart.subset member)
  have ends : (raw.rdropWhile (· ∈ ['\r', '\n'])).getLast? ≠ some '\r' :=
    (rdropWhile_endsLine_iff lineClean).mp (List.rdropWhile_idempotent endsLine raw)
  simp only [readLine] at isRead
  split at isRead
  · cases isRead
  · split at isRead
    · apply framed_and_legible_of_readFields _ _ (by simp) isRead
      · exact fun member => lineClean (List.mem_of_mem_drop member)
      · intro isReturn
        apply ends
        rw [List.getLast?_drop] at isReturn
        split at isReturn
        · cases isReturn
        · exact isReturn
    · split at isRead
      · cases isRead
      · next noComment =>
          exact framed_and_legible_of_readFields lineClean ends (fun _ => noComment) isRead

theorem framed_and_legible_of_readLines {number : Nat} {raws : List (List Char)}
    {cookies : List CookieSpec} (clean : ∀ raw ∈ raws, '\n' ∉ raw)
    (isRead : readLines number raws = .ok cookies) :
    ∀ cookie ∈ cookies, cookie.Framed ∧ cookie.Legible := by
  induction raws generalizing number cookies with
  | nil =>
      cases isRead
      simp
  | cons raw rest inductionHypothesis =>
      obtain ⟨noNewline, restClean⟩ := List.forall_mem_cons.mp clean
      rw [readLines] at isRead
      obtain ⟨first, isFirst, later⟩ := ok_of_bind isRead
      obtain ⟨others, isOthers, done⟩ := ok_of_bind later
      cases done
      intro cookie member
      rcases List.mem_append.mp member with isHere | inOthers
      · have same : first = some cookie := Option.mem_toList.mp isHere
        exact framed_and_legible_of_readLine noNewline (same ▸ isFirst)
      · exact inductionHypothesis restClean isOthers cookie inOthers

/-- A jar gives back the cookies that are legible and no others as they are, and what was read from
a jar is read again, up to the path of the root. -/
theorem jar_round_trip :
    (∀ cookies : List CookieSpec, (∀ cookie ∈ cookies, cookie.Framed) →
      (parseNetscapeJar (formatNetscapeJar cookies) = .ok (cookies.map CookieSpec.rooted) ↔
        ∀ cookie ∈ cookies, cookie.Legible)) ∧
    ∀ text cookies, parseNetscapeJar text = .ok cookies →
      parseNetscapeJar (formatNetscapeJar cookies) = .ok (cookies.map CookieSpec.rooted) := by
  refine ⟨fun cookies framed => parse_format_iff framed, ?_⟩
  intro text cookies isRead
  have accepted := framed_and_legible_of_readLines (fun raw member =>
    newline_not_mem_lines member) isRead
  exact (parse_format_iff fun cookie member => (accepted cookie member).1).mpr
    fun cookie member => (accepted cookie member).2

def sessionCookie : CookieSpec where
  name := "PHPSESSID".toList
  value := "q7v2n8m4k1".toList
  domain := ".forms.example.gov".toList
  path := []
  expiresUnix := none
  secure := true
  httpOnly := true

def sessionJar : List Char :=
  "#HttpOnly_forms.example.gov\tTRUE\t\ttrue\t0\tPHPSESSID\tq7v2n8m4k1\r\n".toList

theorem sessionCookie_round_trip :
    (parseNetscapeJar (formatNetscapeJar [sessionCookie]) = .ok [sessionCookie.rooted] ↔
      ∀ cookie ∈ [sessionCookie], cookie.Legible) ∧
      parseNetscapeJar (formatNetscapeJar [sessionCookie]) = .ok [sessionCookie.rooted] := by
  have framed : ∀ cookie ∈ [sessionCookie], cookie.Framed := by
    intro cookie member
    rw [List.mem_singleton.mp member]
    exact ⟨by decide, by decide, by decide, by decide, by decide, by decide, by decide⟩
  exact ⟨jar_round_trip.1 [sessionCookie] framed,
    jar_round_trip.2 sessionJar [sessionCookie] (by decide)⟩

/-- An expiry in second zero is lost, and a jar with an empty path is not read again as it was. -/
theorem not_every_jar_round_trips :
    parseNetscapeJar (formatNetscapeJar [{ sessionCookie with expiresUnix := some 0 }]) ≠
        .ok [{ sessionCookie with expiresUnix := some 0 }.rooted] ∧
      parseNetscapeJar sessionJar = .ok [sessionCookie] ∧
      parseNetscapeJar (formatNetscapeJar [sessionCookie]) ≠ .ok [sessionCookie] := by
  refine ⟨?_, ?_, ?_⟩
  · decide
  · decide
  · decide

end Yggterm.WebProfiles
