import Mathlib.Data.List.DropRight
import Yggterm.Library.Runs
import Yggterm.Reader.Titles

/-!
# The title tracker

`OscTitleTracker` (`yggterm-server/src/app_declare.rs`) reports the newest title of the
output while it arrives in chunks.  Between two chunks it keeps everything behind the
last title it read, up to a bound past which it drops all of it.  Its scan goes no
further than an escape that does not open an OSC.
-/

namespace Yggterm.Reader

open Runs Text

def oscTitlePendingMax : Nat := 1024

/-! ## The scan -/

/-- The digits as a `u32` that saturates. -/
def saturatingId (digits : List Char) : Nat :=
  digits.foldl (fun id digit =>
    min (min (id * 10) (2 ^ 32 - 1) + (digit.toNat - '0'.toNat)) (2 ^ 32 - 1)) 0

/-- What one turn of the loop does at its place: stop, go on at a later place, or take
a title and go on behind it. -/
inductive Look where
  | stop
  | goOn (rest : List Char)
  | title (payload rest : List Char)

def isPayload (char : Char) : Bool := char ≠ bel && char ≠ esc

/-- Behind the semicolon.  A bare escape breaks the payload off and is looked at again. -/
def lookPayload (text : List Char) : Look :=
  match text.dropWhile isPayload with
  | [] => .stop
  | close :: rest =>
      if close = bel then .title (text.takeWhile isPayload) rest
      else if rest.head? = some '\\' then .title (text.takeWhile isPayload) rest.tail
      else .goOn (close :: rest)

/-- Behind the opener. -/
def lookNumber (body : List Char) : Look :=
  let digits := body.takeWhile Char.isDigit
  let after := body.dropWhile Char.isDigit
  if digits = [] ∨ (saturatingId digits ≠ 0 ∧ saturatingId digits ≠ 2) then .goOn after
  else
    match after with
    | [] => .stop
    | separator :: text => if separator ≠ ';' then .goOn after else lookPayload text

/-- An escape that does not open an OSC may be the end of a split opener, so the scan
stops at it. -/
def look : List Char → Look
  | [] => .stop
  | char :: tail =>
      if char ≠ esc then .goOn tail
      else if tail.head? ≠ some ']' then .stop
      else lookNumber tail.tail

/-! ### What a turn sees -/

theorem saturatingId_eq (digits : List Char) :
    saturatingId digits = min (decimal digits) (2 ^ 32 - 1) := by
  have general : ∀ value, digits.foldl (fun id digit =>
        min (min (id * 10) (2 ^ 32 - 1) + (digit.toNat - '0'.toNat)) (2 ^ 32 - 1))
        (min value (2 ^ 32 - 1)) =
      min (digits.foldl (fun value digit => 10 * value + (digit.toNat - '0'.toNat)) value)
        (2 ^ 32 - 1) := by
    induction digits with
    | nil => exact fun value => rfl
    | cons digit rest inductionHypothesis =>
        intro value
        rw [List.foldl_cons, List.foldl_cons, ← inductionHypothesis]
        congr 1
        omega
  exact general 0

theorem setsTitle_iff (digits : List Char) :
    (digits ≠ [] ∧ (decimal digits = 0 ∨ decimal digits = 2)) ↔
      ¬ (digits = [] ∨ (saturatingId digits ≠ 0 ∧ saturatingId digits ≠ 2)) := by
  rw [saturatingId_eq, not_or]
  apply and_congr_right
  intro _
  omega

theorem titlePayload_append_of_payload {payload : List Char}
    (inside : ∀ char ∈ payload, isPayload char = true) (rest : List Char) :
    titlePayload (payload ++ rest) =
      (titlePayload rest).map fun found => (payload ++ found.1, found.2) := by
  induction payload with
  | nil => simp
  | cons char others inductionHypothesis =>
      obtain ⟨isInside, othersInside⟩ := List.forall_mem_cons.mp inside
      simp only [isPayload, Bool.and_eq_true, decide_eq_true_eq, ne_eq] at isInside
      rw [List.cons_append, titlePayload, if_neg isInside.1, if_neg isInside.2,
        inductionHypothesis othersInside, Option.map_map]
      rfl

theorem esc_not_mem_of_payload {payload : List Char}
    (inside : ∀ char ∈ payload, isPayload char = true) : esc ∉ payload := by
  intro member
  have isInside := inside esc member
  simp [isPayload] at isInside

/-- What a turn does with a part of its text, when `found` is the title there: it takes
the title, stops because no escape is left, or goes on where the next one may stand. -/
inductive Sees (found : Option (List Char × List Char)) (text : List Char) : Look → Prop where
  | title {payload later : List Char} (isTitle : found = some (payload, later)) :
      Sees found text (.title payload later)
  | stop (noTitle : found = none) (clean : esc ∉ text) : Sees found text .stop
  | goOn {skipped later : List Char} (noTitle : found = none) (isText : text = skipped ++ later)
      (clean : esc ∉ skipped) : Sees found text (.goOn later)

theorem Sees.append_left {found : Option (List Char × List Char)} {text : List Char} {seen : Look}
    (sees : Sees found text seen) (front : List Char) (clean : esc ∉ front) :
    Sees found (front ++ text) seen := by
  cases sees with
  | title isTitle => exact .title isTitle
  | stop noTitle textClean =>
      refine .stop noTitle ?_
      rw [List.mem_append]
      exact not_or.mpr ⟨clean, textClean⟩
  | goOn noTitle isText skippedClean =>
      rw [isText, ← List.append_assoc]
      refine .goOn noTitle rfl ?_
      rw [List.mem_append]
      exact not_or.mpr ⟨clean, skippedClean⟩

/-- The end of a payload is what `titlePayload` finds. -/
theorem lookPayload_sees (text : List Char) :
    Sees (titlePayload text) text (lookPayload text) := by
  have inside : ∀ char ∈ text.takeWhile isPayload, isPayload char = true :=
    fun char member => List.mem_takeWhile_imp member
  have clean := esc_not_mem_of_payload inside
  have parts : text = text.takeWhile isPayload ++ text.dropWhile isPayload :=
    List.takeWhile_append_dropWhile.symm
  have found := titlePayload_append_of_payload inside (text.dropWhile isPayload)
  rw [← parts] at found
  rw [lookPayload]
  cases ending : text.dropWhile isPayload with
  | nil =>
      rw [ending] at found parts
      refine .stop found ?_
      rw [parts, List.append_nil]
      exact clean
  | cons close rest =>
      rw [ending, titlePayload] at found
      rw [ending] at parts
      dsimp only
      by_cases isBel : close = bel
      · rw [if_pos isBel] at found ⊢
        exact .title (by simpa using found)
      · have isEsc : close = esc := by
          have outside := List.head?_dropWhile_not isPayload text
          rw [ending] at outside
          simpa [isPayload, isBel] using outside
        rw [if_neg isBel, if_pos isEsc] at found
        rw [if_neg isBel]
        by_cases follows : rest.head? = some '\\'
        · rw [if_pos follows] at found ⊢
          exact .title (by simpa using found)
        · rw [if_neg follows] at found ⊢
          exact .goOn found parts clean

theorem titleAt_opener (body : List Char) :
    titleAt (esc :: ']' :: body) =
      if ¬ (body.takeWhile Char.isDigit = [] ∨
            (saturatingId (body.takeWhile Char.isDigit) ≠ 0 ∧
              saturatingId (body.takeWhile Char.isDigit) ≠ 2)) ∧
          (body.dropWhile Char.isDigit).head? = some ';' then
        titlePayload (body.dropWhile Char.isDigit).tail
      else none := by
  simp only [titleAt, true_and]
  exact if_congr (and_congr_left fun _ => setsTitle_iff _) rfl rfl

theorem lookNumber_sees (body : List Char) :
    Sees (titleAt (esc :: ']' :: body)) body (lookNumber body) := by
  have clean : esc ∉ body.takeWhile Char.isDigit :=
    esc_not_mem_digits fun char member => List.mem_takeWhile_imp member
  have parts : body = body.takeWhile Char.isDigit ++ body.dropWhile Char.isDigit :=
    List.takeWhile_append_dropWhile.symm
  rw [titleAt_opener, lookNumber]
  by_cases other : body.takeWhile Char.isDigit = [] ∨
      (saturatingId (body.takeWhile Char.isDigit) ≠ 0 ∧
        saturatingId (body.takeWhile Char.isDigit) ≠ 2)
  · rw [if_pos other, if_neg fun sets => sets.1 other]
    exact .goOn rfl parts clean
  · rw [if_neg other]
    cases after : body.dropWhile Char.isDigit with
    | nil =>
        rw [after, List.append_nil] at parts
        rw [if_neg (by simp)]
        exact .stop rfl (parts ▸ clean)
    | cons separator text =>
        rw [after] at parts
        dsimp only
        by_cases isSeparator : separator = ';'
        · subst isSeparator
          have front : esc ∉ body.takeWhile Char.isDigit ++ [';'] := by
            rw [List.mem_append]
            exact not_or.mpr ⟨clean, by decide⟩
          have whole : body = (body.takeWhile Char.isDigit ++ [';']) ++ text := by
            rw [List.append_assoc]
            exact parts
          rw [if_neg (not_not.mpr rfl), if_pos ⟨other, rfl⟩, List.tail_cons]
          have sees := (lookPayload_sees text).append_left _ front
          rwa [← whole] at sees
        · rw [if_pos isSeparator, if_neg (by simp [isSeparator])]
          exact .goOn rfl parts clean

theorem titleAt_eq_none_of_head {text : List Char}
    (notOpener : ∀ body, text ≠ esc :: ']' :: body) : titleAt text = none := by
  by_contra isTitle
  obtain ⟨⟨payload, after⟩, found⟩ := Option.ne_none_iff_exists'.mp isTitle
  obtain ⟨sequence, isText, _⟩ := titleAt_eq_some found
  exact notOpener _ isText

/-- What a turn does at its place.  It stops at the end of the text, at an escape that is
no opener, and at an opener that is the last escape; it passes over text that holds no
escape behind its first letter. -/
inductive Turn (text : List Char) : Look → Prop where
  | title {payload later : List Char} (isTitle : titleAt text = some (payload, later)) :
      Turn text (.title payload later)
  | atEnd (isEnd : text = []) : Turn text .stop
  | atEscape {tail : List Char} (noTitle : titleAt text = none) (isText : text = esc :: tail)
      (final : tail.head? ≠ some ']' ∨ esc ∉ tail) : Turn text .stop
  | goOn {char : Char} {skipped later : List Char} (noTitle : titleAt text = none)
      (isText : text = char :: (skipped ++ later)) (clean : esc ∉ skipped) : Turn text (.goOn later)

theorem look_turn (text : List Char) : Turn text (look text) := by
  cases text with
  | nil => exact .atEnd rfl
  | cons char tail =>
      by_cases isEsc : char = esc
      · subst isEsc
        by_cases opens : tail.head? = some ']'
        · obtain ⟨body, rfl⟩ := List.head?_eq_some_iff.mp opens
          have looked : look (esc :: ']' :: body) = lookNumber body := by simp [look]
          have sees := (lookNumber_sees body).append_left [']'] (by decide)
          rw [looked]
          generalize lookNumber body = seen at sees
          cases sees with
          | title isTitle => exact .title isTitle
          | stop noTitle clean => exact .atEscape noTitle rfl (Or.inr clean)
          | goOn noTitle isText clean => exact .goOn noTitle (congrArg (esc :: ·) isText) clean
        · have looked : look (esc :: tail) = .stop := by simp [look, opens]
          rw [looked]
          refine .atEscape (titleAt_eq_none_of_head ?_) rfl (Or.inl opens)
          rintro body isTail
          rw [(List.cons.inj isTail).2] at opens
          exact opens rfl
      · have looked : look (char :: tail) = .goOn tail := by simp [look, isEsc]
        rw [looked]
        refine .goOn (titleAt_eq_none_of_head ?_) (rfl : char :: tail = char :: ([] ++ tail))
          List.not_mem_nil
        intro body isText
        exact isEsc (List.cons.inj isText).1

theorem titleAt_of_look_title {text payload later : List Char}
    (looked : look text = .title payload later) : titleAt text = some (payload, later) := by
  have turn := look_turn text
  rw [looked] at turn
  cases turn with
  | title isTitle => exact isTitle

theorem skip_of_look_goOn {text later : List Char} (looked : look text = .goOn later) :
    titleAt text = none ∧ ∃ char skipped, text = char :: (skipped ++ later) ∧ esc ∉ skipped := by
  have turn := look_turn text
  rw [looked] at turn
  cases turn with
  | goOn noTitle isText clean => exact ⟨noTitle, _, _, isText, clean⟩

theorem length_lt_of_look_goOn {text later : List Char} (looked : look text = .goOn later) :
    later.length < text.length := by
  obtain ⟨_, char, skipped, rfl, _⟩ := skip_of_look_goOn looked
  simp only [List.length_cons, List.length_append]
  omega

theorem length_lt_of_look_title {text payload later : List Char}
    (looked : look text = .title payload later) : later.length < text.length := by
  obtain ⟨sequence, rfl, _⟩ := titleAt_eq_some (titleAt_of_look_title looked)
  have positive := List.length_pos_iff.mpr sequence.text_ne_nil
  simp only [List.length_append]
  omega

/-- The loop of `observe`: `rest` stands at `i`, `kept` behind the last title read. -/
def scanTitles (kept rest : List Char) (result : Option (List Char)) :
    Option (List Char) × List Char :=
  match _looked : look rest with
  | .stop => (result, kept)
  | .goOn later => scanTitles kept later result
  | .title payload later =>
      let title := trim (payload.rdropWhile fun char => decide (char = bel))
      scanTitles later later (if title = [] then result else some title)
termination_by rest.length
decreasing_by
  · exact length_lt_of_look_goOn _looked
  · exact length_lt_of_look_title _looked

/-- `OscTitleTracker::observe`: the pending text after a chunk, and the title reported. -/
def observe (pending data : List Char) : List Char × Option (List Char) :=
  let pending := if oscTitlePendingMax < byteLength pending then [] else pending
  let scanned := scanTitles (pending ++ data) (pending ++ data) none
  (if oscTitlePendingMax < byteLength scanned.2 then [] else scanned.2, scanned.1)

/-! ## Chunks -/

structure TrackerState where
  pending : List Char
  seen : List Char
  reported : Option (List Char)
  deriving DecidableEq

/-- A chunk arrives; what it reports takes the place of the title before it. -/
def trackChunk (state : TrackerState) (chunk : List Char) : TrackerState where
  pending := (observe state.pending chunk).1
  seen := state.seen ++ chunk
  reported := (observe state.pending chunk).2.or state.reported

def freshTracker : TrackerState := ⟨[], [], none⟩

/-- The title reported last is the newest of the text so far. -/
def Current (state : TrackerState) : Prop :=
  state.reported = newestTitle state.seen

/-- The escape behind `earlier` is the end of a complete title sequence. -/
def ClosesTitle (earlier later : List Char) : Prop :=
  later.head? = some '\\' ∧
    ∃ (before : List Char) (sequence : TitleSequence),
      before ++ sequence.text = earlier ++ stringTerminator

/-- Every escape with a complete title somewhere behind it opens an OSC or closes a
title. -/
def EscapesKnown (text : List Char) : Prop :=
  ∀ earlier later, text = earlier ++ esc :: later → (titles.next later).isSome →
    later.head? = some ']' ∨ ClosesTitle earlier later

/-- The text ends in a title sequence that is not complete. -/
def EndsInTitle (text : List Char) : Prop :=
  ∃ (before begun more : List Char) (sequence : TitleSequence), text = before ++ begun ∧
    begun ≠ [] ∧ more ≠ [] ∧ sequence.text = begun ++ more

/-- The chunk brings no title behind an unknown escape, and what is left behind the last
title is not dropped in the middle of the next one. -/
def Tracks (state : TrackerState) (chunk : List Char) : Prop :=
  EscapesKnown (state.pending ++ chunk) ∧
    (oscTitlePendingMax < byteLength (titles.drain (state.pending ++ chunk)).2 →
      ¬ EndsInTitle (titles.drain (state.pending ++ chunk)).2)

/-! ## The scan finds every title -/

/-- Escapes stay known behind a beginning that no title leaves. -/
theorem EscapesKnown.of_append {skipped later : List Char}
    (known : EscapesKnown (skipped ++ later))
    (within : ∀ before begun (sequence : TitleSequence) after, skipped = before ++ begun →
      begun ≠ [] → begun ++ later = sequence.text ++ after → later.length ≤ after.length) :
    EscapesKnown later := by
  intro earlier behind isLater hasTitle
  have whole : skipped ++ later = (skipped ++ earlier) ++ esc :: behind := by
    rw [isLater, List.append_assoc]
  rcases known (skipped ++ earlier) behind whole hasTitle with
    opens | ⟨follows, before, sequence, isTitle⟩
  · exact Or.inl opens
  · right
    rw [List.append_assoc] at isTitle
    rcases List.append_eq_append_iff.mp isTitle with
      ⟨begun, isSkipped, isText⟩ | ⟨between, isBefore, isText⟩
    · by_cases empty : begun = []
      · subst empty
        exact ⟨follows, [], sequence, by simpa using isText⟩
      · obtain ⟨after, rfl⟩ := List.head?_eq_some_iff.mp follows
        have straddles : begun ++ later = sequence.text ++ after := by
          rw [isText, isLater]
          simp [stringTerminator]
        have short := within before begun sequence after isSkipped empty straddles
        rw [isLater] at short
        simp only [List.length_append, List.length_cons] at short
        omega
    · exact ⟨follows, between, sequence, isText.symm⟩

/-- No title begins in what a turn passes over. -/
theorem titleAt_skipped {text later : List Char} {char : Char} {skipped : List Char}
    (notTitle : titleAt text = none) (isText : text = char :: (skipped ++ later))
    (clean : esc ∉ skipped) {first second : List Char}
    (isSkipped : char :: skipped = first ++ second)
    (nonempty : second ≠ []) : titleAt (second ++ later) = none := by
  cases first with
  | nil =>
      obtain rfl : char :: skipped = second := isSkipped
      rw [List.cons_append, ← isText]
      exact notTitle
  | cons letter first =>
      apply titleAt_eq_none_of_head
      intro body opens
      obtain ⟨head, rest, rfl⟩ := List.exists_cons_of_ne_nil nonempty
      have isHead : head = esc := (List.cons.inj opens).1
      apply clean
      rw [(List.cons.inj isSkipped).2, isHead]
      simp

theorem next_of_look_goOn {text later : List Char} (looked : look text = .goOn later) :
    titles.next text = titles.next later := by
  obtain ⟨notTitle, char, skipped, isText, clean⟩ := skip_of_look_goOn looked
  rw [isText, ← List.cons_append]
  apply firstToken_append_of_skip
  intro first second isSkipped nonempty
  exact titleAt_skipped notTitle isText clean isSkipped nonempty

theorem EscapesKnown.of_look_goOn {text later : List Char} (known : EscapesKnown text)
    (looked : look text = .goOn later) : EscapesKnown later := by
  obtain ⟨notTitle, char, skipped, isText, clean⟩ := skip_of_look_goOn looked
  rw [isText, ← List.cons_append] at known
  apply known.of_append
  intro before begun sequence after isSkipped nonempty straddles
  have absent := titleAt_skipped notTitle isText clean isSkipped nonempty
  rw [straddles, titleAt_text] at absent
  cases absent

theorem next_of_look_stop {text : List Char} (known : EscapesKnown text)
    (looked : look text = .stop) : titles.next text = none := by
  have turn := look_turn text
  rw [looked] at turn
  cases turn with
  | atEnd isEnd =>
      rw [isEnd]
      rfl
  | @atEscape tail noTitle isText final =>
      subst isText
      have sameNext : titles.next (esc :: tail) = titles.next tail := firstToken_of_none noTitle
      rw [sameNext]
      by_contra hasTitle
      rcases final with notOpener | clean
      · rcases known [] tail rfl (Option.isSome_iff_ne_none.mpr hasTitle) with
          opens | ⟨_, before, sequence, isTitle⟩
        · exact notOpener opens
        · have short := congrArg List.length isTitle
          simp only [TitleSequence.text, stringTerminator, List.length_append, List.length_cons,
            List.length_nil] at short
          omega
      · obtain ⟨found, isFound⟩ := Option.ne_none_iff_exists'.mp hasTitle
        obtain ⟨before, later, rfl, isTitle⟩ := exists_of_firstToken isFound
        obtain ⟨sequence, rfl, _⟩ := titleAt_eq_some isTitle
        exact clean (by simp [TitleSequence.text])

theorem EscapesKnown.of_text {sequence : TitleSequence} {later : List Char}
    (known : EscapesKnown (sequence.text ++ later)) : EscapesKnown later := by
  apply known.of_append
  intro before begun other after isText nonempty straddles
  cases before with
  | nil =>
      obtain rfl : sequence.text = begun := isText
      have found := titleAt_text sequence later
      rw [straddles, titleAt_text] at found
      exact (congrArg List.length (Prod.mk.inj (Option.some.inj found)).2).ge
  | cons letter before =>
      obtain ⟨head, rest, rfl⟩ := List.exists_cons_of_ne_nil nonempty
      obtain rfl : head = esc := (List.cons.inj straddles).1
      obtain rfl := sequence.eq_of_escape_inside isText (List.cons_ne_nil letter before)
      have brackets : '\\' = ']' := (List.cons.inj (List.cons.inj straddles).2).1
      exact absurd brackets (by decide)

/-- The payload has no `BEL` to take off. -/
theorem rdropWhile_payload (sequence : TitleSequence) :
    sequence.payload.rdropWhile (fun char => decide (char = bel)) = sequence.payload := by
  apply List.rdropWhile_eq_self_iff.mpr
  intro nonempty isBel
  apply sequence.clean.1
  rw [← of_decide_eq_true isBel]
  exact List.getLast_mem nonempty

theorem kept_eq_drain (text : List Char) :
    (if (titles.drain text).1 = [] then text else (titles.drain text).2) =
      (titles.drain text).2 := by
  split
  · next noTitle => rw [Tokenizer.drain_snd_of_nil noTitle]
  · rfl

/-- With known escapes the scan takes every title, and keeps what follows the last. -/
theorem scanTitles_eq {kept rest : List Char} {result : Option (List Char)}
    (known : EscapesKnown rest) :
    scanTitles kept rest result =
      ((newest (titles.drain rest).1).or result,
        if (titles.drain rest).1 = [] then kept else (titles.drain rest).2) := by
  rw [scanTitles]
  split
  · next stops =>
      rw [Tokenizer.drain_of_none (next_of_look_stop known stops)]
      rfl
  · next later goesOn =>
      have shorter := length_lt_of_look_goOn goesOn
      obtain ⟨sameTitles, sameEnd⟩ := Tokenizer.drain_congr (next_of_look_goOn goesOn)
      rw [scanTitles_eq (known.of_look_goOn goesOn), sameTitles]
      by_cases noTitle : (titles.drain later).1 = []
      · rw [if_pos noTitle, if_pos noTitle]
      · rw [if_neg noTitle, if_neg noTitle, sameEnd noTitle]
  · next payload later looked =>
      have shorter := length_lt_of_look_title looked
      have found := titleAt_of_look_title looked
      obtain ⟨sequence, rfl, rfl⟩ := titleAt_eq_some found
      have takes : titles.next (sequence.text ++ later) = some (sequence.payload, later) :=
        firstToken_of_some found
      rw [scanTitles_eq known.of_text, Tokenizer.drain_of_some takes, rdropWhile_payload,
        newest_cons, kept_eq_drain, if_neg (List.cons_ne_nil _ _), Option.or_assoc]
      by_cases blank : trim sequence.payload = []
      · simp only [blank, if_true, Option.none_or]
      · simp only [blank, if_false, Option.some_or]
termination_by rest.length

/-! ## Runs -/

/-- What does not end in a title sequence may be dropped. -/
theorem resumes_nil_of_not_endsInTitle {text : List Char} (noTitle : titles.next text = none)
    (settled : ¬ EndsInTitle text) : titles.Resumes [] text := by
  intro more
  symm
  apply firstToken_append_of_skip
  intro before begun isText nonempty
  by_contra isTitle
  obtain ⟨⟨payload, after⟩, found⟩ := Option.ne_none_iff_exists'.mp isTitle
  obtain ⟨sequence, straddles, _⟩ := titleAt_eq_some found
  rcases List.append_eq_append_iff.mp straddles with ⟨rest, isSequence, _⟩ | ⟨rest, isBegun, _⟩
  · by_cases complete : rest = []
    · have absent := tokenAt_of_firstToken_eq_none noTitle isText nonempty
      rw [complete, List.append_nil] at isSequence
      have here := titleAt_text sequence []
      rw [List.append_nil, isSequence, absent] at here
      cases here
    · exact settled ⟨before, begun, rest, sequence, isText, nonempty, complete, isSequence⟩
  · have absent := tokenAt_of_firstToken_eq_none noTitle isText nonempty
    rw [isBegun, titleAt_text] at absent
    cases absent

/-- The invariant of a tracked run: what is pending goes on as the text so far does. -/
structure Tracked (state : TrackerState) : Prop where
  current : Current state
  resumes : titles.Resumes state.pending (titles.drain state.seen).2
  bounded : byteLength state.pending ≤ oscTitlePendingMax

theorem observe_eq {pending chunk : List Char} (bounded : byteLength pending ≤ oscTitlePendingMax)
    (known : EscapesKnown (pending ++ chunk)) :
    observe pending chunk =
      (if oscTitlePendingMax < byteLength (titles.drain (pending ++ chunk)).2 then []
        else (titles.drain (pending ++ chunk)).2, newestTitle (pending ++ chunk)) := by
  simp only [observe, if_neg (not_lt.mpr bounded), scanTitles_eq known, kept_eq_drain,
    Option.or_none, newestTitle]

theorem tracked_trackChunk (state : TrackerState) (chunk : List Char) (tracked : Tracked state)
    (tracks : Tracks state chunk) : Tracked (trackChunk state chunk) := by
  obtain ⟨known, settled⟩ := tracks
  obtain ⟨sameTitles, resumes⟩ := tracked.resumes.drain chunk
  have whole : titles.drain (state.seen ++ chunk) = _ := Tokenizer.drain_append state.seen chunk
  have observed := observe_eq tracked.bounded known
  constructor
  · have before : state.reported = newestTitle state.seen := tracked.current
    change (observe state.pending chunk).2.or state.reported = newestTitle (state.seen ++ chunk)
    rw [observed, before, newestTitle, newestTitle, newestTitle, whole, newest_append, sameTitles]
  · change titles.Resumes (observe state.pending chunk).1 (titles.drain (state.seen ++ chunk)).2
    rw [observed, whole]
    dsimp only
    split
    · next long =>
        have dropped := resumes_nil_of_not_endsInTitle (Tokenizer.next_drain _) (settled long)
        exact dropped.trans resumes
    · exact resumes
  · change byteLength (observe state.pending chunk).1 ≤ oscTitlePendingMax
    rw [observed]
    dsimp only
    split
    · exact Nat.zero_le _
    · next short => exact not_lt.mp short

/-- However the text is cut, the title reported last is the newest one of the text so far
if every chunk is tracked. -/
theorem reports_newestTitle {chunks : List (List Char)}
    (tracks : Guarded trackChunk Tracks freshTracker chunks) :
    Always trackChunk Current freshTracker chunks := by
  apply always_of_guarded tracked_trackChunk (fun _ tracked => tracked.current) _ tracks
  constructor
  · simp [Current, freshTracker, newestTitle, newest]
  · simp only [freshTracker, Tokenizer.drain_nil]
    exact Tokenizer.Resumes.refl []
  · exact Nat.zero_le _

/-- A text that begins with its only escape, an opener. -/
theorem escapesKnown_of_opener {rest : List Char} (clean : esc ∉ rest) :
    EscapesKnown (esc :: ']' :: rest) := by
  intro earlier later isText _
  cases earlier with
  | nil =>
      left
      rw [← (List.cons.inj isText).2]
      rfl
  | cons letter earlier =>
      have member : esc ∈ ']' :: rest := by
        rw [(List.cons.inj isText).2]
        simp
      exact absurd member (List.not_mem_cons_of_ne_of_not_mem (by decide) clean)

theorem tracks_of_short {state : TrackerState} {chunk : List Char}
    (known : EscapesKnown (state.pending ++ chunk))
    (short : byteLength (state.pending ++ chunk) ≤ oscTitlePendingMax) : Tracks state chunk := by
  refine ⟨known, fun long => ?_⟩
  obtain ⟨taken, isText⟩ := Tokenizer.drain_suffix titles_front (state.pending ++ chunk)
  rw [← isText, byteLength_append] at short
  omega

/-- A title cut in two. -/
def splitTitle : List (List Char) :=
  [[esc, ']', '0', ';', 'a'], ['b', bel, ' ']]

theorem splitTitle_tracks : Guarded trackChunk Tracks freshTracker splitTitle := by
  refine ⟨?_, ?_, trivial⟩
  · exact tracks_of_short (escapesKnown_of_opener (by decide)) (by decide)
  · have pending : (trackChunk freshTracker [esc, ']', '0', ';', 'a']).pending =
        [esc, ']', '0', ';', 'a'] := by decide +kernel
    apply tracks_of_short
    · rw [pending]
      exact escapesKnown_of_opener (by decide)
    · rw [pending]
      decide

theorem splitTitle_reported :
    Guarded trackChunk Tracks freshTracker splitTitle ∧
      Always trackChunk Current freshTracker splitTitle :=
  ⟨splitTitle_tracks, reports_newestTitle splitTitle_tracks⟩

/-- A title behind a change of colour. -/
def colouredTitle : List (List Char) :=
  [[esc, '[', 'm', esc, ']', '0', ';', 't', bel]]

theorem colouredTitle_not_current :
    (∀ chunk ∈ colouredTitle, byteLength chunk ≤ oscTitlePendingMax) ∧
      ¬ Always trackChunk Current freshTracker colouredTitle := by
  refine ⟨by decide, fun always => ?_⟩
  have current : Current (run trackChunk freshTracker colouredTitle) := always.2
  exact absurd current (by unfold Current; decide +kernel)

end Yggterm.Reader
