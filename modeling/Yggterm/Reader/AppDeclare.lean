import Yggterm.Library.Text
import Yggterm.Library.Tokens
import Yggterm.Reader.Osc

/-!
# Scanning for app declares

`AppDeclareScanner` (`yggterm-server/src/app_declare.rs`) lifts OSC 7717 messages
off the output while it arrives in chunks.  Between two chunks it keeps the open
sequence, or the few bytes in which a prefix may have begun.
-/

namespace Yggterm.Reader

open Search Text

universe u

/-- `ESC ] 7717 ;` -/
def oscPrefix : List Char := [esc, ']', '7', '7', '1', '7', ';']

def maxPendingBytes : Nat := 64 * 1024

/-! ## Messages -/

inductive Retention where
  | store
  | clear
  | ignore
  deriving DecidableEq

def retentionFor (verb action : String) : Retention :=
  match verb, action with
  | "web-surface", "open" => .store
  | "web-surface", "heartbeat" => .store
  | "web-surface", "close" => .clear
  | "web-surface", "seen" => .ignore
  | "web-surface", "pick" => .store
  | "sidebar", "declare" => .store
  | "sidebar", "close" => .store
  | "fido2", _ => .ignore
  | "announce", "state" => .store
  | _, _ => .ignore

structure AppDeclareMessage (Value : Type u) where
  verb : String
  action : String
  payload : Value
  deriving DecidableEq

/-- The payload decoders, which are third-party: base64, then JSON. -/
structure PayloadCodec (Value : Type u) where
  null : Value
  decode : List Char → Option (List UInt8)
  fromSlice : List UInt8 → Option Value

/-- The part up to the next `;`, and what follows it if there is one. -/
def splitOnce (text : List Char) : List Char × Option (List Char) :=
  match findText [';'] text with
  | some (part, rest) => (part, some rest)
  | none => (text, none)

/-- `parse_declare_body`: at most three parts, the third undivided. -/
def parseDeclareBody {Value : Type u} (codec : PayloadCodec Value) (body : List Char) :
    Option (AppDeclareMessage Value) :=
  let (verbPart, afterVerb) := splitOnce body
  match afterVerb with
  | none => none
  | some afterVerb =>
      let (actionPart, encoded) := splitOnce afterVerb
      let verb := String.ofList (trim verbPart)
      let action := String.ofList (trim actionPart)
      if verb = "" ∨ action = "" then none
      else if retentionFor verb action = .ignore then none
      else
        let payload :=
          match encoded with
          | some encoded =>
              if trim encoded = [] then some codec.null
              else (codec.decode (trim encoded)).bind codec.fromSlice
          | none => some codec.null
        payload.map fun payload => { verb, action, payload }

/-! ## The scanner -/

/-- `find_terminator`: BEL or ST, whichever comes first. -/
def findTerminator (rest : List Char) : Option Closing :=
  nearer (findText [bel] rest) (findText stringTerminator rest)

theorem findTerminator_eq_closing (rest : List Char) : findTerminator rest = closing rest :=
  nearer_findText rest

/-- `keep_possible_prefix_tail`: the last six bytes, from a character boundary on. -/
def keepPossiblePrefixTail : List Char → List Char
  | [] => []
  | char :: rest =>
      if byteLength (char :: rest) ≤ byteLength oscPrefix - 1 then char :: rest
      else keepPossiblePrefixTail rest

theorem findText_shrinks {text before after : List Char}
    (found : findText oscPrefix text = some (before, after)) : after.length < text.length :=
  length_lt_of_findText (by simp [oscPrefix]) found

section Scan

variable {Value : Type u} (codec : PayloadCodec Value)

/-- The loop of `scan`: the messages, and what is left pending. -/
def scanPending (pending : List Char) : List (AppDeclareMessage Value) × List Char :=
  match _opened : findText oscPrefix pending with
  | none => ([], keepPossiblePrefixTail pending)
  | some (_, body) =>
      match _closed : findTerminator body with
      | none =>
          ([], if maxPendingBytes < byteLength (oscPrefix ++ body) then [] else oscPrefix ++ body)
      | some closed =>
          ((parseDeclareBody codec closed.content).toList ++ (scanPending closed.rest).1,
            (scanPending closed.rest).2)
termination_by pending.length
decreasing_by
  all_goals
    rw [findTerminator_eq_closing] at _closed
    exact Nat.lt_of_le_of_lt (closing_shrinks _closed) (findText_shrinks _opened)

/-- `AppDeclareScanner::scan`: the messages of a chunk and the pending text after
it. -/
def scan (pending data : List Char) : List (AppDeclareMessage Value) × List Char :=
  if pending = [] ∧ esc ∉ data then ([], [])
  else scanPending codec (pending ++ data)

/-- A fresh scanner fed chunk after chunk. -/
def scanChunks (chunks : List (List Char)) : List (AppDeclareMessage Value) × List Char :=
  chunks.foldl (fun scanned data =>
    (scanned.1 ++ (scan codec scanned.2 data).1, (scan codec scanned.2 data).2)) ([], [])

end Scan

/-! ## The sequences as tokens -/

/-- The content of the first complete sequence, and what follows it. -/
def nextDeclare (text : List Char) : Option (List Char × List Char) :=
  (findText oscPrefix text).bind fun opened =>
    (closing opened.2).map fun closed => (closed.content, closed.rest)

theorem nextDeclare_eq_some {text content rest : List Char}
    (taken : nextDeclare text = some (content, rest)) :
    ∃ before body closed, findText oscPrefix text = some (before, body) ∧
      closing body = some closed ∧ closed.content = content ∧ closed.rest = rest := by
  obtain ⟨⟨before, body⟩, opened, inBody⟩ := Option.bind_eq_some_iff.mp taken
  obtain ⟨closed, found, isClosed⟩ := Option.map_eq_some_iff.mp inBody
  cases isClosed
  exact ⟨before, body, closed, opened, found, rfl, rfl⟩

def declares : Tokenizer Char (List Char) where
  next := nextDeclare
  shrinks := by
    intro text content rest taken
    obtain ⟨before, body, closed, opened, found, _, rfl⟩ := nextDeclare_eq_some taken
    exact Nat.lt_of_le_of_lt (closing_shrinks found) (findText_shrinks opened)
  stable := by
    intro text content rest taken more
    obtain ⟨before, body, closed, opened, found, rfl, rfl⟩ := nextDeclare_eq_some taken
    simp [nextDeclare, findText_append opened more, closing_append found more]

theorem declares_front (text content rest : List Char)
    (taken : declares.next text = some (content, rest)) : rest <:+ text := by
  obtain ⟨before, body, closed, opened, found, _, rfl⟩ := nextDeclare_eq_some taken
  have whole :
      text = (before ++ oscPrefix ++ closed.content ++ closed.terminator) ++ closed.rest := by
    rw [findText_eq opened]
    nth_rewrite 1 [closing_eq found]
    simp
  exact ⟨_, whole.symm⟩

/-- What the scanner keeps of a text without a complete sequence. -/
def keepPending (rest : List Char) : List Char :=
  match findText oscPrefix rest with
  | none => keepPossiblePrefixTail rest
  | some (_, body) =>
      if maxPendingBytes < byteLength (oscPrefix ++ body) then [] else oscPrefix ++ body

theorem scanPending_eq {Value : Type u} (codec : PayloadCodec Value) (pending : List Char) :
    scanPending codec pending =
      ((declares.drain pending).1.flatMap fun content => (parseDeclareBody codec content).toList,
        keepPending (declares.drain pending).2) := by
  rw [scanPending]
  split
  · next absent =>
      have waits : declares.next pending = none := by simp [declares, nextDeclare, absent]
      rw [Tokenizer.drain_of_none waits]
      simp [keepPending, absent]
  · next before body opened =>
      split
      · next isOpen =>
          rw [findTerminator_eq_closing] at isOpen
          have waits : declares.next pending = none := by
            simp [declares, nextDeclare, opened, isOpen]
          rw [Tokenizer.drain_of_none waits]
          simp [keepPending, opened]
      · next closed found =>
          rw [findTerminator_eq_closing] at found
          have takes : declares.next pending = some (closed.content, closed.rest) := by
            simp [declares, nextDeclare, opened, found]
          have shorter := declares.shrinks pending _ _ takes
          rw [Tokenizer.drain_of_some takes, scanPending_eq codec closed.rest]
          simp
termination_by pending.length

/-! ## What may be forgotten -/

theorem nextDeclare_of_skip {skipped text : List Char}
    (nothing : ∀ first second, skipped = first ++ second → second ≠ [] →
      ¬ oscPrefix <+: second ++ text) :
    nextDeclare (skipped ++ text) = nextDeclare text := by
  rw [nextDeclare, findText_append_of_skip nothing, nextDeclare, Option.bind_map]
  rfl

/-- Text without an escape, before anything is pending. -/
theorem resumes_nil {data : List Char} (plain : esc ∉ data) : declares.Resumes [] data := by
  intro more
  symm
  apply nextDeclare_of_skip
  intro first second isData nonempty here
  apply plain
  obtain ⟨char, rest, rfl⟩ := List.exists_cons_of_ne_nil nonempty
  obtain ⟨_, isText⟩ := here
  have isEsc : esc = char := (List.cons.inj isText).1
  simp [isData, isEsc]

theorem byteLength_of_isPrefix_oscPrefix {text : List Char} (isPrefix : text <+: oscPrefix) :
    byteLength text = text.length := by
  have ascii : ∀ char ∈ oscPrefix, char.utf8Size = 1 := by
    simp only [oscPrefix, List.forall_mem_cons]
    exact ⟨rfl, rfl, rfl, rfl, rfl, rfl, rfl, by simp⟩
  apply byteLength_eq_length
  intro char member
  exact ascii char (isPrefix.subset member)

theorem keepPossiblePrefixTail_spec (text : List Char) :
    byteLength (keepPossiblePrefixTail text) ≤ 6 ∧
      ∃ skipped, text = skipped ++ keepPossiblePrefixTail text ∧
        ∀ first second, skipped = first ++ second → second ≠ [] →
          6 < byteLength (second ++ keepPossiblePrefixTail text) := by
  induction text with
  | nil => exact ⟨Nat.zero_le _, [], rfl, by simp⟩
  | cons char rest inductionHypothesis =>
      rw [keepPossiblePrefixTail]
      split
      · next short => exact ⟨short, [], rfl, by simp⟩
      · next long =>
          obtain ⟨bounded, skipped, isRest, maximal⟩ := inductionHypothesis
          refine ⟨bounded, char :: skipped, by rw [List.cons_append, ← isRest], ?_⟩
          intro first second isSkipped nonempty
          cases first with
          | nil =>
              obtain rfl : char :: skipped = second := isSkipped
              rw [List.cons_append, ← isRest]
              exact Nat.lt_of_not_le long
          | cons head others =>
              exact maximal others second (List.cons.inj isSkipped).2 nonempty

/-- The kept tail is enough: an occurrence that begins before it would be complete,
or shorter than the prefix. -/
theorem resumes_keepPossiblePrefixTail {text : List Char}
    (absent : findText oscPrefix text = none) :
    declares.Resumes (keepPossiblePrefixTail text) text := by
  obtain ⟨_, skipped, isText, maximal⟩ := keepPossiblePrefixTail_spec text
  generalize keepPossiblePrefixTail text = kept at *
  intro more
  rw [isText, List.append_assoc]
  symm
  apply nextDeclare_of_skip
  intro first second isSkipped nonempty here
  have long := maximal first second isSkipped nonempty
  rw [← List.append_assoc] at here
  have cut : second ++ kept <+: (second ++ kept) ++ more := List.prefix_append _ more
  have split : text = first ++ (second ++ kept) := by rw [isText, isSkipped, List.append_assoc]
  have incomplete := not_isPrefix_of_findText_eq_none absent split
  rcases List.prefix_or_prefix_of_prefix here cut with complete | short
  · exact incomplete complete
  · have size := byteLength_of_isPrefix_oscPrefix short
    have count : (second ++ kept).length ≤ 7 := short.length_le
    have whole : second ++ kept = oscPrefix := short.eq_of_length (by
      change (second ++ kept).length = 7
      omega)
    exact incomplete (by rw [whole])

theorem resumes_oscPrefix {text before body : List Char}
    (opened : findText oscPrefix text = some (before, body)) :
    declares.Resumes (oscPrefix ++ body) text := by
  intro more
  have front : findText oscPrefix (oscPrefix ++ (body ++ more)) = some ([], body ++ more) :=
    findText_append_self (by simp [oscPrefix]) _
  change nextDeclare ((oscPrefix ++ body) ++ more) = nextDeclare (text ++ more)
  rw [nextDeclare, nextDeclare, List.append_assoc, front, findText_append opened more]
  rfl

/-! ## Chunks -/

/-- Every sequence of the text, to its terminator or to the end of the text, is
small enough to be kept. -/
def DeclaresFit (text : List Char) : Prop :=
  ∀ before body, text = before ++ (oscPrefix ++ body) →
    byteLength (oscPrefix ++ stringBody body) ≤ maxPendingBytes

theorem DeclaresFit.of_append {first second : List Char} (fit : DeclaresFit (first ++ second)) :
    DeclaresFit first := by
  intro before body isFirst
  have whole : first ++ second = before ++ (oscPrefix ++ (body ++ second)) := by simp [isFirst]
  have small := fit before (body ++ second) whole
  have grows := byteLength_stringBody_append body second
  simp only [byteLength_append] at small ⊢
  omega

theorem declaresFit_of_short {text : List Char} (short : byteLength text ≤ maxPendingBytes) :
    DeclaresFit text := by
  intro before body isText
  have within := byteLength_stringBody_le body
  rw [isText] at short
  simp only [byteLength_append] at short ⊢
  omega

/-- What may be pending after a text: nothing, a short end of it in which no prefix
is complete, or a sequence that is still open. -/
inductive IsPending (text : List Char) : List Char → Prop where
  | empty : IsPending text []
  | tail {pending : List Char} (isSuffix : pending <:+ text) (short : byteLength pending ≤ 6)
      (incomplete : findText oscPrefix pending = none) : IsPending text pending
  | unterminated {body : List Char} (isSuffix : oscPrefix ++ body <:+ text)
      (isOpen : closing body = none) : IsPending text (oscPrefix ++ body)

theorem IsPending.suffix {text pending : List Char} (kept : IsPending text pending) :
    pending <:+ text := by
  cases kept with
  | empty => exact List.nil_suffix
  | tail isSuffix => exact isSuffix
  | unterminated isSuffix => exact isSuffix

theorem keepPossiblePrefixTail_isPending {text rest : List Char} (isEnd : rest <:+ text)
    (absent : findText oscPrefix rest = none) : IsPending text (keepPossiblePrefixTail rest) := by
  obtain ⟨short, skipped, isRest, _⟩ := keepPossiblePrefixTail_spec rest
  have isSuffix : keepPossiblePrefixTail rest <:+ rest := ⟨skipped, isRest.symm⟩
  refine .tail (isSuffix.trans isEnd) short ?_
  by_contra found
  obtain ⟨⟨before, after⟩, found⟩ := Option.ne_none_iff_exists'.mp found
  have split : rest = (skipped ++ before) ++ (oscPrefix ++ after) := by
    rw [List.append_assoc, ← findText_eq found, ← isRest]
  exact not_isPrefix_of_findText_eq_none absent split (List.prefix_append oscPrefix after)

/-- What is kept of the end of a text is of the three kinds, and it is enough. -/
theorem keepPending_spec {text rest : List Char} (fit : DeclaresFit text) (isEnd : rest <:+ text)
    (waits : declares.next rest = none) :
    IsPending text (keepPending rest) ∧ declares.Resumes (keepPending rest) rest := by
  unfold keepPending
  split
  · next absent =>
      exact ⟨keepPossiblePrefixTail_isPending isEnd absent, resumes_keepPossiblePrefixTail absent⟩
  · next before body opened =>
      have isOpen : closing body = none := by
        simpa [declares, nextDeclare, opened] using waits
      have isSuffix : oscPrefix ++ body <:+ text :=
        List.IsSuffix.trans ⟨before, (findText_eq opened).symm⟩ isEnd
      obtain ⟨front, isText⟩ := isSuffix
      have small := fit front body isText.symm
      rw [stringBody, isOpen] at small
      rw [if_neg (Nat.not_lt.mpr small)]
      exact ⟨.unterminated ⟨front, isText⟩ isOpen, resumes_oscPrefix opened⟩

section Chunks

variable {Value : Type u} (codec : PayloadCodec Value)

/-- The scanner after a text, told by the tokens of the text. -/
structure Scanned (text : List Char) (messages : List (AppDeclareMessage Value))
    (pending : List Char) : Prop where
  messages_eq : messages =
    (declares.drain text).1.flatMap fun content => (parseDeclareBody codec content).toList
  isPending : IsPending text pending
  resumes : declares.Resumes pending (declares.drain text).2

variable {codec}

theorem Scanned.scan {text data pending : List Char} {messages : List (AppDeclareMessage Value)}
    (scanned : Scanned codec text messages pending) (fit : DeclaresFit (text ++ data)) :
    Scanned codec (text ++ data) (messages ++ (scan codec pending data).1)
      (scan codec pending data).2 := by
  obtain ⟨sameTokens, resumes⟩ := scanned.resumes.drain data
  have tokens : declares.drain (text ++ data) = _ := Tokenizer.drain_append text data
  rw [Yggterm.Reader.scan]
  split
  · next plain =>
      -- no escape and nothing pending: the chunk is not even looked at
      obtain ⟨rfl, plain⟩ := plain
      have forgets := resumes_nil plain
      have waits : declares.next data = none := by
        have same := forgets []
        rw [List.append_nil data] at same
        exact same.symm
      rw [List.nil_append, Tokenizer.drain_of_none waits] at sameTokens resumes
      refine ⟨?_, .empty, ?_⟩
      · rw [tokens, ← sameTokens, scanned.messages_eq]
        simp
      · rw [tokens]
        exact forgets.trans resumes
  · have isEnd : (declares.drain (pending ++ data)).2 <:+ text ++ data := by
      obtain ⟨front, isText⟩ := scanned.isPending.suffix
      refine (Tokenizer.drain_suffix declares_front (pending ++ data)).trans ⟨front, ?_⟩
      rw [← List.append_assoc, isText]
    obtain ⟨isPending, keeps⟩ := keepPending_spec fit isEnd (Tokenizer.next_drain _)
    rw [scanPending_eq]
    refine ⟨?_, isPending, ?_⟩
    · rw [tokens, ← sameTokens, scanned.messages_eq, List.flatMap_append]
    · rw [tokens]
      exact keeps.trans resumes

theorem scanned_nil : Scanned codec [] [] [] := by
  have waits : declares.next [] = none := rfl
  refine ⟨?_, .empty, ?_⟩
  · rw [Tokenizer.drain_of_none waits]
    rfl
  · rw [Tokenizer.drain_of_none waits]
    exact Tokenizer.Resumes.refl []

theorem scanned_scanChunks {chunks : List (List Char)} (fit : DeclaresFit chunks.flatten) :
    Scanned codec chunks.flatten (scanChunks codec chunks).1 (scanChunks codec chunks).2 := by
  induction chunks using List.reverseRecOn with
  | nil => exact scanned_nil
  | append_singleton chunks data inductionHypothesis =>
      have fed : scanChunks codec (chunks ++ [data]) =
          ((scanChunks codec chunks).1 ++ (scan codec (scanChunks codec chunks).2 data).1,
            (scan codec (scanChunks codec chunks).2 data).2) := by
        simp [scanChunks]
      rw [List.flatten_concat] at fit
      rw [List.flatten_concat, fed]
      exact (inductionHypothesis fit.of_append).scan fit

variable (codec)

/-- Where a text is cut makes no difference to the messages, and the scanner keeps
no more than it needs. -/
theorem scanChunks_eq_scan (chunks : List (List Char)) (fit : DeclaresFit chunks.flatten) :
    (scanChunks codec chunks).1 = (scan codec [] chunks.flatten).1 ∧
      ∀ seen, seen <+: chunks → IsPending seen.flatten (scanChunks codec seen).2 := by
  constructor
  · have inChunks : Scanned codec chunks.flatten (scanChunks codec chunks).1 _ :=
      scanned_scanChunks fit
    have atOnce : Scanned codec chunks.flatten (scan codec [] chunks.flatten).1 _ :=
      scanned_nil.scan fit
    exact inChunks.messages_eq.trans atOnce.messages_eq.symm
  · intro seen isSeen
    obtain ⟨later, rfl⟩ := isSeen
    rw [List.flatten_append] at fit
    exact (scanned_scanChunks fit.of_append).isPending

end Chunks

/-- A codec that reads nothing. -/
def nullCodec : PayloadCodec Unit where
  null := ()
  decode := fun _ => none
  fromSlice := fun _ => none

/-- A `sidebar;close` whose prefix is cut in two. -/
theorem scanChunks_of_cut_close :
    ∃ chunks : List (List Char), chunks.length = 2 ∧ DeclaresFit chunks.flatten ∧
      ((scanChunks nullCodec chunks).1 = (scan nullCodec [] chunks.flatten).1 ∧
        ∀ seen, seen <+: chunks → IsPending seen.flatten (scanChunks nullCodec seen).2) := by
  have fit : DeclaresFit
      [esc :: "]77".toList, "17;sidebar;close".toList ++ [bel]].flatten :=
    declaresFit_of_short (by decide)
  exact ⟨_, rfl, fit, scanChunks_eq_scan nullCodec _ fit⟩

/-- A colour reset at the end of a chunk is kept, though no prefix begins like it. -/
theorem pending_keeps_colour_reset :
    ¬ ∀ chunks : List (List Char), DeclaresFit chunks.flatten →
      (scanChunks nullCodec chunks).1 = (scan nullCodec [] chunks.flatten).1 ∧
        ∀ seen, seen <+: chunks →
          (scanChunks nullCodec seen).2 = [] ∨
            ((scanChunks nullCodec seen).2 <+: oscPrefix ∧
              (scanChunks nullCodec seen).2 ≠ oscPrefix ∧
              byteLength (scanChunks nullCodec seen).2 ≤ 6) ∨
            ∃ body, (scanChunks nullCodec seen).2 = oscPrefix ++ body ∧ closing body = none := by
  intro always
  have fit : DeclaresFit [esc :: "[0m".toList].flatten := declaresFit_of_short (by decide)
  have kept : (scanChunks nullCodec [esc :: "[0m".toList]).2 = esc :: "[0m".toList := by
    have waits : declares.next ([] ++ esc :: "[0m".toList) = none := by decide
    change (scan nullCodec [] (esc :: "[0m".toList)).2 = _
    rw [scan, if_neg (by decide), scanPending_eq, Tokenizer.drain_of_none waits]
    decide
  have shape := (always _ fit).2 _ List.prefix_rfl
  rw [kept] at shape
  revert shape
  simp [oscPrefix]

end Yggterm.Reader
