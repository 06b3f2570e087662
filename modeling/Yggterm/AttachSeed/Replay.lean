import Yggterm.AttachSeed.Classify
import Yggterm.Library.ByteSlices
import Yggterm.Library.Occurrences
import Yggterm.Reader.AppDeclare

/-!
# Replaying declares in a seed

A seed that is served replays declares which the daemon has consumed.  Their action is rewritten
in the joined text (`yggterm-server/src/app_declare.rs`), which is cut again at the lengths of the
chunks.
-/

namespace Yggterm.AttachSeed

open Patterns Reader Search Utf8

/-! ## The rewrite -/

def webSurfaceOpenSequence : List Char := esc :: "]7717;web-surface;open;".toList
def webSurfaceSeenSequence : List Char := esc :: "]7717;web-surface;seen;".toList
def sidebarDeclareSequence : List Char := esc :: "]7717;sidebar;declare;".toList
def sidebarDefunctSequence : List Char := esc :: "]7717;sidebar;defunct;".toList

/-- `rewrite_consumed_web_surface_opens` and `rewrite_consumed_sidebar_declares`, which differ in
the sequence alone. -/
def rewriteConsumed (consumed served stream : List Char) : Option (List Char × Nat) :=
  if consumed <:+: stream then
    some (replaceAll consumed served stream, countMatches consumed stream)
  else none

def rewriteConsumedWebSurfaceOpens : List Char → Option (List Char × Nat) :=
  rewriteConsumed webSurfaceOpenSequence webSurfaceSeenSequence

def rewriteConsumedSidebarDeclares : List Char → Option (List Char × Nat) :=
  rewriteConsumed sidebarDeclareSequence sidebarDefunctSequence

def joined (chunks : List TerminalChunk) : List Char := chunks.flatMap TerminalChunk.data

/-- The loop over the chunks, which slices the rewritten text at their lengths in bytes. -/
def resliceChunks : List TerminalChunk → List Char → Option (List TerminalChunk)
  | [], _ => some []
  | chunk :: chunks, rewritten =>
      (splitBytes (encode chunk.data).length rewritten).bind fun parts =>
        (resliceChunks chunks parts.2).map ({ chunk with data := parts.1 } :: ·)

/-- The chunks after the rewrite, and how many sequences were rewritten. -/
def neutralizeReplayed (rewrite : List Char → Option (List Char × Nat))
    (chunks : List TerminalChunk) : Option (List TerminalChunk × Nat) :=
  match rewrite (joined chunks) with
  | none => some (chunks, 0)
  | some (rewritten, count) => (resliceChunks chunks rewritten).map fun chunks => (chunks, count)

def neutralizeReplayedWebSurfaceOpens :
    List TerminalChunk → Option (List TerminalChunk × Nat) :=
  neutralizeReplayed rewriteConsumedWebSurfaceOpens

def neutralizeReplayedSidebarDeclares :
    List TerminalChunk → Option (List TerminalChunk × Nat) :=
  neutralizeReplayed rewriteConsumedSidebarDeclares

/-! ## Sequences of one length -/

def SameWidth (char other : Char) : Prop := (encodeChar char).length = (encodeChar other).length

instance : DecidableRel SameWidth := fun char other =>
  inferInstanceAs (Decidable ((encodeChar char).length = (encodeChar other).length))

theorem length_encode_of_sameWidth {text other : List Char}
    (same : List.Forall₂ SameWidth text other) : (encode text).length = (encode other).length := by
  induction same with
  | nil => rfl
  | cons width _ inductionHypothesis =>
      rw [encode_cons, encode_cons, List.length_append, List.length_append, width,
        inductionHypothesis]

/-- A sequence and the one served in its place: byte for byte as long, and different only in the
action word. -/
structure ActionSwap where
  consumed : List Char
  served : List Char
  wordStart : Nat
  wordEnd : Nat
  nonempty : consumed ≠ []
  borderless : Borderless consumed
  different : consumed ≠ served
  sameWidth : List.Forall₂ SameWidth consumed served
  onlyWord : ∀ index < (encode consumed).length,
    (encode consumed)[index]? ≠ (encode served)[index]? → wordStart ≤ index ∧ index < wordEnd

def openSwap : ActionSwap where
  consumed := webSurfaceOpenSequence
  served := webSurfaceSeenSequence
  wordStart := 19
  wordEnd := 23
  nonempty := by decide
  borderless := by decide
  different := by decide
  sameWidth := by decide
  onlyWord := by decide

def declareSwap : ActionSwap where
  consumed := sidebarDeclareSequence
  served := sidebarDefunctSequence
  wordStart := 15
  wordEnd := 22
  nonempty := by decide
  borderless := by decide
  different := by decide
  sameWidth := by decide
  onlyWord := by decide

theorem ActionSwap.sameWidth_of_rewrites (swap : ActionSwap) {text result : List Char}
    (rewrites : Rewrites swap.consumed swap.served text result) :
    List.Forall₂ SameWidth text result := by
  apply rewrites.forall₂ _ swap.sameWidth
  exact fun _ => rfl

/-! ## What is served -/

/-- Cutting a text of the same widths at the chunks gives that text in as many pieces. -/
theorem resliceChunks_spec {chunks : List TerminalChunk} {rewritten : List Char}
    (same : List.Forall₂ SameWidth (joined chunks) rewritten) :
    ∃ served, resliceChunks chunks rewritten = some served ∧ joined served = rewritten ∧
      served.map TerminalChunk.seq = chunks.map TerminalChunk.seq ∧
      served.map (fun chunk => (encode chunk.data).length) =
        chunks.map fun chunk => (encode chunk.data).length := by
  induction chunks generalizing rewritten with
  | nil =>
      cases same
      exact ⟨[], rfl, rfl, rfl, rfl⟩
  | cons chunk chunks inductionHypothesis =>
      have front := List.forall₂_take chunk.data.length same
      have back := List.forall₂_drop chunk.data.length same
      rw [joined, List.flatMap_cons, List.take_left] at front
      rw [joined, List.flatMap_cons, List.drop_left] at back
      obtain ⟨served, reslices, isJoined, seqs, sizes⟩ := inductionHypothesis back
      have width := length_encode_of_sameWidth front
      refine ⟨{ chunk with data := rewritten.take chunk.data.length } :: served, ?_, ?_, ?_, ?_⟩
      · have cut := splitBytes_append (rewritten.take chunk.data.length)
          (rewritten.drop chunk.data.length)
        rw [List.take_append_drop, ← width] at cut
        rw [resliceChunks, cut, Option.bind_some, reslices]
        rfl
      · rw [joined, List.flatMap_cons]
        change _ ++ joined served = _
        rw [isJoined, List.take_append_drop]
      · rw [List.map_cons, List.map_cons, seqs]
      · rw [List.map_cons, List.map_cons, sizes, width]

theorem neutralizeReplayed_spec (swap : ActionSwap) (chunks : List TerminalChunk) :
    ∃ served count,
      neutralizeReplayed (rewriteConsumed swap.consumed swap.served) chunks = some (served, count) ∧
      (count = 0 → served = chunks) ∧
      Rewrites swap.consumed swap.served (joined chunks) (joined served) ∧
      served.map TerminalChunk.seq = chunks.map TerminalChunk.seq ∧
      served.map (fun chunk => (encode chunk.data).length) =
        chunks.map fun chunk => (encode chunk.data).length := by
  have rewrites : Rewrites swap.consumed swap.served (joined chunks)
      (replaceAll swap.consumed swap.served (joined chunks)) :=
    rewrites_replaceAll swap.nonempty (joined chunks)
  by_cases inside : swap.consumed <:+: joined chunks
  · have same := swap.sameWidth_of_rewrites rewrites
    obtain ⟨served, reslices, isJoined, seqs, sizes⟩ := resliceChunks_spec same
    refine ⟨served, countMatches swap.consumed (joined chunks), ?_, ?_, ?_, seqs, sizes⟩
    · rw [neutralizeReplayed, rewriteConsumed, if_pos inside]
      simp [reslices]
    · exact fun isZero => absurd isZero (countMatches_pos swap.nonempty inside).ne'
    · rwa [isJoined]
  · rw [ replaceAll_of_not_infix inside] at rewrites
    refine ⟨chunks, 0, ?_, fun _ => rfl, rewrites, rfl, rfl⟩
    rw [neutralizeReplayed, rewriteConsumed, if_neg inside]

/-- A byte that is not the same lies in the action word of an occurrence. -/
theorem exists_occurrence_of_changed (swap : ActionSwap) {text result : List Char}
    (rewrites : Rewrites swap.consumed swap.served text result) {index : Nat}
    (changed : (encode text)[index]? ≠ (encode result)[index]?) :
    ∃ before after, text = before ++ (swap.consumed ++ after) ∧
      (encode before).length + swap.wordStart ≤ index ∧
      index < (encode before).length + swap.wordEnd := by
  induction rewrites generalizing index with
  | nil => exact absurd rfl changed
  | @keep symbol text result _ _ inductionHypothesis =>
      rw [encode_cons, encode_cons] at changed
      by_cases here : index < (encodeChar symbol).length
      · rw [List.getElem?_append_left here, List.getElem?_append_left here] at changed
        exact absurd rfl changed
      · have later : (encodeChar symbol).length ≤ index := Nat.le_of_not_lt here
        rw [List.getElem?_append_right later, List.getElem?_append_right later] at changed
        obtain ⟨before, after, rfl, starts, ends⟩ := inductionHypothesis changed
        refine ⟨symbol :: before, after, rfl, ?_, ?_⟩ <;>
          · rw [encode_cons, List.length_append]
            omega
  | @swap text result _ inductionHypothesis =>
      rw [encode_append, encode_append] at changed
      have width := length_encode_of_sameWidth swap.sameWidth
      by_cases here : index < (encode swap.consumed).length
      · rw [List.getElem?_append_left here, List.getElem?_append_left (width ▸ here)] at changed
        have inWord := swap.onlyWord index here changed
        exact ⟨[], text, rfl, by simpa using inWord.1, by simpa using inWord.2⟩
      · have later : (encode swap.consumed).length ≤ index := Nat.le_of_not_lt here
        rw [List.getElem?_append_right later, List.getElem?_append_right (width ▸ later),
          ← width] at changed
        obtain ⟨before, after, rfl, starts, ends⟩ := inductionHypothesis changed
        refine ⟨swap.consumed ++ before, after, by rw [List.append_assoc], ?_, ?_⟩ <;>
          · rw [encode_append, List.length_append]
            omega

/-- What a replay should serve: the chunks with the same numbers and lengths, every sequence with
a terminator swapped, and every other byte as it was. -/
structure ServesConsumed (swap : ActionSwap) (chunks served : List TerminalChunk) : Prop where
  seqs : served.map TerminalChunk.seq = chunks.map TerminalChunk.seq
  sizes : served.map (fun chunk => (encode chunk.data).length) =
    chunks.map fun chunk => (encode chunk.data).length
  onlyWords : ∀ index, (encode (joined chunks))[index]? ≠ (encode (joined served))[index]? →
    ∃ before after, joined chunks = before ++ (swap.consumed ++ after) ∧
      (encode before).length + swap.wordStart ≤ index ∧
      index < (encode before).length + swap.wordEnd
  complete : ∀ before after, joined chunks = before ++ (swap.consumed ++ after) →
    (findTerminator after).isSome → ∃ front back, joined served = front ++ (swap.served ++ back) ∧
      (encode front).length = (encode before).length
  incomplete : ∀ before after, joined chunks = before ++ (swap.consumed ++ after) →
    findTerminator after = none → ∃ front, joined served = front ++ (swap.consumed ++ after) ∧
      (encode front).length = (encode before).length

/-- The rewrite does not look for a terminator. -/
theorem neutralizeReplayed_iff (swap : ActionSwap) (chunks : List TerminalChunk) :
    (∃ served count,
      neutralizeReplayed (rewriteConsumed swap.consumed swap.served) chunks = some (served, count) ∧
        ServesConsumed swap chunks served) ↔
      ∀ before after, joined chunks = before ++ (swap.consumed ++ after) →
        (findTerminator after).isSome := by
  obtain ⟨served, count, isServed, _, rewrites, seqs, sizes⟩ := neutralizeReplayed_spec swap chunks
  have swapped : ∀ before after, joined chunks = before ++ (swap.consumed ++ after) →
      ∃ front back, joined served = front ++ (swap.served ++ back) ∧
        (encode front).length = (encode before).length := by
    intro before after isText
    obtain ⟨front, back, isResult, isFront, _⟩ :=
      rewrites.of_occurrence swap.nonempty swap.borderless isText
    have same := swap.sameWidth_of_rewrites isFront
    exact ⟨front, back, isResult, (length_encode_of_sameWidth same).symm⟩
  constructor
  · rintro ⟨other, _, isOther, serves⟩ before after isText
    rw [isServed] at isOther
    cases isOther
    by_contra isOpen
    obtain ⟨kept, isKept, keptLength⟩ :=
      serves.incomplete before after isText (by simpa using isOpen)
    obtain ⟨front, back, isSwapped, frontLength⟩ := swapped before after isText
    -- Both begin at one byte, so one text stands for the other.
    have keptSplit := splitBytes_append kept (swap.consumed ++ after)
    have frontSplit := splitBytes_append front (swap.served ++ back)
    rw [← isKept, keptLength] at keptSplit
    rw [← isSwapped, frontLength, keptSplit] at frontSplit
    have sameBack := congrArg Prod.snd (Option.some.inj frontSplit)
    exact swap.different (List.append_inj_left sameBack swap.sameWidth.length_eq)
  · intro closed
    refine ⟨served, count, isServed, seqs, sizes, ?_, ?_, ?_⟩
    · exact fun index changed => exists_occurrence_of_changed swap rewrites changed
    · exact fun before after isText _ => swapped before after isText
    · intro before after isText isOpen
      have isClosed := closed before after isText
      rw [isOpen] at isClosed
      cases isClosed

/-- An attach seed is served as it should be exactly when every `open` in it is terminated. -/
theorem neutralizeReplayedWebSurfaceOpens_iff (chunks : List TerminalChunk) :
    (∃ served count, neutralizeReplayedWebSurfaceOpens chunks = some (served, count) ∧
      ServesConsumed openSwap chunks served) ↔
      ∀ before after, joined chunks = before ++ (webSurfaceOpenSequence ++ after) →
        (findTerminator after).isSome :=
  neutralizeReplayed_iff openSwap chunks

/-- An `open` whose payload is cut by the end of the last chunk is served as `seen`. -/
theorem cut_open_is_seen : ¬ ∀ chunks : List TerminalChunk,
    ∃ served count, neutralizeReplayedWebSurfaceOpens chunks = some (served, count) ∧
      ServesConsumed openSwap chunks served := by
  intro claimed
  have closed := (neutralizeReplayed_iff openSwap
    [⟨1, esc :: "]7717;web-surface;op".toList⟩, ⟨2, "en;eyJ1cmwi".toList⟩]).mp (claimed _) []
    "eyJ1cmwi".toList (by decide)
  exact absurd closed (by decide)

end Yggterm.AttachSeed
