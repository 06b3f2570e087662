import Yggterm.InputLine.Walk

/-!
# Where a client's bytes may be cut

A call of the walker starts in the normal state outside any paste, whatever the
call before it ended in.  So the reconstruction depends on how the bytes were cut
into writes: a cut is invisible exactly when the bytes before it are complete
escape sequences and text with every bracketed paste closed again.
-/

namespace Yggterm.InputLine

open Grammar

/-! ## The grammar of whole sequences -/

/-- A complete escape sequence, from the byte after its `ESC` on.  An OSC string
is ended by `BEL`, or by an `ESC` that opens the next sequence. -/
inductive Escape where
  | pair (byte : UInt8) (plain : byte ≠ 0x5b ∧ byte ≠ 0x4f ∧ byte ≠ 0x5d)
  | csi (params : List UInt8) (final : UInt8)
      (inner : ∀ byte ∈ params, ¬ isCsiFinal byte) (closes : isCsiFinal final)
  | ss3 (byte : UInt8)
  | osc (body : List UInt8) (inner : ∀ byte ∈ body, byte ≠ 0x07 ∧ byte ≠ 0x1b)
  | oscEscape (body : List UInt8) (inner : ∀ byte ∈ body, byte ≠ 0x07 ∧ byte ≠ 0x1b)
      (next : Escape)

namespace Escape

def bytes : Escape → List UInt8
  | pair byte _ => [byte]
  | csi params final _ _ => 0x5b :: (params ++ [final])
  | ss3 byte => [0x4f, byte]
  | osc body _ => 0x5d :: (body ++ [0x07])
  | oscEscape body _ next => 0x5d :: (body ++ 0x1b :: next.bytes)

/-- The paste markers are the only sequences that move the depth. -/
def depthAfter (depth : Nat) : Escape → Nat
  | csi params final _ _ => if final = 0x7e then markerDepth params depth else depth
  | oscEscape _ _ next => next.depthAfter depth
  | _ => depth

end Escape

/-- One unit of the input stream. -/
inductive Piece where
  | text (byte : UInt8) (plain : byte ≠ 0x1b)
  | escape (sequence : Escape)

namespace Piece

def bytes : Piece → List UInt8
  | text byte _ => [byte]
  | escape sequence => 0x1b :: sequence.bytes

def depthAfter (depth : Nat) : Piece → Nat
  | text _ _ => depth
  | escape sequence => sequence.depthAfter depth

end Piece

/-- How many pastes are open after the pieces. -/
def openPastes (depth : Nat) (pieces : List Piece) : Nat :=
  pieces.foldl Piece.depthAfter depth

/-- The bytes are whole pieces and leave no paste open. -/
def Settled (data : List UInt8) : Prop :=
  ∃ pieces : List Piece, data = pieces.flatMap Piece.bytes ∧ openPastes 0 pieces = 0

/-! ## The machine reads the grammar -/

theorem markerDepth_of_long (params : List UInt8) (depth : Nat) (long : 4 ≤ params.length) :
    markerDepth params depth = depth := by
  have notStart : params ≠ pasteStartParams := by
    rintro rfl
    simp [pasteStartParams] at long
  have notEnd : params ≠ pasteEndParams := by
    rintro rfl
    simp [pasteEndParams] at long
  rw [markerDepth, if_neg notStart, if_neg notEnd]

/-- The four parameter bytes the machine keeps decide the marker as the whole
parameter text would. -/
theorem foldl_step_csi (kept params : List UInt8) (final : UInt8) (overflow : Bool)
    (depth : Nat) (inner : ∀ byte ∈ params, ¬ isCsiFinal byte) (closes : isCsiFinal final)
    (truncated : overflow = true → 4 ≤ kept.length) :
    (params ++ [final]).foldl Grammar.step { state := .csi kept overflow, pasteDepth := depth } =
      { state := .normal
        pasteDepth := if final = 0x7e then markerDepth (kept ++ params) depth else depth } := by
  induction params generalizing kept overflow with
  | nil =>
      rw [List.nil_append, List.foldl_cons, List.foldl_nil, List.append_nil]
      simp only [Grammar.step, if_pos closes]
      cases overflow with
      | false => simp
      | true => simp [markerDepth_of_long kept depth (truncated rfl)]
  | cons byte rest inductionHypothesis =>
      have notFinal : ¬ isCsiFinal byte := inner byte (by simp)
      have innerRest : ∀ other ∈ rest, ¬ isCsiFinal other := fun other inside =>
        inner other (by simp [inside])
      rw [List.cons_append, List.foldl_cons]
      simp only [Grammar.step, if_neg notFinal]
      by_cases room : kept.length < 4
      · rw [if_pos room, inductionHypothesis (kept ++ [byte]) overflow innerRest]
        · simp
        · intro wasTruncated
          have := truncated wasTruncated
          omega
      · rw [if_neg room, inductionHypothesis kept true innerRest (fun _ => by omega)]
        rw [markerDepth_of_long (kept ++ rest) depth (by simp; omega),
          markerDepth_of_long (kept ++ byte :: rest) depth (by simp; omega)]

theorem foldl_step_osc (body : List UInt8) (depth : Nat)
    (inner : ∀ byte ∈ body, byte ≠ 0x07 ∧ byte ≠ 0x1b) :
    body.foldl Grammar.step { state := .osc, pasteDepth := depth } =
      { state := .osc, pasteDepth := depth } := by
  induction body with
  | nil => rfl
  | cons byte rest inductionHypothesis =>
      have plain := inner byte (by simp)
      rw [List.foldl_cons]
      simp only [Grammar.step, if_neg plain.1, if_neg plain.2]
      exact inductionHypothesis fun other inside => inner other (by simp [inside])

theorem foldl_step_escape (sequence : Escape) (depth : Nat) :
    sequence.bytes.foldl Grammar.step { state := .escape, pasteDepth := depth } =
      { state := .normal, pasteDepth := sequence.depthAfter depth } := by
  induction sequence with
  | pair byte plain =>
      simp [Escape.bytes, Escape.depthAfter, Grammar.step, plain]
  | csi params final inner closes =>
      rw [Escape.bytes, List.foldl_cons]
      exact foldl_step_csi [] params final false depth inner closes (by simp)
  | ss3 byte => rfl
  | osc body inner =>
      rw [Escape.bytes, List.foldl_cons, List.foldl_append]
      rw [show Grammar.step { state := .escape, pasteDepth := depth } 0x5d =
        { state := .osc, pasteDepth := depth } from rfl, foldl_step_osc body depth inner]
      rfl
  | oscEscape body inner next inductionHypothesis =>
      rw [Escape.bytes, List.foldl_cons, List.foldl_append, List.foldl_cons]
      rw [show Grammar.step { state := .escape, pasteDepth := depth } 0x5d =
        { state := .osc, pasteDepth := depth } from rfl, foldl_step_osc body depth inner]
      exact inductionHypothesis

theorem foldl_step_pieces (pieces : List Piece) (depth : Nat) :
    (pieces.flatMap Piece.bytes).foldl Grammar.step { state := .normal, pasteDepth := depth } =
      { state := .normal, pasteDepth := openPastes depth pieces } := by
  induction pieces generalizing depth with
  | nil => rfl
  | cons piece rest inductionHypothesis =>
      have onePiece : piece.bytes.foldl Grammar.step
          { state := .normal, pasteDepth := depth } =
            { state := .normal, pasteDepth := piece.depthAfter depth } := by
        cases piece with
        | text byte plain => simp [Piece.bytes, Piece.depthAfter, Grammar.step, plain]
        | escape sequence => exact foldl_step_escape sequence depth
      rw [List.flatMap_cons, List.foldl_append, onePiece, inductionHypothesis]
      rfl

/-- What is still to come when the machine is to end in its normal state. -/
def Remaining (grammar : Grammar) (data : List UInt8) (depth : Nat) : Prop :=
  match grammar.state with
  | .normal => ∃ pieces, data = pieces.flatMap Piece.bytes ∧
      depth = openPastes grammar.pasteDepth pieces
  | .escape => ∃ (sequence : Escape) (pieces : List Piece),
      data = sequence.bytes ++ pieces.flatMap Piece.bytes ∧
      depth = openPastes (sequence.depthAfter grammar.pasteDepth) pieces
  | .csi params overflow => (overflow = true → 4 ≤ params.length) →
      ∃ (more : List UInt8) (final : UInt8) (pieces : List Piece),
        (∀ byte ∈ more, ¬ isCsiFinal byte) ∧ isCsiFinal final ∧
        data = more ++ final :: pieces.flatMap Piece.bytes ∧
        depth = openPastes (if final = 0x7e then
          markerDepth (params ++ more) grammar.pasteDepth else grammar.pasteDepth) pieces
  | .ss3 => ∃ (byte : UInt8) (pieces : List Piece),
      data = byte :: pieces.flatMap Piece.bytes ∧ depth = openPastes grammar.pasteDepth pieces
  | .osc => ∃ (body : List UInt8) (pieces : List Piece),
      (∀ byte ∈ body, byte ≠ 0x07 ∧ byte ≠ 0x1b) ∧
      ((data = body ++ 0x07 :: pieces.flatMap Piece.bytes ∧
          depth = openPastes grammar.pasteDepth pieces) ∨
        ∃ next : Escape, data = body ++ 0x1b :: (next.bytes ++ pieces.flatMap Piece.bytes) ∧
          depth = openPastes (next.depthAfter grammar.pasteDepth) pieces)

section Byte

variable {pasteDepth : Nat} {byte : UInt8} {rest : List UInt8} {depth : Nat}

theorem remaining_escape_cons
    (later : Remaining (Grammar.step ⟨.escape, pasteDepth⟩ byte) rest depth) :
    Remaining ⟨.escape, pasteDepth⟩ (byte :: rest) depth := by
  by_cases isCsi : byte = 0x5b
  · subst isCsi
    obtain ⟨more, final, pieces, inner, closes, rfl, rfl⟩ := later (by simp)
    exact ⟨.csi more final inner closes, pieces, by simp [Escape.bytes], rfl⟩
  · by_cases isSs3 : byte = 0x4f
    · subst isSs3
      obtain ⟨shifted, pieces, rfl, rfl⟩ := later
      exact ⟨.ss3 shifted, pieces, rfl, rfl⟩
    · by_cases isOsc : byte = 0x5d
      · subst isOsc
        obtain ⟨body, pieces, inner, ⟨rfl, rfl⟩ | ⟨next, rfl, rfl⟩⟩ := later
        · exact ⟨.osc body inner, pieces, by simp [Escape.bytes], rfl⟩
        · exact ⟨.oscEscape body inner next, pieces, by simp [Escape.bytes], rfl⟩
      · simp only [Grammar.step, if_neg isCsi, if_neg isSs3, if_neg isOsc] at later
        obtain ⟨pieces, rfl, rfl⟩ := later
        exact ⟨.pair byte ⟨isCsi, isSs3, isOsc⟩, pieces, rfl, rfl⟩

/-- Parameters that were cut off are too long for a marker with or without the byte. -/
theorem remaining_csi_cons {params : List UInt8} {overflow : Bool}
    (later : Remaining (Grammar.step ⟨.csi params overflow, pasteDepth⟩ byte) rest depth) :
    Remaining ⟨.csi params overflow, pasteDepth⟩ (byte :: rest) depth := by
  intro truncated
  by_cases closes : isCsiFinal byte
  · simp only [Grammar.step, if_pos closes] at later
    obtain ⟨pieces, rfl, rfl⟩ := later
    refine ⟨[], byte, pieces, by simp, closes, rfl, ?_⟩
    cases overflow with
    | false => simp
    | true => simp [markerDepth_of_long params _ (truncated rfl)]
  · by_cases room : params.length < 4
    · simp only [Grammar.step, if_neg closes, if_pos room] at later
      obtain ⟨more, final, pieces, inner, finalCloses, rfl, rfl⟩ := later (by
        intro wasTruncated
        have := truncated wasTruncated
        omega)
      refine ⟨byte :: more, final, pieces, ?_, finalCloses, rfl, by simp⟩
      exact List.forall_mem_cons.mpr ⟨closes, inner⟩
    · simp only [Grammar.step, if_neg closes, if_neg room] at later
      obtain ⟨more, final, pieces, inner, finalCloses, rfl, rfl⟩ := later (by
        intro _
        omega)
      refine ⟨byte :: more, final, pieces, ?_, finalCloses, rfl, ?_⟩
      · exact List.forall_mem_cons.mpr ⟨closes, inner⟩
      · rw [markerDepth_of_long (params ++ more) _ (by simp; omega),
          markerDepth_of_long (params ++ byte :: more) _ (by simp; omega)]

theorem remaining_osc_cons
    (later : Remaining (Grammar.step ⟨.osc, pasteDepth⟩ byte) rest depth) :
    Remaining ⟨.osc, pasteDepth⟩ (byte :: rest) depth := by
  by_cases bell : byte = 0x07
  · subst bell
    obtain ⟨pieces, rfl, rfl⟩ := later
    exact ⟨[], pieces, by simp, .inl ⟨rfl, rfl⟩⟩
  · by_cases opens : byte = 0x1b
    · subst opens
      obtain ⟨next, pieces, rfl, rfl⟩ := later
      exact ⟨[], pieces, by simp, .inr ⟨next, rfl, rfl⟩⟩
    · simp only [Grammar.step, if_neg bell, if_neg opens] at later
      obtain ⟨body, pieces, inner, closing⟩ := later
      refine ⟨byte :: body, pieces, List.forall_mem_cons.mpr ⟨⟨bell, opens⟩, inner⟩, ?_⟩
      rcases closing with ⟨rfl, rfl⟩ | ⟨next, rfl, rfl⟩
      · exact .inl ⟨rfl, rfl⟩
      · exact .inr ⟨next, rfl, rfl⟩

end Byte

/-- One byte further, from every state. -/
theorem remaining_cons (grammar : Grammar) (byte : UInt8) (rest : List UInt8) (depth : Nat)
    (later : Remaining (grammar.step byte) rest depth) :
    Remaining grammar (byte :: rest) depth := by
  rcases grammar with ⟨state, pasteDepth⟩
  cases state with
  | normal =>
      by_cases opens : byte = 0x1b
      · subst opens
        obtain ⟨sequence, pieces, rfl, rfl⟩ := later
        exact ⟨.escape sequence :: pieces, rfl, rfl⟩
      · simp only [Grammar.step, if_neg opens] at later
        obtain ⟨pieces, rfl, rfl⟩ := later
        exact ⟨.text byte opens :: pieces, rfl, rfl⟩
  | escape => exact remaining_escape_cons later
  | csi params overflow => exact remaining_csi_cons later
  | ss3 =>
      obtain ⟨pieces, rfl, rfl⟩ := later
      exact ⟨byte, pieces, rfl, rfl⟩
  | osc => exact remaining_osc_cons later

theorem remaining_of_normal (grammar : Grammar) (data : List UInt8) (depth : Nat)
    (ends : data.foldl Grammar.step grammar = { state := .normal, pasteDepth := depth }) :
    Remaining grammar data depth := by
  induction data generalizing grammar with
  | nil =>
      obtain rfl : grammar = { state := .normal, pasteDepth := depth } := ends
      exact ⟨[], rfl, rfl⟩
  | cons byte rest inductionHypothesis =>
      exact remaining_cons grammar byte rest depth (inductionHypothesis _ ends)

/-- The machine is back where it starts exactly after settled bytes. -/
theorem settled_iff (data : List UInt8) :
    Settled data ↔ data.foldl Grammar.step ground = ground := by
  constructor
  · rintro ⟨pieces, rfl, closed⟩
    rw [ground, foldl_step_pieces, closed]
  · intro ends
    obtain ⟨pieces, equality, closed⟩ := remaining_of_normal ground data 0 ends
    exact ⟨pieces, equality, closed.symm⟩

instance (data : List UInt8) : Decidable (Settled data) :=
  decidable_of_iff _ (settled_iff data).symm

/-! ## Invisible cuts -/

/-- What a later call sees of bytes that leave the machine elsewhere: `x` is
swallowed by an open sequence, and Enter is kept by an open paste. -/
theorem exists_visible_cut (grammar : Grammar) (unsettled : grammar ≠ ground)
    (composer : Composer UInt8) :
    ∃ data, (walkBytes id id (grammar, composer) data).2 ≠ composerAfter id id composer data := by
  have typed : (composerAfter id id composer [0x78]).line = composer.line ++ [0x78] := rfl
  have swallowed : grammar.state ≠ .normal →
      (walkBytes id id (grammar, composer) [0x78]).2.line = composer.line := by
    intro inside
    simp [walkBytes, walkByte, inside]
  by_cases inSequence : grammar.state = .normal
  · have inPaste : grammar.pasteDepth ≠ 0 := by
      intro closed
      exact unsettled (by rw [ground, ← inSequence, ← closed])
    refine ⟨[0x0d], fun same => ?_⟩
    have kept : (walkBytes id id (grammar, composer) [0x0d]).2.line =
        composer.line ++ [0x0d] := by
      simp [walkBytes, walkByte, inSequence, Composer.type, inPaste]
    have submitted : (composerAfter id id composer [0x0d]).line = [] := rfl
    rw [same, submitted] at kept
    simp at kept
  · refine ⟨[0x78], fun same => ?_⟩
    have lines := swallowed inSequence
    rw [same, typed] at lines
    simp at lines

/-- For every flag, line and first write, the second write may be anything and
still be read as if both had come in one, exactly when the first is settled. -/
theorem cut_invisible_iff_settled (prev : Bool) (prevLine first : List UInt8) :
    (∀ second,
      let reconstruction := inputLineAfter prev prevLine first
      inputLineAfter reconstruction.draft reconstruction.line second =
        inputLineAfter prev prevLine (first ++ second)) ↔
      Settled first := by
  rw [settled_iff]
  constructor
  · intro invisible
    by_contra unsettled
    obtain ⟨second, visible⟩ := exists_visible_cut _ unsettled (inputLineAfter prev prevLine first)
    exact visible ((composerAfter_append_eq _ first second).symm.trans (invisible second).symm)
  · intro settles second
    exact (composerAfter_append _ first second settles).symm

/-- A paste whose opener came in an earlier write: the newline in it is read as
Enter, and the draft is gone. -/
theorem cut_after_paste_opener_is_visible :
    ¬ ∀ (prev : Bool) (prevLine first second : List UInt8),
      let reconstruction := inputLineAfter prev prevLine first
      inputLineAfter reconstruction.draft reconstruction.line second =
        inputLineAfter prev prevLine (first ++ second) := by
  intro invisible
  have cut := invisible false [] [0x1b, 0x5b, 0x32, 0x30, 0x30, 0x7e, 0x61] [0x0a]
  revert cut
  decide

end Yggterm.InputLine
