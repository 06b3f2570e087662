import Mathlib.Data.List.Infix
import Yggterm.Library.Fields
import Yggterm.Library.Lines
import Yggterm.Reader.Osc

/-!
# Reading the text of a chunk

The classifiers of `yggterm-server/src/terminal.rs` that decide what an attach seed needs: they
take control sequences out of a chunk and look at the lines that are left.  Which characters of
all scripts are alphanumeric is given by the standard library and stays a parameter.
-/

namespace Yggterm.AttachSeed

open Reader (esc bel byteLength)
open Text

def defaultRows : Nat := 36

/-- `char::is_control` -/
def isControl (char : Char) : Bool :=
  char.toNat < 0x20 || (0x7f ≤ char.toNat && char.toNat < 0xa0)

/-- `str::contains` -/
def contains (text : List Char) (needle : String) : Bool := needle.toList <:+: text

def toAsciiLowercase (text : List Char) : List Char := text.map Char.toLower

/-- `split_whitespace` -/
def splitWhitespace (text : List Char) : List (List Char) :=
  (text.splitOnP isWhitespace).filter (· ≠ [])

theorem splitWhitespace_append_cons {blank : Char} (isBlank : isWhitespace blank = true)
    (front rest : List Char) :
    splitWhitespace (front ++ blank :: rest) = splitWhitespace front ++ splitWhitespace rest := by
  rw [splitWhitespace, List.splitOnP_append_cons front rest isBlank, List.filter_append]
  rfl

theorem splitWhitespace_of_solid {word : List Char}
    (solid : ∀ char ∈ word, isWhitespace char = false) (nonempty : word ≠ []) :
    splitWhitespace word = [word] := by
  rw [splitWhitespace, List.splitOnP_eq_singleton solid, List.filter_cons_of_pos (by simpa)]
  rfl

theorem solid_of_mem_splitWhitespace {text word : List Char}
    (member : word ∈ splitWhitespace text) :
    word ≠ [] ∧ ∀ char ∈ word, isWhitespace char = false := by
  obtain ⟨isPart, nonempty⟩ := List.mem_filter.mp member
  obtain ⟨_, _, _, _, _, clean⟩ := Fields.mem_splitOnP_iff.mp isPart
  exact ⟨of_decide_eq_true nonempty, clean⟩

theorem splitWhitespace_blanks_append {blanks : List Char}
    (blank : ∀ char ∈ blanks, isWhitespace char = true) (text : List Char) :
    splitWhitespace (blanks ++ text) = splitWhitespace text := by
  induction blanks with
  | nil => rfl
  | cons first rest inductionHypothesis =>
      obtain ⟨isBlank, restBlank⟩ := List.forall_mem_cons.mp blank
      exact (splitWhitespace_append_cons isBlank [] (rest ++ text)).trans
        (inductionHypothesis restBlank)

theorem splitWhitespace_append_blanks {blanks : List Char}
    (blank : ∀ char ∈ blanks, isWhitespace char = true) (text : List Char) :
    splitWhitespace (text ++ blanks) = splitWhitespace text := by
  cases blanks with
  | nil => rw [List.append_nil]
  | cons first rest =>
      obtain ⟨isBlank, restBlank⟩ := List.forall_mem_cons.mp blank
      have noWords := splitWhitespace_blanks_append restBlank []
      rw [List.append_nil] at noWords
      rw [splitWhitespace_append_cons isBlank, noWords]
      exact List.append_nil _

/-- Blanks around a text are no words. -/
theorem splitWhitespace_trim (text : List Char) :
    splitWhitespace (trim text) = splitWhitespace text := by
  obtain ⟨front, back, isText, frontBlank, backBlank⟩ := exists_trim text
  conv_rhs => rw [isText]
  rw [splitWhitespace_blanks_append frontBlank, splitWhitespace_append_blanks backBlank]

inductive StripState where
  | normal
  | escape
  | csi
  | osc
  | oscEscape
  | stringTerminator

/-- The state after a character. -/
def StripState.next (state : StripState) (char : Char) : StripState :=
  match state with
  | normal => if char = esc then escape else normal
  | escape =>
      if char = '[' then csi
      else if char = ']' then osc
      else if char ∈ ['P', 'X', '^', '_'] then stringTerminator
      else normal
  | csi => if '@' ≤ char ∧ char ≤ '~' then normal else csi
  | osc => if char = bel then normal else if char = esc then oscEscape else osc
  | oscEscape => if char = '\\' then normal else osc
  | stringTerminator => if char = esc then oscEscape else stringTerminator

/-- Whether a character is kept. -/
def StripState.keeps (state : StripState) (char : Char) : Bool :=
  match state with
  | normal => char ≠ esc && (!isControl char || char = '\n' || char = '\r' || char = '\t')
  | _ => false

def stripFrom : StripState → List Char → List Char
  | _, [] => []
  | state, char :: rest =>
      if state.keeps char then char :: stripFrom (state.next char) rest
      else stripFrom (state.next char) rest

def stripTerminalControlSequences (input : List Char) : List Char := stripFrom .normal input

/-- The lines with a marker are taken out; says whether there was one. -/
def terminalDataWithoutAttachReadyMarkers (data : List Char) : List Char × Bool :=
  if !contains data "__YGGTERM_ATTACH_READY__" then (data, false)
  else
    let cleaned := ['\n'].intercalate
      ((lines data).filter fun line => !contains line "__YGGTERM_ATTACH_READY__")
    (if cleaned ≠ [] ∧ data.getLast? = some '\n' then cleaned ++ ['\n'] else cleaned, true)

/-- What a classifier reads of the data. -/
def strippedData (data : List Char) : List Char :=
  stripTerminalControlSequences (terminalDataWithoutAttachReadyMarkers data).1

/-- The trimmed lines that are not blank. -/
def solidLines (text : List Char) : List (List Char) := ((lines text).map trim).filter (· ≠ [])

def printableCount (text : List Char) : Nat :=
  (text.filter fun char => !isControl char && !isWhitespace char).length

def terminalChunkHasVisibleText (data : List Char) : Bool :=
  (strippedData data).any fun char => !isWhitespace char

def terminalChunkHasScrollbackText (data : List Char) : Bool :=
  defaultRows + 4 ≤ ((lines (strippedData data)).filter fun line => trim line ≠ []).length

def terminalChunkMentionsGenericAttachPrompt (data : List Char) : Bool :=
  (solidLines data).any fun line =>
    let lower := toAsciiLowercase line
    lower.head? = some '›' &&
      (contains lower "implement \x7bfeature\x7d" || contains lower "explain this codebase" ||
        contains lower "find and fix a bug" || contains lower "resume a previous session" ||
        contains lower "write tests for" || contains lower "@filename" ||
        contains lower "review my changes" || contains lower "summarize recent commits" ||
        contains lower "create a pr")

def mentionsModelFooter (normalized : List Char) : Bool :=
  (contains normalized "gpt-5" || contains normalized "gpt-4" || contains normalized "claude") &&
    contains normalized "% left"

def terminalChunkHasGenericAttachIdleFooter (data : List Char) : Bool :=
  let lines := solidLines data
  if lines = [] ∨ 5 < lines.length then false
  else
    let normalized := toAsciiLowercase (['\n'].intercalate lines)
    if normalized = [] then false
    else terminalChunkMentionsGenericAttachPrompt data && mentionsModelFooter normalized

def terminalChunkIsAttachModelFooterFragment (data : List Char) : Bool :=
  let normalized := toAsciiLowercase (trim data)
  if normalized = [] then false else mentionsModelFooter normalized

def terminalChunkHasMeaningfulAttachText (data : List Char) : Bool :=
  let stripped := strippedData data
  let lines := solidLines stripped
  if lines = [] ∨ terminalChunkHasGenericAttachIdleFooter stripped then false
  else
    let printable := printableCount stripped
    let wordCount := (lines.map fun line => (splitWhitespace line).length).sum
    let promptLike := lines.length ≤ 2 && printable < 40 && lines.any fun line =>
      line.head? = some '›' || line.getLast? ∈ [some '$', some '#', some '>', some '%']
    if promptLike then false
    else 48 ≤ printable || 2 ≤ lines.length || 8 ≤ wordCount

def terminalChunkIsLowSignalAttachFragment (data : List Char) : Bool :=
  let stripped := stripTerminalControlSequences data
  let normalized := toAsciiLowercase (trim stripped)
  if contains normalized "^[[?" || contains normalized "^[]10;" || contains normalized "^[[1;1r" ||
      (contains normalized "rgb:" && contains normalized "cccc/cccc/cccc") then true
  else
    let lines := solidLines stripped
    if lines = [] then true
    else
      let maxLineLen := (lines.map byteLength).foldl max 0
      printableCount stripped ≤ 6 || (lines.length = 1 && maxLineLen ≤ 18)

section Alphanumeric

variable (isAlphanumeric : Char → Bool)

/-- A line with the prompt glyph and text behind it, which is not noise of the terminal. -/
def terminalChunkCarriesCodexComposerInputRow (stripped : List Char) : Bool :=
  (lines stripped).any fun line =>
    match trimStart line with
    | '›' :: rest =>
        let lower := toAsciiLowercase rest
        rest.any isAlphanumeric &&
          !(contains lower "^[[?" || contains lower "^[]10;" || contains lower "^[]11;" ||
            contains lower "rgb:" || contains lower "[1;1r" || contains lower "[?1;2c")
    | _ => false

def terminalChunkIsDisposableInitialAttachSuffix (data : List Char) : Bool :=
  let (data, sawAttachReadyMarker) := terminalDataWithoutAttachReadyMarkers data
  let stripped := stripTerminalControlSequences data
  if sawAttachReadyMarker && trim data = [] then true
  else if trim stripped = [] then true
  else if terminalChunkCarriesCodexComposerInputRow isAlphanumeric stripped then false
  else if terminalChunkHasGenericAttachIdleFooter stripped then true
  else if terminalChunkIsAttachModelFooterFragment stripped then true
  else if terminalChunkMentionsGenericAttachPrompt stripped then true
  else if terminalChunkHasMeaningfulAttachText stripped then false
  else terminalChunkIsLowSignalAttachFragment stripped

end Alphanumeric

/-! ## Selecting an attach seed

A client that attaches gets the newest chunks of the ring: those up to the last one with visible
text within two budgets, some of the noise behind it, without a suffix of little worth.  For
remote agents `select_remote_retained_initial_chunks` adds the oldest chunk with scrollback when
none is among them. -/

structure TerminalChunk where
  seq : Nat
  data : List Char
  deriving DecidableEq

def initialAttachMaxChunks : Nat := 192
def initialAttachMaxBytes : Nat := 512 * 1024
def initialAttachTrailingNoiseChunks : Nat := 16

/-- The loop of `select_initial_attach_tail`, over the chunks from the newest. -/
def tailLoop (limitIndex chunkBudget byteBudget : Nat) :
    List (TerminalChunk × Nat) → List TerminalChunk → Nat → List TerminalChunk
  | [], selected, _ => selected
  | (chunk, index) :: rest, selected, bytes =>
      if limitIndex < index then tailLoop limitIndex chunkBudget byteBudget rest selected bytes
      else if selected ≠ [] ∧
          (chunkBudget ≤ selected.length ∨ byteBudget < bytes + byteLength chunk.data) then
        selected
      else
        tailLoop limitIndex chunkBudget byteBudget rest (selected ++ [chunk])
          (bytes + byteLength chunk.data)

def selectInitialAttachTail (chunks : List TerminalChunk) (anchor : Option (Nat × Nat × Nat)) :
    List TerminalChunk :=
  let (limitIndex, chunkBudget, byteBudget) :=
    anchor.getD (chunks.length - 1, initialAttachMaxChunks, initialAttachMaxBytes)
  (tailLoop limitIndex chunkBudget byteBudget chunks.zipIdx.reverse [] 0).reverse

/-- The first loop of `select_initial_attach_chunks`, over the chunks from the newest: the place
of the last chunk with visible text, and the places of noise behind it. -/
def anchorLoop : List (TerminalChunk × Nat) → List Nat → Option Nat × List Nat
  | [], trailingNoise => (none, trailingNoise)
  | (chunk, index) :: rest, trailingNoise =>
      if terminalChunkHasVisibleText chunk.data then (some index, trailingNoise)
      else if trailingNoise.length < initialAttachTrailingNoiseChunks then
        anchorLoop rest (trailingNoise ++ [index])
      else anchorLoop rest trailingNoise

/-- What is selected before the suffix is trimmed. -/
def initialAttachWindow (chunks : List TerminalChunk) : List TerminalChunk :=
  match anchorLoop chunks.zipIdx.reverse [] with
  | (none, _) => selectInitialAttachTail chunks none
  | (some anchorIndex, trailingNoise) =>
      let preservedTrailing := trailingNoise.reverse
      let trailing := preservedTrailing.filterMap (chunks[·]?)
      let trailingByteBudget := (trailing.map fun chunk => byteLength chunk.data).sum
      selectInitialAttachTail chunks (some (anchorIndex,
          initialAttachMaxChunks - preservedTrailing.length,
          initialAttachMaxBytes - trailingByteBudget)) ++
        trailing

section Alphanumeric

variable (isAlphanumeric : Char → Bool)

/-- The loop of `trim_initial_attach_low_signal_suffix`, over the chunks from the newest. -/
def trimLoop : List TerminalChunk → List TerminalChunk
  | last :: before :: rest =>
      if terminalChunkIsDisposableInitialAttachSuffix isAlphanumeric last.data then
        trimLoop (before :: rest)
      else last :: before :: rest
  | selected => selected

def trimInitialAttachLowSignalSuffix (selected : List TerminalChunk) : List TerminalChunk :=
  if selected = [] ∨
      !(selected.any fun chunk => terminalChunkHasMeaningfulAttachText chunk.data) then
    selected
  else (trimLoop isAlphanumeric selected.reverse).reverse

def selectInitialAttachChunks (chunks : List TerminalChunk) : List TerminalChunk :=
  match (anchorLoop chunks.zipIdx.reverse []).1 with
  | none => initialAttachWindow chunks
  | some _ => trimInitialAttachLowSignalSuffix isAlphanumeric (initialAttachWindow chunks)

/-- Both branches of `select_initial_attach_chunks_for_launch` are the same. -/
def selectInitialAttachChunksForLaunch (chunks : List TerminalChunk)
    (_launchCommand : List Char) : List TerminalChunk :=
  selectInitialAttachChunks isAlphanumeric chunks

/-- `remote_agent_schemes()` -/
def remoteAgentSchemes : List String :=
  ["remote-session://", "remote-cc://", "codex-runtime://", "cc-runtime://", "remote-pi://",
    "pi-runtime://", "remote-opencode://", "opencode-runtime://", "remote-qwen://",
    "qwen-runtime://", "remote-kimi://", "kimi-runtime://", "remote-muse://", "muse-runtime://",
    "remote-agy://", "agy-runtime://", "remote-grok://", "grok-runtime://",
    "remote-zcode-tui://", "zcode-tui-runtime://", "remote-devin://", "devin-runtime://",
    "remote-mimo://", "mimo-runtime://"]

/-- The wrapper slugs of `AGENT_CLIS`. -/
def wrapperSlugs : List String :=
  ["codex", "cc", "pi", "opencode", "qwen", "kimi", "muse", "agy", "grok", "zcode-tui", "devin",
    "mimo"]

def terminalKeyIsRemoteAgent (key : List Char) : Bool :=
  remoteAgentSchemes.any fun scheme => scheme.toList.isPrefixOf key

def launchCommandLooksLikeRemoteResumeAttach (launchCommand : List Char) : Bool :=
  wrapperSlugs.any fun slug =>
    ["resume-", "start-"].any fun verb =>
      contains launchCommand ("server'\\'' '\\''remote'\\'' '\\''" ++ verb ++ slug)

def isRemoteAgent (key launchCommand : List Char) : Bool :=
  terminalKeyIsRemoteAgent key || launchCommandLooksLikeRemoteResumeAttach launchCommand

def selectRemoteRetainedInitialChunks (key launchCommand : List Char)
    (chunks : List TerminalChunk) : List TerminalChunk :=
  let selected := selectInitialAttachChunksForLaunch isAlphanumeric chunks launchCommand
  if !isRemoteAgent key launchCommand ||
      selected.any fun chunk => terminalChunkHasScrollbackText chunk.data then
    selected
  else
    match chunks.find? fun chunk => terminalChunkHasScrollbackText chunk.data with
    | none => selected
    | some seed => seed :: selected.filter fun chunk => chunk.seq ≠ seed.seq

end Alphanumeric

end Yggterm.AttachSeed
