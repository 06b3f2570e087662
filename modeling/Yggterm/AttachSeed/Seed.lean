import Yggterm.AttachSeed.Order

/-!
# The seed with scrollback

A chunk that stands in the window may read as a disposable suffix although it has scrollback.
When the trimming takes it off, it is put before chunks that are older.
-/

namespace Yggterm.AttachSeed

open Text

/-- Chunks of the ring, none twice, in the order of their numbers. -/
structure OrderedPart (ring selected : List TerminalChunk) : Prop where
  fromRing : ∀ chunk ∈ selected, chunk ∈ ring
  nodup : selected.Nodup
  rising : selected.Pairwise fun first second => first.seq < second.seq

theorem OrderedPart.of_sublist {ring selected : List TerminalChunk}
    (rising : ring.Pairwise fun first second => first.seq < second.seq)
    (part : selected.Sublist ring) : OrderedPart ring selected where
  fromRing := fun _ member => part.subset member
  nodup := (rising.sublist part).imp fun smaller same => absurd smaller (by simp [same])
  rising := rising.sublist part

theorem mem_of_mem_dropReturn {char : Char} {line : List Char} (member : char ∈ dropReturn line) :
    char ∈ line := by
  unfold dropReturn at member
  split at member
  · exact List.mem_of_mem_dropLast member
  · exact member

theorem mem_of_mem_lines {text line : List Char} (isLine : line ∈ lines text) {char : Char}
    (member : char ∈ line) : char ∈ text := by
  obtain ⟨ended, parts, clean, lastClean⟩ := exists_ended text
  rw [parts, lines_eq_of_ended clean lastClean] at isLine
  rw [parts]
  rcases List.mem_append.mp isLine with isEnded | isLast
  · obtain ⟨original, inEnded, rfl⟩ := List.mem_map.mp isEnded
    refine List.mem_append_left _ (List.mem_flatMap.mpr ⟨original, inEnded, ?_⟩)
    exact List.mem_append_left _ (mem_of_mem_dropReturn member)
  · split at isLast
    · exact absurd isLast List.not_mem_nil
    · rw [List.mem_singleton.mp isLast] at member
      exact List.mem_append_right _ member

theorem visible_of_scrollback {data : List Char}
    (scrollback : terminalChunkHasScrollbackText data = true) :
    terminalChunkHasVisibleText data = true := by
  rw [terminalChunkHasScrollbackText, decide_eq_true_eq, defaultRows] at scrollback
  obtain ⟨line, member⟩ := List.exists_mem_of_length_pos (Nat.lt_of_lt_of_le (by decide) scrollback)
  obtain ⟨isLine, solid⟩ := List.mem_filter.mp member
  have notBlank : ¬ ∀ char ∈ line, isWhitespace char = true := by
    rw [← trim_eq_nil_iff]
    exact of_decide_eq_true solid
  push Not at notBlank
  obtain ⟨char, inLine, isInk⟩ := notBlank
  refine List.any_eq_true.mpr ⟨char, mem_of_mem_lines isLine inLine, ?_⟩
  simpa using isInk

section Alphanumeric

variable (isAlphanumeric : Char → Bool)

theorem selectInitialAttachChunks_sublist (chunks : List TerminalChunk) :
    (selectInitialAttachChunks isAlphanumeric chunks).Sublist chunks := by
  obtain ⟨trimmed, window, _⟩ := selectInitialAttachChunks_isPrefix isAlphanumeric chunks
  refine List.Sublist.trans ?_ (initialAttachWindow_sublist chunks)
  rw [window]
  exact List.sublist_append_left _ _

/-- The oldest chunk with scrollback stands in the window behind another, and the trimming takes
it off with all that is behind it. -/
def SeedTrimmed (chunks : List TerminalChunk) : Prop :=
  ∃ front seed back, initialAttachWindow chunks = front ++ seed :: back ∧ front ≠ [] ∧
    chunks.find? (fun chunk => terminalChunkHasScrollbackText chunk.data) = some seed ∧
    (∀ chunk ∈ seed :: back,
      terminalChunkIsDisposableInitialAttachSuffix isAlphanumeric chunk.data = true) ∧
    ∃ chunk ∈ initialAttachWindow chunks, terminalChunkHasMeaningfulAttachText chunk.data = true

variable {isAlphanumeric}

/-- A chunk with scrollback makes the ring have an anchor. -/
theorem exists_anchor_of_scrollback {chunks : List TerminalChunk} {seed : TerminalChunk}
    (inRing : seed ∈ chunks) (scrollback : terminalChunkHasScrollbackText seed.data = true) :
    ∃ anchor, (anchorLoop chunks.zipIdx.reverse []).1 = some anchor := by
  apply Option.ne_none_iff_exists'.mp
  intro none
  have visible := visible_of_scrollback scrollback
  rw [invisible_of_no_anchor none inRing] at visible
  cases visible

/-- An item that stands in a list and not in its first part stands in its second. -/
theorem split_of_not_mem {Item : Type} {first second before after : List Item} {item : Item}
    (parts : first ++ second = before ++ item :: after) (notFirst : item ∉ first) :
    ∃ left, before = first ++ left ∧ second = left ++ item :: after := by
  rcases List.append_eq_append_iff.mp parts with
    ⟨left, beforeParts, secondParts⟩ | ⟨more, firstParts, rest⟩
  · exact ⟨left, beforeParts, secondParts⟩
  · cases more with
    | nil => exact ⟨[], by simpa using firstParts.symm, by simpa using rest.symm⟩
    | cons other others =>
        rw [List.cons_append, List.cons.injEq] at rest
        refine absurd ?_ notFirst
        rw [firstParts, rest.1]
        simp

/-- The oldest chunk with scrollback is trimmed when it stands in the window and is not
selected. -/
theorem seedTrimmed_of_not_selected {chunks : List TerminalChunk} {seed : TerminalChunk}
    (oldest : chunks.find? (fun chunk => terminalChunkHasScrollbackText chunk.data) = some seed)
    (inWindow : seed ∈ initialAttachWindow chunks)
    (notSelected : seed ∉ selectInitialAttachChunks isAlphanumeric chunks) :
    SeedTrimmed isAlphanumeric chunks := by
  obtain ⟨trimmed, parts, disposable, meaningful, selects⟩ :=
    selectInitialAttachChunks_isPrefix isAlphanumeric chunks
  obtain ⟨before, after, isWindow⟩ := List.append_of_mem inWindow
  obtain ⟨left, beforeParts, trimmedParts⟩ :=
    split_of_not_mem (parts.symm.trans isWindow) notSelected
  refine ⟨before, seed, after, isWindow, ?_, oldest, ?_, ?_⟩
  · rintro rfl
    have none := (List.append_eq_nil_iff.mp beforeParts.symm).1
    exact selects (by simp [isWindow]) none
  · exact fun chunk member => disposable chunk (by
      rw [trimmedParts]
      exact List.mem_append_right _ member)
  · exact meaningful (by simp [trimmedParts])

/-- The oldest chunk with scrollback comes before what is selected without scrollback, when the
trimming has not taken it off. -/
theorem lt_of_not_seedTrimmed {chunks : List TerminalChunk}
    (rising : chunks.Pairwise fun first second => first.seq < second.seq)
    (kept : ¬ SeedTrimmed isAlphanumeric chunks) {seed : TerminalChunk}
    (oldest : chunks.find? (fun chunk => terminalChunkHasScrollbackText chunk.data) = some seed)
    (without : ∀ chunk ∈ selectInitialAttachChunks isAlphanumeric chunks,
      terminalChunkHasScrollbackText chunk.data = false) :
    ∀ chunk ∈ selectInitialAttachChunks isAlphanumeric chunks, seed.seq < chunk.seq := by
  have scrollback : terminalChunkHasScrollbackText seed.data = true :=
    (List.find?_eq_some_iff_append.mp oldest).1
  have inRing : seed ∈ chunks := List.mem_of_find?_eq_some oldest
  obtain ⟨_, parts, _⟩ := selectInitialAttachChunks_isPrefix isAlphanumeric chunks
  have notSelected : seed ∉ selectInitialAttachChunks isAlphanumeric chunks := by
    intro member
    rw [without seed member] at scrollback
    cases scrollback
  obtain ⟨anchor, found⟩ := exists_anchor_of_scrollback inRing scrollback
  obtain ⟨leading, trailing, window, isSuffix, nonempty, behind, invisible⟩ :=
    initialAttachWindow_parts found
  obtain ⟨older, front⟩ := isSuffix
  have ringParts : older ++ (leading ++ chunks.drop (anchor + 1)) = chunks := by
    rw [← List.append_assoc, front, List.take_append_drop]
  have inFront : seed ∈ older ++ leading := by
    rw [front]
    rw [← List.take_append_drop (anchor + 1) chunks] at inRing
    rcases List.mem_append.mp inRing with early | late
    · exact early
    · have unseen := invisible seed late
      rw [visible_of_scrollback scrollback] at unseen
      cases unseen
  have orderedWindow : (older ++ initialAttachWindow chunks).Pairwise
      fun first second => first.seq < second.seq := by
    rw [window]
    refine rising.sublist ?_
    conv_rhs => rw [← ringParts]
    exact (List.Sublist.refl older).append ((List.Sublist.refl leading).append behind)
  rcases List.mem_append.mp inFront with isOlder | inLeading
  · -- Older than the whole window.
    intro chunk member
    have inWindow : chunk ∈ initialAttachWindow chunks := by
      rw [parts]
      exact List.mem_append_left _ member
    exact (List.pairwise_append.mp orderedWindow).2.2 seed isOlder chunk inWindow
  · have inWindow : seed ∈ initialAttachWindow chunks := by
      rw [window]
      exact List.mem_append_left _ inLeading
    exact absurd (seedTrimmed_of_not_selected oldest inWindow notSelected) kept

/-- A chunk older than the oldest one with scrollback has none. -/
theorem without_scrollback_of_lt {chunks : List TerminalChunk}
    (rising : chunks.Pairwise fun first second => first.seq < second.seq) {seed : TerminalChunk}
    (oldest : chunks.find? (fun chunk => terminalChunkHasScrollbackText chunk.data) = some seed)
    {chunk : TerminalChunk} (inRing : chunk ∈ chunks) (isOlder : chunk.seq < seed.seq) :
    terminalChunkHasScrollbackText chunk.data = false := by
  obtain ⟨_, before, after, ringParts, without⟩ := List.find?_eq_some_iff_append.mp oldest
  rw [ringParts] at inRing rising
  rcases List.mem_append.mp inRing with isBefore | isBehind
  · simpa using without chunk isBefore
  · have behind := List.pairwise_append.mp rising
    rcases List.mem_cons.mp isBehind with rfl | isAfter
    · exact absurd isOlder (lt_irrefl _)
    · exact absurd ((List.pairwise_cons.mp behind.2.1).1 chunk isAfter) (lt_asymm isOlder)

/-- A disposable end of the window is taken off before the trimming looks at what is in front. -/
theorem selectInitialAttachChunks_of_disposable {chunks front back : List TerminalChunk}
    {anchor : Nat} (found : (anchorLoop chunks.zipIdx.reverse []).1 = some anchor)
    (window : initialAttachWindow chunks = front ++ back) (nonempty : front ≠ [])
    (disposable : ∀ chunk ∈ back,
      terminalChunkIsDisposableInitialAttachSuffix isAlphanumeric chunk.data = true)
    (worthwhile : ∃ chunk ∈ initialAttachWindow chunks,
      terminalChunkHasMeaningfulAttachText chunk.data = true) :
    selectInitialAttachChunks isAlphanumeric chunks =
      (trimLoop isAlphanumeric front.reverse).reverse := by
  rw [selectInitialAttachChunks, found]
  dsimp only
  have trims : ¬ (initialAttachWindow chunks = [] ∨ !((initialAttachWindow chunks).any
      fun chunk => terminalChunkHasMeaningfulAttachText chunk.data)) := by
    rw [List.any_eq_true.mpr worthwhile, window]
    simp [nonempty]
  rw [trimInitialAttachLowSignalSuffix, if_neg trims, window, List.reverse_append,
    trimLoop_append isAlphanumeric (by simpa using nonempty)]
  exact fun chunk member => disposable chunk (List.mem_reverse.mp member)

/-- A seed that has been trimmed is put before older chunks. -/
theorem not_orderedPart_of_seedTrimmed {chunks : List TerminalChunk}
    (rising : chunks.Pairwise fun first second => first.seq < second.seq)
    (trims : SeedTrimmed isAlphanumeric chunks) {key launchCommand : List Char}
    (remote : isRemoteAgent key launchCommand = true) :
    ¬ OrderedPart chunks (selectRemoteRetainedInitialChunks isAlphanumeric key launchCommand
      chunks) := by
  obtain ⟨front, seed, back, window, nonempty, oldest, disposable, worthwhile⟩ := trims
  have scrollback := (List.find?_eq_some_iff_append.mp oldest).1
  obtain ⟨anchor, found⟩ :=
    exists_anchor_of_scrollback (List.mem_of_find?_eq_some oldest) scrollback
  have selectedIs :=
    selectInitialAttachChunks_of_disposable found window nonempty disposable worthwhile
  have inOrder : (front ++ seed :: back).Pairwise fun first second => first.seq < second.seq := by
    rw [← window]
    exact rising.sublist (initialAttachWindow_sublist chunks)
  obtain ⟨dropped, frontParts, _, stays⟩ := trimLoop_spec isAlphanumeric front.reverse
  have fromFront : ∀ chunk ∈ selectInitialAttachChunks isAlphanumeric chunks, chunk ∈ front := by
    intro chunk member
    rw [selectedIs, List.mem_reverse] at member
    rw [← List.mem_reverse, frontParts]
    exact List.mem_append_right _ member
  have older : ∀ chunk ∈ front, chunk.seq < seed.seq := fun chunk member =>
    (List.pairwise_append.mp inOrder).2.2 chunk member seed List.mem_cons_self
  have selectedWithout : (selectInitialAttachChunks isAlphanumeric chunks).any
      (fun chunk => terminalChunkHasScrollbackText chunk.data) = false := by
    rw [List.any_eq_false]
    intro chunk member
    have inRing := (selectInitialAttachChunks_sublist isAlphanumeric chunks).subset member
    rw [without_scrollback_of_lt rising oldest inRing (older chunk (fromFront chunk member))]
    simp
  have selects : selectInitialAttachChunks isAlphanumeric chunks ≠ [] := by
    rw [selectedIs]
    simpa using stays (by simpa using nonempty)
  obtain ⟨first, isSelected⟩ := List.exists_mem_of_ne_nil _ selects
  have isOlder := older first (fromFront first isSelected)
  intro ordered
  have rises := ordered.rising
  rw [selectRemoteRetainedInitialChunks, selectInitialAttachChunksForLaunch,
    selectedWithout, remote, oldest] at rises
  have isLater := (List.pairwise_cons.mp rises).1 first (List.mem_filter.mpr
    ⟨isSelected, by simpa using Nat.ne_of_lt isOlder⟩)
  exact absurd isLater (lt_asymm isOlder)

/-- The attach seed is a part of the ring in its order exactly when no remote agent's oldest
chunk with scrollback is trimmed off the window. -/
theorem orderedPart_iff (isAlphanumeric : Char → Bool) (key launchCommand : List Char)
    (chunks : List TerminalChunk)
    (rising : chunks.Pairwise fun first second => first.seq < second.seq) :
    (OrderedPart chunks (selectInitialAttachChunks isAlphanumeric chunks) ∧
      OrderedPart chunks (selectRemoteRetainedInitialChunks isAlphanumeric key launchCommand
        chunks)) ↔
      ¬ (isRemoteAgent key launchCommand = true ∧ SeedTrimmed isAlphanumeric chunks) := by
  constructor
  · rintro ⟨_, ordered⟩ ⟨remote, trims⟩
    exact not_orderedPart_of_seedTrimmed rising trims remote ordered
  intro kept
  have part := selectInitialAttachChunks_sublist isAlphanumeric chunks
  refine ⟨.of_sublist rising part, ?_⟩
  rw [selectRemoteRetainedInitialChunks, selectInitialAttachChunksForLaunch]
  split
  · exact .of_sublist rising part
  next unseeded =>
  simp only [Bool.or_eq_true, Bool.not_eq_true', not_or, Bool.not_eq_true, Bool.not_eq_false,
    List.any_eq_false] at unseeded
  split
  · exact .of_sublist rising part
  next seed oldest =>
  have first := lt_of_not_seedTrimmed rising (fun trims => kept ⟨unseeded.1, trims⟩) oldest
    (fun chunk member => by simpa using unseeded.2 chunk member)
  have seeded : (seed :: (selectInitialAttachChunks isAlphanumeric chunks).filter
      fun chunk => chunk.seq ≠ seed.seq).Pairwise fun first second => first.seq < second.seq := by
    refine List.pairwise_cons.mpr
      ⟨fun chunk member => first chunk (List.mem_filter.mp member).1, ?_⟩
    exact (rising.sublist part).sublist List.filter_sublist
  exact
    { fromRing := List.forall_mem_cons.mpr ⟨List.mem_of_find?_eq_some oldest,
        fun chunk member => part.subset (List.mem_filter.mp member).1⟩
      nodup := seeded.imp fun smaller same => absurd smaller (by simp [same])
      rising := seeded }

end Alphanumeric

/-- A line of text, and a screen of forty lines with the footer of a model. -/
def footerScreen : List TerminalChunk :=
  [⟨1, "cargo test finished without a single failure in the whole workspace".toList⟩,
    ⟨2, (List.replicate 40 "x
".toList).flatten ++ "gpt-5 high 98% left".toList⟩]

theorem footerScreen_of_shell : OrderedPart footerScreen
    (selectRemoteRetainedInitialChunks Char.isAlphanum "live::a".toList "bash".toList
      footerScreen) :=
  ((orderedPart_iff Char.isAlphanum "live::a".toList "bash".toList footerScreen (by decide)).mpr
    fun remote => absurd remote.1 (by decide +kernel)).2

/-- For a remote agent the screen is trimmed as a footer, and put first for its scrollback. -/
theorem footerScreen_out_of_order : ¬ ∀ (isAlphanumeric : Char → Bool)
    (key launchCommand : List Char) (chunks : List TerminalChunk),
      chunks.Pairwise (fun first second => first.seq < second.seq) →
      OrderedPart chunks (selectInitialAttachChunks isAlphanumeric chunks) ∧
      OrderedPart chunks (selectRemoteRetainedInitialChunks isAlphanumeric key launchCommand
        chunks) := by
  intro claimed
  have ordered := (claimed Char.isAlphanum "remote-cc://a".toList "bash".toList footerScreen
    (by decide)).2.rising
  have swapped : selectRemoteRetainedInitialChunks Char.isAlphanum "remote-cc://a".toList
      "bash".toList footerScreen = footerScreen.reverse := by
    decide +kernel
  rw [swapped] at ordered
  exact absurd ordered (by decide)

end Yggterm.AttachSeed
