import Yggterm.AttachSeed.Classify

/-!
# The attach seed is in the order of the ring

What is selected is a part of the ring in its order, and trimming leaves the front of it.  The
chunk with scrollback that is put first is older than all of it, unless it stood in the window
and has been trimmed.
-/

namespace Yggterm.AttachSeed

open Text

/-! ## The window -/

section Window

variable {limitIndex chunkBudget byteBudget : Nat}

/-- The loop takes chunks up to the limit until a budget is used up, and one at least. -/
theorem tailLoop_eq (entries : List (TerminalChunk × Nat)) (selected : List TerminalChunk)
    (bytes : Nat) :
    ∃ count, tailLoop limitIndex chunkBudget byteBudget entries selected bytes =
        selected ++ ((entries.filter (·.2 ≤ limitIndex)).map Prod.fst).take count ∧
      (selected = [] → entries.filter (·.2 ≤ limitIndex) ≠ [] → 0 < count) := by
  induction entries generalizing selected bytes with
  | nil => exact ⟨0, by simp [tailLoop], fun _ nonempty => absurd rfl nonempty⟩
  | cons entry rest inductionHypothesis =>
      obtain ⟨chunk, index⟩ := entry
      rw [tailLoop]
      by_cases beyond : limitIndex < index
      · rw [if_pos beyond, List.filter_cons_of_neg (by simpa using beyond)]
        exact inductionHypothesis selected bytes
      rw [if_neg beyond, List.filter_cons_of_pos (by simpa using beyond)]
      split
      · next stops => exact ⟨0, by simp, fun empty => absurd empty stops.1⟩
      · obtain ⟨count, taken, _⟩ := inductionHypothesis (selected ++ [chunk])
          (bytes + Reader.byteLength chunk.data)
        refine ⟨count + 1, ?_, fun _ _ => Nat.succ_pos count⟩
        rw [taken, List.map_cons, List.take_succ_cons, List.append_assoc]
        rfl

theorem filter_zipIdx {Item : Type} (items : List Item) (start limit : Nat) :
    ((items.zipIdx start).filter (·.2 ≤ start + limit)).map Prod.fst = items.take (limit + 1) := by
  induction items generalizing start limit with
  | nil => simp
  | cons item rest inductionHypothesis =>
      rw [List.zipIdx_cons, List.filter_cons_of_pos (by simp), List.map_cons, List.take_succ_cons]
      congr 1
      cases limit with
      | zero =>
          have none : (rest.zipIdx (start + 1)).filter (·.2 ≤ start + 0) = [] := by
            rw [List.filter_eq_nil_iff]
            intro entry member
            have bound := List.le_snd_of_mem_zipIdx member
            rw [decide_eq_true_eq]
            omega
          rw [none]
          rfl
      | succ limit =>
          have same := inductionHypothesis (start + 1) limit
          rw [Nat.add_assoc, Nat.add_comm 1 limit] at same
          exact same

/-- The tail is the end of the ring up to the limit. -/
theorem selectInitialAttachTail_isSuffix (chunks : List TerminalChunk)
    (anchor : Option (Nat × Nat × Nat)) {limit : Nat}
    (isLimit : (anchor.getD (chunks.length - 1, initialAttachMaxChunks, initialAttachMaxBytes)).1 =
      limit) :
    selectInitialAttachTail chunks anchor <:+ chunks.take (limit + 1) ∧
      (chunks ≠ [] → selectInitialAttachTail chunks anchor ≠ []) := by
  rw [selectInitialAttachTail]
  generalize anchor.getD _ = bounds at isLimit ⊢
  obtain ⟨limitIndex, chunkBudget, byteBudget⟩ := bounds
  cases isLimit
  dsimp only
  obtain ⟨count, taken, positive⟩ := @tailLoop_eq limitIndex chunkBudget byteBudget
    chunks.zipIdx.reverse [] 0
  have upToLimit : ((chunks.zipIdx.reverse.filter (·.2 ≤ limitIndex)).map Prod.fst) =
      (chunks.take (limitIndex + 1)).reverse := by
    have same := filter_zipIdx chunks 0 limitIndex
    simp only [Nat.zero_add] at same
    rw [List.filter_reverse, List.map_reverse, same]
  rw [taken, List.nil_append, upToLimit]
  refine ⟨?_, fun nonempty => ?_⟩
  · rw [← List.reverse_prefix, List.reverse_reverse]
    exact List.take_prefix count _
  · have takes : chunks.take (limitIndex + 1) ≠ [] := by
      cases chunks with
      | nil => contradiction
      | cons chunk rest => simp
    have filterNonempty : chunks.zipIdx.reverse.filter (·.2 ≤ limitIndex) ≠ [] := by
      intro empty
      rw [empty, List.map_nil] at upToLimit
      exact takes (List.reverse_eq_nil_iff.mp upToLimit.symm)
    have some := positive rfl filterNonempty
    simpa [List.take_eq_nil_iff, takes] using Nat.ne_of_gt some

end Window

/-! ## The anchor -/

/-- The chunks behind the anchor have no visible text, and noise is taken from them in their
order. -/
structure Anchored (entries : List (TerminalChunk × Nat)) (found : Option Nat × List Nat) :
    Prop where
  isPlace : ∀ anchor, found.1 = some anchor → ∃ entry ∈ entries, entry.2 = anchor
  invisible : ∀ entry ∈ entries, (∀ anchor, found.1 = some anchor → anchor < entry.2) →
    terminalChunkHasVisibleText entry.1.data = false
  falling : found.2.Pairwise fun first second => second < first
  behind : ∀ anchor, found.1 = some anchor → ∀ index ∈ found.2, anchor < index

theorem anchored_anchorLoop (entries : List (TerminalChunk × Nat)) (noise : List Nat)
    (falling : entries.Pairwise fun first second => second.2 < first.2)
    (noiseFalling : noise.Pairwise fun first second => second < first)
    (behind : ∀ entry ∈ entries, ∀ index ∈ noise, entry.2 < index) :
    Anchored entries (anchorLoop entries noise) := by
  induction entries generalizing noise with
  | nil => exact ⟨nofun, nofun, noiseFalling, nofun⟩
  | cons entry rest inductionHypothesis =>
      obtain ⟨chunk, index⟩ := entry
      obtain ⟨isFirst, restFalling⟩ := List.pairwise_cons.mp falling
      obtain ⟨noiseBehind, restBehind⟩ := List.forall_mem_cons.mp behind
      rw [anchorLoop]
      cases visible : terminalChunkHasVisibleText chunk.data with
      | true =>
          rw [if_pos rfl]
          refine ⟨?_, ?_, noiseFalling, ?_⟩
          · rintro anchor ⟨⟩
            exact ⟨_, List.mem_cons_self, rfl⟩
          · intro entry member later
            rcases List.mem_cons.mp member with rfl | inRest
            · exact absurd (later index rfl) (lt_irrefl index)
            · exact absurd (later index rfl) (lt_asymm (isFirst entry inRest))
          · rintro anchor ⟨⟩
            exact noiseBehind
      | false =>
          have later :
              ∀ {found}, Anchored rest found → Anchored ((chunk, index) :: rest) found := by
            intro found anchored
            refine ⟨fun anchor isFound => ?_, ?_, anchored.falling, anchored.behind⟩
            · obtain ⟨holder, member, isAnchor⟩ := anchored.isPlace anchor isFound
              exact ⟨holder, List.mem_cons_of_mem _ member, isAnchor⟩
            · exact List.forall_mem_cons.mpr ⟨fun _ => visible, anchored.invisible⟩
          rw [if_neg Bool.false_ne_true]
          split
          · apply later
            refine inductionHypothesis _ restFalling
              (List.pairwise_append.mpr ⟨noiseFalling, List.pairwise_singleton _ _, ?_⟩) ?_
            · intro other isNoise last isLast
              rw [List.mem_singleton.mp isLast]
              exact noiseBehind other isNoise
            · intro entry member other isNoise
              rcases List.mem_append.mp isNoise with isOld | isNew
              · exact restBehind entry member other isOld
              · rw [List.mem_singleton.mp isNew]
                exact isFirst entry member
          · exact later (inductionHypothesis noise restFalling noiseFalling restBehind)

theorem anchored (chunks : List TerminalChunk) :
    Anchored chunks.zipIdx.reverse (anchorLoop chunks.zipIdx.reverse []) := by
  refine anchored_anchorLoop _ _ ?_ List.Pairwise.nil (fun _ _ => nofun)
  rw [List.pairwise_reverse]
  have places : (chunks.zipIdx.map Prod.snd).Pairwise (· < ·) := by
    rw [List.zipIdx_map_snd]
    exact List.pairwise_lt_range'
  exact List.pairwise_map.mp places

/-- Chunks at increasing places stand in the ring behind the first of them. -/
theorem filterMap_getElem?_sublist {Item : Type} (items : List Item) {places : List Nat}
    (rising : places.Pairwise (· < ·)) {start : Nat} (above : ∀ place ∈ places, start ≤ place) :
    (places.filterMap (items[·]?)).Sublist (items.drop start) := by
  induction places generalizing start with
  | nil => exact List.nil_sublist _
  | cons place rest inductionHypothesis =>
      obtain ⟨isFirst, restRising⟩ := List.pairwise_cons.mp rising
      have later := inductionHypothesis restRising isFirst
      have here : (items.drop place).Sublist (items.drop start) :=
        (List.drop_sublist_drop_left items (above place List.mem_cons_self))
      refine List.Sublist.trans ?_ here
      cases found : items[place]? with
      | none =>
          rw [List.filterMap_cons_none found]
          exact later.trans (List.drop_sublist_drop_left items (Nat.le_succ place))
      | some item =>
          rw [List.filterMap_cons_some found]
          obtain ⟨inside, rfl⟩ := List.getElem?_eq_some_iff.mp found
          rw [List.drop_eq_getElem_cons inside]
          exact later.cons_cons _

theorem mem_zipIdx_reverse {chunks : List TerminalChunk} {chunk : TerminalChunk} {place : Nat} :
    (chunk, place) ∈ chunks.zipIdx.reverse ↔ chunks[place]? = some chunk := by
  rw [List.mem_reverse, List.mem_zipIdx_iff_getElem?]

/-- The window, when a chunk has visible text: chunks that end with the last such chunk, and
chunks behind it. -/
theorem initialAttachWindow_parts {chunks : List TerminalChunk} {anchor : Nat}
    (found : (anchorLoop chunks.zipIdx.reverse []).1 = some anchor) :
    ∃ leading trailing, initialAttachWindow chunks = leading ++ trailing ∧
      leading <:+ chunks.take (anchor + 1) ∧ leading ≠ [] ∧
      trailing.Sublist (chunks.drop (anchor + 1)) ∧
      ∀ chunk ∈ chunks.drop (anchor + 1), terminalChunkHasVisibleText chunk.data = false := by
  have isAnchored := anchored chunks
  rw [initialAttachWindow]
  generalize anchorLoop chunks.zipIdx.reverse [] = result at found isAnchored ⊢
  obtain ⟨_, noise⟩ := result
  cases found
  dsimp only
  obtain ⟨⟨holder, place⟩, isHolder, rfl⟩ := isAnchored.isPlace anchor rfl
  have nonempty : chunks ≠ [] := by
    rintro rfl
    exact absurd isHolder List.not_mem_nil
  obtain ⟨isSuffix, tailNonempty⟩ := selectInitialAttachTail_isSuffix chunks
    (some (place, initialAttachMaxChunks - noise.reverse.length,
      initialAttachMaxBytes - ((noise.reverse.filterMap (chunks[·]?)).map
        fun chunk => Reader.byteLength chunk.data).sum)) rfl
  refine ⟨_, _, rfl, isSuffix, tailNonempty nonempty, ?_, ?_⟩
  · refine filterMap_getElem?_sublist chunks (List.pairwise_reverse.mpr isAnchored.falling) ?_
    intro index member
    exact isAnchored.behind place rfl index (List.mem_reverse.mp member)
  · intro chunk member
    obtain ⟨offset, isChunk⟩ := List.mem_iff_getElem?.mp member
    rw [List.getElem?_drop] at isChunk
    refine isAnchored.invisible (chunk, place + 1 + offset) (mem_zipIdx_reverse.mpr isChunk) ?_
    rintro _ ⟨⟩
    exact Nat.lt_of_lt_of_le (Nat.lt_succ_self place) (Nat.le_add_right _ _)

theorem invisible_of_no_anchor {chunks : List TerminalChunk}
    (none : (anchorLoop chunks.zipIdx.reverse []).1 = none) {chunk : TerminalChunk}
    (member : chunk ∈ chunks) : terminalChunkHasVisibleText chunk.data = false := by
  obtain ⟨place, isChunk⟩ := List.mem_iff_getElem?.mp member
  refine (anchored chunks).invisible (chunk, place) (mem_zipIdx_reverse.mpr isChunk) ?_
  intro anchor impossible
  rw [none] at impossible
  cases impossible

theorem initialAttachWindow_sublist (chunks : List TerminalChunk) :
    (initialAttachWindow chunks).Sublist chunks := by
  cases found : (anchorLoop chunks.zipIdx.reverse []).1 with
  | none =>
      have isTail : initialAttachWindow chunks = selectInitialAttachTail chunks none := by
        rw [initialAttachWindow]
        generalize anchorLoop chunks.zipIdx.reverse [] = result at found
        obtain ⟨_, noise⟩ := result
        cases found
        rfl
      rw [isTail]
      exact (selectInitialAttachTail_isSuffix chunks none rfl).1.sublist.trans
        (List.take_sublist _ _)
  | some anchor =>
      obtain ⟨leading, trailing, window, isSuffix, _, behind, _⟩ := initialAttachWindow_parts found
      rw [window, ← List.take_append_drop (anchor + 1) chunks]
      exact isSuffix.sublist.append behind

/-! ## The suffix -/

section Trim

variable (isAlphanumeric : Char → Bool)

/-- Trimming takes disposable chunks off, and leaves one at least. -/
theorem trimLoop_spec (chunks : List TerminalChunk) :
    ∃ dropped, chunks = dropped ++ trimLoop isAlphanumeric chunks ∧
      (∀ chunk ∈ dropped,
        terminalChunkIsDisposableInitialAttachSuffix isAlphanumeric chunk.data = true) ∧
      (chunks ≠ [] → trimLoop isAlphanumeric chunks ≠ []) := by
  fun_induction trimLoop isAlphanumeric chunks with
  | case1 last before rest disposable inductionHypothesis =>
      obtain ⟨dropped, parts, areDisposable, nonempty⟩ := inductionHypothesis
      refine ⟨last :: dropped, ?_, List.forall_mem_cons.mpr ⟨disposable, areDisposable⟩,
        fun _ => nonempty (List.cons_ne_nil _ _)⟩
      rw [List.cons_append, ← parts]
  | case2 last before rest notDisposable => exact ⟨[], rfl, nofun, id⟩
  | case3 selected notTwo => exact ⟨[], rfl, nofun, id⟩

/-- Disposable chunks before others are all taken off. -/
theorem trimLoop_append {dropped rest : List TerminalChunk} (nonempty : rest ≠ [])
    (disposable : ∀ chunk ∈ dropped,
      terminalChunkIsDisposableInitialAttachSuffix isAlphanumeric chunk.data = true) :
    trimLoop isAlphanumeric (dropped ++ rest) = trimLoop isAlphanumeric rest := by
  induction dropped with
  | nil => rfl
  | cons last before inductionHypothesis =>
      obtain ⟨isDisposable, beforeDisposable⟩ := List.forall_mem_cons.mp disposable
      obtain ⟨next, later, isNext⟩ : ∃ next later, before ++ rest = next :: later := by
        apply List.exists_cons_of_ne_nil
        simp [nonempty]
      rw [List.cons_append, isNext, trimLoop, if_pos isDisposable, ← isNext]
      exact inductionHypothesis beforeDisposable

/-- The selection is a front of the window. -/
theorem selectInitialAttachChunks_isPrefix (chunks : List TerminalChunk) :
    ∃ trimmed, initialAttachWindow chunks =
        selectInitialAttachChunks isAlphanumeric chunks ++ trimmed ∧
      (∀ chunk ∈ trimmed,
        terminalChunkIsDisposableInitialAttachSuffix isAlphanumeric chunk.data = true) ∧
      (trimmed ≠ [] → ∃ chunk ∈ initialAttachWindow chunks,
        terminalChunkHasMeaningfulAttachText chunk.data = true) ∧
      (initialAttachWindow chunks ≠ [] → selectInitialAttachChunks isAlphanumeric chunks ≠ []) := by
  unfold selectInitialAttachChunks
  split
  · exact ⟨[], (List.append_nil _).symm, nofun, nofun, id⟩
  unfold trimInitialAttachLowSignalSuffix
  split
  · exact ⟨[], (List.append_nil _).symm, nofun, nofun, id⟩
  · next worthwhile =>
      obtain ⟨dropped, parts, disposable, nonempty⟩ :=
        trimLoop_spec isAlphanumeric (initialAttachWindow chunks).reverse
      refine ⟨dropped.reverse, ?_, fun chunk member =>
        disposable chunk (List.mem_reverse.mp member),
        fun _ => ?_, fun window => ?_⟩
      · rw [← List.reverse_append, ← parts, List.reverse_reverse]
      · simpa using (not_or.mp worthwhile).2
      · simpa using nonempty (by simpa using window)

end Trim

end Yggterm.AttachSeed
