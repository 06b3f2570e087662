import Mathlib.Data.Nat.Find
import Yggterm.Library.HashMaps

/-!
# Short ids of sessions

Sessions without titles are shown under ends of their ids, which are made longer until they tell
the sessions apart (`yggterm-core/src/browser.rs`).
-/

namespace Yggterm.Browser

open HashMaps

/-- A key and the session id under it. -/
abbrev KeyedId := List Char × List Char

abbrev ShortIds := Finmap fun _ : List Char => List Char

def sessionIdSuffix (id : List Char) (width : Nat) : List Char := id.drop (id.length - width)

def minWidth (sessionId : List Char) : Nat := max (min 7 sessionId.length) 1

/-- The suffixes that are counted at a width. -/
def suffixes (width : Nat) (unresolved : List KeyedId) : List (List Char) :=
  (unresolved.filter fun session => minWidth session.2 ≤ width).map fun session =>
    sessionIdSuffix session.2 width

/-- The id gets its suffix of the width. -/
def Resolves (width : Nat) (unresolved : List KeyedId) (sessionId : List Char) : Prop :=
  minWidth sessionId ≤ width ∧
    ((suffixes width unresolved).count (sessionIdSuffix sessionId width) = 1 ∨
      sessionId.length ≤ width)

instance (width : Nat) (unresolved : List KeyedId) (sessionId : List Char) :
    Decidable (Resolves width unresolved sessionId) :=
  inferInstanceAs (Decidable (_ ∧ _))

structure Widening where
  out : ShortIds
  unresolved : List KeyedId

def widen (width : Nat) (state : Widening) : Widening where
  out := (state.unresolved.filter fun session =>
      Resolves width state.unresolved session.2).foldl
    (fun out session => out.insert session.1 (sessionIdSuffix session.2 width)) state.out
  unresolved := state.unresolved.filter fun session =>
    ¬Resolves width state.unresolved session.2

def widenAll : List Nat → Widening → Widening
  | [], state => state
  | width :: rest, state =>
      if (widen width state).unresolved = [] then widen width state
      else widenAll rest (widen width state)

def maxIdLen (sessions : List KeyedId) : Nat :=
  (sessions.map fun session => session.2.length).max?.getD 0

def uniqueSessionShortIdsForPairs (sessions : List KeyedId) : ShortIds :=
  if sessions = [] then ∅
  else
    let state := widenAll (List.range' 1 (maxIdLen sessions)) ⟨∅, sessions⟩
    state.unresolved.foldl (fun out session => out.insert session.1 session.2) state.out

/-! ## The width of a label -/

/-- The suffix of the width is one of another of the ids. -/
def Shared (ids : List (List Char)) (width : Nat) (id : List Char) : Prop :=
  ∃ other ∈ ids.erase id, sessionIdSuffix id width <:+ other

/-- At the width the id has its label. -/
def Settled (ids : List (List Char)) (id : List Char) (width : Nat) : Prop :=
  minWidth id ≤ width ∧ (¬Shared ids width id ∨ id.length ≤ width)

theorem length_sessionIdSuffix (id : List Char) (width : Nat) :
    (sessionIdSuffix id width).length = min id.length width := by
  rw [sessionIdSuffix, List.length_drop]
  omega

theorem sessionIdSuffix_suffix (id : List Char) (width : Nat) : sessionIdSuffix id width <:+ id :=
  List.drop_suffix _ id

theorem sessionIdSuffix_of_length_le {id : List Char} {width : Nat} (short : id.length ≤ width) :
    sessionIdSuffix id width = id := by
  rw [sessionIdSuffix, Nat.sub_eq_zero_of_le short, List.drop_zero]

theorem sessionIdSuffix_mono (id : List Char) {narrow wide : Nat} (less : narrow ≤ wide) :
    sessionIdSuffix id narrow <:+ sessionIdSuffix id wide := by
  apply List.drop_suffix_drop_left
  omega

theorem eq_sessionIdSuffix {suffix id : List Char} (isSuffix : suffix <:+ id) :
    suffix = sessionIdSuffix id suffix.length := List.suffix_iff_eq_drop.mp isSuffix

theorem Shared.mono {ids : List (List Char)} {id : List Char} {narrow wide : Nat}
    (less : narrow ≤ wide) (shared : Shared ids wide id) : Shared ids narrow id := by
  obtain ⟨other, isOther, isSuffix⟩ := shared
  exact ⟨other, isOther, (sessionIdSuffix_mono id less).trans isSuffix⟩

theorem Settled.mono {ids : List (List Char)} {id : List Char} {narrow wide : Nat}
    (less : narrow ≤ wide) (settled : Settled ids id narrow) : Settled ids id wide := by
  obtain ⟨atLeast, unshared | short⟩ := settled
  · exact ⟨atLeast.trans less, .inl fun shared => unshared (shared.mono less)⟩
  · exact ⟨atLeast.trans less, .inr (short.trans less)⟩

theorem exists_settled (ids : List (List Char)) (id : List Char) : ∃ width, Settled ids id width :=
  ⟨max (minWidth id) id.length, Nat.le_max_left _ _, .inr (Nat.le_max_right _ _)⟩

open Classical in
/-- The least width at which the id has its label. -/
noncomputable def labelWidth (ids : List (List Char)) (id : List Char) : Nat :=
  Nat.find (exists_settled ids id)

noncomputable def shortLabel (ids : List (List Char)) (id : List Char) : List Char :=
  sessionIdSuffix id (labelWidth ids id)

theorem labelWidth_le_iff {ids : List (List Char)} {id : List Char} {width : Nat} :
    labelWidth ids id ≤ width ↔ Settled ids id width := by
  classical
  rw [labelWidth, Nat.find_le_iff]
  constructor
  · rintro ⟨narrow, less, settled⟩
    exact settled.mono less
  · intro settled
    exact ⟨width, Nat.le_refl _, settled⟩

theorem labelWidth_pos (ids : List (List Char)) (id : List Char) : 0 < labelWidth ids id := by
  have atLeast := (labelWidth_le_iff.mp (Nat.le_refl (labelWidth ids id))).1
  rw [minWidth] at atLeast
  omega

theorem labelWidth_le (ids : List (List Char)) {id : List Char} {bound : Nat}
    (short : id.length ≤ bound) : labelWidth ids id ≤ max bound 1 := by
  apply labelWidth_le_iff.mpr
  refine ⟨?_, .inr (short.trans (Nat.le_max_left _ _))⟩
  rw [minWidth]
  omega

/-- Different ids have different labels. -/
theorem shortLabel_injOn {ids : List (List Char)} {id other : List Char} (member : id ∈ ids)
    (isOther : other ∈ ids) (same : shortLabel ids id = shortLabel ids other) : id = other := by
  by_contra different
  have whole : ∀ {first second}, first ≠ second → second ∈ ids →
      shortLabel ids first = shortLabel ids second → shortLabel ids first = first := by
    intro first second apart isSecond sameLabel
    apply sessionIdSuffix_of_length_le
    rcases (labelWidth_le_iff.mp (Nat.le_refl (labelWidth ids first))).2 with alone | short
    · refine absurd ⟨second, (List.mem_erase_of_ne (Ne.symm apart)).mpr isSecond, ?_⟩ alone
      change shortLabel ids first <:+ second
      rw [sameLabel]
      exact sessionIdSuffix_suffix second _
    · exact short
  have first := whole different isOther same
  have second := whole (Ne.symm different) member same.symm
  exact different (first.symm.trans (same.trans second))

/-! ## What the loop finds -/

theorem count_map_eq_one_iff {First Second : Type} [BEq First] [LawfulBEq First] [BEq Second]
    [LawfulBEq Second] (value : First → Second) {items : List First} {item : First}
    (member : item ∈ items) :
    (items.map value).count (value item) = 1 ↔
      ∀ other ∈ items.erase item, value other ≠ value item := by
  have split := ((List.perm_cons_erase member).map value).count_eq (value item)
  rw [List.map_cons, List.count_cons_self] at split
  rw [split, Nat.add_eq_right, List.count_eq_zero, List.mem_map, not_exists]
  simp only [not_and]

variable {sessions : List KeyedId}

/-- The entries whose labels are wider. -/
noncomputable def pending (sessions : List KeyedId) (width : Nat) : List KeyedId :=
  sessions.filter fun session => width < labelWidth (sessions.map Prod.snd) session.2

theorem suffixes_pending (sessions : List KeyedId) (width narrow : Nat) :
    suffixes width (pending sessions narrow) =
      ((sessions.map Prod.snd).filter fun id =>
          minWidth id ≤ width ∧ narrow < labelWidth (sessions.map Prod.snd) id).map fun id =>
        sessionIdSuffix id width := by
  rw [suffixes, pending, List.filter_filter, List.filter_map, List.map_map]
  simp only [Function.comp_def, Bool.decide_and]

/-- An id that shares a suffix with one that is pending is pending too. -/
theorem pending_of_shared {ids : List (List Char)} {id other : List Char} {width : Nat}
    (member : id ∈ ids) (isOther : other ∈ ids.erase id) (long : width < id.length)
    (isSuffix : sessionIdSuffix id (width + 1) <:+ other) : width < labelWidth ids other := by
  have wide := isSuffix.length_le
  rw [length_sessionIdSuffix] at wide
  have same : sessionIdSuffix other width = sessionIdSuffix id width := by
    have narrow := (sessionIdSuffix_mono id (Nat.le_succ width)).trans isSuffix
    rw [eq_sessionIdSuffix narrow, length_sessionIdSuffix, Nat.min_eq_right (Nat.le_of_lt long)]
  apply Nat.lt_of_not_le
  intro settled
  rcases (labelWidth_le_iff.mp settled).2 with alone | short
  · refine alone ⟨id, ?_, same ▸ sessionIdSuffix_suffix id width⟩
    by_cases isSelf : other = id
    · exact isSelf ▸ isOther
    · exact (List.mem_erase_of_ne (Ne.symm isSelf)).mpr member
  · omega

/-- A pass resolves what is settled at its width. -/
theorem resolves_iff {session : KeyedId} {width : Nat} (member : session ∈ pending sessions width) :
    Resolves (width + 1) (pending sessions width) session.2 ↔
      labelWidth (sessions.map Prod.snd) session.2 ≤ width + 1 := by
  obtain ⟨isSession, isPending⟩ := List.mem_filter.mp member
  have isId : session.2 ∈ sessions.map Prod.snd := List.mem_map_of_mem isSession
  rw [labelWidth_le_iff, Resolves, Settled, suffixes_pending]
  refine and_congr_right fun atLeast => ?_
  by_cases short : session.2.length ≤ width + 1
  · exact iff_of_true (.inr short) (.inr short)
  rw [or_iff_left short, or_iff_left short]
  have long : width < session.2.length := by omega
  have isCounted : session.2 ∈ (sessions.map Prod.snd).filter fun id =>
      minWidth id ≤ width + 1 ∧ width < labelWidth (sessions.map Prod.snd) id :=
    List.mem_filter.mpr ⟨isId, by simpa [atLeast] using isPending⟩
  rw [count_map_eq_one_iff (fun id => sessionIdSuffix id (width + 1)) isCounted,
    List.erase_filter, Shared, not_exists]
  refine forall_congr' fun other => ?_
  rw [not_and, List.mem_filter, and_imp]
  refine forall_congr' fun isOther => ?_
  have same : sessionIdSuffix other (width + 1) = sessionIdSuffix session.2 (width + 1) ↔
      sessionIdSuffix session.2 (width + 1) <:+ other := by
    constructor
    · intro isSame
      exact isSame ▸ sessionIdSuffix_suffix other _
    · intro isSuffix
      rw [eq_sessionIdSuffix isSuffix, length_sessionIdSuffix, Nat.min_eq_right long]
  rw [ne_eq, same]
  constructor
  · intro apart isSuffix
    refine apart ?_ isSuffix
    have otherPending := pending_of_shared isId isOther long isSuffix
    have small : minWidth other ≤ width + 1 := by
      simp only [minWidth] at atLeast ⊢
      omega
    simpa [small] using otherPending
  · exact fun apart _ => apart

/-- The entries in the order in which the loop gives them their labels. -/
noncomputable def byWidth (sessions : List KeyedId) (widths : List Nat) : List KeyedId :=
  widths.flatMap fun width =>
    sessions.filter fun session => labelWidth (sessions.map Prod.snd) session.2 = width

/-- Give entries their labels, one after the other. -/
noncomputable def inscribe (ids : List (List Char)) (entries : List KeyedId) (out : ShortIds) :
    ShortIds :=
  entries.foldl (fun out session => out.insert session.1 (shortLabel ids session.2)) out

theorem byWidth_cons (sessions : List KeyedId) (width : Nat) (widths : List Nat) :
    byWidth sessions (width :: widths) =
      (sessions.filter fun session => labelWidth (sessions.map Prod.snd) session.2 = width) ++
        byWidth sessions widths := List.flatMap_cons

theorem inscribe_append (ids : List (List Char)) (entries others : List KeyedId) (out : ShortIds) :
    inscribe ids (entries ++ others) out = inscribe ids others (inscribe ids entries out) :=
  List.foldl_append

theorem filter_pending (sessions : List KeyedId) (width : Nat) (test : KeyedId → Prop)
    [DecidablePred test] (isTest : ∀ session ∈ pending sessions width,
      test session ↔ labelWidth (sessions.map Prod.snd) session.2 ≤ width + 1) :
    (pending sessions width).filter (fun session => test session) =
        (sessions.filter fun session =>
          labelWidth (sessions.map Prod.snd) session.2 = width + 1) ∧
      (pending sessions width).filter (fun session => ¬test session) =
        pending sessions (width + 1) := by
  have resolved : (pending sessions width).filter (fun session => test session) =
      (pending sessions width).filter fun session =>
        labelWidth (sessions.map Prod.snd) session.2 ≤ width + 1 :=
    List.filter_congr fun session member => decide_eq_decide.mpr (isTest session member)
  have unresolved : (pending sessions width).filter (fun session => ¬test session) =
      (pending sessions width).filter fun session =>
        ¬labelWidth (sessions.map Prod.snd) session.2 ≤ width + 1 :=
    List.filter_congr fun session member =>
      decide_eq_decide.mpr (not_congr (isTest session member))
  rw [resolved, unresolved, pending, List.filter_filter, List.filter_filter]
  refine ⟨List.filter_congr ?_, List.filter_congr ?_⟩
  · intro session _
    rw [← Bool.decide_and, decide_eq_decide]
    omega
  · intro session _
    rw [← Bool.decide_and, decide_eq_decide]
    omega

theorem widen_pending (sessions : List KeyedId) (width : Nat) (out : ShortIds) :
    widen (width + 1) ⟨out, pending sessions width⟩ =
      ⟨inscribe (sessions.map Prod.snd) (byWidth sessions [width + 1]) out,
        pending sessions (width + 1)⟩ := by
  obtain ⟨now, later⟩ := filter_pending sessions width
    (fun session => Resolves (width + 1) (pending sessions width) session.2)
    fun session member => resolves_iff member
  rw [widen, later, now, byWidth, List.flatMap_singleton, inscribe]
  congr 1
  apply List.foldl_ext
  intro out session member
  have isWidth := of_decide_eq_true (List.mem_filter.mp member).2
  rw [shortLabel, isWidth]

theorem byWidth_eq_nil {sessions : List KeyedId} {width : Nat} (done : pending sessions width = [])
    {widths : List Nat} (wider : ∀ other ∈ widths, width < other) :
    byWidth sessions widths = [] := by
  rw [byWidth, List.flatMap_eq_nil_iff]
  intro other isWidth
  rw [List.filter_eq_nil_iff]
  intro session member isOther
  have isPending : session ∈ pending sessions width := by
    refine List.mem_filter.mpr ⟨member, decide_eq_true ?_⟩
    rw [of_decide_eq_true isOther]
    exact wider other isWidth
  rw [done] at isPending
  cases isPending

theorem pending_mono {sessions : List KeyedId} {narrow wide : Nat} (less : narrow ≤ wide)
    (done : pending sessions narrow = []) : pending sessions wide = [] := by
  rw [pending, List.filter_eq_nil_iff] at done ⊢
  intro session member wider
  have notWider := done session member
  simp only [decide_eq_true_eq] at wider notWider
  omega

/-- The loop gives the labels in the order of their widths. -/
theorem widenAll_pending (sessions : List KeyedId) (width count : Nat) (out : ShortIds) :
    widenAll (List.range' (width + 1) count) ⟨out, pending sessions width⟩ =
      ⟨inscribe (sessions.map Prod.snd) (byWidth sessions (List.range' (width + 1) count)) out,
        pending sessions (width + count)⟩ := by
  induction count generalizing width out with
  | zero => rfl
  | succ count inductionHypothesis =>
      have order : byWidth sessions (List.range' (width + 1) (count + 1)) =
          byWidth sessions [width + 1] ++
            byWidth sessions (List.range' (width + 1 + 1) count) := by
        rw [List.range'_succ, byWidth_cons, byWidth_cons, List.append_assoc]
        rfl
      have sum : width + (count + 1) = width + 1 + count := by omega
      rw [order, inscribe_append, sum, List.range'_succ, widenAll, widen_pending]
      split
      · next done =>
          change pending sessions (width + 1) = [] at done
          have none : byWidth sessions (List.range' (width + 1 + 1) count) = [] := by
            apply byWidth_eq_nil done
            intro other isWidth
            exact (List.mem_range'_1.mp isWidth).1
          rw [none, pending_mono (Nat.le_add_right _ count) done, done]
          rfl
      · exact inductionHypothesis (width + 1) _

theorem le_maxIdLen {session : KeyedId} (member : session ∈ sessions) :
    session.2.length ≤ maxIdLen sessions :=
  List.le_max?_getD_of_mem (List.mem_map_of_mem member)

/-- Every label is given, in the order of the widths. -/
theorem uniqueSessionShortIdsForPairs_eq (sessions : List KeyedId) :
    uniqueSessionShortIdsForPairs sessions = inscribe (sessions.map Prod.snd)
      (byWidth sessions (List.range' 1 (maxIdLen sessions + 1))) ∅ := by
  rw [uniqueSessionShortIdsForPairs]
  split
  · next isNil =>
      rw [isNil]
      rfl
  · have all : pending sessions 0 = sessions :=
      List.filter_eq_self.mpr fun session _ => decide_eq_true (labelWidth_pos _ _)
    have looped := widenAll_pending sessions 0 (maxIdLen sessions) ∅
    rw [all, Nat.zero_add, Nat.zero_add] at looped
    have last : pending sessions (maxIdLen sessions) =
        byWidth sessions [maxIdLen sessions + 1] := by
      rw [byWidth, List.flatMap_singleton, pending]
      apply List.filter_congr
      intro session member
      have bounded := labelWidth_le (sessions.map Prod.snd) (le_maxIdLen member)
      rw [decide_eq_decide]
      omega
    have order : byWidth sessions (List.range' 1 (maxIdLen sessions + 1)) =
        byWidth sessions (List.range' 1 (maxIdLen sessions)) ++
          pending sessions (maxIdLen sessions) := by
      rw [last, List.range'_concat, byWidth, List.flatMap_append, Nat.one_mul, Nat.add_comm 1]
      rfl
    rw [looped, order, inscribe_append]
    -- The ids that are left have their full length.
    apply List.foldl_ext
    intro out session member
    obtain ⟨isSession, isPending⟩ := List.mem_filter.mp member
    have short := (le_maxIdLen isSession).trans (Nat.le_of_lt (of_decide_eq_true isPending))
    rw [shortLabel, sessionIdSuffix_of_length_le short]

/-! ## The labels -/

/-- The suffix is also one of another of the ids. -/
def Ambiguous (ids : List (List Char)) (id suffix : List Char) : Prop :=
  ∃ other ∈ ids, other ≠ id ∧ suffix <:+ other

/-- The shortest suffix that no other id has, or the id where there is none. -/
inductive IsShortLabel (ids : List (List Char)) (id : List Char) : List Char → Prop where
  | shortest {label : List Char} (isSuffix : label <:+ id) (long : min 7 id.length ≤ label.length)
      (unique : ¬Ambiguous ids id label)
      (least : ∀ suffix, suffix <:+ id → min 7 id.length ≤ suffix.length →
        suffix.length < label.length → Ambiguous ids id suffix) : IsShortLabel ids id label
  | whole (none : ∀ suffix, suffix <:+ id → min 7 id.length ≤ suffix.length →
      Ambiguous ids id suffix) : IsShortLabel ids id id

theorem shared_iff {ids : List (List Char)} (distinct : ids.Nodup) {id : List Char} {width : Nat} :
    Shared ids width id ↔ Ambiguous ids id (sessionIdSuffix id width) := by
  refine exists_congr fun other => ?_
  rw [distinct.mem_erase_iff, and_comm (a := other ≠ id), and_assoc]

theorem isShortLabel_shortLabel {ids : List (List Char)} (distinct : ids.Nodup) (id : List Char) :
    IsShortLabel ids id (shortLabel ids id) := by
  have ambiguous : ∀ suffix, suffix <:+ id → Shared ids suffix.length id →
      Ambiguous ids id suffix := by
    intro suffix isSuffix shared
    rw [eq_sessionIdSuffix isSuffix]
    exact (shared_iff distinct).mp shared
  have narrower : ∀ suffix, suffix <:+ id → min 7 id.length ≤ suffix.length →
      suffix.length < labelWidth ids id → suffix.length < id.length →
      Ambiguous ids id suffix := by
    intro suffix isSuffix long less proper
    apply ambiguous suffix isSuffix
    by_contra alone
    apply Nat.not_le_of_lt less
    refine labelWidth_le_iff.mpr ⟨?_, .inl alone⟩
    rw [minWidth]
    omega
  obtain ⟨atLeast, settled⟩ := labelWidth_le_iff.mp (Nat.le_refl (labelWidth ids id))
  by_cases proper : labelWidth ids id < id.length
  · have size : (shortLabel ids id).length = labelWidth ids id := by
      rw [shortLabel, length_sessionIdSuffix, Nat.min_eq_right (Nat.le_of_lt proper)]
    have alone := settled.resolve_right (Nat.not_le_of_lt proper)
    refine .shortest (sessionIdSuffix_suffix id _) ?_ (mt (shared_iff distinct).mpr alone) ?_
    · rw [size]
      exact (Nat.le_max_left _ _).trans atLeast
    · intro suffix isSuffix long less
      rw [size] at less
      exact narrower suffix isSuffix long less (less.trans proper)
  · have short := Nat.le_of_not_lt proper
    rw [shortLabel, sessionIdSuffix_of_length_le short]
    by_cases shared : Shared ids id.length id
    · exact .whole fun suffix isSuffix _ =>
        ambiguous suffix isSuffix (shared.mono isSuffix.length_le)
    · rw [shared_iff distinct, sessionIdSuffix_of_length_le (Nat.le_refl _)] at shared
      refine .shortest (List.suffix_refl id) (Nat.min_le_right _ _) shared ?_
      intro suffix isSuffix long less
      exact narrower suffix isSuffix long (less.trans_le short) less

/-- The entries of all widths in the order of the loop. -/
noncomputable def labelOrder (sessions : List KeyedId) : List KeyedId :=
  byWidth sessions (List.range' 1 (maxIdLen sessions + 1))

theorem mem_labelOrder {session : KeyedId} :
    session ∈ labelOrder sessions ↔ session ∈ sessions := by
  rw [labelOrder, byWidth, List.mem_flatMap]
  constructor
  · rintro ⟨_, _, member⟩
    exact (List.mem_filter.mp member).1
  · intro member
    have positive := labelWidth_pos (sessions.map Prod.snd) session.2
    have bounded := labelWidth_le (sessions.map Prod.snd) (le_maxIdLen member)
    refine ⟨labelWidth (sessions.map Prod.snd) session.2, ?_,
      List.mem_filter.mpr ⟨member, decide_eq_true rfl⟩⟩
    rw [List.mem_range'_1]
    omega

/-- A key has the label of its last entry in the order of the loop. -/
theorem lookup_uniqueSessionShortIdsForPairs (sessions : List KeyedId) (key : List Char) :
    (uniqueSessionShortIdsForPairs sessions).lookup key =
      ((labelOrder sessions).filter fun session => session.1 = key).getLast?.map fun session =>
        shortLabel (sessions.map Prod.snd) session.2 := by
  rw [uniqueSessionShortIdsForPairs_eq, inscribe, lookup_foldl_insert_items, Finmap.lookup_empty,
    Option.or_none]
  rfl

theorem lookup_of_mem (distinct : (sessions.map Prod.fst).Nodup) {session : KeyedId}
    (member : session ∈ sessions) :
    (uniqueSessionShortIdsForPairs sessions).lookup session.1 =
      some (shortLabel (sessions.map Prod.snd) session.2) := by
  rw [lookup_uniqueSessionShortIdsForPairs]
  have isEntry : session ∈ (labelOrder sessions).filter fun other => other.1 = session.1 :=
    List.mem_filter.mpr ⟨mem_labelOrder.mpr member, decide_eq_true rfl⟩
  obtain ⟨last, isLast⟩ :=
    Option.isSome_iff_exists.mp (List.getLast?_isSome.mpr (List.ne_nil_of_mem isEntry))
  obtain ⟨isOrdered, sameKey⟩ := List.mem_filter.mp (List.mem_of_getLast? isLast)
  rw [isLast, List.inj_on_of_nodup_map distinct (mem_labelOrder.mp isOrdered) member
    (of_decide_eq_true sameKey)]
  rfl

/-- Keys with different ids have different labels, and each is the shortest suffix of its id that
no other id has. -/
theorem short_labels_distinguish (sessions : List KeyedId)
    (distinctKeys : (sessions.map Prod.fst).Nodup) (distinctIds : (sessions.map Prod.snd).Nodup) :
    (∀ session ∈ sessions, ∃ label,
        (uniqueSessionShortIdsForPairs sessions).lookup session.1 = some label ∧
          IsShortLabel (sessions.map Prod.snd) session.2 label) ∧
      ∀ session ∈ sessions, ∀ other ∈ sessions, session.1 ≠ other.1 →
        (uniqueSessionShortIdsForPairs sessions).lookup session.1 ≠
          (uniqueSessionShortIdsForPairs sessions).lookup other.1 := by
  constructor
  · intro session member
    exact ⟨_, lookup_of_mem distinctKeys member, isShortLabel_shortLabel distinctIds session.2⟩
  · intro session member other isOther different same
    rw [lookup_of_mem distinctKeys member, lookup_of_mem distinctKeys isOther] at same
    have sameId := shortLabel_injOn (List.mem_map_of_mem member) (List.mem_map_of_mem isOther)
      (Option.some.inj same)
    apply different
    rw [List.inj_on_of_nodup_map distinctIds member isOther sameId]

/-- An id that is the end of another one. -/
def nestedIds : List KeyedId :=
  [("a".toList, "x9999999".toList), ("b".toList, "9999999".toList), ("c".toList, "99".toList)]

theorem short_labels_distinguish_nested :
    (uniqueSessionShortIdsForPairs nestedIds).lookup "a".toList ≠
      (uniqueSessionShortIdsForPairs nestedIds).lookup "b".toList :=
  (short_labels_distinguish nestedIds (by decide) (by decide)).2
    ("a".toList, "x9999999".toList) (by decide) ("b".toList, "9999999".toList) (by decide)
    (by decide)

end Yggterm.Browser
