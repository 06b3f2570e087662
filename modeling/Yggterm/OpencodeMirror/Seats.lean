import Yggterm.Library.Lines
import Yggterm.OpencodeMirror.Births

/-!
# The seats of the tabs

A tab that a tick births is seated under the anchor, at `<anchor outline>.<n+1>`.  The number
comes from a count of the rows that the mirror has stamped, the new one included, and nobody
asks whether a row sits there: once a tab has retired the count is behind the seats.
-/

namespace Yggterm.OpencodeMirror

open Runs Text

/-- The rows with the outline prefixes under their keys. -/
structure Outline where
  rows : Plane
  prefixes : List Char → Option (List Char)

def subSeat (base : List Char) (number : Nat) : List Char := base ++ '.' :: Nat.toDigits 10 number

namespace Outline

def onRows (outline : Outline) (change : Plane → Plane) : Outline :=
  { outline with rows := change outline.rows }

/-- The outline prefix of the row under a key. -/
def seatOf (outline : Outline) (key : List Char) : Option (List Char) :=
  if key ∈ outline.rows then outline.prefixes key else none

def setPrefix (outline : Outline) (key : List Char) (seat : Option (List Char)) : Outline :=
  { outline with prefixes := fun other => if other = key then seat else outline.prefixes other }

def setSessionOutlinePrefix (outline : Outline) (key seat : List Char) : Outline :=
  if key ∈ outline.rows then
    outline.setPrefix key (if trim seat = [] then none else some (trim seat))
  else outline

def nextOpencodeTabSeat (outline : Outline) (screenLive : Finset (List Char)) :
    Option (List Char) :=
  (opencodeAnchorKey outline.rows screenLive).bind fun anchorKey =>
    let base := (outline.seatOf anchorKey).getD []
    if base = [] then none
    else
      let used := outline.rows.toList.countP fun entry => mirrorProjectionRow entry.2
      some (subSeat base (used + 1))

/-- A row is born without an outline prefix. -/
def birth (input : TickInput) (outline : Outline) (ses : OpencodeServiceSession) : Outline :=
  if input.birthTombstoned (spawnKey ses.id) then outline
  else (outline.onRows fun rows => OpencodeMirror.birth input rows ses).setPrefix
    (spawnKey ses.id) none

def stampedBirth (input : TickInput) (outline : Outline) (ses : OpencodeServiceSession) :
    Outline :=
  (birth input outline ses).onRows fun rows => rows.modify (spawnKey ses.id) fun row =>
    stampViewed ses (stampDirectory ses (stampOwned ses { row with launchPhase := .queued }))

/-- The next seat goes to the row that was born. -/
def seatBirth (screenLive : Finset (List Char)) (outline : Outline) (key : List Char) : Outline :=
  match outline.nextOpencodeTabSeat screenLive with
  | some seat => outline.setSessionOutlinePrefix key seat
  | none => outline

def adoptRow (outline : Outline) (ses : OpencodeServiceSession) : Outline :=
  outline.onRows fun rows => rows.modify (spawnKey ses.id) (adopt ses)

/-- One session of the plan.  A row that is born when nothing is left gets no seat. -/
def spawnOne (input : TickInput) (state : Outline × Nat) (ses : OpencodeServiceSession) :
    Outline × Nat :=
  if spawnKey ses.id ∈ state.1.rows then (state.1.adoptRow ses, state.2)
  else match state.2 with
    | 0 => (birth input state.1 ses, 0)
    | budget + 1 =>
        (seatBirth input.screenLive (stampedBirth input state.1 ses) (spawnKey ses.id), budget)

/-- The sessions that a tick goes through. -/
def spawnPlan (plane : Plane) (input : TickInput) : List OpencodeServiceSession :=
  (tickPlan plane input).spawn.filter fun ses => !input.spawnTombstoned (spawnKey ses.id)

/-- `apply_opencode_tab_mirror`, with the outline prefixes. -/
def tick (outline : Outline) (input : TickInput) : Outline :=
  let owned := ownedTabsFrom outline.rows
  let anchorKey := opencodeAnchorKey outline.rows input.screenLive
  let plan := tickPlan outline.rows input
  let spawned :=
    ((spawnPlan outline.rows input).foldl (spawnOne input) (outline, spawnBudgetPerTick)).1
  spawned.onRows fun rows =>
    let retired := (retiredKeys owned plan).foldl Plane.removeLiveSession rows
    let retracted := (plan.retract.map spawnKey).foldl Plane.removeLiveSession retired
    recordFocus input owned plan.focus (followViewing input anchorKey retracted)

/-- The seat that a session's row is given is no other row's. -/
def SeatedAlone (input : TickInput) (state : Outline × Nat) (ses : OpencodeServiceSession) :
    Prop :=
  spawnKey ses.id ∉ state.1.rows →
    ∀ seat ∈ (spawnOne input state ses).1.seatOf (spawnKey ses.id), ∀ other,
      other ≠ spawnKey ses.id → (spawnOne input state ses).1.seatOf other ≠ some seat

/-- What a tick should do: give every new row a seat of its own. -/
def TabsSeatedAlone (outline : Outline) (input : TickInput) : Prop :=
  Guarded (spawnOne input) (SeatedAlone input) (outline, spawnBudgetPerTick)
    (spawnPlan outline.rows input)

/-! ## Without the prefixes -/

variable (input : TickInput) (outline : Outline)

@[simp]
theorem rows_onRows (change : Plane → Plane) :
    (outline.onRows change).rows = change outline.rows :=
  rfl

@[simp]
theorem rows_setPrefix (key : List Char) (seat : Option (List Char)) :
    (outline.setPrefix key seat).rows = outline.rows :=
  rfl

@[simp]
theorem rows_setSessionOutlinePrefix (key seat : List Char) :
    (outline.setSessionOutlinePrefix key seat).rows = outline.rows := by
  unfold setSessionOutlinePrefix
  split <;> rfl

@[simp]
theorem rows_seatBirth (screenLive : Finset (List Char)) (key : List Char) :
    (seatBirth screenLive outline key).rows = outline.rows := by
  unfold seatBirth
  split
  · exact rows_setSessionOutlinePrefix outline key _
  · rfl

theorem rows_birth (ses : OpencodeServiceSession) :
    (birth input outline ses).rows = OpencodeMirror.birth input outline.rows ses := by
  by_cases closed : input.birthTombstoned (spawnKey ses.id)
  · rw [birth, if_pos closed, OpencodeMirror.birth, if_pos closed]
  · rw [birth, if_neg closed, rows_setPrefix, rows_onRows]

theorem rows_spawnOne (budget : Nat) (ses : OpencodeServiceSession) :
    ((spawnOne input (outline, budget) ses).1.rows,
        (spawnOne input (outline, budget) ses).2) =
      OpencodeMirror.spawnOne input (outline.rows, budget) ses := by
  by_cases found : spawnKey ses.id ∈ outline.rows
  · rw [spawnOne, if_pos found, OpencodeMirror.spawnOne, if_pos found]
    rfl
  · rw [spawnOne, if_neg found, OpencodeMirror.spawnOne, if_neg found, ← rows_birth]
    cases budget with
    | zero => rfl
    | succ budget => exact congrArg (·, budget) (rows_seatBirth _ _ _)

theorem rows_spawnFrom (spawn : List OpencodeServiceSession) (budget : Nat) :
    (spawn.foldl (spawnOne input) (outline, budget)).1.rows =
      (spawn.foldl (OpencodeMirror.spawnOne input) (outline.rows, budget)).1 := by
  induction spawn generalizing outline budget with
  | nil => rfl
  | cons ses rest inductionHypothesis =>
      rw [List.foldl_cons, List.foldl_cons, ← rows_spawnOne input outline budget ses]
      exact inductionHypothesis _ _

/-- Without the prefixes it is the tick of the plane. -/
theorem rows_tick : (tick outline input).rows = applyOpencodeTabMirror outline.rows input := by
  rw [tick, applyOpencodeTabMirror, rows_onRows, rows_spawnFrom]
  rfl

end Outline

/-! ## The rows in order -/

theorem toList_congr {plane other : Plane} (same : ∀ key : List Char, plane[key]? = other[key]?) :
    plane.toList = other.toList :=
  (Std.TreeMap.Equiv.of_forall_constGet?_eq same).toList_eq

theorem toList_modify (plane : Plane) (key : List Char) (change : Row → Row) :
    (plane.modify key change).toList =
      plane.toList.map fun entry =>
        (entry.1, if key = entry.1 then change entry.2 else entry.2) := by
  rw [← Std.TreeMap.toList_map (f := fun other row => if key = other then change row else row)]
  apply toList_congr
  intro other
  rw [lookup_modify, Std.TreeMap.getElem?_map]
  split
  · rfl
  · rw [Option.map_id']

section Insert

variable {plane : Plane} {key : List Char} (absent : key ∉ plane) {row : Row} {test : Row → Bool}
include absent

/-- A new row that a test leaves out is not seen by it. -/
theorem filter_toList_insert (leavesOut : test row = false) :
    ((plane.insert key row).toList.filter fun entry => test entry.2) =
      plane.toList.filter fun entry => test entry.2 := by
  have same : ((plane.insert key row).filter fun _ row => test row).toList =
      (plane.filter fun _ row => test row).toList := by
    apply toList_congr
    intro other
    rw [Std.TreeMap.getElem?_filter', Std.TreeMap.getElem?_filter', lookup_insert]
    split
    · next same =>
        subst same
        rw [Std.TreeMap.getElem?_eq_none absent, Option.filter_some_neg leavesOut]
        rfl
    · rfl
  rwa [Std.TreeMap.toList_filter, Std.TreeMap.toList_filter] at same

theorem countP_toList_insert (sees : test row = true) :
    ((plane.insert key row).toList.countP fun entry => test entry.2) =
      (plane.toList.countP fun entry => test entry.2) + 1 := by
  have others : (plane.toList.filter fun entry => ¬key == entry.1) = plane.toList := by
    apply List.filter_eq_self.mpr
    intro entry member
    have present : entry.1 ∈ plane := by
      rw [mem_iff_getElem?_ne_none, mem_toList_iff.mp member]
      exact Option.some_ne_none _
    have different : key ≠ entry.1 := by
      rintro rfl
      exact absent present
    simpa using different
  rw [(Std.TreeMap.toList_insert_perm (t := plane) (k := key) (v := row)).countP_eq, others]
  exact List.countP_cons_of_pos sees

end Insert

/-! ## The seat of a new row -/

theorem opencodeAnchorCandidates_eq (plane : Plane) :
    opencodeAnchorCandidates plane = (plane.toList.filter fun entry =>
      entry.2.kind = .openCode && runtimeScheme.isPrefixOf entry.2.sessionPath &&
        !mirrorProjectionRow entry.2).map Prod.snd :=
  List.filter_map

theorem mirrorProjectionRow_of_source {row : Row}
    (sourced : row.metadataValue sourceLabel = some tabSourceMetadata) :
    mirrorProjectionRow row = true := by
  obtain ⟨entry, found, isSource⟩ := Option.map_eq_some_iff.mp sourced
  have labelled : entry.1 = sourceLabel := by simpa using List.find?_some found
  apply List.any_eq_true.mpr
  exact ⟨entry, List.mem_of_find?_eq_some found, by simp [labelled, isSource]⟩

theorem metadataValue_stampOwned_source (ses : OpencodeServiceSession) (row : Row) :
    (stampOwned ses row).metadataValue sourceLabel = some tabSourceMetadata := by
  rw [stampOwned, metadataValue_upsertSessionMetadata, if_neg (by decide),
    metadataValue_upsertSessionMetadata, if_pos rfl]

theorem mirrorProjectionRow_adopt (ses : OpencodeServiceSession) (row : Row) :
    mirrorProjectionRow (adopt ses row) = true := by
  by_cases stamped : mirrorProjectionRow row = true
  · rwa [adopt, if_pos stamped]
  · rw [adopt, if_neg stamped]
    apply mirrorProjectionRow_of_source
    rw [metadataValue_stampDirectory (by decide), metadataValue_stampOwned_source]

theorem mirrorProjectionRow_stampedRow (input : TickInput) (ses : OpencodeServiceSession) :
    mirrorProjectionRow (stampedRow input ses) = true := by
  apply mirrorProjectionRow_of_source
  rw [stampedRow, metadataValue_stampViewed (by decide), metadataValue_stampDirectory (by decide),
    metadataValue_stampOwned_source]

theorem trim_subSeat_ne_nil (base : List Char) (number : Nat) :
    trim (subSeat base number) ≠ [] := by
  rw [Ne, trim_eq_nil_iff]
  intro blank
  exact absurd (blank '.' (List.mem_append_right _ List.mem_cons_self)) (by decide)

namespace Outline

variable {input : TickInput} {outline : Outline} {ses : OpencodeServiceSession} {key : List Char}

theorem nextOpencodeTabSeat_eq_some_iff {screenLive : Finset (List Char)} {seat : List Char} :
    outline.nextOpencodeTabSeat screenLive = some seat ↔
      ∃ anchor, opencodeAnchorKey outline.rows screenLive = some anchor ∧
        ∃ base, outline.seatOf anchor = some base ∧ base ≠ [] ∧ subSeat base
          ((outline.rows.toList.countP fun entry => mirrorProjectionRow entry.2) + 1) = seat := by
  rw [nextOpencodeTabSeat, Option.bind_eq_some_iff]
  apply exists_congr
  intro anchor
  apply and_congr_right
  intro _
  cases outline.seatOf anchor with
  | none => simp
  | some base =>
      by_cases empty : base = []
      · simp [empty]
      · simp [empty]

theorem seatOf_setPrefix_self (found : key ∈ outline.rows) (seat : Option (List Char)) :
    (outline.setPrefix key seat).seatOf key = seat := by
  rw [seatOf, rows_setPrefix, if_pos found, setPrefix]
  exact if_pos rfl

theorem seatOf_setPrefix_of_ne {other : List Char} (different : other ≠ key)
    (seat : Option (List Char)) :
    (outline.setPrefix key seat).seatOf other = outline.seatOf other := by
  simp only [seatOf, setPrefix, if_neg different]

theorem seatOf_onRows {change : Plane → Plane}
    (same : key ∈ change outline.rows ↔ key ∈ outline.rows) :
    (outline.onRows change).seatOf key = outline.seatOf key := by
  simp only [seatOf, onRows, same]

theorem seatOf_of_not_mem (absent : key ∉ outline.rows) : outline.seatOf key = none :=
  if_neg absent

theorem toList_stampedBirth (welcome : input.birthTombstoned (spawnKey ses.id) = false) :
    (stampedBirth input outline ses).rows.toList =
      (outline.rows.insert (spawnKey ses.id) (stampedRow input ses)).toList := by
  apply toList_congr
  intro other
  rw [stampedBirth, rows_onRows, rows_birth, lookup_modify, lookup_insert]
  split
  · next same =>
      subst same
      rw [lookup_birth_self welcome]
      rfl
  · next different => exact lookup_birth_of_ne different

section Birth

variable (absent : spawnKey ses.id ∉ outline.rows)
include absent

/-- A birth seats nobody. -/
theorem seatOf_birth (other : List Char) :
    (birth input outline ses).seatOf other = outline.seatOf other := by
  unfold birth
  split
  · rfl
  next welcome =>
    by_cases same : other = spawnKey ses.id
    · subst same
      rw [seatOf_of_not_mem absent, seatOf, rows_setPrefix, setPrefix]
      dsimp only
      rw [if_pos rfl, ite_self]
    · rw [seatOf_setPrefix_of_ne same]
      apply seatOf_onRows
      exact mem_congr (lookup_birth_of_ne (Ne.symm same))

theorem seatOf_stampedBirth (other : List Char) :
    (stampedBirth input outline ses).seatOf other = outline.seatOf other := by
  rw [stampedBirth, seatOf_onRows Std.TreeMap.mem_modify, seatOf_birth absent]

theorem opencodeAnchorKey_stampedBirth
    (welcome : input.birthTombstoned (spawnKey ses.id) = false) (screenLive : Finset (List Char)) :
    opencodeAnchorKey (stampedBirth input outline ses).rows screenLive =
      opencodeAnchorKey outline.rows screenLive := by
  have same : opencodeAnchorCandidates (stampedBirth input outline ses).rows =
      opencodeAnchorCandidates outline.rows := by
    rw [opencodeAnchorCandidates_eq, opencodeAnchorCandidates_eq, toList_stampedBirth welcome]
    congr 1
    let isCandidate := fun row : Row => decide (row.kind = .openCode) &&
      runtimeScheme.isPrefixOf row.sessionPath && !mirrorProjectionRow row
    have leavesOut : isCandidate (stampedRow input ses) = false := by
      simp [isCandidate, mirrorProjectionRow_stampedRow]
    exact filter_toList_insert absent leavesOut
  rw [opencodeAnchorKey, same, opencodeAnchorKey]

theorem nextSeat_stampedBirth_eq_some_iff
    (welcome : input.birthTombstoned (spawnKey ses.id) = false) {screenLive : Finset (List Char)}
    {seat : List Char} :
    (stampedBirth input outline ses).nextOpencodeTabSeat screenLive = some seat ↔
      ∃ anchor, opencodeAnchorKey outline.rows screenLive = some anchor ∧
        ∃ base, outline.seatOf anchor = some base ∧ base ≠ [] ∧ subSeat base
          ((outline.rows.toList.countP fun entry => mirrorProjectionRow entry.2) + 2) = seat := by
  rw [nextOpencodeTabSeat_eq_some_iff, opencodeAnchorKey_stampedBirth absent welcome,
    toList_stampedBirth welcome,
    countP_toList_insert absent (mirrorProjectionRow_stampedRow input ses)]
  simp only [seatOf_stampedBirth absent]

end Birth

theorem seatOf_seatBirth_self (found : key ∈ outline.rows) (screenLive : Finset (List Char)) :
    (seatBirth screenLive outline key).seatOf key =
      ((outline.nextOpencodeTabSeat screenLive).map trim).or (outline.seatOf key) := by
  rw [seatBirth]
  cases isNext : outline.nextOpencodeTabSeat screenLive with
  | none => rfl
  | some seat =>
      obtain ⟨_, _, base, _, _, rfl⟩ := nextOpencodeTabSeat_eq_some_iff.mp isNext
      dsimp only
      rw [setSessionOutlinePrefix, if_pos found, if_neg (trim_subSeat_ne_nil _ _),
        seatOf_setPrefix_self found]
      rfl

theorem seatOf_seatBirth_of_ne {other : List Char} (different : other ≠ key)
    (screenLive : Finset (List Char)) :
    (seatBirth screenLive outline key).seatOf other = outline.seatOf other := by
  rw [seatBirth]
  split
  · rw [setSessionOutlinePrefix]
    split
    · exact seatOf_setPrefix_of_ne different _
    · rfl
  · rfl

theorem seatedAlone_of_mem {state : Outline × Nat} (found : spawnKey ses.id ∈ state.1.rows) :
    SeatedAlone input state ses :=
  fun absent => absurd found absent

/-- Nothing that is born beyond the budget is seated. -/
theorem seatedAlone_beyond : SeatedAlone input (outline, 0) ses := by
  intro absent seat isSeat
  rw [spawnOne, if_neg absent, seatOf_birth absent, seatOf_of_not_mem absent] at isSeat
  cases isSeat

theorem spawnOne_absent (absent : spawnKey ses.id ∉ outline.rows) (budget : Nat) :
    (spawnOne input (outline, budget + 1) ses).1 =
      seatBirth input.screenLive (stampedBirth input outline ses) (spawnKey ses.id) := by
  rw [spawnOne, if_neg absent]

theorem seatedAlone_vetoed (closed : input.birthTombstoned (spawnKey ses.id) = true)
    (budget : Nat) : SeatedAlone input (outline, budget + 1) ses := by
  intro absent seat isSeat
  have notBorn : spawnKey ses.id ∉ (spawnOne input (outline, budget + 1) ses).1.rows := by
    rw [spawnOne_absent absent, rows_seatBirth, stampedBirth, rows_onRows, birth, if_pos closed,
      Std.TreeMap.mem_modify]
    exact absent
  rw [seatOf_of_not_mem notBorn] at isSeat
  cases isSeat

/-- Within the budget a new row sits alone when the number it is given is nobody's. -/
theorem seatedAlone_within_iff (absent : spawnKey ses.id ∉ outline.rows)
    (welcome : input.birthTombstoned (spawnKey ses.id) = false) (budget : Nat) :
    SeatedAlone input (outline, budget + 1) ses ↔
      ∀ anchor ∈ opencodeAnchorKey outline.rows input.screenLive,
        ∀ base ∈ outline.seatOf anchor, base ≠ [] → ∀ key, outline.seatOf key ≠
          some (trim (subSeat base
            ((outline.rows.toList.countP fun entry => mirrorProjectionRow entry.2) + 2))) := by
  have unseated : outline.seatOf (spawnKey ses.id) = none := seatOf_of_not_mem absent
  have born : spawnKey ses.id ∈ (stampedBirth input outline ses).rows := by
    rw [stampedBirth, rows_onRows, Std.TreeMap.mem_modify, rows_birth, mem_iff_getElem?_ne_none,
      lookup_birth_self welcome]
    exact Option.some_ne_none _
  have self : (spawnOne input (outline, budget + 1) ses).1.seatOf (spawnKey ses.id) =
      ((stampedBirth input outline ses).nextOpencodeTabSeat input.screenLive).map trim := by
    rw [spawnOne_absent absent, seatOf_seatBirth_self born, seatOf_stampedBirth absent, unseated,
      Option.or_none]
  have others : ∀ other, other ≠ spawnKey ses.id →
      (spawnOne input (outline, budget + 1) ses).1.seatOf other = outline.seatOf other := by
    intro other different
    rw [spawnOne_absent absent, seatOf_seatBirth_of_ne different, seatOf_stampedBirth absent]
  constructor
  · intro alone anchor isAnchor base isBase nonempty key taken
    have different : key ≠ spawnKey ses.id := by
      rintro rfl
      rw [unseated] at taken
      cases taken
    refine alone absent _ ?_ key different ((others key different).trans taken)
    rw [self, (nextSeat_stampedBirth_eq_some_iff absent welcome).mpr
      ⟨anchor, isAnchor, base, isBase, nonempty, rfl⟩]
    rfl
  · intro vacant _ seat isSeat other different
    rw [self] at isSeat
    obtain ⟨_, isNext, rfl⟩ := Option.map_eq_some_iff.mp isSeat
    obtain ⟨anchor, isAnchor, base, isBase, nonempty, rfl⟩ :=
      (nextSeat_stampedBirth_eq_some_iff absent welcome).mp isNext
    rw [others other different]
    exact vacant anchor isAnchor base isBase nonempty other

/-! ## The sessions of a plan -/

theorem rows_adoptRow_mem : key ∈ (outline.adoptRow ses).rows ↔ key ∈ outline.rows :=
  Std.TreeMap.mem_modify

theorem absentFrom_adoptRow (spawn : List OpencodeServiceSession) :
    absentFrom (outline.adoptRow ses).rows spawn = absentFrom outline.rows spawn := by
  simp only [absentFrom, rows_adoptRow_mem]

/-- Beyond the budget there is nothing to seat. -/
theorem guarded_beyond (outline : Outline) (spawn : List OpencodeServiceSession) :
    Guarded (spawnOne input) (SeatedAlone input) (outline, 0) spawn := by
  induction spawn generalizing outline with
  | nil => trivial
  | cons ses rest inductionHypothesis =>
      refine ⟨seatedAlone_beyond, ?_⟩
      by_cases found : spawnKey ses.id ∈ outline.rows
      · rw [spawnOne, if_pos found]
        exact inductionHypothesis _
      · rw [spawnOne, if_neg found]
        exact inductionHypothesis _

/-- The first session without a row is the one that is seated, once those before it are adopted. -/
theorem guarded_within_iff (outline : Outline) (spawn : List OpencodeServiceSession) :
    Guarded (spawnOne input) (SeatedAlone input) (outline, 1) spawn ↔
      ∀ ses ∈ (absentFrom outline.rows spawn).head?, SeatedAlone input
        ((spawn.takeWhile fun ses => spawnKey ses.id ∈ outline.rows).foldl adoptRow outline, 1)
        ses := by
  induction spawn generalizing outline with
  | nil => simp [Guarded, absentFrom]
  | cons first rest inductionHypothesis =>
      by_cases found : spawnKey first.id ∈ outline.rows
      · have next : spawnOne input (outline, 1) first = (outline.adoptRow first, 1) := if_pos found
        have others : absentFrom outline.rows (first :: rest) = absentFrom outline.rows rest :=
          List.filter_cons_of_neg (by simpa using found)
        rw [Guarded, next, inductionHypothesis, absentFrom_adoptRow, others,
          List.takeWhile_cons_of_pos (by simpa using found), List.foldl_cons]
        simp only [rows_adoptRow_mem]
        exact and_iff_right (seatedAlone_of_mem found)
      · have next : spawnOne input (outline, 1) first =
            (seatBirth input.screenLive (stampedBirth input outline first)
              (spawnKey first.id), 0) :=
          if_neg found
        rw [Guarded, next, absentFrom, List.filter_cons_of_pos (by simpa using found),
          List.takeWhile_cons_of_neg (by simpa using found), List.head?_cons, List.foldl_nil]
        simp only [Option.mem_some_iff, forall_eq', guarded_beyond, and_true]

/-- What becomes of a row when the sessions are adopted. -/
def adoptIn (spawn : List OpencodeServiceSession) (entry : List Char × Row) : Row :=
  spawn.foldl (fun row ses => if spawnKey ses.id = entry.1 then adopt ses row else row) entry.2

/-- The row is the mirror's once the sessions are adopted. -/
def isTab (adopted : List OpencodeServiceSession) (entry : List Char × Row) : Bool :=
  mirrorProjectionRow entry.2 || adopted.any fun ses => spawnKey ses.id = entry.1

theorem adoptIn_cons (first : OpencodeServiceSession) (rest : List OpencodeServiceSession)
    (entry : List Char × Row) :
    adoptIn (first :: rest) entry = adoptIn rest
      (entry.1, if spawnKey first.id = entry.1 then adopt first entry.2 else entry.2) :=
  rfl

/-- The rows of adopted sessions are stamped. -/
theorem mirrorProjectionRow_adoptIn (spawn : List OpencodeServiceSession)
    (entry : List Char × Row) :
    mirrorProjectionRow (adoptIn spawn entry) = isTab spawn entry := by
  induction spawn generalizing entry with
  | nil => simp [adoptIn, isTab]
  | cons first rest inductionHypothesis =>
      rw [adoptIn_cons, inductionHypothesis, isTab, isTab, List.any_cons]
      by_cases same : spawnKey first.id = entry.1
      · simp [same, mirrorProjectionRow_adopt]
      · simp [same]

/-- Other rows stay as they are. -/
theorem adoptIn_of_not_isTab {spawn : List OpencodeServiceSession} {entry : List Char × Row}
    (notTab : isTab spawn entry = false) : adoptIn spawn entry = entry.2 := by
  induction spawn with
  | nil => rfl
  | cons first rest inductionHypothesis =>
      simp only [isTab, List.any_cons, Bool.or_eq_false_iff, decide_eq_false_iff_not] at notTab
      rw [adoptIn_cons, if_neg notTab.2.1]
      exact inductionHypothesis (Bool.or_eq_false_iff.mpr ⟨notTab.1, notTab.2.2⟩)

theorem isWindow_adoptIn (spawn : List OpencodeServiceSession) (entry : List Char × Row) :
    ((adoptIn spawn entry).kind = .openCode &&
        runtimeScheme.isPrefixOf (adoptIn spawn entry).sessionPath &&
        !mirrorProjectionRow (adoptIn spawn entry)) =
      (entry.2.kind = .openCode && runtimeScheme.isPrefixOf entry.2.sessionPath &&
        !isTab spawn entry) := by
  rw [mirrorProjectionRow_adoptIn]
  cases tab : isTab spawn entry with
  | true => simp
  | false => rw [adoptIn_of_not_isTab tab]

theorem toList_adopt (outline : Outline) (spawn : List OpencodeServiceSession) :
    (spawn.foldl adoptRow outline).rows.toList =
      outline.rows.toList.map fun entry => (entry.1, adoptIn spawn entry) := by
  induction spawn generalizing outline with
  | nil => simp [adoptIn]
  | cons first rest inductionHypothesis =>
      rw [List.foldl_cons, inductionHypothesis, adoptRow, rows_onRows, toList_modify, List.map_map]
      rfl

theorem seatOf_adopt (outline : Outline) (spawn : List OpencodeServiceSession) (key : List Char) :
    (spawn.foldl adoptRow outline).seatOf key = outline.seatOf key := by
  induction spawn generalizing outline with
  | nil => rfl
  | cons first rest inductionHypothesis =>
      rw [List.foldl_cons, inductionHypothesis, adoptRow, seatOf_onRows Std.TreeMap.mem_modify]

theorem mem_adopt (outline : Outline) (spawn : List OpencodeServiceSession) (key : List Char) :
    key ∈ (spawn.foldl adoptRow outline).rows ↔ key ∈ outline.rows := by
  induction spawn generalizing outline with
  | nil => rfl
  | cons first rest inductionHypothesis =>
      rw [List.foldl_cons, inductionHypothesis, rows_adoptRow_mem]

/-! ## When the seats are free -/

/-- The sessions whose rows a tick adopts before it births one. -/
def adoptedFirst (plane : Plane) (input : TickInput) : List OpencodeServiceSession :=
  (spawnPlan plane input).takeWhile fun ses => spawnKey ses.id ∈ plane

/-- The anchor, among the rows that are not tabs by then. -/
def seatAnchor (plane : Plane) (input : TickInput) : Option (List Char) :=
  let windows := (plane.toList.filter fun entry =>
    entry.2.kind = .openCode && runtimeScheme.isPrefixOf entry.2.sessionPath &&
      !isTab (adoptedFirst plane input) entry).map Prod.snd
  ((windows.find? (anchorRowIsLive input.screenLive)).or windows.head?).map Row.sessionPath

def tabCount (plane : Plane) (input : TickInput) : Nat :=
  plane.toList.countP (isTab (adoptedFirst plane input))

/-- Where a tick births a tab, no row sits at the number two past the count of the tabs. -/
def SeatVacant (outline : Outline) (input : TickInput) : Prop :=
  ∀ ses ∈ (unseated outline.rows input).head?, input.birthTombstoned (spawnKey ses.id) = false →
    ∀ anchor ∈ seatAnchor outline.rows input, ∀ base ∈ outline.seatOf anchor, base ≠ [] →
      ∀ key, outline.seatOf key ≠
        some (trim (subSeat base (tabCount outline.rows input + 2)))

theorem opencodeAnchorKey_adopt (outline : Outline) (input : TickInput) :
    opencodeAnchorKey ((adoptedFirst outline.rows input).foldl adoptRow outline).rows
      input.screenLive = seatAnchor outline.rows input := by
  have same : opencodeAnchorCandidates
      ((adoptedFirst outline.rows input).foldl adoptRow outline).rows =
      (outline.rows.toList.filter fun entry =>
        entry.2.kind = .openCode && runtimeScheme.isPrefixOf entry.2.sessionPath &&
          !isTab (adoptedFirst outline.rows input) entry).map Prod.snd := by
    rw [opencodeAnchorCandidates_eq, toList_adopt, List.filter_map, List.map_map]
    have sameRows : ∀ entry ∈ outline.rows.toList, _ = _ := fun entry _ =>
      isWindow_adoptIn (adoptedFirst outline.rows input) entry
    refine (congrArg _ (List.filter_congr sameRows)).trans (List.map_congr_left ?_)
    intro entry member
    have notTab := (Bool.and_eq_true_iff.mp (List.mem_filter.mp member).2).2
    exact adoptIn_of_not_isTab (by simpa using notTab)
  rw [opencodeAnchorKey, same, seatAnchor]

theorem countP_adopt (outline : Outline) (input : TickInput) :
    (((adoptedFirst outline.rows input).foldl adoptRow outline).rows.toList.countP fun entry =>
      mirrorProjectionRow entry.2) = tabCount outline.rows input := by
  rw [toList_adopt, List.countP_map, tabCount]
  exact List.countP_congr fun entry _ => by
    rw [Function.comp_apply, mirrorProjectionRow_adoptIn]

/-- A tick gives its new row a seat of its own exactly when that seat is vacant. -/
theorem tabsSeatedAlone_iff_vacant (outline : Outline) (input : TickInput) :
    TabsSeatedAlone outline input ↔ SeatVacant outline input := by
  have firstAbsent : absentFrom outline.rows (spawnPlan outline.rows input) =
      unseated outline.rows input := absentFrom_plan outline.rows input
  refine (guarded_within_iff outline _).trans ?_
  rw [firstAbsent]
  apply forall₂_congr
  intro ses isFirst
  have absent : spawnKey ses.id ∉ outline.rows :=
    (mem_unseated.mp (List.mem_of_mem_head? isFirst)).2.2.2
  cases welcome : input.birthTombstoned (spawnKey ses.id) with
  | true => simp [seatedAlone_vetoed welcome]
  | false =>
      have absentNow :=
        (mem_adopt outline (adoptedFirst outline.rows input) (spawnKey ses.id)).not.mpr
        absent
      refine ((seatedAlone_within_iff absentNow welcome 0).trans ?_).trans
        (forall_prop_of_true rfl).symm
      rw [opencodeAnchorKey_adopt, countP_adopt]
      simp only [seatOf_adopt]

/-- A running TUI that sits at `2`. -/
def windowOutline : Outline where
  rows := (∅ : Plane).insert windowRow.sessionPath windowRow
  prefixes key := if key = windowRow.sessionPath then some "2".toList else none

/-- A tab opens, another one opens as it closes, and a third one opens. -/
def tabHistory : List TickInput :=
  [[freshTab "ses_a".toList], [freshTab "ses_b".toList],
    [freshTab "ses_b".toList, freshTab "ses_c".toList]].map quietTick

end Outline

end Yggterm.OpencodeMirror
