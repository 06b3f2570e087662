import Yggterm.OpencodeMirror.Marks

/-!
# The rows that a tick removes

A tick should remove its own projections only, and only while nobody runs them.  It asks for
the key of its scheme instead, and the rows of running TUIs have such a key: once the TUI is
gone and its session has left the list, the row is retired.
-/

namespace Yggterm.OpencodeMirror

open Text HashMaps

theorem mem_toList_iff {plane : Plane} {key : List Char} {row : Row} :
    (key, row) ∈ plane.toList ↔ plane[key]? = some row :=
  Std.TreeMap.mem_toList_iff_getElem?_eq_some

/-- No other row has a better claim on the session. -/
def HoldsSlot (plane : Plane) (key ses : List Char) : Prop :=
  ∀ other ∈ plane.toList, tabSession other.1 other.2 = some ses →
    isMirrorOwned other.1 other.2 = true ∧ compare other.1 key ≠ .lt

instance (plane : Plane) (key ses : List Char) : Decidable (HoldsSlot plane key ses) :=
  inferInstanceAs (Decidable (∀ other ∈ plane.toList, _ → _))

theorem mem_tabClaims {plane : Plane} {ses : List Char} {tab : OwnedTab} :
    (ses, tab) ∈ tabClaims plane ↔ ∃ row, plane[tab.key]? = some row ∧
      tabSession tab.key row = some ses ∧ tab = ownedTab tab.key row := by
  simp only [tabClaims, List.mem_filterMap, Option.map_eq_some_iff, Prod.mk.injEq, Prod.exists]
  constructor
  · rintro ⟨key, row, member, claimed, isClaim, rfl, rfl⟩
    exact ⟨row, mem_toList_iff.mp member, isClaim, rfl⟩
  · rintro ⟨row, found, isClaim, isTab⟩
    exact ⟨tab.key, row, mem_toList_iff.mpr found, ses, isClaim, rfl, isTab.symm⟩

theorem row_of_owned {plane : Plane} {ses : List Char} {tab : OwnedTab}
    (owned : (ownedTabsFrom plane).lookup ses = some tab) :
    ∃ row, plane[tab.key]? = some row ∧ tabSession tab.key row = some ses ∧
      tab = ownedTab tab.key row := by
  rw [ownedTabsFrom, Slots.lookup_claimAll] at owned
  exact mem_tabClaims.mp (Slots.mem_claimsOn.mp (Slots.mem_of_elect owned))

/-- A row that counts as the mirror's own holds the session when no other has a better claim. -/
theorem owned_iff_holdsSlot {plane : Plane} {ses key : List Char} {row : Row}
    (found : plane[key]? = some row) (claims : tabSession key row = some ses)
    (mirrorOwned : isMirrorOwned key row = true) :
    (ownedTabsFrom plane).lookup ses = some (ownedTab key row) ↔ HoldsSlot plane key ses := by
  have soft : (fun tab : OwnedTab => !tab.mirrorOwned) (ownedTab key row) = false := by
    simp [ownedTab, mirrorOwned]
  have claimsOn : Slots.claimsOn ses (tabClaims plane) = plane.toList.filterMap fun entry =>
      if tabSession entry.1 entry.2 = some ses then some (ownedTab entry.1 entry.2) else none := by
    rw [Slots.claimsOn, tabClaims, List.filterMap_filterMap]
    congr 1
    funext entry
    cases tabSession entry.1 entry.2 <;> simp
  have elected : Slots.elect (fun tab : OwnedTab => !tab.mirrorOwned)
      (Slots.claimsOn ses (tabClaims plane)) = some (ownedTab key row) ↔ _ :=
    Slots.elect_soft_iff soft
  rw [ownedTabsFrom, Slots.lookup_claimAll, elected, claimsOn, Slots.head?_filterMap_iff
    (fun _ _ => Std.OrientedCmp.not_lt_of_lt) Std.TreeMap.ordered_keys_toList]
  constructor
  · rintro ⟨⟨first, _, isFirst, none⟩, allSoft⟩ other member claims
    have sameKey : first.1 = key := by
      split at isFirst
      · exact congrArg OwnedTab.key (Option.some.inj isFirst)
      · contradiction
    refine ⟨?_, sameKey ▸ none other member (by simp [claims])⟩
    simpa [ownedTab] using allSoft (ownedTab other.1 other.2)
      (List.mem_filterMap.mpr ⟨other, member, by simp [claims]⟩)
  · intro holds
    refine ⟨⟨(key, row), mem_toList_iff.mpr found, by simp [claims], ?_⟩, ?_⟩
    · intro other member isSome
      refine (holds other member ?_).2
      by_contra notClaims
      simp [notClaims] at isSome
    · intro tab member
      obtain ⟨other, isRow, isTab⟩ := List.mem_filterMap.mp member
      split at isTab
      · next otherClaims =>
          cases isTab
          simpa [ownedTab] using (holds other isRow otherClaims).1
      · contradiction

/-- What a tick retires: what it takes for its own, nobody runs and the list lacks. -/
theorem mem_retiredKeys {plane : Plane} {input : TickInput} {key : List Char} :
    key ∈ retiredKeys (ownedTabsFrom plane) (tickPlan plane input) ↔
      ∃ ses tab, (ownedTabsFrom plane).lookup ses = some tab ∧ tab.key = key ∧
        tab.mirrorOwned = true ∧ tab.engaged = false ∧ isListed input.sessions ses = false := by
  simp only [retiredKeys, tickPlan, planTabSync, List.mem_filterMap, List.mem_filter,
    input.order.mem_keys]
  constructor
  · rintro ⟨ses, ⟨_, retires⟩, hasKey⟩
    obtain ⟨tab, owned, isKey⟩ := Option.map_eq_some_iff.mp hasKey
    refine ⟨ses, tab, owned, isKey, ?_⟩
    simpa [owned, and_assoc, and_comm, and_left_comm] using retires
  · rintro ⟨ses, tab, owned, isKey, mirrorOwned, idle, unlisted⟩
    refine ⟨ses, ⟨?_, ?_⟩, ?_⟩
    · exact Finmap.mem_keys.mpr (Finmap.mem_of_lookup_eq_some owned)
    · simp [owned, mirrorOwned, idle, unlisted]
    · simp [owned, isKey]

theorem retiredKeys_nodup (plane : Plane) (input : TickInput) :
    (retiredKeys (ownedTabsFrom plane) (tickPlan plane input)).Nodup := by
  apply List.Nodup.filterMap
  · intro first second key isFirst isSecond
    obtain ⟨tab, firstOwned, rfl⟩ := Option.map_eq_some_iff.mp isFirst
    obtain ⟨other, secondOwned, same⟩ := Option.map_eq_some_iff.mp isSecond
    obtain ⟨row, found, claims, _⟩ := row_of_owned firstOwned
    obtain ⟨otherRow, otherFound, otherClaims, _⟩ := row_of_owned secondOwned
    rw [same, found, Option.some.injEq] at otherFound
    subst otherFound
    rw [same, claims] at otherClaims
    exact Option.some.inj otherClaims
  · exact (input.order.nodup _).filter _

theorem mem_retract {plane : Plane} {input : TickInput} {ses : List Char} :
    ses ∈ (tickPlan plane input).retract ↔
      ses ∈ pinnedStableFrom (ownedTabsFrom plane) (opencodeAnchorKey plane input.screenLive) ∧
      ∃ twin, plane[spawnKey ses]? = some twin ∧ mirrorProjectionRow twin = true ∧
        rowIsEngaged twin = false := by
  simp only [tickPlan, planTabSync, List.mem_mergeSort, List.mem_filter, input.order.mem_keys,
    Option.any_eq_true, Bool.and_eq_true, Bool.not_eq_true']

theorem spawnKey_injective : Function.Injective spawnKey :=
  fun _ _ => List.append_cancel_left

theorem retractedKeys_nodup (plane : Plane) (input : TickInput) :
    ((tickPlan plane input).retract.map spawnKey).Nodup := by
  apply List.Nodup.map spawnKey_injective
  exact (List.mergeSort_perm _ _).nodup_iff.mpr ((input.order.nodup _).filter _)

/-- A pinned session is held by a row that is not the mirror's. -/
theorem owned_of_mem_pinnedStable {plane : Plane} {anchorKey : Option (List Char)}
    {ses : List Char} (pinned : ses ∈ pinnedStableFrom (ownedTabsFrom plane) anchorKey) :
    ∃ tab, (ownedTabsFrom plane).lookup ses = some tab ∧ tab.mirrorOwned = false := by
  obtain ⟨tab, owned, notOwned, _⟩ := (Finset.mem_filter.mp pinned).2
  exact ⟨tab, owned, notOwned⟩

theorem tabSession_eq_some {key : List Char} {row : Row} {ses : List Char}
    (claims : tabSession key row = some ses) :
    row.kind = .openCode ∧
      ((∃ stamp, row.metadataValue tabSessionIdMetadata = some stamp ∧ ses = trim stamp) ∨
        key = spawnKey ses ∨ ses = trim row.id ∧ "ses_".toList <+: ses) := by
  unfold tabSession mirrorTabSessionId at claims
  split at claims
  · contradiction
  next isOpenCode =>
    refine ⟨Decidable.not_not.mp isOpenCode, ?_⟩
    split at claims
    · next stamped =>
        obtain ⟨isStamp, _⟩ := Option.filter_eq_some_iff.mp stamped
        obtain ⟨stamp, isStamped, trimmed⟩ := Option.map_eq_some_iff.mp isStamp
        cases claims
        exact .inl ⟨stamp, isStamped, trimmed.symm⟩
    split at claims
    · next keyed =>
        obtain ⟨rest, rfl⟩ := keyed
        cases claims
        refine .inr (.inl ?_)
        simp [spawnKey]
    split at claims
    · next named =>
        cases claims
        exact .inr (.inr ⟨rfl, named⟩)
    · contradiction

/-- In a plane that comes about, the row under the key of a session that some row carries in its
id stands for that session, if for any. -/
theorem session_of_spawnKey {plane : Plane} (marked : Marked plane) {ses other : List Char}
    (trimmed : trim ses = ses) (named : "ses_".toList <+: ses) {twin : Row}
    (found : plane[spawnKey ses]? = some twin)
    (claims : tabSession (spawnKey ses) twin = some other) :
    other = ses := by
  have keyed : spawnKey "ses_".toList <+: spawnKey ses :=
    (List.prefix_append_right_inj _).mpr named
  unfold tabSession mirrorTabSessionId at claims
  split at claims
  · contradiction
  split at claims
  · next stamped =>
      obtain ⟨isStamp, _⟩ := Option.filter_eq_some_iff.mp stamped
      obtain ⟨stamp, isStamped, rfl⟩ := Option.map_eq_some_iff.mp isStamp
      cases claims
      have sameStamp := spawnKey_injective (marked _ _ _ found isStamped)
      exact sameStamp ▸ trimmed
  · simpa [keyed, spawnKey] using claims.symm

/-- Nothing is both retired and retracted, so no removal falls back on another row. -/
theorem disjoint_removals {plane : Plane} (marked : Marked plane) (input : TickInput) :
    (retiredKeys (ownedTabsFrom plane) (tickPlan plane input)).Disjoint
      ((tickPlan plane input).retract.map spawnKey) := by
  intro key isRetired isRetracted
  obtain ⟨ses, isRetract, rfl⟩ := List.mem_map.mp isRetracted
  obtain ⟨pinned, twin, isTwin, _⟩ := mem_retract.mp isRetract
  obtain ⟨holder, holds, notOwned⟩ := owned_of_mem_pinnedStable pinned
  obtain ⟨row, found, claims, isHolder⟩ := row_of_owned holds
  have foreign : ¬ runtimeScheme <+: holder.key := by
    intro keyed
    rw [isHolder] at notOwned
    simp [ownedTab, isMirrorOwned, List.isPrefixOf_iff_prefix.mpr keyed] at notOwned
  obtain ⟨other, tab, owned, isKey, mirrorOwned, _⟩ := mem_retiredKeys.mp isRetired
  obtain ⟨tabRow, tabFound, tabClaims, _⟩ := row_of_owned owned
  rw [isKey] at tabFound tabClaims
  rcases (tabSession_eq_some claims).2 with ⟨stamp, stamped, _⟩ | keyed | ⟨isId, named⟩
  · exact foreign ⟨stamp, (marked _ _ _ found stamped).symm⟩
  · exact foreign ⟨ses, keyed.symm⟩
  · have trimmed : trim ses = ses := by rw [isId, trim_trim]
    have same := session_of_spawnKey marked trimmed named tabFound tabClaims
    rw [same, holds, Option.some.injEq] at owned
    rw [owned, mirrorOwned] at notOwned
    contradiction

theorem sourceAt_of_mem_removals {plane : Plane} {input : TickInput} {key : List Char}
    (member : key ∈ retiredKeys (ownedTabsFrom plane) (tickPlan plane input) ++
      (tickPlan plane input).retract.map spawnKey) :
    ∃ source, sourceAt plane key = some source := by
  rcases List.mem_append.mp member with isRetired | isRetracted
  · obtain ⟨ses, tab, owned, rfl, _⟩ := mem_retiredKeys.mp isRetired
    obtain ⟨row, found, _⟩ := row_of_owned owned
    exact ⟨row.source, by rw [sourceAt, found, Option.map_some]⟩
  · obtain ⟨ses, isRetract, rfl⟩ := List.mem_map.mp isRetracted
    obtain ⟨_, twin, found, _⟩ := mem_retract.mp isRetract
    exact ⟨twin.source, by rw [sourceAt, found, Option.map_some]⟩

/-- A tick removes the rows it retires or retracts, if they are live, and no others. -/
theorem lookup_tick_eq_none_iff {plane : Plane} (marked : Marked plane) (input : TickInput)
    {key : List Char} {row : Row} (found : plane[key]? = some row) :
    (applyOpencodeTabMirror plane input)[key]? = none ↔ row.source ≠ .stored ∧
      (key ∈ retiredKeys (ownedTabsFrom plane) (tickPlan plane input) ∨
        key ∈ (tickPlan plane input).retract.map spawnKey) := by
  have source : sourceAt plane key = some row.source := by rw [sourceAt, found, Option.map_some]
  have distinct := (retiredKeys_nodup plane input).append (retractedKeys_nodup plane input)
    (disjoint_removals marked input)
  have present : ∀ other ∈ retiredKeys (ownedTabsFrom plane) (tickPlan plane input) ++
      (tickPlan plane input).retract.map spawnKey,
      sourceAt (spawnAll input plane (tickPlan plane input).spawn) other ≠ none := by
    intro other member
    obtain ⟨otherSource, isSource⟩ := sourceAt_of_mem_removals member
    simp [sourceAt_spawnAll input _ isSource]
  rw [← sourceAt_eq_none_iff, applyOpencodeTabMirror, sourceAt_recordFocus, sourceAt_followViewing,
    ← List.foldl_append, sourceAt_foldl_removeLiveSession distinct present,
    sourceAt_spawnAll input _ source, ← List.mem_append]
  simp [-List.mem_append, and_comm]

/-- What a tick should do to rows: remove none but idle projections of the mirror. -/
def RemovesOnlyItsOwn (plane : Plane) (input : TickInput) : Prop :=
  ∀ entry ∈ plane.toList, (applyOpencodeTabMirror plane input)[entry.1]? = none →
    rowIsEngaged entry.2 = false ∧
      (mirrorProjectionRow entry.2 = true ∨ spawnKey "ses_".toList <+: entry.1)

instance (plane : Plane) (input : TickInput) : Decidable (RemovesOnlyItsOwn plane input) :=
  inferInstanceAs (Decidable (∀ entry ∈ plane.toList, _ → _))

/-- A row of a TUI that is gone: it has the key of a window and no stamp, and it holds a session
that is not listed. -/
def Stray (plane : Plane) (sessions : List OpencodeServiceSession)
    (entry : List Char × Row) : Prop :=
  runtimeScheme <+: entry.1 ∧ ¬ spawnKey "ses_".toList <+: entry.1 ∧
    mirrorProjectionRow entry.2 = false ∧ rowIsEngaged entry.2 = false ∧
    entry.2.source ≠ .stored ∧ ∃ ses ∈ tabSession entry.1 entry.2,
      isListed sessions ses = false ∧ HoldsSlot plane entry.1 ses

instance (plane : Plane) (sessions : List OpencodeServiceSession) (entry : List Char × Row) :
    Decidable (Stray plane sessions entry) :=
  inferInstanceAs (Decidable (_ ∧ _))

theorem retired_of_stray {plane : Plane} {input : TickInput} {key : List Char} {row : Row}
    (found : plane[key]? = some row) (stray : Stray plane input.sessions (key, row)) :
    key ∈ retiredKeys (ownedTabsFrom plane) (tickPlan plane input) := by
  obtain ⟨keyed, _, _, idle, _, ses, claims, unlisted, holds⟩ := stray
  have mirrorOwned : isMirrorOwned key row = true := by
    simp [isMirrorOwned, List.isPrefixOf_iff_prefix.mpr keyed]
  exact mem_retiredKeys.mpr ⟨ses, ownedTab key row,
    (owned_iff_holdsSlot found claims mirrorOwned).mpr holds, rfl, mirrorOwned, idle, unlisted⟩

/-- A retired row is an idle projection, or a stray. -/
theorem stray_of_retired {plane : Plane} {input : TickInput} {key : List Char} {row : Row}
    (found : plane[key]? = some row) (live : row.source ≠ .stored)
    (isRetired : key ∈ retiredKeys (ownedTabsFrom plane) (tickPlan plane input)) :
    rowIsEngaged row = false ∧ (mirrorProjectionRow row = true ∨
      spawnKey "ses_".toList <+: key ∨ Stray plane input.sessions (key, row)) := by
  obtain ⟨ses, tab, owned, rfl, mirrorOwned, idle, unlisted⟩ := mem_retiredKeys.mp isRetired
  obtain ⟨tabRow, isRow, claims, isTab⟩ := row_of_owned owned
  rw [found, Option.some.injEq] at isRow
  subst isRow
  rw [isTab] at mirrorOwned idle
  refine ⟨idle, ?_⟩
  by_cases projection : mirrorProjectionRow row = true
  · exact .inl projection
  by_cases keyed : spawnKey "ses_".toList <+: tab.key
  · exact .inr (.inl keyed)
  have schemed : runtimeScheme <+: tab.key := by
    simpa [ownedTab, isMirrorOwned, projection] using mirrorOwned
  have holds := (owned_iff_holdsSlot found claims mirrorOwned).mp (isTab ▸ owned)
  exact .inr (.inr ⟨schemed, keyed, by simpa using projection, idle, live, ses, claims, unlisted,
    holds⟩)

/-- In every plane that comes about, a tick removes only its own idle projections exactly when
there is no stray. -/
theorem removes_only_its_own_iff (actions : List Action) (input : TickInput) :
    RemovesOnlyItsOwn (Runs.run step ∅ actions) input ↔
      ∀ entry ∈ (Runs.run step ∅ actions).toList,
        ¬ Stray (Runs.run step ∅ actions) input.sessions entry := by
  have marked := marked_run actions
  generalize Runs.run step ∅ actions = plane at marked
  constructor
  · rintro removes ⟨key, row⟩ member stray
    have found := mem_toList_iff.mp member
    have gone := (lookup_tick_eq_none_iff marked input found).mpr
      ⟨stray.2.2.2.2.1, .inl (retired_of_stray found stray)⟩
    obtain ⟨_, projection | keyed⟩ := removes (key, row) member gone
    · exact absurd projection (by simp [stray.2.2.1])
    · exact stray.2.1 keyed
  · rintro noStray ⟨key, row⟩ member gone
    have found := mem_toList_iff.mp member
    obtain ⟨live, isRetired | isRetracted⟩ := (lookup_tick_eq_none_iff marked input found).mp gone
    · obtain ⟨idle, projection | keyed | stray⟩ := stray_of_retired found live isRetired
      · exact ⟨idle, .inl projection⟩
      · exact ⟨idle, .inr keyed⟩
      · exact absurd stray (noStray _ member)
    · obtain ⟨ses, isRetract, rfl⟩ := List.mem_map.mp isRetracted
      obtain ⟨_, twin, isTwin, projection, idle⟩ := mem_retract.mp isRetract
      rw [found, Option.some.injEq] at isTwin
      exact isTwin ▸ ⟨idle, .inl projection⟩

/-- The row of a running TUI, as it is started. -/
def windowRow : Row where
  id := "7d0c".toList
  sessionPath := spawnKey "7d0c".toList
  kind := .openCode
  source := .liveLocal
  launchPhase := .running
  metadata := [(sourceLabel, "local-opencode".toList)]
  terminalProcessId := some 4242

/-- The row once the tick has bound it to the session it shows. -/
def boundRow : Row :=
  { windowRow with
    id := "ses_a".toList
    metadata := windowRow.metadata ++ [(viewingSessionMetadata, "ses_a".toList)] }

def quietTick (sessions : List OpencodeServiceSession) : TickInput where
  sessions
  screenLive := ∅
  terminalTitles := fun _ => none
  spawnTombstoned := fun _ => false
  birthTombstoned := fun _ => false
  order := default
  defaultCwd := "/".toList

def windowRun : List Action :=
  [.put windowRow.sessionPath windowRow, .tick (quietTick [⟨"ses_a".toList, none, none, 7⟩])]

/-- A TUI is started, a tick binds its row to the session it shows, and it ends.  When the session
leaves the list, its row is removed. -/
theorem removes_bound_window :
    (Runs.run step ∅ windowRun)[windowRow.sessionPath]? = some boundRow ∧
      ¬ RemovesOnlyItsOwn (Runs.run step ∅ (windowRun ++ [.put windowRow.sessionPath
        { boundRow with launchPhase := .queued, terminalProcessId := none }])) (quietTick []) := by
  decide +kernel

end Yggterm.OpencodeMirror
