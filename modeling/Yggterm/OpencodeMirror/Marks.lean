import Yggterm.Library.Runs
import Yggterm.OpencodeMirror.Frame

/-!
# Planes between ticks

Rows are opened, started, bound, restored and closed between ticks.  Nothing but the mirror
writes its session stamp, so in every plane that comes about a stamp stands under the key of
its session.
-/

namespace Yggterm.OpencodeMirror

open Text

inductive Action where
  | tick (input : TickInput)
  | put (key : List Char) (row : Row)
  | close (key : List Char)

/-- The row has no session stamp that the row under this key did not have. -/
def addsNoStamp (plane : Plane) (key : List Char) (row : Row) : Bool :=
  (row.metadataValue tabSessionIdMetadata).all fun stamp =>
    (plane[key]?).bind (Row.metadataValue tabSessionIdMetadata) = some stamp

/-- `put` is anything that is done to one row from outside; what would write a stamp of the mirror
is not. -/
def step (plane : Plane) : Action → Plane
  | .tick input => applyOpencodeTabMirror plane input
  | .put key row => if addsNoStamp plane key row then plane.insert key row else plane
  | .close key => plane.erase key

/-- A session stamp stands under the key of its session. -/
def Marked (plane : Plane) : Prop :=
  ∀ key row stamp, plane[key]? = some row → row.metadataValue tabSessionIdMetadata = some stamp →
    key = spawnKey stamp

namespace Marked

variable {plane : Plane}

theorem modify (marked : Marked plane) {key : List Char} {change : Row → Row}
    (keeps : ∀ row stamp, (change row).metadataValue tabSessionIdMetadata = some stamp →
      row.metadataValue tabSessionIdMetadata = some stamp ∨ key = spawnKey stamp) :
    Marked (plane.modify key change) := by
  intro other row stamp found stamped
  rw [lookup_modify] at found
  split at found
  · next same =>
      obtain ⟨before, isBefore, rfl⟩ := Option.map_eq_some_iff.mp found
      rcases keeps before stamp stamped with earlier | isKey
      · exact marked other before stamp isBefore earlier
      · exact same.symm.trans isKey
  · exact marked other row stamp found stamped

theorem insert (marked : Marked plane) {key : List Char} {row : Row}
    (keyed : ∀ stamp, row.metadataValue tabSessionIdMetadata = some stamp → key = spawnKey stamp) :
    Marked (plane.insert key row) := by
  intro other found stamp isFound stamped
  rw [lookup_insert] at isFound
  split at isFound
  · next same =>
      cases isFound
      exact same.symm.trans (keyed stamp stamped)
  · exact marked other found stamp isFound stamped

theorem erase (marked : Marked plane) (key : List Char) : Marked (plane.erase key) := by
  intro other row stamp found stamped
  rw [lookup_erase] at found
  split at found
  · contradiction
  · exact marked other row stamp found stamped

end Marked

theorem metadataValue_stampDirectory {label : List Char} (different : "Cwd".toList ≠ label)
    (ses : OpencodeServiceSession) (row : Row) :
    (stampDirectory ses row).metadataValue label = row.metadataValue label := by
  unfold stampDirectory
  split
  · rfl
  · exact (metadataValue_upsertSessionMetadata _ _ _ _).trans (if_neg different)

theorem metadataValue_stampViewed {label : List Char} (different : viewedMetadata ≠ label)
    (ses : OpencodeServiceSession) (row : Row) :
    (stampViewed ses row).metadataValue label = row.metadataValue label := by
  unfold stampViewed
  split
  · exact (metadataValue_upsertSessionMetadata _ _ _ _).trans (if_neg different)
  · rfl

theorem metadataValue_stampViewing {label : List Char} (different : viewingSessionMetadata ≠ label)
    (shown : Option (List Char)) (row : Row) :
    (stampViewing shown row).metadataValue label = row.metadataValue label := by
  unfold stampViewing
  split
  · exact (metadataValue_upsertSessionMetadata _ _ _ _).trans (if_neg different)
  · simp only [Row.metadataValue, List.find?_filter]
    congr 2
    funext entry
    by_cases isLabel : entry.1 = label
    · simp [isLabel, different.symm]
    · simp [isLabel]

theorem tabStamp_stampDirectory (ses : OpencodeServiceSession) (row : Row) :
    (stampDirectory ses row).metadataValue tabSessionIdMetadata =
      row.metadataValue tabSessionIdMetadata :=
  metadataValue_stampDirectory (by decide) ses row

theorem tabStamp_stampViewed (ses : OpencodeServiceSession) (row : Row) :
    (stampViewed ses row).metadataValue tabSessionIdMetadata =
      row.metadataValue tabSessionIdMetadata :=
  metadataValue_stampViewed (by decide) ses row

theorem tabStamp_stampOwned (ses : OpencodeServiceSession) (row : Row) :
    (stampOwned ses row).metadataValue tabSessionIdMetadata = some ses.id :=
  (metadataValue_upsertSessionMetadata _ _ _ _).trans (if_pos rfl)

theorem tabStamp_stampViewing (shown : Option (List Char)) (row : Row) :
    (stampViewing shown row).metadataValue tabSessionIdMetadata =
      row.metadataValue tabSessionIdMetadata :=
  metadataValue_stampViewing (by decide) shown row

/-- A row is born without a session stamp. -/
theorem tabStamp_buildLiveSession (input : TickInput) (ses : OpencodeServiceSession) :
    (buildLiveSession input ses).metadataValue tabSessionIdMetadata = none := by
  have labels : ∀ entry ∈ (buildLiveSession input ses).metadata,
      entry.1 ≠ tabSessionIdMetadata := by
    simp only [buildLiveSession, List.forall_mem_cons, List.not_mem_nil, false_implies,
      implies_true, and_true]
    exact ⟨by decide, by decide, by decide⟩
  simpa [Row.metadataValue] using labels

theorem marked_birth (input : TickInput) {plane : Plane} (marked : Marked plane)
    (ses : OpencodeServiceSession) : Marked (birth input plane ses) := by
  unfold birth
  split
  · exact marked
  · apply marked.insert
    intro stamp stamped
    rw [tabStamp_buildLiveSession] at stamped
    contradiction

theorem marked_spawnOne (input : TickInput) {state : Plane × Nat} (marked : Marked state.1)
    (ses : OpencodeServiceSession) : Marked (spawnOne input state ses).1 := by
  by_cases found : spawnKey ses.id ∈ state.1
  · rw [spawnOne, if_pos found]
    apply marked.modify
    intro row stamp stamped
    unfold adopt at stamped
    split at stamped
    · exact .inl stamped
    · rw [tabStamp_stampDirectory, tabStamp_stampOwned] at stamped
      exact .inr (congrArg spawnKey (Option.some.inj stamped))
  · rw [spawnOne, if_neg found]
    cases state.2 with
    | zero => exact marked_birth input marked ses
    | succ budget =>
        apply (marked_birth input marked ses).modify
        intro row stamp stamped
        rw [tabStamp_stampViewed, tabStamp_stampDirectory, tabStamp_stampOwned] at stamped
        exact .inr (congrArg spawnKey (Option.some.inj stamped))

theorem marked_spawnAll (input : TickInput) {plane : Plane} (marked : Marked plane)
    (spawn : List OpencodeServiceSession) : Marked (spawnAll input plane spawn) :=
  List.foldlRecOn (motive := fun state : Plane × Nat => Marked state.1) _ _ marked
    fun _ kept ses _ => marked_spawnOne input kept ses

theorem marked_removeLiveSession {plane : Plane} (marked : Marked plane) (path : List Char) :
    Marked (plane.removeLiveSession path) := by
  unfold Plane.removeLiveSession
  split
  · exact marked
  split
  · exact marked
  · exact marked.erase _

theorem marked_bindSessionId {plane : Plane} (marked : Marked plane) (path sessionId : List Char) :
    Marked (plane.bindSessionId path sessionId) := by
  unfold Plane.bindSessionId
  split
  · exact marked
  split
  · exact marked
  · apply marked.modify
    intro row stamp stamped
    split at stamped <;> exact .inl stamped

theorem marked_followViewing (input : TickInput) (anchorKey : Option (List Char)) {plane : Plane}
    (marked : Marked plane) : Marked (followViewing input anchorKey plane) := by
  unfold followViewing
  split
  · exact marked
  · next anchorKey =>
      have stamped : Marked (plane.modify anchorKey (stampViewing (viewing input anchorKey))) := by
        apply marked.modify
        intro row stamp isStamp
        exact .inl ((tabStamp_stampViewing _ _).symm.trans isStamp)
      have rebound : Marked (rebindAnchor input
          (plane.modify anchorKey (stampViewing (viewing input anchorKey))) anchorKey) := by
        unfold rebindAnchor
        split
        · split
          · exact marked_bindSessionId stamped _ _
          · exact stamped
        · exact stamped
      refine List.foldlRecOn (motive := Marked) _ _ rebound ?_
      intro plane kept row _
      unfold rebindTitled
      split
      · exact kept
      split
      · exact marked_bindSessionId kept _ _
      · exact kept

theorem marked_recordFocus (input : TickInput) (owned : Finmap fun _ : List Char => OwnedTab)
    (focus : Option (List Char)) {plane : Plane} (marked : Marked plane) :
    Marked (recordFocus input owned focus plane) := by
  unfold recordFocus
  split
  · exact marked
  · apply marked.modify
    intro row stamp stamped
    exact .inl ((tabStamp_stampViewed _ _).symm.trans stamped)

theorem marked_tick (input : TickInput) {plane : Plane} (marked : Marked plane) :
    Marked (applyOpencodeTabMirror plane input) := by
  unfold applyOpencodeTabMirror
  apply marked_recordFocus
  apply marked_followViewing
  refine List.foldlRecOn (motive := Marked) _ _ ?_ fun _ kept key _ =>
    marked_removeLiveSession kept key
  refine List.foldlRecOn (motive := Marked) _ _ ?_ fun _ kept key _ =>
    marked_removeLiveSession kept key
  exact marked_spawnAll input marked _

theorem marked_step (plane : Plane) (action : Action) (marked : Marked plane) :
    Marked (step plane action) := by
  cases action with
  | tick input => exact marked_tick input marked
  | close key => exact marked.erase key
  | put key row =>
      by_cases adds : addsNoStamp plane key row
      · rw [step, if_pos adds]
        apply marked.insert
        intro stamp stamped
        have had : (plane[key]?).bind (Row.metadataValue tabSessionIdMetadata) = some stamp := by
          simpa [addsNoStamp, stamped] using adds
        obtain ⟨before, found, hadStamp⟩ := Option.bind_eq_some_iff.mp had
        exact marked key before stamp found hadStamp
      · rwa [step, if_neg adds]

theorem marked_run (actions : List Action) : Marked (Runs.run step ∅ actions) :=
  Runs.run_invariant marked_step (fun _ _ _ found => by simp at found) actions

end Yggterm.OpencodeMirror
