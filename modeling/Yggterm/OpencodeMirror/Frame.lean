import Yggterm.OpencodeMirror.Tick

/-!
# What a tick leaves alone

Besides the rows that are retired or retracted no row goes, and no row changes its source.  A
row that carries the session stamp of the mirror stands under the key of that session.
-/

namespace Yggterm.OpencodeMirror

open Text

theorem lookup_modify (plane : Plane) (key other : List Char) (change : Row → Row) :
    (plane.modify key change)[other]? =
      if key = other then (plane[other]?).map change else plane[other]? := by
  rw [Std.TreeMap.getElem?_modify]
  simp only [Std.LawfulEqCmp.compare_eq_iff_eq]
  split
  · next same => rw [same]
  · rfl

theorem lookup_insert (plane : Plane) (key other : List Char) (row : Row) :
    (plane.insert key row)[other]? = if key = other then some row else plane[other]? := by
  simp [Std.TreeMap.getElem?_insert]

theorem lookup_erase (plane : Plane) (key other : List Char) :
    (plane.erase key)[other]? = if key = other then none else plane[other]? := by
  simp [Std.TreeMap.getElem?_erase]

/-- The source of the row under a key. -/
def sourceAt (plane : Plane) (key : List Char) : Option SessionSource :=
  (plane[key]?).map Row.source

theorem sourceAt_eq_none_iff {plane : Plane} {key : List Char} :
    sourceAt plane key = none ↔ plane[key]? = none :=
  Option.map_eq_none_iff

theorem sourceAt_modify {change : Row → Row} (keeps : ∀ row, (change row).source = row.source)
    (plane : Plane) (key other : List Char) :
    sourceAt (plane.modify key change) other = sourceAt plane other := by
  rw [sourceAt, lookup_modify]
  split
  · rw [Option.map_map]
    exact congrArg (Option.map · _) (funext keeps)
  · rfl

@[simp]
theorem source_upsertSessionMetadata (label value : List Char) (row : Row) :
    (upsertSessionMetadata label value row).source = row.source :=
  rfl

@[simp]
theorem source_stampDirectory (ses : OpencodeServiceSession) (row : Row) :
    (stampDirectory ses row).source = row.source := by
  unfold stampDirectory
  split <;> rfl

@[simp]
theorem source_stampViewed (ses : OpencodeServiceSession) (row : Row) :
    (stampViewed ses row).source = row.source := by
  unfold stampViewed
  split <;> rfl

@[simp]
theorem source_stampOwned (ses : OpencodeServiceSession) (row : Row) :
    (stampOwned ses row).source = row.source :=
  rfl

@[simp]
theorem source_adopt (ses : OpencodeServiceSession) (row : Row) :
    (adopt ses row).source = row.source := by
  unfold adopt
  split <;> simp

@[simp]
theorem source_stampViewing (shown : Option (List Char)) (row : Row) :
    (stampViewing shown row).source = row.source := by
  unfold stampViewing
  split <;> rfl

theorem sourceAt_birth (input : TickInput) {plane : Plane} (ses : OpencodeServiceSession)
    (absent : spawnKey ses.id ∉ plane) {key : List Char} {source : SessionSource}
    (present : sourceAt plane key = some source) :
    sourceAt (birth input plane ses) key = some source := by
  unfold birth
  split
  · exact present
  · have other : spawnKey ses.id ≠ key := by
      rintro rfl
      rw [sourceAt_eq_none_iff.mpr (Std.TreeMap.getElem?_eq_none absent)] at present
      contradiction
    rwa [sourceAt, lookup_insert, if_neg other]

theorem sourceAt_spawnOne (input : TickInput) (state : Plane × Nat) (ses : OpencodeServiceSession)
    {key : List Char} {source : SessionSource} (present : sourceAt state.1 key = some source) :
    sourceAt (spawnOne input state ses).1 key = some source := by
  by_cases found : spawnKey ses.id ∈ state.1
  · rw [spawnOne, if_pos found, sourceAt_modify (source_adopt ses), present]
  · have born := sourceAt_birth input ses found present
    rw [spawnOne, if_neg found]
    cases state.2 with
    | zero => exact born
    | succ budget => exact (sourceAt_modify (by simp) _ _ _).trans born

theorem sourceAt_spawnAll (input : TickInput) {plane : Plane} (spawn : List OpencodeServiceSession)
    {key : List Char} {source : SessionSource} (present : sourceAt plane key = some source) :
    sourceAt (spawnAll input plane spawn) key = some source := by
  have folded : ∀ (spawn : List OpencodeServiceSession) (state : Plane × Nat),
      sourceAt state.1 key = some source →
      sourceAt (spawn.foldl (spawnOne input) state).1 key = some source := by
    intro spawn
    induction spawn with
    | nil => exact fun _ => id
    | cons ses rest inductionHypothesis =>
        exact fun state present => inductionHypothesis _ (sourceAt_spawnOne input state ses present)
  exact folded _ _ present

theorem sourceAt_bindSessionId (plane : Plane) (path sessionId key : List Char) :
    sourceAt (plane.bindSessionId path sessionId) key = sourceAt plane key := by
  unfold Plane.bindSessionId
  split
  · rfl
  split
  · rfl
  · apply sourceAt_modify
    intro row
    split <;> rfl

theorem sourceAt_followViewing (input : TickInput) (anchorKey : Option (List Char)) (plane : Plane)
    (key : List Char) :
    sourceAt (followViewing input anchorKey plane) key = sourceAt plane key := by
  have titled : ∀ (rows : List Row) (plane : Plane),
      sourceAt (rows.foldl (rebindTitled input) plane) key = sourceAt plane key := by
    intro rows
    induction rows with
    | nil => exact fun _ => rfl
    | cons row rest inductionHypothesis =>
        intro plane
        apply (inductionHypothesis _).trans
        unfold rebindTitled
        split
        · rfl
        split
        · exact sourceAt_bindSessionId plane _ _ key
        · rfl
  unfold followViewing
  split
  · rfl
  · next anchorKey =>
      apply (titled _ _).trans
      have stamped :
        sourceAt (plane.modify anchorKey (stampViewing (viewing input anchorKey))) key =
          sourceAt plane key := sourceAt_modify (source_stampViewing _) plane anchorKey key
      unfold rebindAnchor
      split
      · split
        · exact (sourceAt_bindSessionId _ _ _ _).trans stamped
        · exact stamped
      · exact stamped

theorem sourceAt_recordFocus (input : TickInput) (owned : Finmap fun _ : List Char => OwnedTab)
    (focus : Option (List Char)) (plane : Plane) (key : List Char) :
    sourceAt (recordFocus input owned focus plane) key = sourceAt plane key := by
  unfold recordFocus
  split
  · rfl
  · exact sourceAt_modify (source_stampViewed _) plane _ key

/-- Removing a row that is there by its key takes it unless it is stored. -/
theorem sourceAt_removeLiveSession {plane : Plane} {key : List Char}
    (present : sourceAt plane key ≠ none) (other : List Char) :
    sourceAt (plane.removeLiveSession key) other =
      if key = other ∧ sourceAt plane other ≠ some .stored then none
      else sourceAt plane other := by
  obtain ⟨row, found⟩ : ∃ row, plane[key]? = some row :=
    Option.ne_none_iff_exists'.mp (mt sourceAt_eq_none_iff.mpr present)
  have resolved : plane.resolveLiveSessionEntry key = some (key, row) := by
    rw [Plane.resolveLiveSessionEntry, found]
    rfl
  have source : sourceAt plane key = some row.source := by rw [sourceAt, found, Option.map_some]
  simp only [Plane.removeLiveSession, resolved]
  by_cases stored : row.source = .stored
  · rw [if_pos stored, if_neg]
    rintro ⟨rfl, live⟩
    exact live (by rw [source, stored])
  · rw [if_neg stored, sourceAt, lookup_erase]
    by_cases same : key = other
    · subst same
      simp [source, stored]
    · simp [same, sourceAt]

/-- Removing rows that are all there takes those that are live. -/
theorem sourceAt_foldl_removeLiveSession {keys : List (List Char)} (distinct : keys.Nodup)
    {plane : Plane} (present : ∀ key ∈ keys, sourceAt plane key ≠ none) (key : List Char) :
    sourceAt (keys.foldl Plane.removeLiveSession plane) key =
      if key ∈ keys ∧ sourceAt plane key ≠ some .stored then none else sourceAt plane key := by
  induction keys generalizing plane with
  | nil => simp
  | cons first rest inductionHypothesis =>
      obtain ⟨notAgain, restDistinct⟩ := List.nodup_cons.mp distinct
      obtain ⟨firstPresent, restPresent⟩ := List.forall_mem_cons.mp present
      have next := sourceAt_removeLiveSession firstPresent
      rw [List.foldl_cons, inductionHypothesis restDistinct, next]
      · by_cases same : first = key
        · subst same
          simp [notAgain]
        · have other : key ≠ first := fun equality => same equality.symm
          simp [same, other]
      · intro other member
        have different : first ≠ other := by
          rintro rfl
          exact notAgain member
        rw [next, if_neg (different ·.1)]
        exact restPresent other member

end Yggterm.OpencodeMirror
