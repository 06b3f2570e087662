import Yggterm.ScanMemo.Model

/-!
# What the memo may serve

A scan that nothing was written during returns what it would have built itself, unless some scan
puts a row into the memo that was built before the titles were last written, while the memo
is in use for the titles there are now.
-/

namespace Yggterm.ScanMemo

open Runs

variable {Path Titles Row ScanId : Type}

/-! ## What a scan relies on -/

/-- The scan has yet to look the file up. -/
def Scan.Awaits (scan : Scan Path Titles Row) (path : Path) : Prop :=
  path ∉ scan.seen ∧ scan.finished = false ∨ ∃ stamp, scan.stage = .stamped path stamp

/-- The scan will take what the memo has for the file, and nothing was written since it started. -/
def Scan.Relies (scan : Scan Path Titles Row) (path : Path) : Prop :=
  scan.undisturbed = true ∧ scan.cleared = true ∧ scan.Awaits path

/-- What the memo has for the file may be served to a scan during which nothing is written. -/
def State.InUse (state : State Path Titles Row ScanId) (path : Path) : Prop :=
  state.memo.generation = some state.disk.generation ∨
    ∃ id scan, state.scans id = some scan ∧ scan.Relies path

/-- The rows of scans that nothing was written during are those built without the memo. -/
def ServesPresent (buildRow : RowBuilder Path Titles Row) (state : State Path Titles Row ScanId) :
    Prop :=
  ∀ id scan, state.scans id = some scan → scan.undisturbed = true →
    ∀ entry ∈ scan.rows, state.disk.rowNow buildRow entry.1 = some entry.2

/-- A row that is put into the memo where it may be served is the row there is now. -/
def InsertsPresent (buildRow : RowBuilder Path Titles Row) (state : State Path Titles Row ScanId) :
    Action Path Titles ScanId → Prop
  | .insert id => ∀ scan path stamp row, state.scans id = some scan →
      scan.stage = .built path (some stamp) row → state.InUse path →
      state.disk.stampNow path = some stamp → state.disk.rowNow buildRow path = some row
  | _ => True

/-! ## The invariant -/

variable {buildRow : RowBuilder Path Titles Row}

/-- The file had this stamp once: it has not been longer than it is. -/
def Disk.Known (disk : Disk Path Titles) (path : Path) (stamp : DurableFileStamp) : Prop :=
  ∃ transcript, disk.transcripts path = some transcript ∧ stamp.2 ≤ transcript.bytes.length

/-- What a scan has at hand is on the disk, as long as nothing is written. -/
def StageSound (buildRow : RowBuilder Path Titles Row) (disk : Disk Path Titles)
    (undisturbed : Bool) : Stage Path Titles Row → Prop
  | .idle => True
  | .stamped path stamp => (∀ known ∈ stamp, disk.Known path known) ∧
      (undisturbed = true → stamp = disk.stampNow path)
  | .missed path stamp => ∀ known ∈ stamp, disk.Known path known
  | .entered path stamp entry => (∀ known ∈ stamp, disk.Known path known) ∧
      (undisturbed = true → entry = disk.transcripts path)
  | .titled path stamp entry titles => (∀ known ∈ stamp, disk.Known path known) ∧
      (undisturbed = true → entry = disk.transcripts path ∧ titles = disk.titles)
  | .built path stamp row => (∀ known ∈ stamp, disk.Known path known) ∧
      (undisturbed = true → disk.rowNow buildRow path = some row)

structure ScanSound (buildRow : RowBuilder Path Titles Row) (disk : Disk Path Titles)
    (scan : Scan Path Titles Row) : Prop where
  generation : scan.generation ≤ disk.generation
  present : scan.undisturbed = true → scan.generation = disk.generation
  cleared : scan.stage ≠ .idle → scan.cleared = true
  stage : StageSound buildRow disk scan.undisturbed scan.stage
  rows : scan.undisturbed = true → ∀ entry ∈ scan.rows,
    disk.rowNow buildRow entry.1 = some entry.2

structure Sound (buildRow : RowBuilder Path Titles Row) (state : State Path Titles Row ScanId) :
    Prop where
  generation : ∀ generation ∈ state.memo.generation, generation ≤ state.disk.generation
  stamps : ∀ path stamp row, state.memo.rows path = some (stamp, row) →
    state.disk.Known path stamp
  rows : ∀ path stamp row, state.memo.rows path = some (stamp, row) → state.InUse path →
    state.disk.stampNow path = some stamp → state.disk.rowNow buildRow path = some row
  scans : ∀ id scan, state.scans id = some scan → ScanSound buildRow state.disk scan

theorem Sound.servesPresent {state : State Path Titles Row ScanId} (sound : Sound buildRow state) :
    ServesPresent buildRow state :=
  fun id scan isScan => (sound.scans id scan isScan).rows

theorem sound_initial (disk : Disk Path Titles) :
    Sound buildRow (State.initial disk : State Path Titles Row ScanId) := by
  constructor
  · nofun
  · nofun
  · nofun
  · nofun

/-! ## Writes -/

section Writes

variable {state : State Path Titles Row ScanId}

/-- What was known stays known, and no file gets shorter. -/
def Disk.Grows (disk later : Disk Path Titles) : Prop :=
  disk.generation ≤ later.generation ∧
    ∀ path stamp, disk.Known path stamp → later.Known path stamp

theorem StageSound.write {disk later : Disk Path Titles} (grows : disk.Grows later)
    {undisturbed : Bool} {stage : Stage Path Titles Row}
    (sound : StageSound buildRow disk undisturbed stage) :
    StageSound buildRow later false stage := by
  cases stage with
  | idle => trivial
  | stamped path stamp =>
      exact ⟨fun known member => grows.2 path known (sound.1 known member), nofun⟩
  | missed path stamp => exact fun known member => grows.2 path known (sound known member)
  | entered path stamp entry =>
      exact ⟨fun known member => grows.2 path known (sound.1 known member), nofun⟩
  | titled path stamp entry titles =>
      exact ⟨fun known member => grows.2 path known (sound.1 known member), nofun⟩
  | built path stamp row =>
      exact ⟨fun known member => grows.2 path known (sound.1 known member), nofun⟩

theorem scanSound_write {disk later : Disk Path Titles} (grows : disk.Grows later)
    {scan : Scan Path Titles Row} (sound : ScanSound buildRow disk scan) :
    ScanSound buildRow later { scan with undisturbed := false } := by
  constructor
  · exact Nat.le_trans sound.generation grows.1
  · nofun
  · exact sound.cleared
  · exact sound.stage.write grows
  · nofun

/-- After a write only the memo's own stamp keeps it in use. -/
theorem inUse_write {disk : Disk Path Titles} {path : Path}
    (inUse : (state.write disk).InUse path) :
    state.memo.generation = some disk.generation := by
  rcases inUse with isPresent | ⟨id, scan, isScan, undisturbed, _⟩
  · exact isPresent
  · obtain ⟨before, _, rfl⟩ := Option.map_eq_some_iff.mp isScan
    cases undisturbed

theorem Sound.write {disk : Disk Path Titles} (sound : Sound buildRow state)
    (grows : state.disk.Grows disk)
    (rows : ∀ path stamp row, state.memo.rows path = some (stamp, row) →
      state.memo.generation = some disk.generation → disk.stampNow path = some stamp →
      disk.rowNow buildRow path = some row) :
    Sound buildRow (state.write disk) := by
  constructor
  · exact fun generation member => Nat.le_trans (sound.generation generation member) grows.1
  · exact fun path stamp row isRow => grows.2 path stamp (sound.stamps path stamp row isRow)
  · exact fun path stamp row isRow inUse => rows path stamp row isRow (inUse_write inUse)
  · intro id scan isScan
    obtain ⟨before, isBefore, rfl⟩ := Option.map_eq_some_iff.mp isScan
    exact scanSound_write grows (sound.scans id before isBefore)

theorem sound_writeTitles (sound : Sound buildRow state) (titles : Titles) :
    Sound buildRow (state.write (state.disk.writeTitles titles)) := by
  have grows : state.disk.Grows (state.disk.writeTitles titles) :=
    ⟨Nat.le_succ _, fun _ _ known => known⟩
  apply sound.write grows
  intro path stamp row _ isPresent
  have older := sound.generation _ isPresent
  exact absurd older (Nat.not_succ_le_self _)

variable [DecidableEq Path]

theorem transcripts_append (disk : Disk Path Titles) (path : Path) (modified : Nat)
    (bytes : List UInt8) : (disk.append path modified bytes).transcripts path =
      some ⟨modified, ((disk.transcripts path).map Transcript.bytes).getD [] ++ bytes⟩ :=
  Function.update_self ..

theorem transcripts_append_of_ne (disk : Disk Path Titles) {path other : Path}
    (different : other ≠ path) (modified : Nat) (bytes : List UInt8) :
    (disk.append path modified bytes).transcripts other = disk.transcripts other :=
  Function.update_of_ne different ..

theorem grows_append (disk : Disk Path Titles) (path : Path) (modified : Nat)
    (bytes : List UInt8) : disk.Grows (disk.append path modified bytes) := by
  refine ⟨Nat.le_refl _, ?_⟩
  rintro other stamp ⟨transcript, isTranscript, fits⟩
  by_cases same : other = path
  · subst same
    refine ⟨_, transcripts_append disk other modified bytes, ?_⟩
    rw [isTranscript]
    simp only [Option.map_some, Option.getD_some, List.length_append]
    omega
  · exact ⟨transcript, (transcripts_append_of_ne disk same modified bytes).trans isTranscript, fits⟩

theorem sound_append (sound : Sound buildRow state) (path : Path) (modified : Nat)
    {bytes : List UInt8} (nonempty : bytes ≠ []) :
    Sound buildRow (state.write (state.disk.append path modified bytes)) := by
  apply sound.write (grows_append state.disk path modified bytes)
  intro other stamp row isRow isPresent isStamp
  by_cases same : other = path
  · -- the file is longer than it was when it had the stamp
    subst same
    obtain ⟨transcript, isTranscript, fits⟩ := sound.stamps other stamp row isRow
    rw [Disk.stampNow, transcripts_append, isTranscript] at isStamp
    have length := congrArg Prod.snd (Option.some.inj isStamp)
    have positive := List.length_pos_iff.mpr nonempty
    simp only [Option.map_some, Option.getD_some, List.length_append] at length
    omega
  · rw [Disk.stampNow, transcripts_append_of_ne _ same] at isStamp
    rw [Disk.rowNow, transcripts_append_of_ne _ same]
    exact sound.rows other stamp row isRow (.inl isPresent) isStamp

end Writes

/-! ## Steps of a scan -/

section Steps

variable {state : State Path Titles Row ScanId} {id : ScanId} {scan later : Scan Path Titles Row}
  {memo : DurableScanMemo Path Row}

/-- A scan that takes no stamp relies on no more files than before. -/
theorem relies_of_seen (undisturbed : later.undisturbed = scan.undisturbed)
    (cleared : later.cleared = scan.cleared) (finished : later.finished = scan.finished)
    (seen : ∀ path ∈ scan.seen, path ∈ later.seen)
    (notStamped : ∀ path stamp, later.stage ≠ .stamped path stamp) (path : Path)
    (relies : later.Relies path) : scan.Relies path := by
  obtain ⟨isUndisturbed, isCleared, awaits⟩ := relies
  refine ⟨undisturbed ▸ isUndisturbed, cleared ▸ isCleared, ?_⟩
  rcases awaits with ⟨unseen, unfinished⟩ | ⟨stamp, isStamped⟩
  · exact .inl ⟨fun member => unseen (seen path member), finished ▸ unfinished⟩
  · exact absurd isStamped (notStamped path stamp)

theorem find?_eq_some {path : Path} {stamp : Option DurableFileStamp} {row : Row}
    (found : memo.find? path stamp = some row) :
    ∃ known, stamp = some known ∧ memo.rows path = some (known, row) := by
  unfold DurableScanMemo.find? at found
  split at found
  · next known cached row isRow =>
      split at found
      · next same =>
          cases found
          exact ⟨known, rfl, same ▸ isRow⟩
      · cases found
  · cases found

/-- A row that is served is the row there is now, unless something was written. -/
theorem sound_lookUp (sound : Sound buildRow state) (isScan : state.scans id = some scan)
    {path : Path} {stamp : Option DurableFileStamp} (isStage : scan.stage = .stamped path stamp)
    {row : Row} (found : state.memo.find? path stamp = some row)
    (undisturbed : scan.undisturbed = true) :
    state.disk.rowNow buildRow path = some row := by
  have scanSound := sound.scans id scan isScan
  obtain ⟨known, rfl, isRow⟩ := find?_eq_some found
  have stageSound := scanSound.stage
  rw [isStage] at stageSound
  have cleared := scanSound.cleared (by rw [isStage]; nofun)
  exact sound.rows path known row isRow
    (.inr ⟨id, scan, isScan, undisturbed, cleared, .inr ⟨_, isStage⟩⟩)
    (stageSound.2 undisturbed).symm

variable [DecidableEq ScanId]

theorem scans_update {other : ScanId} {found : Scan Path Titles Row}
    (isFound : Function.update state.scans id (some later) other = some found) :
    found = later ∨ other ≠ id ∧ state.scans other = some found := by
  by_cases same : other = id
  · subst same
    rw [Function.update_self] at isFound
    exact .inl (Option.some.inj isFound).symm
  · rw [Function.update_of_ne same] at isFound
    exact .inr ⟨same, isFound⟩

/-- A scan goes on, and what the memo has stays as good as it was. -/
theorem Sound.advance (sound : Sound buildRow state)
    (scanSound : ScanSound buildRow state.disk later)
    (generation : ∀ generation ∈ memo.generation, generation ≤ state.disk.generation)
    (stamps : ∀ path stamp row, memo.rows path = some (stamp, row) → state.disk.Known path stamp)
    (rows : ∀ path stamp row, memo.rows path = some (stamp, row) →
      (memo.generation = some state.disk.generation ∨ later.Relies path ∨
        ∃ other scan, state.scans other = some scan ∧ other ≠ id ∧ scan.Relies path) →
      state.disk.stampNow path = some stamp → state.disk.rowNow buildRow path = some row) :
    Sound buildRow { state with memo, scans := Function.update state.scans id (some later) } := by
  refine ⟨generation, stamps, ?_, ?_⟩
  · intro path stamp row isRow inUse
    apply rows path stamp row isRow
    apply inUse.imp_right
    rintro ⟨other, found, isFound, relies⟩
    rcases scans_update isFound with rfl | ⟨different, isFound⟩
    · exact .inl relies
    · exact .inr ⟨other, found, isFound, different, relies⟩
  · intro other found isFound
    rcases scans_update isFound with rfl | ⟨_, isFound⟩
    · exact scanSound
    · exact sound.scans other found isFound

/-- A scan goes on that relies on no more than before, and the memo has no more than before. -/
theorem Sound.advance_of_subset (sound : Sound buildRow state) (isScan : state.scans id = some scan)
    (scanSound : ScanSound buildRow state.disk later)
    (sameGeneration : memo.generation = state.memo.generation)
    (fewer : ∀ path entry, memo.rows path = some entry → state.memo.rows path = some entry)
    (relies : ∀ path, later.Relies path → scan.Relies path) :
    Sound buildRow { state with memo, scans := Function.update state.scans id (some later) } := by
  apply sound.advance scanSound
  · rw [sameGeneration]
    exact sound.generation
  · exact fun path stamp row isRow => sound.stamps path stamp row (fewer path _ isRow)
  · intro path stamp row isRow inUse
    apply sound.rows path stamp row (fewer path _ isRow)
    rw [sameGeneration] at inUse
    apply inUse.imp_right
    rintro (laterRelies | ⟨other, scan, isOther, _, otherRelies⟩)
    · exact ⟨id, scan, isScan, relies path laterRelies⟩
    · exact ⟨other, scan, isOther, otherRelies⟩

/-- After the memo was cleared for its scan, the rows it has are those it had in use. -/
theorem sound_clear (sound : Sound buildRow state) (isScan : state.scans id = some scan)
    (isMemo : memo = state.memo.enter scan.generation)
    (isLater : later = { scan with cleared := true }) :
    Sound buildRow { state with memo, scans := Function.update state.scans id (some later) } := by
  have scanSound := sound.scans id scan isScan
  have laterSound : ScanSound buildRow state.disk later := by
    subst isLater
    exact ⟨scanSound.generation, scanSound.present, fun _ => rfl, scanSound.stage, scanSound.rows⟩
  rw [DurableScanMemo.enter] at isMemo
  split at isMemo
  · subst isMemo
    apply sound.advance laterSound
    · intro generation member
      exact Option.some.inj member ▸ scanSound.generation
    · nofun
    · nofun
  · next same =>
      have isGeneration : state.memo.generation = some scan.generation := not_not.mp same
      subst isMemo
      apply sound.advance laterSound sound.generation sound.stamps
      intro path stamp row isRow inUse
      apply sound.rows path stamp row isRow
      rcases inUse with isPresent | relies | ⟨other, found, isFound, _, relies⟩
      · exact .inl isPresent
      · -- a scan that is not disturbed has read the stamp there is
        subst isLater
        exact .inl (isGeneration.trans (congrArg some (scanSound.present relies.1)))
      · exact .inr ⟨other, found, isFound, relies⟩

/-- A scan goes on without the memo. -/
theorem sound_goOn (sound : Sound buildRow state) (isScan : state.scans id = some scan)
    (laterSound : ScanSound buildRow state.disk later)
    (relies : ∀ path, later.Relies path → scan.Relies path) :
    Sound buildRow { state with scans := Function.update state.scans id (some later) } :=
  sound.advance_of_subset isScan laterSound rfl (fun _ _ isRow => isRow) relies

/-- A scan that reads a file goes on, with no stamp to look up. -/
theorem sound_pass (sound : Sound buildRow state) (isScan : state.scans id = some scan)
    (reads : scan.stage ≠ .idle) {stage : Stage Path Titles Row} {rows : List (Path × Row)}
    (notStamped : ∀ path stamp, stage ≠ .stamped path stamp)
    (stageSound : StageSound buildRow state.disk scan.undisturbed stage)
    (rowsSound : scan.undisturbed = true → ∀ entry ∈ rows,
      state.disk.rowNow buildRow entry.1 = some entry.2) :
    Sound buildRow { state with
      scans := Function.update state.scans id (some { scan with stage, rows }) } := by
  have scanSound := sound.scans id scan isScan
  apply sound_goOn sound isScan
  · exact ⟨scanSound.generation, scanSound.present, fun _ => scanSound.cleared reads, stageSound,
      rowsSound⟩
  · exact relies_of_seen rfl rfl rfl (fun _ member => member) notStamped

theorem rows_append {disk : Disk Path Titles} {rows : List (Path × Row)} {path : Path} {row : Row}
    (sound : ∀ entry ∈ rows, disk.rowNow buildRow entry.1 = some entry.2)
    (isRow : disk.rowNow buildRow path = some row) :
    ∀ entry ∈ rows ++ [(path, row)], disk.rowNow buildRow entry.1 = some entry.2 := by
  intro entry member
  rcases List.mem_append.mp member with before | isNew
  · exact sound entry before
  · obtain rfl := List.mem_singleton.mp isNew
    exact isRow

variable [DecidableEq Path]

theorem sound_insert (sound : Sound buildRow state) (isScan : state.scans id = some scan)
    {path : Path} {stamp : Option DurableFileStamp} {row : Row}
    (isStage : scan.stage = .built path stamp row)
    (present : ∀ known ∈ stamp, state.InUse path → state.disk.stampNow path = some known →
      state.disk.rowNow buildRow path = some row)
    (laterSound : ScanSound buildRow state.disk later)
    (relies : ∀ path, later.Relies path → scan.Relies path) :
    Sound buildRow { state with
      memo := state.memo.insert path stamp row
      scans := Function.update state.scans id (some later) } := by
  have stageSound := (sound.scans id scan isScan).stage
  rw [isStage] at stageSound
  have inserted : ∀ other entry, (state.memo.insert path stamp row).rows other = some entry →
      (other = path ∧ ∃ known, stamp = some known ∧ entry = (known, row)) ∨
        state.memo.rows other = some entry := by
    intro other entry isEntry
    cases stamp with
    | none => exact .inr isEntry
    | some known =>
        by_cases same : other = path
        · subst same
          have isUpdated : Function.update state.memo.rows other (some (known, row)) other =
            some entry := isEntry
          rw [Function.update_self] at isUpdated
          exact .inl ⟨rfl, known, rfl, (Option.some.inj isUpdated).symm⟩
        · have isUpdated : Function.update state.memo.rows path (some (known, row)) other =
            some entry := isEntry
          rw [Function.update_of_ne same] at isUpdated
          exact .inr isUpdated
  have sameGeneration : (state.memo.insert path stamp row).generation = state.memo.generation := by
    cases stamp with
    | none => rfl
    | some known => rfl
  apply sound.advance laterSound
  · rw [sameGeneration]
    exact sound.generation
  · intro other known found isRow
    rcases inserted other _ isRow with ⟨rfl, stampKnown, rfl, isEntry⟩ | isRow
    · cases isEntry
      exact stageSound.1 known rfl
    · exact sound.stamps other known found isRow
  · intro other known found isRow inUse isStamp
    rw [sameGeneration] at inUse
    have wasInUse : state.InUse other := by
      apply inUse.imp_right
      rintro (laterRelies | ⟨one, scan, isOne, _, oneRelies⟩)
      · exact ⟨id, scan, isScan, relies other laterRelies⟩
      · exact ⟨one, scan, isOne, oneRelies⟩
    rcases inserted other _ isRow with ⟨rfl, stampKnown, rfl, isEntry⟩ | isRow
    · cases isEntry
      exact present known rfl wasInUse isStamp
    · exact sound.rows other known found isRow wasInUse isStamp

section Actions

variable {other : ScanId} {path : Path} (sound : Sound buildRow state)
  (isScan : state.scans id = some scan)

include sound isScan

theorem sound_skip
    (isStep : State.stepScan buildRow state.disk state.memo scan (.skip other path) =
      some (memo, later)) :
    Sound buildRow { state with memo, scans := Function.update state.scans id (some later) } := by
  have scanSound := sound.scans id scan isScan
  simp only [State.stepScan] at isStep
  split at isStep
  · next isIdle =>
      split at isStep
      · cases isStep
        apply sound_goOn sound isScan
        · exact ⟨scanSound.generation, scanSound.present, scanSound.cleared, scanSound.stage,
            scanSound.rows⟩
        · refine relies_of_seen rfl rfl rfl (fun _ => List.mem_cons_of_mem _) ?_
          simp [isIdle]
      · cases isStep
  · cases isStep

/-- The stamp that a scan takes is the one there is. -/
theorem sound_visit
    (isStep : State.stepScan buildRow state.disk state.memo scan (.visit other path) =
      some (memo, later)) :
    Sound buildRow { state with memo, scans := Function.update state.scans id (some later) } := by
  have scanSound := sound.scans id scan isScan
  simp only [State.stepScan] at isStep
  split at isStep
  · split at isStep
    · next ready =>
        obtain ⟨cleared, unfinished, unseen⟩ := ready
        cases isStep
        apply sound_goOn sound isScan
        · refine ⟨scanSound.generation, scanSound.present, fun _ => cleared, ⟨?_, fun _ => rfl⟩,
            scanSound.rows⟩
          intro known isKnown
          obtain ⟨transcript, isTranscript, rfl⟩ := Option.map_eq_some_iff.mp isKnown
          exact ⟨transcript, isTranscript, Nat.le_refl _⟩
        · rintro one ⟨undisturbed, _, ⟨notSeen, _⟩ | ⟨stamp, isStamped⟩⟩
          · have notBefore := fun member => notSeen (List.mem_cons_of_mem path member)
            exact ⟨undisturbed, cleared, .inl ⟨notBefore, unfinished⟩⟩
          · cases isStamped
            exact ⟨undisturbed, cleared, .inl ⟨unseen, unfinished⟩⟩
    · cases isStep
  · cases isStep

theorem sound_stepLookUp
    (isStep : State.stepScan buildRow state.disk state.memo scan (.lookUp other) =
      some (memo, later)) :
    Sound buildRow { state with memo, scans := Function.update state.scans id (some later) } := by
  have scanSound := sound.scans id scan isScan
  have stageSound := scanSound.stage
  simp only [State.stepScan] at isStep
  split at isStep
  · next path stamp isStage =>
      rw [isStage] at stageSound
      have reads : scan.stage ≠ .idle := by simp [isStage]
      split at isStep
      · next row found =>
          cases isStep
          refine sound_pass sound isScan reads (by simp) trivial ?_
          intro undisturbed
          apply rows_append (scanSound.rows undisturbed)
          exact sound_lookUp sound isScan isStage found undisturbed
      · cases isStep
        exact sound_pass sound isScan reads (by simp) stageSound.1 scanSound.rows
  · cases isStep

theorem sound_readTranscript
    (isStep : State.stepScan buildRow state.disk state.memo scan (.readTranscript other) =
      some (memo, later)) :
    Sound buildRow { state with memo, scans := Function.update state.scans id (some later) } := by
  have scanSound := sound.scans id scan isScan
  have stageSound := scanSound.stage
  simp only [State.stepScan] at isStep
  split at isStep
  · next path stamp isStage =>
      rw [isStage] at stageSound
      cases isStep
      exact sound_pass sound isScan (by simp [isStage]) (by simp) ⟨stageSound, fun _ => rfl⟩
        scanSound.rows
  · cases isStep

theorem sound_readTitles
    (isStep : State.stepScan buildRow state.disk state.memo scan (.readTitles other) =
      some (memo, later)) :
    Sound buildRow { state with memo, scans := Function.update state.scans id (some later) } := by
  have scanSound := sound.scans id scan isScan
  have stageSound := scanSound.stage
  simp only [State.stepScan] at isStep
  split at isStep
  · next path stamp entry isStage =>
      rw [isStage] at stageSound
      cases isStep
      exact sound_pass sound isScan (by simp [isStage]) (by simp)
        ⟨stageSound.1, fun undisturbed => ⟨stageSound.2 undisturbed, rfl⟩⟩ scanSound.rows
  · cases isStep

theorem sound_readContext
    (isStep : State.stepScan buildRow state.disk state.memo scan (.readContext other) =
      some (memo, later)) :
    Sound buildRow { state with memo, scans := Function.update state.scans id (some later) } := by
  have scanSound := sound.scans id scan isScan
  have stageSound := scanSound.stage
  simp only [State.stepScan] at isStep
  split at isStep
  · next path stamp entry titles isStage =>
      rw [isStage] at stageSound
      have reads : scan.stage ≠ .idle := by simp [isStage]
      split at isStep
      · next row isRow =>
          cases isStep
          refine sound_pass sound isScan reads (by simp) ⟨stageSound.1, ?_⟩ scanSound.rows
          intro undisturbed
          obtain ⟨isEntry, areTitles⟩ := stageSound.2 undisturbed
          rwa [isEntry, areTitles] at isRow
      · cases isStep
        exact sound_pass sound isScan reads (by simp) trivial scanSound.rows
  · cases isStep

theorem sound_stepInsert
    (present : ∀ path stamp row, scan.stage = .built path (some stamp) row → state.InUse path →
      state.disk.stampNow path = some stamp → state.disk.rowNow buildRow path = some row)
    (isStep : State.stepScan buildRow state.disk state.memo scan (.insert other) =
      some (memo, later)) :
    Sound buildRow { state with memo, scans := Function.update state.scans id (some later) } := by
  have scanSound := sound.scans id scan isScan
  have stageSound := scanSound.stage
  simp only [State.stepScan] at isStep
  split at isStep
  · next path stamp row isStage =>
      have cleared := scanSound.cleared (by simp [isStage])
      rw [isStage] at stageSound
      cases isStep
      apply sound_insert sound isScan isStage
      · rintro known rfl
        exact present path known row isStage
      · refine ⟨scanSound.generation, scanSound.present, fun _ => cleared, trivial, ?_⟩
        intro undisturbed
        exact rows_append (scanSound.rows undisturbed) (stageSound.2 undisturbed)
      · exact relies_of_seen rfl rfl rfl (fun _ member => member) (by simp)
  · cases isStep

/-- A scan that has finished relies on nothing. -/
theorem sound_finish
    (isStep : State.stepScan buildRow state.disk state.memo scan (.finish other) =
      some (memo, later)) :
    Sound buildRow { state with memo, scans := Function.update state.scans id (some later) } := by
  have scanSound := sound.scans id scan isScan
  simp only [State.stepScan] at isStep
  split at isStep
  · next isIdle =>
      split at isStep
      · cases isStep
        refine sound.advance_of_subset isScan ⟨scanSound.generation, scanSound.present,
          scanSound.cleared, scanSound.stage, scanSound.rows⟩ rfl ?_ ?_
        · intro path entry isEntry
          simp only [DurableScanMemo.retain] at isEntry
          split at isEntry
          · exact isEntry
          · cases isEntry
        · rintro path ⟨undisturbed, cleared, ⟨unseen, unfinished⟩ | ⟨stamp, isStamped⟩⟩
          · cases unfinished
          · simp [isIdle] at isStamped
      · cases isStep
  · cases isStep

end Actions

/-- A step of a scan. -/
theorem sound_stepScan (sound : Sound buildRow state) (isScan : state.scans id = some scan)
    {action : Action Path Titles ScanId}
    (present : ∀ other, action = .insert other → ∀ path stamp row,
      scan.stage = .built path (some stamp) row → state.InUse path →
      state.disk.stampNow path = some stamp → state.disk.rowNow buildRow path = some row)
    (isStep : State.stepScan buildRow state.disk state.memo scan action = some (memo, later)) :
    Sound buildRow { state with memo, scans := Function.update state.scans id (some later) } := by
  cases action with
  | append | writeTitles | invalidate | start => cases isStep
  | clear other =>
      simp only [State.stepScan] at isStep
      split at isStep
      · cases isStep
      · cases isStep
        exact sound_clear sound isScan rfl rfl
  | skip other path => exact sound_skip sound isScan isStep
  | visit other path => exact sound_visit sound isScan isStep
  | lookUp other => exact sound_stepLookUp sound isScan isStep
  | readTranscript other => exact sound_readTranscript sound isScan isStep
  | readTitles other => exact sound_readTitles sound isScan isStep
  | readContext other => exact sound_readContext sound isScan isStep
  | insert other => exact sound_stepInsert sound isScan (present other rfl) isStep
  | finish other => exact sound_finish sound isScan isStep

end Steps

/-! ## Runs -/

section Runs

variable [DecidableEq ScanId]

theorem sound_start {state : State Path Titles Row ScanId} (sound : Sound buildRow state)
    (id : ScanId) :
    Sound buildRow { state with
      scans := Function.update state.scans id
        (some ⟨state.disk.generation, false, [], .idle, [], false, true⟩) } := by
  apply sound.advance
  · exact ⟨Nat.le_refl _, fun _ => rfl, nofun, trivial, nofun⟩
  · exact sound.generation
  · exact sound.stamps
  · intro path stamp row isRow inUse
    apply sound.rows path stamp row isRow
    apply inUse.imp_right
    rintro (⟨_, cleared, _⟩ | ⟨other, scan, isScan, _, relies⟩)
    · cases cleared
    · exact ⟨other, scan, isScan, relies⟩

variable [DecidableEq Path]

theorem sound_advance {state : State Path Titles Row ScanId} (sound : Sound buildRow state)
    (id : ScanId) {action : Action Path Titles ScanId}
    (present : ∀ other, action = .insert other →
    other = id ∧ InsertsPresent buildRow state action) :
    Sound buildRow (state.advance buildRow id action) := by
  unfold State.advance
  split
  · exact sound
  · next memo later isStep =>
      obtain ⟨scan, isScan, isStep⟩ := Option.bind_eq_some_iff.mp isStep
      apply sound_stepScan sound isScan _ isStep
      rintro other rfl
      obtain ⟨rfl, isPresent⟩ := present other rfl
      exact fun path stamp row => isPresent scan path stamp row isScan

theorem sound_step (state : State Path Titles Row ScanId) (action : Action Path Titles ScanId)
    (sound : Sound buildRow state) (present : InsertsPresent buildRow state action) :
    Sound buildRow (state.step buildRow action) := by
  cases action with
  | append path modified bytes =>
      simp only [State.step]
      split
      · exact sound
      · next nonempty => exact sound_append sound path modified nonempty
  | writeTitles titles => exact sound_writeTitles sound titles
  | invalidate =>
      refine ⟨nofun, nofun, nofun, ?_⟩
      exact sound.scans
  | start id =>
      simp only [State.step]
      split
      · exact sound
      · exact sound_start sound id
  | clear id => exact sound_advance sound id (by nofun)
  | skip id path => exact sound_advance sound id (by nofun)
  | visit id path => exact sound_advance sound id (by nofun)
  | lookUp id => exact sound_advance sound id (by nofun)
  | readTranscript id => exact sound_advance sound id (by nofun)
  | readTitles id => exact sound_advance sound id (by nofun)
  | readContext id => exact sound_advance sound id (by nofun)
  | insert id =>
      apply sound_advance sound id
      rintro other ⟨⟩
      exact ⟨rfl, present⟩
  | finish id => exact sound_advance sound id (by nofun)

/-- Along a run in which no row is put into the memo that was built before the titles were last
written and may be served, no scan that nothing was written during returns such a row. -/
theorem serves_present (buildRow : RowBuilder Path Titles Row) (disk : Disk Path Titles)
    (actions : List (Action Path Titles ScanId))
    (guarded : Guarded (State.step buildRow) (InsertsPresent buildRow)
      (State.initial disk : State Path Titles Row ScanId) actions) :
    Always (State.step buildRow) (ServesPresent buildRow)
      (State.initial disk : State Path Titles Row ScanId) actions :=
  always_of_guarded sound_step (fun _ sound => sound.servesPresent) (sound_initial disk) guarded

end Runs

/-- A row that shows the title. -/
def titleRow : RowBuilder (List Char) (List Char) (List Char) := fun _ _ titles _ => some titles

def oneTranscript : Disk (List Char) (List Char) :=
  ⟨fun _ => some ⟨0, [0x7b]⟩, "draft".toList, 0⟩

/-- A scan builds the row of a file, and another finds it in the memo. -/
def twoScans : List (Action (List Char) (List Char) Nat) :=
  [.start 0, .clear 0, .visit 0 ['s'], .lookUp 0, .readTranscript 0, .readTitles 0, .readContext 0,
    .insert 0, .finish 0, .start 1, .clear 1, .visit 1 ['s'], .lookUp 1]

theorem serves_present_twice : Always (State.step titleRow) (ServesPresent titleRow)
    (State.initial oneTranscript : State (List Char) (List Char) (List Char) Nat) twoScans := by
  apply serves_present
  refine ⟨trivial, trivial, trivial, trivial, trivial, trivial, trivial, ?_, trivial, trivial,
    trivial, trivial, trivial, trivial⟩
  rintro scan path stamp row isScan isStage _ _
  obtain rfl := Option.some.inj isScan
  cases isStage
  rfl

/-- The first scan puts its row into the memo after the title was written and the second scan has
started. -/
def lateInsert : List (Action (List Char) (List Char) Nat) :=
  [.start 0, .clear 0, .visit 0 ['s'], .lookUp 0, .readTranscript 0, .readTitles 0, .readContext 0,
    .writeTitles "plan".toList, .invalidate, .start 1, .clear 1, .insert 0, .visit 1 ['s'],
    .lookUp 1]

theorem serves_stale_row : ¬ ∀ (buildRow : RowBuilder (List Char) (List Char) (List Char))
    (disk : Disk (List Char) (List Char)) (actions : List (Action (List Char) (List Char) Nat)),
    Always (State.step buildRow) (ServesPresent buildRow)
      (State.initial disk : State (List Char) (List Char) (List Char) Nat) actions := by
  intro all
  refine not_always_of_last ?_ (all titleRow oneTranscript lateInsert)
  intro serves
  have served := serves 1 _ rfl rfl (['s'], "draft".toList) List.mem_cons_self
  exact absurd served (by decide)

end Yggterm.ScanMemo
