import Mathlib.Data.List.Induction
import Yggterm.Ownership.Ledger

/-!
# What a lookup answers, and what it removes

The answer is the newest record for the key that is still true, the first on equal
times.  Liveness is asked of the pid alone, and records are pruned by their key:
both show exactly when the ledger answers with the truth, and answers it again.
-/

namespace Yggterm.Ownership

section

variable (encoder : Encoder) (table : ProcessTable) (now : Nat)

/-- The records that are still true. -/
def trueRecords (records : List OwnershipRecord) : List OwnershipRecord :=
  records.filter (recordIsStillTrue table now)

/-- A still-true record for the key. -/
def IsCandidate (key : SessionKind × SessionId) (record : OwnershipRecord) : Prop :=
  recordIsStillTrue table now record = true ∧ record.key = key

/-- The newest still-true record for the key; of several with one time, the first. -/
def IsNewest (key : SessionKind × SessionId) (records : List OwnershipRecord)
    (record : OwnershipRecord) : Prop :=
  IsCandidate table now key record ∧
    ∃ before after, records = before ++ record :: after ∧
      (∀ other ∈ before, IsCandidate table now key other →
        other.writtenAtMs < record.writtenAtMs) ∧
      ∀ other ∈ after, IsCandidate table now key other → other.writtenAtMs ≤ record.writtenAtMs

end

section

variable {encoder : Encoder} {table : ProcessTable} {now : Nat}

/-! ## The newest record -/

theorem newestRecord_append (key : SessionKind × SessionId) (records : List OwnershipRecord)
    (record : OwnershipRecord) :
    newestRecord table now key (records ++ [record]) =
      if recordIsStillTrue table now record && record.key = key then
        newer (newestRecord table now key records) record
      else newestRecord table now key records := by
  rw [newestRecord, List.foldl_append]
  rfl

/-- The newest record stays it when one comes behind that is no newer. -/
theorem IsNewest.append_of_le {key : SessionKind × SessionId} {records : List OwnershipRecord}
    {newest record : OwnershipRecord} (isNewest : IsNewest table now key records newest)
    (notNewer : IsCandidate table now key record → record.writtenAtMs ≤ newest.writtenAtMs) :
    IsNewest table now key (records ++ [record]) newest := by
  obtain ⟨isCandidate, before, after, rfl, earlier, later⟩ := isNewest
  refine ⟨isCandidate, before, after ++ [record], by simp, earlier, ?_⟩
  intro other member otherCandidate
  rcases List.mem_append.mp member with inAfter | isLast
  · exact later other inAfter otherCandidate
  · rw [List.mem_singleton.mp isLast] at otherCandidate ⊢
    exact notNewer otherCandidate

/-- A candidate that is newer takes its place. -/
theorem IsNewest.append_of_lt {key : SessionKind × SessionId} {records : List OwnershipRecord}
    {newest record : OwnershipRecord} (isNewest : IsNewest table now key records newest)
    (candidate : IsCandidate table now key record)
    (isNewer : newest.writtenAtMs < record.writtenAtMs) :
    IsNewest table now key (records ++ [record]) record := by
  obtain ⟨_, before, after, rfl, earlier, later⟩ := isNewest
  refine ⟨candidate, _, [], rfl, ?_, by simp⟩
  intro other member otherCandidate
  rcases List.mem_append.mp member with inBefore | inRest
  · exact Nat.lt_trans (earlier other inBefore otherCandidate) isNewer
  · rcases List.mem_cons.mp inRest with rfl | inAfter
    · exact isNewer
    · exact Nat.lt_of_le_of_lt (later other inAfter otherCandidate) isNewer

/-- What the loop holds after some records, by whether any of them was a candidate. -/
theorem newestRecord_spec (table : ProcessTable) (now : Nat) (key : SessionKind × SessionId)
    (records : List OwnershipRecord) :
    (newestRecord table now key records = none ∧
        ∀ record ∈ records, ¬ IsCandidate table now key record) ∨
      ∃ newest, newestRecord table now key records = some newest ∧
        IsNewest table now key records newest := by
  induction records using List.reverseRecOn with
  | nil => exact Or.inl ⟨rfl, by simp⟩
  | append_singleton records record inductionHypothesis =>
      rw [newestRecord_append]
      by_cases candidate : IsCandidate table now key record
      · rw [if_pos (by simp [candidate.1, candidate.2])]
        right
        rcases inductionHypothesis with ⟨isNone, absent⟩ | ⟨newest, isSome, isNewest⟩
        · rw [isNone]
          refine ⟨record, rfl, candidate, records, [], rfl, ?_, by simp⟩
          intro other member otherCandidate
          exact absurd otherCandidate (absent other member)
        · rw [isSome, newer]
          split
          · next notNewer => exact ⟨newest, rfl, isNewest.append_of_le fun _ => notNewer⟩
          · next isNewer =>
              exact ⟨record, rfl, isNewest.append_of_lt candidate (Nat.lt_of_not_le isNewer)⟩
      · rw [if_neg (by simpa [IsCandidate] using candidate)]
        rcases inductionHypothesis with ⟨isNone, absent⟩ | ⟨newest, isSome, isNewest⟩
        · refine Or.inl ⟨isNone, ?_⟩
          intro other member
          rcases List.mem_append.mp member with inRecords | isLast
          · exact absent other inRecords
          · rwa [List.mem_singleton.mp isLast]
        · right
          refine ⟨newest, isSome, isNewest.append_of_le ?_⟩
          intro isCandidate
          exact absurd isCandidate candidate

/-- Only the true records count. -/
theorem newestRecord_trueRecords (key : SessionKind × SessionId) (records : List OwnershipRecord) :
    newestRecord table now key (trueRecords table now records) =
      newestRecord table now key records := by
  rw [newestRecord, trueRecords, List.foldl_filter, newestRecord]
  congr 1
  funext newest record
  by_cases isTrue : recordIsStillTrue table now record = true <;> simp [isTrue]

theorem load_of_le {ledger : Ledger} (fits : encoder.size ledger ≤ ledgerMaxBytes) :
    load encoder ledger = ledger := if_neg (Nat.not_lt.mpr fits)

theorem load_of_lt {ledger : Ledger} (oversize : ledgerMaxBytes < encoder.size ledger) :
    load encoder ledger = [] := if_pos oversize

theorem load_nil : load encoder [] = [] := by
  apply load_of_le
  rw [encoder.size_nil]
  decide

/-! ## What stays in the ledger -/

/-- The ledger a lookup leaves: records whose key no stale record has. -/
theorem lookup_ledger (ledger : Ledger) (kind : SessionKind) (sessionId : SessionId) :
    (lookup encoder table now ledger kind sessionId).1 =
      (load encoder ledger).filter fun record =>
        record.key ∉ ((load encoder ledger).filter fun other =>
          ¬ recordIsStillTrue table now other).map OwnershipRecord.key := by
  have loaded : load encoder (load encoder ledger) = load encoder ledger := by
    by_cases fits : encoder.size ledger ≤ ledgerMaxBytes
    · rw [load_of_le fits, load_of_le fits]
    · rw [load_of_lt (Nat.lt_of_not_le fits), load_nil]
  rw [lookup]
  dsimp only
  split
  · next noneStale =>
      rw [noneStale]
      simp
  · rw [prune, loaded]

/-- No true record shares its key with one that is no longer true. -/
def KeysAgree (table : ProcessTable) (now : Nat) (ledger : Ledger) : Prop :=
  ∀ record ∈ ledger, recordIsStillTrue table now record = true →
    ∀ stale ∈ ledger, recordIsStillTrue table now stale = false → record.key ≠ stale.key

theorem trueRecords_lookup_iff {ledger : Ledger} (fits : encoder.size ledger ≤ ledgerMaxBytes)
    (kind : SessionKind) (sessionId : SessionId) :
    trueRecords table now (lookup encoder table now ledger kind sessionId).1 =
        trueRecords table now ledger ↔ KeysAgree table now ledger := by
  rw [lookup_ledger, load_of_le fits, trueRecords, trueRecords, List.filter_filter]
  constructor
  · intro same record member isTrue stale staleMember isStale sameKey
    have kept : record ∈ ledger.filter (recordIsStillTrue table now) :=
      List.mem_filter.mpr ⟨member, isTrue⟩
    rw [← same] at kept
    have keyKept := (List.mem_filter.mp kept).2
    simp only [Bool.and_eq_true, decide_eq_true_eq] at keyKept
    apply keyKept.2
    exact List.mem_map.mpr ⟨stale, List.mem_filter.mpr ⟨staleMember, by simp [isStale]⟩,
      sameKey.symm⟩
  · intro agree
    apply List.filter_congr
    intro record member
    by_cases isTrue : recordIsStillTrue table now record = true
    · have keyKept : record.key ∉ (ledger.filter fun other =>
          ¬ recordIsStillTrue table now other).map OwnershipRecord.key := by
        intro inStale
        obtain ⟨stale, staleMember, sameKey⟩ := List.mem_map.mp inStale
        obtain ⟨inLedger, isStale⟩ := List.mem_filter.mp staleMember
        exact agree record member isTrue stale inLedger (by simpa using isStale) sameKey.symm
      simp only [isTrue, keyKept, not_false_eq_true, decide_true, Bool.and_true]
    · simp [isTrue]

theorem lookup_answer {ledger : Ledger} (fits : encoder.size ledger ≤ ledgerMaxBytes)
    (kind : SessionKind) (sessionId : SessionId) :
    (lookup encoder table now ledger kind sessionId).2 =
      answerOf (newestRecord table now (kind, sessionId) (trueRecords table now ledger)) := by
  rw [newestRecord_trueRecords, lookup, load_of_le fits]

theorem lookup_over {ledger : Ledger} (oversize : ledgerMaxBytes < encoder.size ledger)
    (kind : SessionKind) (sessionId : SessionId) :
    lookup encoder table now ledger kind sessionId = ([], .noAnswer) := by
  rw [lookup, load_of_lt oversize]
  rfl

/-- A lookup removes no true record, and whatever is asked next is answered as it
would have been before. -/
def StableLookup (encoder : Encoder) (table : ProcessTable) (now : Nat) (ledger : Ledger)
    (kind : SessionKind) (sessionId : SessionId) : Prop :=
  let after := (lookup encoder table now ledger kind sessionId).1
  trueRecords table now after = trueRecords table now ledger ∧
    ∀ otherKind otherId,
      (lookup encoder table now after otherKind otherId).2 =
        (lookup encoder table now ledger otherKind otherId).2

/-- A ledger within the cap answers stably exactly when no true record shares its key with
a stale one; a larger one is moved aside, and then has to hold no true record. -/
theorem stableLookup_iff (encoder : Encoder) (table : ProcessTable) (now : Nat) (ledger : Ledger)
    (kind : SessionKind) (sessionId : SessionId) :
    StableLookup encoder table now ledger kind sessionId ↔
      if encoder.size ledger ≤ ledgerMaxBytes then KeysAgree table now ledger
      else ∀ record ∈ ledger, recordIsStillTrue table now record = false := by
  by_cases fits : encoder.size ledger ≤ ledgerMaxBytes
  · rw [if_pos fits, ← trueRecords_lookup_iff fits kind sessionId, StableLookup]
    constructor
    · intro stable
      exact stable.1
    · intro same
      refine ⟨same, ?_⟩
      intro otherKind otherId
      have shorter : encoder.size (lookup encoder table now ledger kind sessionId).1 ≤
          ledgerMaxBytes := by
        refine Nat.le_trans ?_ fits
        rw [lookup_ledger, load_of_le fits]
        exact encoder.size_le_of_sublist List.filter_sublist
      rw [lookup_answer shorter, lookup_answer fits, same]
  · have oversize := Nat.lt_of_not_le fits
    rw [if_neg fits, StableLookup, lookup_over oversize]
    constructor
    · intro stable record member
      have noneTrue : trueRecords table now ledger = [] := stable.1.symm
      simpa using List.filter_eq_nil_iff.mp noneTrue record member
    · intro noneTrue
      refine ⟨?_, ?_⟩
      · apply Eq.symm
        apply List.filter_eq_nil_iff.mpr
        intro record member
        simp [noneTrue record member]
      · intro otherKind otherId
        rw [lookup_over oversize, lookup, load_nil]
        rfl

/-- A session that died with one daemon and was then adopted by another has two records.
When the first expires, looking up any session removes both. -/
theorem stableLookup_fails :
    ¬ ∀ encoder table now ledger kind sessionId,
      StableLookup encoder table now ledger kind sessionId := by
  intro stable
  let died : OwnershipRecord :=
    { kind := .codex, sessionId := ['s'], runtimeKey := "row", disposition := .diedWithMe ['s'] [],
      writtenAtMs := 0, writtenByPid := 10, fromVersion := "3.0.118" }
  let adopted : OwnershipRecord :=
    { kind := .codex, sessionId := ['s'], runtimeKey := "row", disposition := .adopted 12 7,
      writtenAtMs := 200000, writtenByPid := 11, fromVersion := "3.0.119" }
  let table : ProcessTable := fun pid => if pid = 12 then some ⟨'S', 7⟩ else none
  have kept := (stable prettyEncoder table 300001 [died, adopted] .codex ['s']).1
  exact absurd kept (by decide)

/-! ## Whether the answer is true -/

/-- The process a record names as the adopter is alive, pid and start time. -/
def AdopterAlive (table : ProcessTable) (record : OwnershipRecord) : Prop :=
  ∀ byPid byStartTime, record.disposition = .adopted byPid byStartTime →
    ∃ stat, table byPid = some stat ∧ stat.state ≠ 'Z' ∧ stat.startTime = byStartTime

/-- The answer is that of the newest still-true record, and its adopter is alive; there is
no answer exactly when there is no such record. -/
def TrueAnswer (encoder : Encoder) (table : ProcessTable) (now : Nat) (ledger : Ledger)
    (kind : SessionKind) (sessionId : SessionId) : Prop :=
  let answer := (lookup encoder table now ledger kind sessionId).2
  (answer = .noAnswer ↔ ∀ record ∈ ledger, ¬ IsCandidate table now (kind, sessionId) record) ∧
    ∀ record, IsNewest table now (kind, sessionId) ledger record →
      answer = answerOf (some record) ∧ AdopterAlive table record

theorem IsNewest.unique {key : SessionKind × SessionId} {ledger : Ledger}
    {first second : OwnershipRecord} (isFirst : IsNewest table now key ledger first)
    (isSecond : IsNewest table now key ledger second) : first = second := by
  obtain ⟨firstCandidate, before, after, isLedger, earlier, later⟩ := isFirst
  obtain ⟨secondCandidate, otherBefore, otherAfter, isSame, otherEarlier, otherLater⟩ := isSecond
  have split := isLedger.symm.trans isSame
  rcases List.append_eq_append_iff.mp split with
    ⟨between, isOther, isRest⟩ | ⟨between, isOther, isRest⟩
  · cases between with
    | nil =>
        simp only [List.nil_append, List.cons.injEq] at isRest
        exact isRest.1
    | cons middle rest =>
        -- the first stands before the second, so it is older, and the second is not newer
        simp only [List.cons_append, List.cons.injEq] at isRest
        obtain ⟨rfl, rfl⟩ := isRest
        have older := otherEarlier first (by simp [isOther]) firstCandidate
        have notNewer := later second (by simp) secondCandidate
        exact absurd older (Nat.not_lt.mpr notNewer)
  · cases between with
    | nil =>
        simp only [List.nil_append, List.cons.injEq] at isRest
        exact isRest.1.symm
    | cons middle rest =>
        simp only [List.cons_append, List.cons.injEq] at isRest
        obtain ⟨rfl, rfl⟩ := isRest
        have older := earlier second (by simp [isOther]) secondCandidate
        have notNewer := otherLater first (by simp) firstCandidate
        exact absurd older (Nat.not_lt.mpr notNewer)

theorem answerOf_some_ne_noAnswer (record : OwnershipRecord) :
    answerOf (some record) ≠ .noAnswer := by
  rw [answerOf]
  cases record.disposition <;> simp

/-- A still-true adoption names a living pid; only its start time is left to ask. -/
theorem adopterAlive_iff {record : OwnershipRecord}
    (isTrue : recordIsStillTrue table now record = true) :
    AdopterAlive table record ↔
      ∀ byPid byStartTime, record.disposition = .adopted byPid byStartTime →
        (table byPid).map ProcessStat.startTime = some byStartTime := by
  constructor
  · intro alive byPid byStartTime isAdopted
    obtain ⟨stat, isStat, _, started⟩ := alive byPid byStartTime isAdopted
    simp [isStat, started]
  · intro started byPid byStartTime isAdopted
    obtain ⟨stat, isStat, isStart⟩ :=
      Option.map_eq_some_iff.mp (started byPid byStartTime isAdopted)
    refine ⟨stat, isStat, ?_, isStart⟩
    simp only [recordIsStillTrue, isAdopted, processIsAlive, isStat, Bool.and_eq_true] at isTrue
    simpa using isTrue.2

theorem IsNewest.mem {key : SessionKind × SessionId} {ledger : Ledger} {record : OwnershipRecord}
    (newest : IsNewest table now key ledger record) : record ∈ ledger := by
  obtain ⟨_, before, after, rfl, _⟩ := newest
  simp

/-- Within the cap the answer is the right one, whatever the adopter has become. -/
theorem lookup_answer_spec {ledger : Ledger} (fits : encoder.size ledger ≤ ledgerMaxBytes)
    (kind : SessionKind) (sessionId : SessionId) :
    ((lookup encoder table now ledger kind sessionId).2 = .noAnswer ↔
        ∀ record ∈ ledger, ¬ IsCandidate table now (kind, sessionId) record) ∧
      ∀ record, IsNewest table now (kind, sessionId) ledger record →
        (lookup encoder table now ledger kind sessionId).2 = answerOf (some record) := by
  have isAnswer : (lookup encoder table now ledger kind sessionId).2 =
      answerOf (newestRecord table now (kind, sessionId) ledger) := by
    rw [lookup_answer fits, newestRecord_trueRecords]
  rw [isAnswer]
  rcases newestRecord_spec table now (kind, sessionId) ledger with
    ⟨isNone, absent⟩ | ⟨newest, isSome, isNewest⟩
  · rw [isNone]
    refine ⟨iff_of_true rfl absent, ?_⟩
    intro record isRecord
    exact absurd isRecord.1 (absent record isRecord.mem)
  · rw [isSome]
    refine ⟨iff_of_false (answerOf_some_ne_noAnswer newest) ?_, ?_⟩
    · intro absent
      exact absent newest isNewest.mem isNewest.1
    · intro record isRecord
      rw [isRecord.unique isNewest]

/-- A lookup tells the truth exactly when the ledger is within the cap (or had nothing to
say) and the newest true record, if it is an adoption, has the start time that its pid has now. -/
theorem trueAnswer_iff (encoder : Encoder) (table : ProcessTable) (now : Nat) (ledger : Ledger)
    (kind : SessionKind) (sessionId : SessionId) :
    TrueAnswer encoder table now ledger kind sessionId ↔
      (encoder.size ledger ≤ ledgerMaxBytes ∨
        ∀ record ∈ ledger, ¬ IsCandidate table now (kind, sessionId) record) ∧
      ∀ record, IsNewest table now (kind, sessionId) ledger record →
        ∀ byPid byStartTime, record.disposition = .adopted byPid byStartTime →
          (table byPid).map ProcessStat.startTime = some byStartTime := by
  constructor
  · intro ⟨noAnswer, newestAnswer⟩
    refine ⟨?_, ?_⟩
    · by_cases fits : encoder.size ledger ≤ ledgerMaxBytes
      · exact Or.inl fits
      · rw [lookup_over (Nat.lt_of_not_le fits)] at noAnswer
        exact Or.inr (noAnswer.mp rfl)
    · intro record newest
      exact (adopterAlive_iff newest.1.1).mp (newestAnswer record newest).2
  · intro ⟨within, started⟩
    have answers : ((lookup encoder table now ledger kind sessionId).2 = .noAnswer ↔
        ∀ record ∈ ledger, ¬ IsCandidate table now (kind, sessionId) record) ∧
      ∀ record, IsNewest table now (kind, sessionId) ledger record →
        (lookup encoder table now ledger kind sessionId).2 = answerOf (some record) := by
      by_cases fits : encoder.size ledger ≤ ledgerMaxBytes
      · exact lookup_answer_spec fits kind sessionId
      · have absent := within.resolve_left fits
        rw [lookup_over (Nat.lt_of_not_le fits)]
        refine ⟨iff_of_true rfl absent, ?_⟩
        intro record newest
        exact absurd newest.1 (absent record newest.mem)
    refine ⟨answers.1, ?_⟩
    intro record newest
    exact ⟨answers.2 record newest, (adopterAlive_iff newest.1.1).mpr (started record newest)⟩

/-- A process that was given the adopter's pid after it exited vouches for the session. -/
theorem trueAnswer_fails :
    ¬ ∀ encoder table now ledger kind sessionId,
      TrueAnswer encoder table now ledger kind sessionId := by
  intro truthful
  let adopted : OwnershipRecord :=
    { kind := .codex, sessionId := ['s'], runtimeKey := "row", disposition := .adopted 12 7,
      writtenAtMs := 0, writtenByPid := 10, fromVersion := "3.0.119" }
  let table : ProcessTable := fun pid => if pid = 12 then some ⟨'S', 8⟩ else none
  have newest : IsNewest table 1 (.codex, ['s']) [adopted] adopted :=
    ⟨⟨by decide, rfl⟩, [], [], rfl, by simp, by simp⟩
  have alive := ((truthful prettyEncoder table 1 [adopted] .codex ['s']).2 adopted newest).2
  obtain ⟨stat, isStat, _, started⟩ := alive 12 7 rfl
  obtain rfl : (⟨'S', 8⟩ : ProcessStat) = stat := by simpa [table] using isStat
  exact absurd started (by decide)

end

end Yggterm.Ownership
