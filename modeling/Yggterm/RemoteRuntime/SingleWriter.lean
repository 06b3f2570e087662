import Yggterm.RemoteRuntime.Lease

/-!
# At most one writer

Whatever the texts of the instants, the lease in a session's row is one that its client
was told of.  As long as every acquire was answered in time, all other leases of the
session are past their expiry, so the row decides who may write.  What is left is the
comparison of two texts, which `ReadsExpiry` settles step by step.
-/

namespace Yggterm.RemoteRuntime

open Runs

section SingleWriter

variable {calendar : Calendar} {state : State}

/-! ## What a step does -/

/-- The three outcomes of an acquire: no answer that counts, a lease, a refusal. -/
theorem step_acquire_cases (calendar : Calendar) (state : State)
    (sessionId clientId leaseId : String) (ttl elapsed : Nat) :
    let instant := state.clock + elapsed
    let expires := instant + durationToTime ttl
    let held := heldByAnother state.holdings sessionId clientId instant
    let next := step calendar state (.acquire sessionId clientId leaseId ttl elapsed)
    ((formatTime calendar instant = none ∨ formatTime calendar expires = none ∨
          state.registry sessionId = none) ∧ next = { state with clock := instant }) ∨
      ∃ columns now expiresAt, state.registry sessionId = some columns ∧
        formatTime calendar instant = some now ∧ formatTime calendar expires = some expiresAt ∧
        ((leaseIsFree columns clientId now = true ∧ next =
            { clock := instant
              registry := Function.update state.registry sessionId
                (some (some ⟨leaseId, clientId, now, expiresAt⟩))
              holdings := withHolding state.holdings ⟨sessionId, clientId, leaseId, expires⟩
              answers := ⟨false, held⟩ :: state.answers }) ∨
          (leaseIsFree columns clientId now = false ∧ next =
            { state with clock := instant, answers := ⟨true, held⟩ :: state.answers })) := by
  intro instant expires held next
  cases nowFormatted : formatTime calendar instant with
  | none =>
      left
      simp [next, step, acquireWriterLease, instant, nowFormatted]
  | some now =>
      cases expiresFormatted : formatTime calendar expires with
      | none =>
          left
          simp [next, step, acquireWriterLease, instant, nowFormatted, expires, expiresFormatted]
      | some expiresAt =>
          cases row : state.registry sessionId with
          | none =>
              left
              simp [next, step, acquireWriterLease, instant, nowFormatted, expires,
                expiresFormatted, row]
          | some columns =>
              right
              refine ⟨columns, now, expiresAt, rfl, rfl, rfl, ?_⟩
              cases free : leaseIsFree columns clientId now with
              | true =>
                  left
                  simp [next, step, acquireWriterLease, instant, nowFormatted, expires,
                    expiresFormatted, row, free, held]
              | false =>
                  right
                  simp [next, step, acquireWriterLease, instant, nowFormatted, expires,
                    expiresFormatted, row, free, held]

theorem step_release_cases (calendar : Calendar) (state : State) (sessionId leaseId : String)
    (elapsed : Nat) :
    let instant := state.clock + elapsed
    let next := step calendar state (.release sessionId leaseId elapsed)
    next = { state with clock := instant } ∨
      ∃ lease, state.registry sessionId = some (some lease) ∧ lease.leaseId = leaseId ∧ next =
        { state with
          clock := instant
          registry := Function.update state.registry sessionId (some none)
          holdings := withoutHolding state.holdings sessionId leaseId } := by
  intro instant next
  cases nowFormatted : formatTime calendar instant with
  | none =>
      left
      simp [next, step, releaseWriterLease, instant, nowFormatted]
  | some now =>
      rcases row : state.registry sessionId with _ | _ | lease
      · left
        simp [next, step, releaseWriterLease, instant, nowFormatted, row]
      · left
        simp [next, step, releaseWriterLease, instant, nowFormatted, row]
      · by_cases same : lease.leaseId = leaseId
        · right
          refine ⟨lease, rfl, same, ?_⟩
          simp [next, step, releaseWriterLease, instant, nowFormatted, row, same]
        · left
          simp [next, step, releaseWriterLease, instant, nowFormatted, row, same]

/-! ## The invariant -/

/-- The holding is the lease in its session's row. -/
def Standing (calendar : Calendar) (registry : Registry) (holding : Holding) : Prop :=
  ∃ lease, registry holding.sessionId = some (some lease) ∧ lease.leaseId = holding.leaseId ∧
    lease.clientId = holding.clientId ∧
    formatTime calendar holding.expires = some lease.expiresAt

structure Told (calendar : Calendar) (state : State) : Prop where
  rowHeld : ∀ sessionId lease, state.registry sessionId = some (some lease) →
    ∃ holding ∈ state.holdings, holding.sessionId = sessionId ∧
      Standing calendar state.registry holding
  othersExpired : AnsweredInTime state → ∀ holding ∈ state.holdings,
    holding.expires ≤ state.clock ∨ Standing calendar state.registry holding

theorem row_unique {registry : Registry} {sessionId : String} {first second : RemoteWriterLease}
    (firstRow : registry sessionId = some (some first))
    (secondRow : registry sessionId = some (some second)) : first = second :=
  Option.some.inj (Option.some.inj (firstRow.symm.trans secondRow))

theorem standing_update_of_ne {registry : Registry} {holding : Holding} {sessionId : String}
    {columns : Option (Option RemoteWriterLease)} (other : holding.sessionId ≠ sessionId) :
    Standing calendar (Function.update registry sessionId columns) holding ↔
      Standing calendar registry holding := by
  simp only [Standing, Function.update_of_ne other]

theorem heldByAnother_eq_false {holdings : List Holding} {sessionId clientId : String}
    {instant : Nat} :
    heldByAnother holdings sessionId clientId instant = false ↔
      ∀ holding ∈ holdings, holding.sessionId = sessionId → holding.clientId ≠ clientId →
        holding.expires ≤ instant := by
  simp [heldByAnother]

theorem answeredInTime_cons {clock : Nat} {registry : Registry} {holdings : List Holding}
    {answer : Answer} {answers : List Answer} :
    AnsweredInTime ⟨clock, registry, holdings, answer :: answers⟩ ↔
      answer.refused = answer.heldByAnother ∧
        AnsweredInTime ⟨clock, registry, holdings, answers⟩ := by
  simp [AnsweredInTime]

theorem told_advance (told : Told calendar state) {instant : Nat} (later : state.clock ≤ instant)
    {answers : List Answer}
    (answeredBefore : AnsweredInTime { state with clock := instant, answers := answers } →
      AnsweredInTime state) :
    Told calendar { state with clock := instant, answers := answers } := by
  refine ⟨told.rowHeld, ?_⟩
  intro answered holding member
  rcases told.othersExpired (answeredBefore answered) holding member with expired | standing
  · exact Or.inl (expired.trans later)
  · exact Or.inr standing

theorem told_acquire (told : Told calendar state) {instant : Nat} (later : state.clock ≤ instant)
    (taken : Holding) {now expiresAt : List Char}
    (formatted : formatTime calendar taken.expires = some expiresAt) :
    Told calendar
      { clock := instant
        registry := Function.update state.registry taken.sessionId
          (some (some ⟨taken.leaseId, taken.clientId, now, expiresAt⟩))
        holdings := withHolding state.holdings taken
        answers := ⟨false, heldByAnother state.holdings taken.sessionId taken.clientId instant⟩ ::
          state.answers } := by
  have takenStands : Standing calendar (Function.update state.registry taken.sessionId
      (some (some ⟨taken.leaseId, taken.clientId, now, expiresAt⟩))) taken := by
    refine ⟨_, Function.update_self .., rfl, rfl, formatted⟩
  constructor
  · intro sessionId lease row
    by_cases same : sessionId = taken.sessionId
    · exact ⟨taken, List.mem_cons_self, same.symm, takenStands⟩
    · obtain ⟨holding, member, rfl, standing⟩ :=
        told.rowHeld sessionId lease ((Function.update_of_ne same ..).symm.trans row)
      refine ⟨holding, ?_, rfl, (standing_update_of_ne same).mpr standing⟩
      simp [withHolding, member, same]
  · intro answered holding member
    obtain ⟨notHeld, answeredBefore⟩ := answeredInTime_cons.mp answered
    rcases List.mem_cons.mp member with rfl | kept
    · exact Or.inr takenStands
    · obtain ⟨before, another⟩ := List.mem_filter.mp kept
      by_cases same : holding.sessionId = taken.sessionId
      -- The answer was in time, so nobody else's lease of this session is unexpired.
      · left
        apply heldByAnother_eq_false.mp notHeld.symm holding before same
        intro sameClient
        exact (of_decide_eq_true another) ⟨same, sameClient⟩
      · rcases told.othersExpired answeredBefore holding before with expired | standing
        · exact Or.inl (expired.trans later)
        · exact Or.inr ((standing_update_of_ne same).mpr standing)

theorem told_release (told : Told calendar state) {instant : Nat} (later : state.clock ≤ instant)
    {sessionId : String} {lease : RemoteWriterLease}
    (row : state.registry sessionId = some (some lease)) :
    Told calendar
      { state with
        clock := instant
        registry := Function.update state.registry sessionId (some none)
        holdings := withoutHolding state.holdings sessionId lease.leaseId } := by
  constructor
  · intro otherSession otherLease otherRow
    by_cases same : otherSession = sessionId
    · subst same
      simp at otherRow
    · obtain ⟨holding, member, rfl, standing⟩ :=
        told.rowHeld otherSession otherLease ((Function.update_of_ne same ..).symm.trans otherRow)
      refine ⟨holding, ?_, rfl, (standing_update_of_ne same).mpr standing⟩
      simp [withoutHolding, member, same]
  · intro answered holding member
    obtain ⟨before, another⟩ := List.mem_filter.mp member
    rcases told.othersExpired answered holding before with expired | standing
    · exact Or.inl (expired.trans later)
    · right
      apply (standing_update_of_ne _).mpr standing
      intro same
      obtain ⟨standingLease, standingRow, sameId, _⟩ := standing
      obtain rfl := row_unique row (same ▸ standingRow)
      exact (of_decide_eq_true another) ⟨same, sameId.symm⟩

theorem told_step (calendar : Calendar) (state : State) (action : Action)
    (told : Told calendar state) :
    Told calendar (step calendar state action) := by
  cases action with
  | acquire sessionId clientId leaseId ttl elapsed =>
      have later := Nat.le_add_right state.clock elapsed
      rcases step_acquire_cases calendar state sessionId clientId leaseId ttl elapsed with
        ⟨_, next⟩ | ⟨columns, now, expiresAt, _, _, expiresFormatted, ⟨_, next⟩ | ⟨_, next⟩⟩
      · rw [next]
        exact told_advance told later id
      · rw [next]
        exact told_acquire told later ⟨sessionId, clientId, leaseId, _⟩ expiresFormatted
      · rw [next]
        exact told_advance told later fun answered => (answeredInTime_cons.mp answered).2
  | release sessionId leaseId elapsed =>
      have later := Nat.le_add_right state.clock elapsed
      rcases step_release_cases calendar state sessionId leaseId elapsed with
        next | ⟨lease, row, rfl, next⟩
      · rw [next]
        exact told_advance told later id
      · rw [next]
        exact told_release told later row

theorem told_start (calendar : Calendar) (registered : List String) (clock : Nat) :
    Told calendar (start registered clock) := by
  constructor
  · intro sessionId lease row
    simp only [start] at row
    split at row <;> simp at row
  · intro _ holding member
    simp [start] at member

/-- Answers in time leave at most one unexpired lease of a session. -/
theorem exclusive_of_answeredInTime (told : Told calendar state)
    (answered : AnsweredInTime state) : Exclusive state := by
  rintro first firstMember second secondMember sameSession otherClient ⟨firstHeld, secondHeld⟩
  rcases told.othersExpired answered first firstMember with
    expired | ⟨firstLease, firstRow, _, firstClient, _⟩
  · omega
  rcases told.othersExpired answered second secondMember with
    expired | ⟨secondLease, secondRow, _, secondClient, _⟩
  · omega
  obtain rfl := row_unique (sameSession ▸ firstRow) secondRow
  exact otherClient (firstClient.symm.trans secondClient)

theorem singleWriter_iff (told : Told calendar state) :
    SingleWriter state ↔ AnsweredInTime state :=
  ⟨And.right, fun answered => ⟨exclusive_of_answeredInTime told answered, answered⟩⟩

/-! ## Which steps answer in time -/

theorem formatTime_injective {first second : Nat} {text : List Char}
    (firstFormatted : formatTime calendar first = some text)
    (secondFormatted : formatTime calendar second = some text) : first = second := by
  rcases lt_trichotomy first second with before | same | after
  · rcases formatTime_lt before firstFormatted secondFormatted with ⟨_, order⟩ | ⟨_, order⟩ <;>
      exact absurd order (lt_irrefl text)
  · exact same
  · rcases formatTime_lt after secondFormatted firstFormatted with ⟨_, order⟩ | ⟨_, order⟩ <;>
      exact absurd order (lt_irrefl text)

/-- With every answer so far in time, another client's unexpired lease is the one in the
session's row. -/
theorem heldByAnother_iff_standing (told : Told calendar state) (answered : AnsweredInTime state)
    (sessionId clientId : String) {instant : Nat} (later : state.clock ≤ instant) :
    heldByAnother state.holdings sessionId clientId instant = true ↔
      ∃ lease, state.registry sessionId = some (some lease) ∧ lease.clientId ≠ clientId ∧
        ∃ expires, formatTime calendar expires = some lease.expiresAt ∧ instant < expires := by
  constructor
  · intro held
    obtain ⟨holding, member, found⟩ := List.any_eq_true.mp held
    obtain ⟨rfl, another, unexpired⟩ := of_decide_eq_true found
    rcases told.othersExpired answered holding member with
      expired | ⟨lease, row, _, client, formatted⟩
    · omega
    · exact ⟨lease, row, client ▸ another, holding.expires, formatted, unexpired⟩
  · rintro ⟨lease, row, another, expires, formatted, unexpired⟩
    obtain ⟨holding, member, rfl, standingLease, standingRow, _, client, standingFormatted⟩ :=
      told.rowHeld sessionId lease row
    obtain rfl := row_unique row standingRow
    obtain rfl := formatTime_injective standingFormatted formatted
    apply List.any_eq_true.mpr
    exact ⟨holding, member, decide_eq_true ⟨rfl, client ▸ another, unexpired⟩⟩

theorem not_heldByAnother_of_own (told : Told calendar state) (answered : AnsweredInTime state)
    {sessionId : String} (clientId : String) {instant : Nat} (later : state.clock ≤ instant)
    (own : ∀ lease, state.registry sessionId = some (some lease) → lease.clientId = clientId) :
    heldByAnother state.holdings sessionId clientId instant = false := by
  apply Bool.eq_false_iff.mpr
  intro held
  obtain ⟨lease, row, another, _⟩ :=
    (heldByAnother_iff_standing told answered sessionId clientId later).mp held
  exact another (own lease row)

/-- Another client's lease in the row is the one that decides. -/
theorem heldByAnother_iff_unexpired (told : Told calendar state) (answered : AnsweredInTime state)
    {sessionId clientId : String} {instant expires : Nat} (later : state.clock ≤ instant)
    {lease : RemoteWriterLease} (row : state.registry sessionId = some (some lease))
    (another : lease.clientId ≠ clientId)
    (formatted : formatTime calendar expires = some lease.expiresAt) :
    heldByAnother state.holdings sessionId clientId instant = true ↔ ¬ expires ≤ instant := by
  rw [heldByAnother_iff_standing told answered sessionId clientId later, not_le]
  constructor
  · rintro ⟨otherLease, otherRow, _, otherExpires, otherFormatted, unexpired⟩
    obtain rfl := row_unique row otherRow
    rwa [formatTime_injective formatted otherFormatted]
  · intro unexpired
    exact ⟨lease, row, another, expires, formatted, unexpired⟩

/-- The answer to an acquire is in time exactly when the row's expiry is read in the
order of the instants. -/
theorem refused_eq_held_iff (told : Told calendar state) (answered : AnsweredInTime state)
    {sessionId : String} (clientId : String) {instant : Nat} (later : state.clock ≤ instant)
    {columns : Option RemoteWriterLease} {now : List Char}
    (row : state.registry sessionId = some columns)
    (nowFormatted : formatTime calendar instant = some now) :
    ((!leaseIsFree columns clientId now) =
        heldByAnother state.holdings sessionId clientId instant) ↔
      ∀ lease, columns = some lease → lease.clientId ≠ clientId →
        ¬ CutShort lease.expiresAt now := by
  cases columns with
  | none =>
      have notHeld : heldByAnother state.holdings sessionId clientId instant = false := by
        apply not_heldByAnother_of_own told answered clientId later
        intro lease leaseRow
        simp [row] at leaseRow
      simp [leaseIsFree, notHeld]
  | some lease =>
      by_cases same : lease.clientId = clientId
      · have notHeld : heldByAnother state.holdings sessionId clientId instant = false := by
          apply not_heldByAnother_of_own told answered clientId later
          intro otherLease otherRow
          exact row_unique row otherRow ▸ same
        simp [leaseIsFree, same, notHeld]
      · obtain ⟨holding, _, rfl, standingLease, standingRow, _, _, formatted⟩ :=
          told.rowHeld sessionId lease row
        obtain rfl := row_unique row standingRow
        have held := heldByAnother_iff_unexpired told answered later row same formatted
        have free : leaseIsFree (some lease) clientId now = decide (lease.expiresAt ≤ now) := by
          simp [leaseIsFree, same]
        rw [free, Bool.eq_iff_iff, held, Bool.not_eq_true', decide_eq_false_iff_not, not_iff_not,
          formatTime_le_iff formatted nowFormatted]
        constructor
        · intro whole otherLease sameLease _
          obtain rfl := Option.some.inj sameLease
          exact whole
        · intro whole
          exact whole lease rfl same

theorem step_answeredInTime_iff (told : Told calendar state) (answered : AnsweredInTime state)
    (action : Action) :
    AnsweredInTime (step calendar state action) ↔ ReadsExpiry calendar state action := by
  cases action with
  | release sessionId leaseId elapsed =>
      rcases step_release_cases calendar state sessionId leaseId elapsed with
        next | ⟨lease, _, _, next⟩
      · rw [next]
        exact ⟨fun _ => trivial, fun _ => answered⟩
      · rw [next]
        exact ⟨fun _ => trivial, fun _ => answered⟩
  | acquire sessionId clientId leaseId ttl elapsed =>
      have later := Nat.le_add_right state.clock elapsed
      rcases step_acquire_cases calendar state sessionId clientId leaseId ttl elapsed with
        ⟨unanswered, next⟩ | ⟨columns, now, expiresAt, row, nowFormatted, expiresFormatted, taken⟩
      · rw [next]
        refine ⟨fun _ => ?_, fun _ => answered⟩
        intro lease now expiresAt leaseRow _ nowFormatted expiresFormatted
        rcases unanswered with noNow | noExpires | noRow
        · rw [nowFormatted] at noNow
          simp at noNow
        · rw [expiresFormatted] at noExpires
          simp at noExpires
        · rw [leaseRow] at noRow
          simp at noRow
      · have inTime := refused_eq_held_iff told answered clientId later row nowFormatted
        have reads : ReadsExpiry calendar state (.acquire sessionId clientId leaseId ttl elapsed) ↔
            ∀ lease, columns = some lease → lease.clientId ≠ clientId →
              ¬ CutShort lease.expiresAt now := by
          constructor
          · intro reads lease taken another
            exact reads lease now expiresAt (taken ▸ row) another nowFormatted expiresFormatted
          · intro whole lease otherNow _ leaseRow another otherFormatted _
            obtain rfl := Option.some.inj (nowFormatted.symm.trans otherFormatted)
            exact whole lease (Option.some.inj (row.symm.trans leaseRow)) another
        rw [reads, ← inTime]
        rcases taken with ⟨free, next⟩ | ⟨taken, next⟩
        · rw [next, answeredInTime_cons, free]
          exact ⟨And.left, fun agrees => ⟨agrees, answered⟩⟩
        · rw [next, answeredInTime_cons, taken]
          exact ⟨And.left, fun agrees => ⟨agrees, answered⟩⟩

end SingleWriter

/-! ## A lease taken while it runs -/

/-- The first minute of the calendar, as the time crate writes it. -/
def firstMinute : Calendar where
  dateTime second :=
    if second < 60 then
      some ("1970-01-01T00:00:".toList ++
        [Nat.digitChar (second / 10), Nat.digitChar (second % 10)])
    else none
  width := by
    intro second text formatted
    obtain ⟨_, written⟩ := Option.ite_none_right_eq_some.mp formatted
    obtain rfl := Option.some.inj written
    rfl
  increasing := by
    intro earlier later earlierText laterText before earlierFormatted laterFormatted
    obtain ⟨_, earlierWritten⟩ := Option.ite_none_right_eq_some.mp earlierFormatted
    obtain ⟨laterBound, laterWritten⟩ := Option.ite_none_right_eq_some.mp laterFormatted
    obtain rfl := Option.some.inj earlierWritten
    obtain rfl := Option.some.inj laterWritten
    apply List.append_left_lt
    rcases (Nat.div_le_div_right (c := 10) before.le).lt_or_eq with tensBefore | sameTens
    · exact List.Lex.rel (digitChar_lt_digitChar tensBefore (by omega))
    · rw [sameTens]
      exact List.Lex.cons (List.Lex.rel (digitChar_lt_digitChar (by omega) (by omega)))

/-- A lease until 10.51 s is given away at 10.5 s: its text goes on with a digit where the
other one closes. -/
def givenAway : List Action :=
  [.acquire "session-a" "client-a" "lease-a" 10000000000 0,
    .acquire "session-a" "client-b" "lease-b" 10000000000 9990000000]

end Yggterm.RemoteRuntime
