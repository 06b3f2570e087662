import Mathlib.Algebra.Ring.Nat
import Mathlib.Data.Char
import Mathlib.Data.List.Lex
import Mathlib.Logic.Function.Basic
import Yggterm.Library.Runs

/-!
# Timestamps of the remote runtime

`yggterm-server/src/remote_runtime/registry.rs` keeps its instants as RFC 3339 texts
and lets the database compare them as texts.  The fraction of a second is written
without its trailing zeros, so the text of a later instant may stop earlier than,
or run on past, the text of another one, and the closing `Z` is then compared with
a digit or with the dot.
-/

namespace Yggterm.RemoteRuntime

open Runs

/-- Instants and durations are counted in nanoseconds. -/
def nanosPerSecond : Nat := 10 ^ 9

/-- The part of the time crate that writes the date and the time of day.  Years
outside 0000 to 9999 have no RFC 3339 text. -/
structure Calendar where
  dateTime : Nat → Option (List Char)
  width : ∀ {second : Nat} {text : List Char}, dateTime second = some text → text.length = 19
  increasing : ∀ {earlier later : Nat} {earlierText laterText : List Char}, earlier < later →
    dateTime earlier = some earlierText → dateTime later = some laterText →
    earlierText < laterText

/-- The digits of `value / 10 ^ width` after the point, without trailing zeros. -/
def fractionDigits : Nat → Nat → List Char
  | 0, _ => []
  | width + 1, value =>
      if value = 0 then []
      else Nat.digitChar (value / 10 ^ width) :: fractionDigits width (value % 10 ^ width)

def fraction (nanosecond : Nat) : List Char :=
  if nanosecond = 0 then [] else '.' :: fractionDigits 9 nanosecond

/-- The text of an instant up to the closing `Z`. -/
def stamp (calendar : Calendar) (instant : Nat) : Option (List Char) :=
  (calendar.dateTime (instant / nanosPerSecond)).map
    (· ++ fraction (instant % nanosPerSecond))

def formatTime (calendar : Calendar) (value : Nat) : Option (List Char) :=
  (stamp calendar value).map (· ++ ['Z'])

/-- The duration in nanoseconds that `TimeDuration::seconds` is given: whole seconds
only, and no more than an `i64` holds. -/
def durationToTime (value : Nat) : Nat :=
  min (value / nanosPerSecond) (2 ^ 63 - 1) * nanosPerSecond

/-! ## The order of two stamps -/

/-- Two stamps, the second of a later instant.  Either the first is cut short where
the second runs on, and the closing `Z` puts the later one first, or they part at
some letter, and the texts stand in the order of the instants. -/
def Compared (earlier later : List Char) : Prop :=
  (earlier <+: later ∧ later ++ ['Z'] < earlier ++ ['Z']) ∨
    ((¬ earlier <+: later ∧ ¬ later <+: earlier) ∧ earlier ++ ['Z'] < later ++ ['Z'])

theorem Compared.cons {earlier later : List Char} (compared : Compared earlier later)
    (letter : Char) : Compared (letter :: earlier) (letter :: later) := by
  rcases compared with ⟨shorter, order⟩ | ⟨⟨notShorter, notLonger⟩, order⟩
  · left
    exact ⟨(List.prefix_cons_inj letter).mpr shorter, List.Lex.cons order⟩
  · right
    refine ⟨⟨?_, ?_⟩, List.Lex.cons order⟩
    · exact fun shorter => notShorter ((List.prefix_cons_inj letter).mp shorter)
    · exact fun longer => notLonger ((List.prefix_cons_inj letter).mp longer)

theorem Compared.append_left {earlier later : List Char} (compared : Compared earlier later)
    (front : List Char) : Compared (front ++ earlier) (front ++ later) := by
  induction front with
  | nil => exact compared
  | cons letter rest inductionHypothesis => exact inductionHypothesis.cons letter

theorem compared_nil {letter : Char} (before : letter < 'Z') (rest : List Char) :
    Compared [] (letter :: rest) := by
  left
  exact ⟨List.nil_prefix, List.Lex.rel before⟩

theorem compared_of_lt {first second : Char} (before : first < second)
    (earlier later : List Char) : Compared (first :: earlier) (second :: later) := by
  right
  refine ⟨⟨?_, ?_⟩, List.Lex.rel before⟩
  · exact fun shorter => before.ne (List.cons_prefix_cons.mp shorter).1
  · exact fun longer => before.ne' (List.cons_prefix_cons.mp longer).1

/-- Texts of one length that differ part at some letter, whatever follows them. -/
theorem compared_append_of_lt {earlier later : List Char} (before : earlier < later)
    (sameLength : earlier.length = later.length) (earlierRest laterRest : List Char) :
    Compared (earlier ++ earlierRest) (later ++ laterRest) := by
  induction earlier generalizing later with
  | nil =>
      obtain rfl : later = [] := List.length_eq_zero_iff.mp sameLength.symm
      exact absurd before (lt_irrefl _)
  | cons first earlier inductionHypothesis =>
      cases later with
      | nil => simp at sameLength
      | cons second later =>
          rcases List.cons_lt_cons_iff.mp before with headBefore | ⟨rfl, restBefore⟩
          · exact compared_of_lt headBefore _ _
          · exact (inductionHypothesis restBefore (by simpa using sameLength)).cons first

theorem digitChar_lt_digitChar {first second : Nat} (before : first < second)
    (bounded : second < 10) : Nat.digitChar first < Nat.digitChar second := by
  revert first
  revert second
  decide

theorem digitChar_lt_closing {digit : Nat} (bounded : digit < 10) :
    Nat.digitChar digit < 'Z' := by
  revert digit
  decide

theorem mod_lt_mod_of_div_eq {earlier later unit : Nat} (before : earlier < later)
    (sameUnit : earlier / unit = later / unit) : earlier % unit < later % unit := by
  have earlierParts := Nat.div_add_mod earlier unit
  have laterParts := Nat.div_add_mod later unit
  rw [sameUnit] at earlierParts
  omega

theorem compared_fractionDigits {width earlier later : Nat} (before : earlier < later)
    (bounded : later < 10 ^ width) :
    Compared (fractionDigits width earlier) (fractionDigits width later) := by
  induction width generalizing earlier later with
  | zero => simp at bounded; omega
  | succ width inductionHypothesis =>
      have positive : 0 < 10 ^ width := Nat.pow_pos (by decide)
      have laterDigit : later / 10 ^ width < 10 := by
        apply Nat.div_lt_of_lt_mul
        rwa [← Nat.pow_succ]
      have laterNonzero : later ≠ 0 := by omega
      simp only [fractionDigits, laterNonzero, if_false]
      by_cases earlierZero : earlier = 0
      · rw [if_pos earlierZero]
        exact compared_nil (digitChar_lt_closing laterDigit) _
      · rw [if_neg earlierZero]
        have digits := Nat.div_le_div_right (c := 10 ^ width) before.le
        rcases digits.lt_or_eq with digitBefore | sameDigit
        · exact compared_of_lt (digitChar_lt_digitChar digitBefore laterDigit) _ _
        · rw [sameDigit]
          apply Compared.cons
          exact inductionHypothesis (mod_lt_mod_of_div_eq before sameDigit)
            (Nat.mod_lt later positive)

theorem compared_fraction {earlier later : Nat} (before : earlier < later)
    (bounded : later < nanosPerSecond) : Compared (fraction earlier) (fraction later) := by
  have laterNonzero : later ≠ 0 := by omega
  simp only [fraction, laterNonzero, if_false]
  by_cases earlierZero : earlier = 0
  · rw [if_pos earlierZero]
    exact compared_nil (by decide) _
  · rw [if_neg earlierZero]
    exact (compared_fractionDigits before bounded).cons '.'

/-- The stamps of two instants, whatever their seconds and fractions. -/
theorem compared_stamp {calendar : Calendar} {earlier later : Nat}
    {earlierStamp laterStamp : List Char} (before : earlier < later)
    (earlierStamped : stamp calendar earlier = some earlierStamp)
    (laterStamped : stamp calendar later = some laterStamp) :
    Compared earlierStamp laterStamp := by
  obtain ⟨earlierDate, earlierFormatted, rfl⟩ := Option.map_eq_some_iff.mp earlierStamped
  obtain ⟨laterDate, laterFormatted, rfl⟩ := Option.map_eq_some_iff.mp laterStamped
  have seconds := Nat.div_le_div_right (c := nanosPerSecond) before.le
  rcases seconds.lt_or_eq with secondBefore | sameSecond
  · apply compared_append_of_lt (calendar.increasing secondBefore earlierFormatted laterFormatted)
    rw [calendar.width earlierFormatted, calendar.width laterFormatted]
  · rw [sameSecond, laterFormatted] at earlierFormatted
    obtain rfl := Option.some.inj earlierFormatted
    apply Compared.append_left
    exact compared_fraction (mod_lt_mod_of_div_eq before sameSecond)
      (Nat.mod_lt later (by decide))

/-! ## When texts are read in the order of the instants -/

/-- One text, its closing `Z` apart, is a cut of the other and they are not the same:
the same second, with a fraction that goes on where the other's stops. -/
def CutShort (first second : List Char) : Prop :=
  first ≠ second ∧ (first.dropLast <+: second.dropLast ∨ second.dropLast <+: first.dropLast)

instance (first second : List Char) : Decidable (CutShort first second) :=
  inferInstanceAs (Decidable (_ ∧ _))

theorem formatTime_lt {calendar : Calendar} {earlier later : Nat}
    {earlierText laterText : List Char} (before : earlier < later)
    (earlierFormatted : formatTime calendar earlier = some earlierText)
    (laterFormatted : formatTime calendar later = some laterText) :
    (CutShort earlierText laterText ∧ laterText < earlierText) ∨
      (¬ CutShort earlierText laterText ∧ earlierText < laterText) := by
  obtain ⟨earlierStamp, earlierStamped, rfl⟩ := Option.map_eq_some_iff.mp earlierFormatted
  obtain ⟨laterStamp, laterStamped, rfl⟩ := Option.map_eq_some_iff.mp laterFormatted
  simp only [CutShort, List.dropLast_concat]
  rcases compared_stamp before earlierStamped laterStamped with
    ⟨shorter, order⟩ | ⟨⟨notShorter, notLonger⟩, order⟩
  · left
    exact ⟨⟨order.ne', Or.inl shorter⟩, order⟩
  · right
    refine ⟨?_, order⟩
    rintro ⟨_, shorter | longer⟩
    · exact notShorter shorter
    · exact notLonger longer

theorem cutShort_comm {first second : List Char} :
    CutShort first second ↔ CutShort second first := by
  unfold CutShort
  rw [ne_comm, or_comm]

/-- Two formatted instants are compared as instants exactly when neither text is a
cut of the other. -/
theorem formatTime_le_iff {calendar : Calendar} {first second : Nat}
    {firstText secondText : List Char}
    (firstFormatted : formatTime calendar first = some firstText)
    (secondFormatted : formatTime calendar second = some secondText) :
    (firstText ≤ secondText ↔ first ≤ second) ↔ ¬ CutShort firstText secondText := by
  rcases lt_trichotomy first second with before | rfl | after
  · rcases formatTime_lt before firstFormatted secondFormatted with ⟨cut, order⟩ | ⟨whole, order⟩
    · simp [cut, before.le, order.not_ge]
    · simp [whole, before.le, order.le]
  · rw [firstFormatted] at secondFormatted
    obtain rfl := Option.some.inj secondFormatted
    simp [CutShort]
  · rcases formatTime_lt after secondFormatted firstFormatted with ⟨cut, order⟩ | ⟨whole, order⟩
    · simp [cutShort_comm.mp cut, after.not_ge, order.le]
    · simp [mt cutShort_comm.mp whole, after.not_ge, order.not_ge]

/-! ## The writer lease of a runtime session

A session row of `yggterm-server/src/remote_runtime/registry.rs` carries at most one
writer lease.  A run records beside the registry what the clients were told: the
leases they hold, with their expiry as an instant, and for every answered acquire
whether another client's lease was unexpired then. -/

structure RemoteWriterLease where
  leaseId : String
  clientId : String
  acquiredAt : List Char
  expiresAt : List Char
  deriving DecidableEq

/-- The writer columns of every registered session; they are set and cleared together. -/
abbrev Registry := String → Option (Option RemoteWriterLease)

inductive RegistryError where
  | formattingTimestamp
  | activeWriterLease (sessionId : String)
  deriving DecidableEq

def RegistryError.message : RegistryError → String
  | .formattingTimestamp => "formatting runtime timestamp"
  | .activeWriterLease sessionId => s!"session {sessionId} already has an active writer lease"

/-- The condition under which the update takes a row of the session. -/
def leaseIsFree (columns : Option RemoteWriterLease) (clientId : String) (now : List Char) : Bool :=
  match columns with
  | none => true
  | some lease => decide (lease.expiresAt ≤ now) || lease.clientId == clientId

def acquireWriterLease (calendar : Calendar) (registry : Registry)
    (sessionId clientId leaseId : String) (acquiredAt ttl : Nat) :
    Registry × Except RegistryError RemoteWriterLease :=
  match formatTime calendar acquiredAt,
      formatTime calendar (acquiredAt + durationToTime ttl) with
  | some now, some expiresAt =>
      match registry sessionId with
      | some columns =>
          if leaseIsFree columns clientId now then
            let lease : RemoteWriterLease := ⟨leaseId, clientId, now, expiresAt⟩
            (Function.update registry sessionId (some (some lease)), .ok lease)
          else (registry, .error (.activeWriterLease sessionId))
      | none => (registry, .error (.activeWriterLease sessionId))
  | _, _ => (registry, .error .formattingTimestamp)

def releaseWriterLease (calendar : Calendar) (registry : Registry)
    (sessionId leaseId : String) (instant : Nat) : Registry × Except RegistryError Bool :=
  match formatTime calendar instant with
  | none => (registry, .error .formattingTimestamp)
  | some _ =>
      match registry sessionId with
      | some (some lease) =>
          if lease.leaseId = leaseId then
            (Function.update registry sessionId (some none), .ok true)
          else (registry, .ok false)
      | _ => (registry, .ok false)

/-! ### Runs, with what the clients were told -/

/-- A lease a client was told it holds. -/
structure Holding where
  sessionId : String
  clientId : String
  leaseId : String
  expires : Nat
  deriving DecidableEq

/-- The answer to an acquire, and whether another client's lease was unexpired then. -/
structure Answer where
  refused : Bool
  heldByAnother : Bool
  deriving DecidableEq

structure State where
  clock : Nat
  registry : Registry
  holdings : List Holding
  answers : List Answer

/-- A call, made `elapsed` nanoseconds after the one before it. -/
inductive Action where
  | acquire (sessionId clientId leaseId : String) (ttl elapsed : Nat)
  | release (sessionId leaseId : String) (elapsed : Nat)

def heldByAnother (holdings : List Holding) (sessionId clientId : String) (instant : Nat) : Bool :=
  holdings.any fun holding =>
    decide (holding.sessionId = sessionId ∧ holding.clientId ≠ clientId ∧
      instant < holding.expires)

/-- A client that acquires again holds its new lease in place of the old one. -/
def withHolding (holdings : List Holding) (taken : Holding) : List Holding :=
  taken :: holdings.filter fun holding =>
    decide (¬ (holding.sessionId = taken.sessionId ∧ holding.clientId = taken.clientId))

def withoutHolding (holdings : List Holding) (sessionId leaseId : String) : List Holding :=
  holdings.filter fun holding =>
    decide (¬ (holding.sessionId = sessionId ∧ holding.leaseId = leaseId))

/-- A session that is not registered has no lease to ask for; the answer to such an
acquire is not recorded. -/
def step (calendar : Calendar) (state : State) : Action → State
  | .acquire sessionId clientId leaseId ttl elapsed =>
      let instant := state.clock + elapsed
      let held := heldByAnother state.holdings sessionId clientId instant
      match acquireWriterLease calendar state.registry sessionId clientId leaseId instant ttl with
      | (registry, .ok lease) =>
          { clock := instant
            registry := registry
            holdings := withHolding state.holdings
              ⟨sessionId, clientId, lease.leaseId, instant + durationToTime ttl⟩
            answers := ⟨false, held⟩ :: state.answers }
      | (registry, .error (.activeWriterLease _)) =>
          { state with
            clock := instant
            registry := registry
            answers := if (state.registry sessionId).isSome then ⟨true, held⟩ :: state.answers
              else state.answers }
      | (registry, .error .formattingTimestamp) =>
          { state with clock := instant, registry := registry }
  | .release sessionId leaseId elapsed =>
      let instant := state.clock + elapsed
      match releaseWriterLease calendar state.registry sessionId leaseId instant with
      | (registry, .ok true) =>
          { state with
            clock := instant
            registry := registry
            holdings := withoutHolding state.holdings sessionId leaseId }
      | (registry, _) => { state with clock := instant, registry := registry }

/-- No lease is held yet on any registered session. -/
def start (registered : List String) (clock : Nat) : State where
  clock := clock
  registry sessionId := if sessionId ∈ registered then some none else none
  holdings := []
  answers := []

/-- No two clients hold unexpired leases of one session. -/
def Exclusive (state : State) : Prop :=
  ∀ first ∈ state.holdings, ∀ second ∈ state.holdings, first.sessionId = second.sessionId →
    first.clientId ≠ second.clientId →
    ¬ (state.clock < first.expires ∧ state.clock < second.expires)

/-- Every acquire so far was refused exactly when another client's lease was unexpired. -/
def AnsweredInTime (state : State) : Prop :=
  ∀ answer ∈ state.answers, answer.refused = answer.heldByAnother

def SingleWriter (state : State) : Prop :=
  Exclusive state ∧ AnsweredInTime state

/-- An acquire against another client's lease reads that lease's expiry in the order of
the instants: the two texts are the same, or neither is the other cut short. -/
def ReadsExpiry (calendar : Calendar) (state : State) : Action → Prop
  | .acquire sessionId clientId _ ttl elapsed =>
      ∀ lease now expiresAt, state.registry sessionId = some (some lease) →
        lease.clientId ≠ clientId →
        formatTime calendar (state.clock + elapsed) = some now →
        formatTime calendar (state.clock + elapsed + durationToTime ttl) = some expiresAt →
        ¬ CutShort lease.expiresAt now
  | .release _ _ _ => True

end Yggterm.RemoteRuntime
