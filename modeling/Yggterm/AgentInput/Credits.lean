import Mathlib.Data.List.DropRight
import Yggterm.AgentInput.Preemption

/-!
# Credits for injected events

An event the engine injects may be seen by the observer after its delivery, so each one grants a
credit, and a gesture that finds a credit passes for an injected event.  Every gesture lost that way
has a credit of its own, of an action that landed on the surface since the last check and less than
the credit's life ago.
-/

namespace Yggterm.AgentInput

open Runs

/-! ## The history since the last check -/

variable {nativeId : Nat} {history : List Event} {event : Event}

def Event.checks (nativeId : Nat) : Event → Bool
  | .check other _ => other = nativeId
  | _ => false

/-- The credits the event granted, by their times. -/
def Event.granted (nativeId : Nat) : Event → List Nat
  | .inject other _ now events => if other = nativeId then List.replicate events now else []
  | _ => []

/-- A gesture of the human that passed for an injected event. -/
def Event.swallowed (nativeId : Nat) : Event → Bool
  | .gesture other _ counted => other = nativeId && !counted
  | _ => false

def sinceCheck (nativeId : Nat) (history : List Event) : List Event :=
  history.rtakeWhile fun event => !event.checks nativeId

def grantedSince (nativeId : Nat) (history : List Event) : List Nat :=
  (sinceCheck nativeId history).flatMap (Event.granted nativeId)

def swallowedSince (nativeId : Nat) (history : List Event) : Nat :=
  (sinceCheck nativeId history).countP (Event.swallowed nativeId)

theorem sinceCheck_check (checked : event.checks nativeId = true) :
    sinceCheck nativeId (history ++ [event]) = [] := by
  simp [sinceCheck, checked]

theorem sinceCheck_append (unchecked : event.checks nativeId = false) :
    sinceCheck nativeId (history ++ [event]) = sinceCheck nativeId history ++ [event] := by
  simp [sinceCheck, unchecked]

theorem grantedSince_append (unchecked : event.checks nativeId = false) :
    grantedSince nativeId (history ++ [event]) =
      grantedSince nativeId history ++ event.granted nativeId := by
  simp [grantedSince, sinceCheck_append unchecked]

theorem swallowedSince_append (unchecked : event.checks nativeId = false) :
    swallowedSince nativeId (history ++ [event]) =
      swallowedSince nativeId history + if event.swallowed nativeId then 1 else 0 := by
  simp [swallowedSince, sinceCheck_append unchecked, List.countP_append, List.countP_singleton]

/-! ## The ledger -/

namespace Shell

variable {shell : Shell}

/-- There is a credit for the gesture: it was granted since the last check, none of the gestures
swallowed since used it, and it is not expired. -/
def Excused (nativeId now : Nat) (history : List Event) : Prop :=
  ∃ place granted, swallowedSince nativeId history ≤ place ∧
    (grantedSince nativeId history)[place]? = some granted ∧
    granted ≤ now ∧ now < granted + injectionCreditTtlMs

/-- Every gesture that was swallowed had a credit. -/
def Excuses (nativeId : Nat) (history : List Event) : Prop :=
  ∀ place now, history[place]? = some (.gesture nativeId now false) →
    Excused nativeId now (history.take place)

/-- The credits of the surface are the last of those granted since its last check, and at least as
many are gone as gestures were swallowed. -/
structure Ledger (nativeId : Nat) (history : List Event) (seat : Seat) (now : Nat) : Prop where
  past : ∀ granted ∈ grantedSince nativeId history, granted ≤ now
  kept : seat.credits <:+ grantedSince nativeId history
  gone : swallowedSince nativeId history + seat.credits.length ≤
    (grantedSince nativeId history).length
  excuses : Excuses nativeId history

variable {seat : Seat} {now : Nat}

theorem Excuses.append (excuses : Excuses nativeId history)
    (last : ∀ now, event = .gesture nativeId now false → Excused nativeId now history) :
    Excuses nativeId (history ++ [event]) := by
  intro place now isGesture
  rcases Nat.lt_or_ge place history.length with old | new
  · rw [List.getElem?_append_left old] at isGesture
    rw [List.take_append_of_le_length old.le]
    exact excuses place now isGesture
  · rw [List.getElem?_append_right new, List.getElem?_singleton] at isGesture
    by_cases isLast : place - history.length = 0
    · rw [if_pos isLast] at isGesture
      rw [Nat.le_antisymm (Nat.sub_eq_zero_iff_le.mp isLast) new, List.take_left]
      exact last now (Option.some.inj isGesture)
    · rw [if_neg isLast] at isGesture
      cases isGesture

theorem credits_noteSeatInput (seat : Seat) (now : Nat) :
    (seat.noteSeatInput now).credits = (seat.fresh now).tail := by
  unfold Seat.noteSeatInput
  by_cases spends : (seat.spendInjectionCredit now).1 = true
  · rw [if_pos spends]
    rfl
  · rw [if_neg spends]
    rfl

namespace Ledger

/-- An input that found a credit. -/
theorem excused (ledger : Ledger nativeId history seat now)
    (spends : (seat.spendInjectionCredit now).1 = true) : Excused nativeId now history := by
  have suffix : seat.fresh now <:+ grantedSince nativeId history :=
    (List.dropWhile_suffix _).trans ledger.kept
  have shorter : (seat.fresh now).length ≤ seat.credits.length :=
    (List.dropWhile_suffix _).length_le
  have room := ledger.gone
  have isDrop := List.suffix_iff_eq_drop.mp suffix
  cases isFresh : seat.fresh now with
  | nil => simp [Seat.spendInjectionCredit, isFresh] at spends
  | cons credit rest =>
      have alive : ¬ injectionCreditTtlMs ≤ now - credit := by
        have first := List.head?_dropWhile_not
          (fun granted => decide (injectionCreditTtlMs ≤ now - granted)) seat.credits
        rw [show seat.credits.dropWhile _ = credit :: rest from isFresh] at first
        simpa using first
      have isCredit : (grantedSince nativeId history)[
          (grantedSince nativeId history).length - (seat.fresh now).length]? = some credit := by
        rw [← List.head?_drop, ← isDrop, isFresh]
        rfl
      refine ⟨_, credit, ?_, isCredit, ledger.past credit (List.mem_of_getElem? isCredit), ?_⟩
      · omega
      · omega

/-- An input that finds a credit uses it up. -/
theorem room_noteSeatInput (ledger : Ledger nativeId history seat now)
    (spends : (seat.spendInjectionCredit now).1 = true) :
    swallowedSince nativeId history + 1 + (seat.noteSeatInput now).credits.length ≤
      (grantedSince nativeId history).length := by
  have shorter : (seat.fresh now).length ≤ seat.credits.length :=
    (List.dropWhile_suffix _).length_le
  have room := ledger.gone
  rw [credits_noteSeatInput, List.length_tail]
  cases isFresh : seat.fresh now with
  | nil => simp [Seat.spendInjectionCredit, isFresh] at spends
  | cons credit rest =>
      rw [isFresh, List.length_cons] at shorter
      rw [List.length_cons]
      omega

/-- An input that the observer saw, logged or not. -/
theorem noteSeatInput (ledger : Ledger nativeId history seat now) :
    Ledger nativeId history (seat.noteSeatInput now) now where
  past := ledger.past
  kept := by
    rw [credits_noteSeatInput]
    exact (List.tail_suffix _).trans ((List.dropWhile_suffix _).trans ledger.kept)
  gone := by
    have shorter : (seat.fresh now).tail.length ≤ seat.credits.length :=
      ((List.tail_suffix _).trans (List.dropWhile_suffix _)).length_le
    rw [credits_noteSeatInput]
    exact (Nat.add_le_add_left shorter _).trans ledger.gone
  excuses := ledger.excuses

/-- An event that grants nothing. -/
theorem append (ledger : Ledger nativeId history seat now)
    (unchecked : event.checks nativeId = false) (ungranted : event.granted nativeId = [])
    (room : event.swallowed nativeId = true →
      swallowedSince nativeId history + 1 + seat.credits.length ≤
        (grantedSince nativeId history).length)
    (last : ∀ now, event = .gesture nativeId now false → Excused nativeId now history) :
    Ledger nativeId (history ++ [event]) seat now := by
  have same : grantedSince nativeId (history ++ [event]) = grantedSince nativeId history := by
    rw [grantedSince_append unchecked, ungranted, List.append_nil]
  constructor
  · rw [same]
    exact ledger.past
  · rw [same]
    exact ledger.kept
  · rw [same, swallowedSince_append unchecked]
    split
    · rename_i swallows
      exact room swallows
    · exact ledger.gone
  · exact ledger.excuses.append last

theorem gesture (ledger : Ledger nativeId history seat now) :
    Ledger nativeId
      (history ++ [.gesture nativeId now !(seat.spendInjectionCredit now).1])
      (seat.noteSeatInput now) now := by
  refine ledger.noteSeatInput.append (by rfl) (by rfl) ?_ ?_
  · intro swallows
    exact ledger.room_noteSeatInput (by simpa [Event.swallowed] using swallows)
  · intro time isGesture
    injection isGesture with _ isTime isUncounted
    exact isTime ▸ ledger.excused (by simpa using isUncounted)

theorem grant (ledger : Ledger nativeId history seat now) (number events : Nat) :
    Ledger nativeId (history ++ [.inject nativeId number now events])
      (seat.grantInjectionCredits events now) now := by
  have more : grantedSince nativeId (history ++ [.inject nativeId number now events]) =
      grantedSince nativeId history ++ List.replicate events now := by
    rw [grantedSince_append (by rfl), Event.granted, if_pos (by rfl)]
  constructor
  · rw [more]
    intro granted member
    rcases List.mem_append.mp member with old | fresh
    · exact ledger.past granted old
    · exact (List.eq_of_mem_replicate fresh).le
  · rw [more]
    obtain ⟨spent, split⟩ := ledger.kept
    exact ⟨spent, by rw [Seat.grantInjectionCredits, ← List.append_assoc, split]⟩
  · have room := ledger.gone
    rw [more, swallowedSince_append (by rfl)]
    simp only [Seat.grantInjectionCredits, List.length_append, Event.swallowed,
      Bool.false_eq_true, if_false]
    omega
  · exact ledger.excuses.append nofun

/-- What a check leaves. -/
theorem check (ledger : Ledger nativeId history seat now) (count : Nat) :
    Ledger nativeId (history ++ [.check nativeId count]) .none now := by
  have isCheck : sinceCheck nativeId (history ++ [.check nativeId count]) = [] :=
    sinceCheck_check (by simp [Event.checks])
  have nothing : grantedSince nativeId (history ++ [.check nativeId count]) = [] := by
    rw [grantedSince, isCheck, List.flatMap_nil]
  constructor
  · rw [nothing]
    exact fun granted member => absurd member List.not_mem_nil
  · exact List.nil_suffix
  · rw [swallowedSince, isCheck]
    exact Nat.zero_le _
  · exact ledger.excuses.append nofun

/-- The surface is gone. -/
theorem destroy (ledger : Ledger nativeId history seat now) :
    Ledger nativeId history .none now where
  past := ledger.past
  kept := List.nil_suffix
  gone := (Nat.le_add_right _ _).trans ledger.gone
  excuses := ledger.excuses

theorem pass (ledger : Ledger nativeId history seat now) (millis : Nat) :
    Ledger nativeId history seat (now + millis) where
  past granted member := (ledger.past granted member).trans (Nat.le_add_right _ _)
  kept := ledger.kept
  gone := ledger.gone
  excuses := ledger.excuses

/-- What a check says of a surface has nothing to do with the credits. -/
theorem verdicts {events : List Event} (areVerdicts : ∀ event ∈ events, event.Verdict)
    (ledger : Ledger nativeId history seat now) :
    Ledger nativeId (history ++ events) seat now := by
  induction events generalizing history with
  | nil =>
      rw [List.append_nil]
      exact ledger
  | cons event events inductionHypothesis =>
      rw [← List.singleton_append, ← List.append_assoc]
      refine inductionHypothesis (fun other member => areVerdicts other (.tail _ member)) ?_
      have verdict := areVerdicts event List.mem_cons_self
      cases event with
      | gesture => exact verdict.elim
      | inject => exact verdict.elim
      | check => exact verdict.elim
      | refused => exact ledger.append (by rfl) (by rfl) nofun nofun
      | admitted => exact ledger.append (by rfl) (by rfl) nofun nofun
      | preempt => exact ledger.append (by rfl) (by rfl) nofun nofun
      | reset => exact ledger.append (by rfl) (by rfl) nofun nofun

end Ledger

/-- Every surface's credits are those of its history. -/
def Ledgers (shell : Shell) : Prop :=
  ∀ nativeId, Ledger nativeId shell.history (shell.seats nativeId) shell.clock

theorem Judged.ledgers {before after : Shell} {checked : Nat} (judged : Judged checked before after)
    (ledgers : before.Ledgers) : after.Ledgers := by
  obtain ⟨verdicts, areVerdicts, isHistory⟩ := judged.history
  intro nativeId
  rw [isHistory, judged.seats, judged.clock, ← List.singleton_append, ← List.append_assoc]
  refine Ledger.verdicts areVerdicts ?_
  by_cases same : nativeId = checked
  · subst same
    rw [Function.update_self]
    exact (ledgers nativeId).check _
  · rw [Function.update_of_ne same]
    have apart : decide (checked = nativeId) = false := decide_eq_false (Ne.symm same)
    exact (ledgers nativeId).append apart (by rfl) nofun nofun

/-- One surface's seat changes, the history grows by an event about that surface. -/
theorem ledgers_log {seat : Seat} {checked : Nat} (ledgers : shell.Ledgers)
    (here : Ledger checked (shell.history ++ [event]) seat shell.clock)
    (elsewhere : ∀ nativeId, nativeId ≠ checked → event.checks nativeId = false ∧
      event.granted nativeId = [] ∧ event.swallowed nativeId = false) :
    ((shell.setSeat checked seat).log [event]).Ledgers := by
  intro nativeId
  by_cases same : nativeId = checked
  · subst same
    simpa [log, setSeat] using here
  · obtain ⟨unchecked, ungranted, unswallowed⟩ := elsewhere nativeId same
    have idle := (ledgers nativeId).append unchecked ungranted
      (fun swallows => absurd (unswallowed.symm.trans swallows) Bool.false_ne_true)
      fun now isGesture => by simp [isGesture, Event.swallowed] at unswallowed
    simpa [log, setSeat, Function.update_of_ne same] using idle

theorem ledgers_destroy (ledgers : shell.Ledgers) (handle : Handle) :
    (shell.destroy handle).Ledgers := by
  intro nativeId
  by_cases same : nativeId = handle.nativeId
  · subst same
    simpa [destroy, setSeat] using (ledgers handle.nativeId).destroy
  · simpa [destroy, setSeat, Function.update_of_ne same] using ledgers nativeId

theorem ledgers_move {after : Shell} (move : Move shell after) (ledgers : shell.Ledgers) :
    after.Ledgers := by
  cases move with
  | idle => exact ledgers
  | pass millis => exact fun nativeId => (ledgers nativeId).pass millis
  | gesture seen =>
      refine ledgers_log ledgers (ledgers seen).gesture ?_
      intro nativeId apart
      simp [Event.checks, Event.granted, Event.swallowed, Ne.symm apart]
  | lateInjection seen =>
      intro nativeId
      by_cases same : nativeId = seen
      · subst same
        simpa [setSeat] using (ledgers nativeId).noteSeatInput
      · simpa [setSeat, Function.update_of_ne same] using ledgers nativeId
  | create => exact ledgers
  | reveal => exact ledgers
  | rebuild session revealed handle => exact ledgers_destroy ledgers handle
  | close session handle =>
      intro nativeId
      exact (ledgers_destroy ledgers handle nativeId).append (by rfl) (by rfl)
        (fun lost => absurd lost Bool.false_ne_true) (fun _ reset => by cases reset)
  | openLane request holdsWriteLock handle =>
      exact (judged_openLane shell request _ handle).ledgers ledgers
  | perform number run events ok =>
      unfold perform
      split
      · refine ledgers_log ledgers ((ledgers _).grant number events) ?_
        intro nativeId apart
        simp [Event.checks, Event.granted, Event.swallowed, Ne.symm apart]
      · exact ledgers
  | advance number run => exact (judged_advance shell number run).ledgers ledgers

theorem ledgers_initial : initial.Ledgers := by
  intro nativeId
  constructor
  · exact fun granted member => absurd member List.not_mem_nil
  · exact List.nil_suffix
  · exact Nat.le_refl 0
  · intro place now isGesture
    simp [initial] at isGesture

end Shell

/-- A gesture of the human passes for an injected event only on a credit of its own: an event that
an agent's action landed on the same surface since its last check, less than the credit's life ago,
and before it there are at least as many credits as gestures that were lost so since that check. -/
theorem swallowed_gestures_have_credits (actions : List Action) (nativeId place now : Nat)
    (isGesture : (run Shell.step .initial actions).history[place]? =
      some (.gesture nativeId now false)) :
    Shell.Excused nativeId now ((run Shell.step .initial actions).history.take place) := by
  have preserved : ∀ (shell : Shell) action, shell.Ledgers → (shell.step action).Ledgers :=
    fun shell action ledgers => Shell.ledgers_move (shell.move_step action) ledgers
  exact (run_invariant preserved Shell.ledgers_initial actions nativeId).excuses place now isGesture

/-- A gesture right behind an action of two events. -/
theorem swallowed_gestures_have_credits_of_race :
    Shell.Excused 1 200 ((run Shell.step .initial
      [.create "s" true, .start batchOfTwo true, .perform 0 2 true, .pass 200, .gesture 1]
      ).history.take 4) :=
  swallowed_gestures_have_credits
    [.create "s" true, .start batchOfTwo true, .perform 0 2 true, .pass 200, .gesture 1] 1 4 200
    (by decide)

end Yggterm.AgentInput
