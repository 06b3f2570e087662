import Yggterm.PtyHandoff.Delivery
import Yggterm.PtyHandoff.Lines

/-!
# What a handoff reports

The sender takes a session to be moved, kept, or past the commit point.  Where no wait for
the verdict ends in the middle of a line, a session has one owner and an answer that arrives
is heard; past that, what the sender reads as the ack need not be one.
-/

namespace Yggterm.PtyHandoff

open Runs

variable {setting : Setting} {state : State} {support : PrecommitSupport} {actions : List Action}

/-- A session that is reported as moved was adopted, and one that is reported as kept was not. -/
def OneOwner (setting : Setting) (state : State) : Prop :=
  match state.sender with
  | .done (.ok _) => state.adopted = some (setting.heard setting.metadata)
  | .done (.error error) => error.committed = false → state.adopted = none
  | _ => True

/-- Where the session was adopted and the whole answer arrives in time, the sender has only
to read what is in flight to return the ack. -/
def AnswerHeard (setting : Setting) (state : State) : Prop :=
  state.adopted.isSome = true → (∃ ack, .ack ack ∈ state.said) → state.lost = false →
    state.ackTimedOut = false →
    ∃ ack, (run (step setting) state
      (List.replicate state.toSender.length .senderReads)).sender = .done (.ok ack)

/-- An error past the commit point means that the successor has the descriptor. -/
def CommitReported (state : State) : Prop :=
  match state.sender with
  | .done (.error error) => error.committed = true → state.received = true
  | _ => True

/-- No wait for the verdict ends in the middle of a line, in the whole run. -/
abbrev Uncut (setting : Setting) (support : PrecommitSupport) (actions : List Action) : Prop :=
  Guarded (step setting) (fun state action => NoCut state action = true) (initial support) actions

/-- No wait for the verdict ends in the middle of a line, and nobody gives up while the
descriptor is in flight, in the whole run. -/
abbrev Unhurried (setting : Setting) (support : PrecommitSupport) (actions : List Action) : Prop :=
  Guarded (step setting) (fun state action => Steady setting state action = true)
    (initial support) actions

theorem Unhurried.uncut (unhurried : Unhurried setting support actions) :
    Uncut setting support actions :=
  Guarded.mono (fun _ _ => Steady.noCut) unhurried

/-! ## One owner -/

theorem Sound.oneOwner (sound : Sound setting state) : OneOwner setting state := by
  have reported := sound.downstream
  unfold Downstream at reported
  unfold OneOwner
  split
  · next isSender =>
      rw [isSender] at reported
      obtain ⟨metadata, isAdopted⟩ := Option.isSome_iff_exists.mp reported
      rw [isAdopted, sound.upstream.adopted metadata isAdopted]
  · next error isSender =>
      intro uncommitted
      rw [← Option.not_isSome_iff_eq_none]
      intro isAdopted
      have committed := sound.placed.sent (.inl (sound.placed.taken (.inr isAdopted)))
      rw [isSender] at committed
      change error.committed = true at committed
      rw [uncommitted] at committed
      cases committed
  · trivial

theorem one_owner (uncut : Uncut setting support actions) :
    Always (step setting) (OneOwner setting) (initial support) actions :=
  always_of_guarded (fun _ action sound uncut => sound.step action uncut)
    (fun _ sound => sound.oneOwner) (sound_initial support) uncut

/-- A shell that is handed over. -/
def shellMetadata : HandoffMetadata :=
  ⟨1, "k".toList, "sh".toList, none, 80, 24, 7, 9, [], true⟩

/-- It goes to a successor that knows the verdict. -/
def shellSetting : Setting := ⟨lineCodec, shellMetadata, true, 8, some 10⟩

/-- The metadata line is sent, and read to its end. -/
def lineRead : List Action :=
  .connects true :: .writesMetadata none ::
    List.replicate ((lineCodec.metadataLine shellMetadata).length + 1) .successorReads

theorem run_lineRead : run (step shellSetting) (initial .unknown) lineRead =
    { initial .unknown with
      sender := .awaitingVerdict []
      successor := .seating shellMetadata } := by
  have isReadable : shellSetting.isReadable = true := by decide +kernel
  have sent : step shellSetting (step shellSetting (initial .unknown) (.connects true))
      (.writesMetadata none) = { initial .unknown with
        sender := .awaitingVerdict []
        toSuccessor := (lineCodec.metadataLine shellMetadata ++ [newline]).map .byte } := rfl
  rw [lineRead, run_cons, run_cons, sent]
  have isNext : (lineCodec.metadataLine shellMetadata ++ [newline]).map Packet.byte =
      (lineCodec.metadataLine shellMetadata).map .byte ++ .byte newline :: [] := by
    rw [List.map_append]
    rfl
  exact @run_successorReads shellSetting _ isReadable [] _ rfl [] rfl isNext

/-- A handoff in which nothing goes wrong. -/
def plainHandoff : List Action :=
  lineRead ++ (.seats none :: List.replicate 34 .senderReads ++
    [.sendsFd true, .receives, .adopts (.ok ()), .answers, .closes] ++
    List.replicate 57 .senderReads)

theorem unhurried_plainHandoff : Unhurried shellSetting .unknown plainHandoff := by
  refine guarded_append.mpr ⟨guarded_of_forall ?_ _, ?_⟩
  · intro action member state
    simp only [lineRead, List.mem_cons, List.mem_replicate] at member
    rcases member with rfl | rfl | ⟨_, rfl⟩
    · rfl
    · rfl
    · rfl
  · rw [run_lineRead]
    decide +kernel

theorem one_owner_of_plainHandoff :
    Always (step shellSetting) (OneOwner shellSetting) (initial .unknown) plainHandoff ∧
      (run (step shellSetting) (initial .unknown) plainHandoff).sender =
        .done (.ok (ackAdoptedHere 8 (some 10))) := by
  refine ⟨one_owner (Unhurried.uncut unhurried_plainHandoff), ?_⟩
  rw [plainHandoff, run_append, run_lineRead]
  decide +kernel

/-- A refusal that is read up to its reason when the wait for it ends: of the reason, which is
all that still arrives, the sender makes an ack. -/
def refusalCut : List Action :=
  lineRead ++ (.seats (some "[true]".toList) :: List.replicate 43 .senderReads ++
    [.timesOut, .sendsFd true, .breaks 0 6] ++ List.replicate 7 .senderReads)

theorem not_one_owner_of_refusalCut :
    ¬ ∀ setting support actions,
      Always (step setting) (OneOwner setting) (initial support) actions := by
  intro always
  refine not_always_of_last ?_ (always shellSetting .unknown refusalCut)
  have ends : (run (step shellSetting) (initial .unknown) refusalCut).sender =
      .done (.ok ⟨true, none, none, none⟩) ∧
      (run (step shellSetting) (initial .unknown) refusalCut).adopted = none := by
    rw [refusalCut, run_append, run_lineRead]
    decide +kernel
  unfold OneOwner
  rw [ends.1, ends.2]
  exact fun adopted => nomatch adopted

/-! ## The answer and the commit point -/

theorem senderReads_of_isDone (isDone : state.sender.isDone = true) :
    state.senderReads setting = state := by
  have notReading : state.sender.isReading = false := by
    revert isDone
    cases state.sender with
    | done result => exact fun _ => rfl
    | _ => exact fun isDone => nomatch isDone
  rw [State.senderReads, if_pos notReading]

theorem run_senderReads_of_isDone (isDone : state.sender.isDone = true) (count : Nat) :
    run (step setting) state (List.replicate count .senderReads) = state := by
  induction count with
  | zero => rfl
  | succ count inductionHypothesis =>
      have same : step setting state .senderReads = state := senderReads_of_isDone isDone
      rw [List.replicate_succ, run_cons, same, inductionHypothesis]

/-- A read takes one byte of what is in flight, and leaves alone what the successor did. -/
theorem senderReads_next {byte : UInt8} {rest : Bytes} (isNext : state.toSender = byte :: rest)
    (isReading : state.sender.isReading = true) :
    ∃ support sender, state.senderReads setting =
      { state with support, sender, toSender := rest } := by
  unfold State.senderReads
  rw [if_neg (by simp [isReading]), isNext]
  obtain ⟨support, sender, same, _⟩ :=
    senderTakes_spec setting { state with toSender := rest } byte
  exact ⟨support, sender, same⟩

/-- The sender has the ack, or something of what arrives is left to read. -/
theorem Sound.reads_on (sound : Sound setting state) (isAdopted : state.adopted.isSome = true)
    {ack : HandoffAck} (isSaid : .ack ack ∈ state.said) (unlost : state.lost = false)
    (inTime : state.ackTimedOut = false) :
    (∃ ack, state.sender = .done (.ok ack)) ∨
      (state.sender.isReading = true ∧ state.toSender ≠ []) := by
  have reported := sound.downstream
  unfold Downstream at reported
  have committed := sound.placed.sent (.inl (sound.placed.taken (.inr isAdopted)))
  cases isSender : state.sender with
  | done result =>
      cases result with
      | ok ack => exact .inl ⟨ack, rfl⟩
      | error error =>
          rw [isSender] at reported
          obtain ⟨_, _, _, answer, _⟩ := sound.spoken.ack isSaid
          rcases reported with timedOut | lost | refused
          · rw [inTime] at timedOut
            cases timedOut
          · rw [unlost] at lost
            cases lost
          · rw [refused ack isSaid, isAdopted] at answer
            cases answer
  | awaitingAck left line =>
      rw [isSender] at reported
      obtain ⟨heard, _, follows⟩ := reported
      refine .inr ⟨rfl, fun nothing => ?_⟩
      cases follows.all_heard nothing unlost isSaid
  | _ =>
      rw [isSender] at committed
      cases committed

theorem Sound.answerHeard (sound : Sound setting state) : AnswerHeard setting state := by
  unfold AnswerHeard
  rintro isAdopted ⟨ack, isSaid⟩ unlost inTime
  generalize isLength : state.toSender.length = length
  induction length generalizing state with
  | zero =>
      rcases sound.reads_on isAdopted isSaid unlost inTime with returned | ⟨_, something⟩
      · exact returned
      · exact absurd (List.length_eq_zero_iff.mp isLength) something
  | succ length inductionHypothesis =>
      rcases sound.reads_on isAdopted isSaid unlost inTime with ⟨heard, isSender⟩ | ⟨isReading, _⟩
      · have isDone : state.sender.isDone = true := by rw [isSender]; rfl
        rw [run_senderReads_of_isDone isDone]
        exact ⟨heard, isSender⟩
      · obtain ⟨byte, rest, isNext⟩ := List.exists_cons_of_length_eq_add_one isLength
        obtain ⟨support, sender, same⟩ := @senderReads_next setting state byte rest isNext isReading
        have sounder := sound.step .senderReads rfl
        have isStep : PtyHandoff.step setting state .senderReads =
            { state with support, sender, toSender := rest } := same
        rw [List.replicate_succ, run_cons, isStep]
        rw [isStep] at sounder
        refine inductionHypothesis sounder isAdopted isSaid unlost inTime ?_
        simpa [isNext] using isLength

theorem commitReported (delivered : Delivered setting state) : CommitReported state := by
  unfold CommitReported
  split
  · next error isSender =>
      intro committed
      have isCommitted : state.sender.committed = true := by
        rw [isSender]
        exact committed
      rcases delivered isCommitted with isReceived | ⟨unreturned, _⟩
      · exact isReceived
      · rw [isSender] at unreturned
        cases unreturned
  · trivial

theorem faithful_report (setting : Setting) (support : PrecommitSupport) (actions : List Action) :
    (Uncut setting support actions →
      Always (step setting) (AnswerHeard setting) (initial support) actions) ∧
    (Unhurried setting support actions →
      Always (step setting) CommitReported (initial support) actions) := by
  constructor
  · exact always_of_guarded (fun _ action sound uncut => sound.step action uncut)
      (fun _ sound => sound.answerHeard) (sound_initial support)
  · refine @always_of_guarded _ _ _ _ (fun state => Sound setting state ∧ Delivered setting state)
      _ ?_ (fun _ both => commitReported both.2) _ ⟨sound_initial support, ?_⟩ actions
    · rintro state action ⟨sound, delivered⟩ steady
      exact ⟨sound.step action (Steady.noCut steady), delivered.step sound action steady⟩
    · exact fun committed => nomatch committed

theorem faithful_report_of_plainHandoff :
    Always (step shellSetting) (AnswerHeard shellSetting) (initial .unknown) plainHandoff ∧
      Always (step shellSetting) CommitReported (initial .unknown) plainHandoff :=
  ⟨(faithful_report shellSetting .unknown plainHandoff).1 (Unhurried.uncut unhurried_plainHandoff),
    (faithful_report shellSetting .unknown plainHandoff).2 unhurried_plainHandoff⟩

/-- A proceeding verdict of which twelve bytes are read when the wait for it ends: the session
is adopted and its ack arrives, behind the rest of the verdict. -/
def proceedCut : List Action :=
  lineRead ++ (.seats none :: List.replicate 12 .senderReads ++
    [.timesOut, .sendsFd true, .receives, .adopts (.ok ()), .answers])

/-- A refusal that is said once the wait for it has ended: the descriptor is sent and stays in
the socket. -/
def refusalLate : List Action :=
  lineRead ++ ([.timesOut, .sendsFd true, .seats (some "busy".toList), .answers] ++
    List.replicate 90 .senderReads)

theorem not_faithful_report :
    (¬ ∀ setting support actions,
      Always (step setting) (AnswerHeard setting) (initial support) actions) ∧
    ¬ ∀ setting support actions,
      Always (step setting) CommitReported (initial support) actions := by
  constructor
  · intro always
    refine not_always_of_last ?_ (always shellSetting .unknown proceedCut)
    intro isHeard
    have ends : (run (step shellSetting) (initial .unknown) proceedCut).adopted.isSome = true ∧
        .ack (ackAdoptedHere 8 (some 10)) ∈
          (run (step shellSetting) (initial .unknown) proceedCut).said ∧
        (run (step shellSetting) (initial .unknown) proceedCut).lost = false ∧
        (run (step shellSetting) (initial .unknown) proceedCut).ackTimedOut = false ∧
        (run (step shellSetting) (run (step shellSetting) (initial .unknown) proceedCut)
          (List.replicate (run (step shellSetting) (initial .unknown) proceedCut).toSender.length
            .senderReads)).sender = .done (.error ⟨true, false⟩) := by
      rw [proceedCut, run_append, run_lineRead]
      decide +kernel
    obtain ⟨adopted, isSaid, unlost, inTime, isError⟩ := ends
    obtain ⟨ack, isReported⟩ := isHeard adopted ⟨_, isSaid⟩ unlost inTime
    rw [isError] at isReported
    cases isReported
  · intro always
    refine not_always_of_last ?_ (always shellSetting .unknown refusalLate)
    have ends : (run (step shellSetting) (initial .unknown) refusalLate).sender =
        .done (.error ⟨true, true⟩) ∧
        (run (step shellSetting) (initial .unknown) refusalLate).received = false := by
      rw [refusalLate, run_append, run_lineRead]
      decide +kernel
    unfold CommitReported
    rw [ends.1, ends.2]
    exact fun received => nomatch received rfl

end Yggterm.PtyHandoff
