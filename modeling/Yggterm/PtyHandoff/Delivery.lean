import Yggterm.PtyHandoff.Downstream
import Yggterm.PtyHandoff.Upstream

/-!
# Whether the descriptor arrives

Past the commit point the descriptor is on its way or was received, so long as it is sent to a
successor that reads the metadata, and until it is received the connection holds, the ack
timeout does not fire and the successor does not refuse.
-/

namespace Yggterm.PtyHandoff

open LineStreams Text Runs

variable {setting : Setting} {state : State}

/-- The successor goes on to receive the descriptor, where nothing intervenes. -/
def Successor.expects : Successor → Bool
  | .reading _ => true
  | .seating _ => true
  | .receiving _ => true
  | _ => false

def Packet.isDescriptor : Packet → Bool
  | .descriptor _ => true
  | .byte _ => false

/-- A descriptor is in flight. -/
def State.carries (state : State) : Bool := state.toSuccessor.any Packet.isDescriptor

/-- The successor can read the metadata line, and knows its version. -/
def Setting.isReadable (setting : Setting) : Bool :=
  setting.metadata.version = handoffWireVersion &&
    (setting.codec.metadataLine setting.metadata).length ≤ maxHandoffMetadataBytes

/-- No wait for the verdict ends in the middle of a line; the descriptor is sent to a
successor that can read the metadata and has not refused, and while it is in flight nobody
gives up. -/
def Steady (setting : Setting) (state : State) : Action → Bool
  | .timesOut =>
      match state.sender with
      | .awaitingVerdict line => line = []
      | .awaitingAck _ _ => !state.carries
      | _ => true
  | .sendsFd succeeds => !succeeds || (setting.isReadable && state.successor.expects)
  | .breaks _ _ => !state.carries
  | .seats conflict => conflict.isNone || !state.carries
  | _ => true

theorem Steady.noCut {action : Action} (steady : Steady setting state action = true) :
    NoCut state action = true := by
  cases action with
  | timesOut =>
      cases isSender : state.sender with
      | awaitingVerdict line =>
          have empty : line = [] := by simpa [Steady, isSender] using steady
          simp [NoCut, Sender.isMidLine, isSender, empty]
      | _ => simp [NoCut, Sender.isMidLine, isSender]
  | _ => rfl

/-- The descriptor is on its way to a successor that will receive it. -/
structure OnItsWay (setting : Setting) (state : State) : Prop where
  readable : setting.isReadable = true
  unbroken : state.broken = false
  carried : state.carries = true
  expects : state.successor.expects = true

/-- Past the commit point the descriptor was received, or is on its way. -/
def Delivered (setting : Setting) (state : State) : Prop :=
  state.sender.committed = true →
    state.received = true ∨ (state.sender.isDone = false ∧ OnItsWay setting state)

theorem isReadable_iff : setting.isReadable = true ↔
    setting.metadata.version = handoffWireVersion ∧
      (setting.codec.metadataLine setting.metadata).length ≤ maxHandoffMetadataBytes := by
  simp [Setting.isReadable]

/-! ## Steps while the descriptor is on its way -/

/-- All that a successor has said before it receives the descriptor is that it goes ahead. -/
theorem Spoken.proceeds (spoken : Spoken setting state) (expects : state.successor.expects = true)
    {message : Message} (isSaid : message ∈ state.said) : message = .verdict verdictProceed := by
  unfold Spoken at spoken
  cases isSuccessor : state.successor with
  | reading line =>
      rw [isSuccessor] at spoken
      rw [spoken.1] at isSaid
      cases isSaid
  | seating metadata =>
      rw [isSuccessor] at spoken
      rw [spoken.1] at isSaid
      cases isSaid
  | receiving metadata =>
      rw [isSuccessor] at spoken
      rcases spoken.1 with nothing | ⟨conflict, goesAhead, isOpening⟩
      · rw [nothing] at isSaid
        cases isSaid
      · rw [isOpening, goesAhead rfl] at isSaid
        exact List.mem_singleton.mp isSaid
  | _ =>
      rw [isSuccessor] at expects
      cases expects

theorem OnItsWay.not_over (onItsWay : OnItsWay setting state) : state.streamOver = false := by
  have notClosed : state.successor.isClosed = false := by
    have expects := onItsWay.expects
    revert expects
    cases state.successor with
    | closed served => exact fun expects => nomatch expects
    | _ => exact fun _ => rfl
  rw [State.streamOver, onItsWay.unbroken, notClosed, Bool.or_false, Bool.and_false]

/-- What the sender hears meanwhile is at most the verdict, which it steps over. -/
theorem OnItsWay.senderReads (onItsWay : OnItsWay setting state) (spoken : Spoken setting state)
    (downstream : Downstream setting state) {left : Nat} {line : Bytes}
    (isSender : state.sender = .awaitingAck left line) :
    ∃ sender toSender, state.senderReads setting = { state with sender, toSender } ∧
      sender.isDone = false := by
  unfold Downstream at downstream
  rw [isSender] at downstream
  obtain ⟨heard, budget, follows⟩ := downstream
  have open' : state.sender.isDone = false := by rw [isSender]; rfl
  unfold State.senderReads
  split
  · exact ⟨_, _, rfl, open'⟩
  split
  · next byte rest isNext =>
      unfold State.senderTakes readByte
      simp only [isSender]
      by_cases isNewline : byte = newline
      · subst isNewline
        simp only [if_true]
        obtain ⟨before, behind, message, same, rfl, verdicts, rfl, _⟩ := follows.line isNext
        have isSaid : message ∈ state.said := by simp [same]
        obtain rfl := spoken.proceeds onItsWay.expects isSaid
        rw [spoken.verdict_first same verdicts rfl, List.length_nil] at budget
        have isVerdict : setting.codec.isPrecommitVerdict
            (setting.codec.line (.verdict verdictProceed)) = true :=
          setting.codec.isPrecommitVerdict_verdict verdictProceed
        refine ⟨.awaitingAck (left - 1) [], rest, ?_, rfl⟩
        unfold State.hearsAck
        rw [if_neg (by simp [setting.codec.isBlank_line]), if_pos isVerdict, if_neg (by omega)]
      · simp only [if_neg isNewline]
        split
        · next more _ => exact ⟨.awaitingAck left more, rest, rfl, rfl⟩
        · next isLine =>
            split at isLine
            · cases isLine
            · cases isLine
        · next isLong =>
            exfalso
            rcases (follows.more isNewline isNext).part with empty | ⟨message, member, begun⟩
            · simp at empty
            · obtain rfl := spoken.proceeds onItsWay.expects member
              split at isLong
              · next long =>
                  exact absurd (begun.length_le.trans setting.codec.length_line_proceed)
                    (Nat.not_le.mpr long)
              · cases isLong
  · rw [onItsWay.not_over]
    exact ⟨_, _, rfl, open'⟩

/-- A readable line is heard as what it says. -/
theorem hearsMetadata_of_readable (readable : setting.isReadable = true) :
    state.hearsMetadata setting (setting.codec.metadataLine setting.metadata) =
      { state with successor := .seating (setting.heard setting.metadata) } := by
  unfold State.hearsMetadata
  rw [if_neg (by simp [setting.codec.isBlank_metadataLine]),
    setting.codec.readMetadata_metadataLine]
  exact if_neg (not_not.mpr (isReadable_iff.mp readable).1)

/-- A successor that reads on to the end of a readable line seats the session. -/
theorem run_successorReads (readable : setting.isReadable = true) {taken rest : Bytes}
    (isLine : taken ++ rest = setting.codec.metadataLine setting.metadata) {later : List Packet}
    (isReading : state.successor = .reading taken)
    (isNext : state.toSuccessor = rest.map .byte ++ .byte newline :: later) :
    run (step setting) state (List.replicate (rest.length + 1) .successorReads) =
      { state with
          successor := .seating (setting.heard setting.metadata), toSuccessor := later } := by
  induction rest generalizing state taken with
  | nil =>
      rw [List.append_nil] at isLine
      change state.successorReads setting = _
      simp only [State.successorReads, isReading, isNext, List.map_nil, List.nil_append,
        State.successorTakes, readByte, if_true, isLine, hearsMetadata_of_readable readable]
  | cons byte others inductionHypothesis =>
      have clean := setting.codec.newline_not_mem_metadataLine setting.metadata
      rw [← isLine] at clean
      have notNewline : byte ≠ newline := by
        rintro rfl
        exact clean (by simp)
      have short : ¬ (taken ++ [byte]).length > maxHandoffMetadataBytes := by
        have whole := (isReadable_iff.mp readable).2
        rw [← isLine] at whole
        simp only [List.length_append, List.length_cons, List.length_nil] at whole ⊢
        omega
      have moves : step setting state .successorReads =
          { state with
            successor := .reading (taken ++ [byte])
            toSuccessor := others.map .byte ++ .byte newline :: later } := by
        change state.successorReads setting = _
        simp only [State.successorReads, isReading, isNext, List.map_cons, List.cons_append,
          State.successorTakes, readByte, if_neg notNewline, if_neg short]
      rw [List.length_cons, List.replicate_succ, run_cons, moves]
      refine (inductionHypothesis ?_ rfl rfl).trans rfl
      rw [List.append_assoc]
      exact isLine

/-- Reading what begins the line, the successor goes on. -/
theorem OnItsWay.successorTakes (onItsWay : OnItsWay setting state) {line : Bytes}
    (clean : newline ∉ line) {byte : UInt8} {rest : List Packet}
    (isPackets : state.toSuccessor = .byte byte :: rest)
    (flows : Flows setting state (line.map .byte)) :
    OnItsWay setting ({ state with toSuccessor := rest }.successorTakes setting line byte) := by
  obtain ⟨readable, unbroken, carried, _⟩ := onItsWay
  have stillCarried : rest.any Packet.isDescriptor = true := by
    have was := carried
    rw [State.carries, isPackets] at was
    simpa [Packet.isDescriptor] using was
  have begins := flows.1
  rw [isPackets] at begins
  unfold State.successorTakes readByte
  by_cases isNewline : byte = newline
  · subst isNewline
    simp only [if_true]
    rw [line_of_newline clean begins, hearsMetadata_of_readable readable]
    exact ⟨readable, unbroken, stillCarried, rfl⟩
  · simp only [if_neg isNewline]
    split
    · exact ⟨readable, unbroken, stillCarried, rfl⟩
    · next isLine =>
        split at isLine
        · cases isLine
        · cases isLine
    · next isLong =>
        exfalso
        have stillClean : newline ∉ line ++ [byte] := by simp [clean, Ne.symm isNewline]
        have isPart := length_le_of_flows stillClean (flows.more isPackets)
        have short := isPart.trans (isReadable_iff.mp readable).2
        rw [if_neg (Nat.not_lt.mpr short)] at isLong
        cases isLong

theorem OnItsWay.successorReads (onItsWay : OnItsWay setting state)
    (upstream : Upstream setting state) (unreturned : state.sender.isDone = false) :
    OnItsWay setting (state.successorReads setting) := by
  unfold State.successorReads
  split
  · next line isReading =>
      have place := upstream.place
      rw [isReading] at place
      obtain ⟨clean, flows⟩ := place
      split
      · next byte rest isPackets => exact onItsWay.successorTakes clean isPackets flows
      · next isPackets => exact (descriptor_not_next clean (isPackets ▸ flows.1)).elim
      · next isPackets => exact (descriptor_not_next clean (isPackets ▸ flows.1)).elim
      · rw [onItsWay.unbroken, unreturned]
        exact onItsWay
  · exact onItsWay

theorem OnItsWay.seats (onItsWay : OnItsWay setting state)
    (unreturned : state.sender.isDone = false) :
    OnItsWay setting (state.seats setting none) := by
  obtain ⟨readable, unbroken, carried, expects⟩ := onItsWay
  unfold State.seats
  split
  · next metadata _ =>
      split
      · have here :
          (state.broken || state.sender.isDone) = false := by rw [unbroken, unreturned]; rfl
        rcases writes_spec setting state (.verdict (verdictOf none)) with ⟨gone, _⟩ | ⟨_, same⟩
        · rw [here] at gone
          cases gone
        · rw [if_neg (by rw [here]; exact Bool.false_ne_true), same]
          exact ⟨readable, unbroken, carried, rfl⟩
      · exact ⟨readable, unbroken, carried, rfl⟩
  · exact ⟨readable, unbroken, carried, expects⟩

/-- Where the successor receives, the descriptor is next. -/
theorem OnItsWay.receives (onItsWay : OnItsWay setting state) (upstream : Upstream setting state) :
    state.receives.received = true ∨ OnItsWay setting state.receives := by
  unfold State.receives
  split
  · next metadata isReceiving =>
      have knows := upstream.place
      rw [isReceiving] at knows
      have isNext : state.toSuccessor = [setting.descriptor] := by
        have carried := onItsWay.carried
        rcases knows with ⟨_, begins, _⟩ | ⟨nothing, _⟩
        · rw [Setting.upstream, List.prefix_append_right_inj] at begins
          rcases List.prefix_cons_iff.mp begins with nothing | ⟨others, isPackets, noOthers⟩
          · rw [State.carries, nothing] at carried
            cases carried
          · rw [isPackets, List.prefix_nil.mp noOthers]
        · rw [State.carries, nothing] at carried
          cases carried
      rw [isNext]
      unfold Setting.descriptor
      dsimp only
      split
      · exact .inl rfl
      · exact .inl rfl
  · exact .inr onItsWay

/-! ## Runs -/

/-- What was received stays received. -/
theorem received_step (isReceived : state.received = true) (action : Action) :
    (step setting state action).received = true := by
  cases isSender : action.isSender with
  | true =>
      obtain ⟨support, sender, toSuccessor, toSender, ackTimedOut, same, _⟩ :=
        @step_of_sender setting state action isSender
      rw [same]
      exact isReceived
  | false => exact (@handles_step setting state action isSender).received isReceived

/-- Before the commit point a step gets past it only by sending the descriptor, which is then
on its way. -/
theorem Delivered.of_uncommitted (uncommitted : state.sender.committed = false) (action : Action)
    (steady : Steady setting state action = true) :
    Delivered setting (step setting state action) := by
  have still : (step setting state action).sender.committed = state.sender.committed →
      Delivered setting (step setting state action) := by
    intro same committed
    rw [same, uncommitted] at committed
    cases committed
  cases action with
  | connects reached =>
      obtain ⟨sender, same, stays⟩ := connects_spec state reached
      refine still ?_
      change (state.connects reached).sender.committed = _
      rw [same]
      exact stays.1
  | writesMetadata failsAfter =>
      obtain ⟨sender, toSuccessor, same, stays, _⟩ := writesMetadata_spec setting state failsAfter
      refine still ?_
      change (state.writesMetadata setting failsAfter).sender.committed = _
      rw [same]
      exact stays
  | senderReads =>
      obtain ⟨support, sender, toSender, same, stays⟩ := senderReads_spec setting state
      refine still ?_
      change (state.senderReads setting).sender.committed = _
      rw [same]
      exact stays.1
  | senderReadFails =>
      obtain ⟨sender, same, stays⟩ := senderReadFails_spec state
      refine still ?_
      change state.senderReadFails.sender.committed = _
      rw [same]
      exact stays.1
  | timesOut =>
      obtain ⟨support, sender, ackTimedOut, same, stays⟩ := timesOut_spec state
      refine still ?_
      change state.timesOut.sender.committed = _
      rw [same]
      exact stays.1
  | sendsFd succeeds =>
      rcases sendsFd_spec setting state succeeds with
        ⟨sender, same, stays, _⟩ | ⟨isSuccess, isSending, unbroken, same⟩
      · refine still ?_
        change (state.sendsFd setting succeeds).sender.committed = _
        rw [same]
        exact stays
      · change Delivered setting (state.sendsFd setting succeeds)
        rw [same]
        obtain ⟨readable, expects⟩ :
            setting.isReadable = true ∧ state.successor.expects = true := by
          simpa [Steady, isSuccess] using steady
        refine fun _ => .inr ⟨rfl, readable, unbroken, ?_, expects⟩
        simp [State.carries, Setting.descriptor, Packet.isDescriptor]
  | breaks toSuccessor toSender => exact still rfl
  | successorReads => exact still (congrArg _ (handles_successorReads setting state).sender)
  | successorReadFails => exact still (congrArg _ (handles_successorReadFails state).sender)
  | seats conflict => exact still (congrArg _ (handles_seats setting state conflict).sender)
  | receives => exact still (congrArg _ (handles_receives state).sender)
  | adopts outcome => exact still (congrArg _ (handles_adopts state outcome).sender)
  | answers => exact still (congrArg _ (handles_answers setting state).sender)
  | closes => exact still (congrArg _ (handles_closes state).sender)

/-- While the descriptor is on its way it stays so, until it is received. -/
theorem OnItsWay.step (onItsWay : OnItsWay setting state) (spoken : Spoken setting state)
    (upstream : Upstream setting state) (downstream : Downstream setting state)
    {left : Nat} {line : Bytes} (isSender : state.sender = .awaitingAck left line)
    (action : Action) (steady : Steady setting state action = true) :
    (step setting state action).received = true ∨
      ((step setting state action).sender.isDone = false ∧
        OnItsWay setting (step setting state action)) := by
  have unreturned : state.sender.isDone = false := by rw [isSender]; rfl
  have unanswered : state.successor.expects ≠ false := by simp [onItsWay.expects]
  have stays : ∀ after : State, after.sender = state.sender → OnItsWay setting after →
      after.received = true ∨ (after.sender.isDone = false ∧ OnItsWay setting after) :=
    fun after same still => .inr ⟨by rw [same, unreturned], still⟩
  have rests : ∀ after : State, after = state →
      after.received = true ∨ (after.sender.isDone = false ∧ OnItsWay setting after) := by
    rintro _ rfl
    exact .inr ⟨unreturned, onItsWay⟩
  cases action with
  | connects reached => exact rests _ (by simp only [PtyHandoff.step, State.connects, isSender])
  | writesMetadata failsAfter =>
      exact rests _ (by simp only [PtyHandoff.step, State.writesMetadata, isSender])
  | senderReads =>
      obtain ⟨sender, toSender, same, reading⟩ := onItsWay.senderReads spoken downstream isSender
      have isStep :
        PtyHandoff.step setting state .senderReads = { state with sender, toSender } := same
      rw [isStep]
      exact .inr ⟨reading, onItsWay.readable, onItsWay.unbroken, onItsWay.carried, onItsWay.expects⟩
  | senderReadFails =>
      refine rests _ ?_
      simp only [PtyHandoff.step, State.senderReadFails, onItsWay.not_over, Bool.false_eq_true,
        if_false]
  | timesOut =>
      simp [Steady, isSender, onItsWay.carried] at steady
  | sendsFd succeeds => exact rests _ (by simp only [PtyHandoff.step, State.sendsFd, isSender])
  | breaks toSuccessor toSender =>
      simp [Steady, onItsWay.carried] at steady
  | successorReads =>
      exact stays _ (handles_successorReads setting state).sender
        (onItsWay.successorReads upstream unreturned)
  | successorReadFails =>
      refine rests _ ?_
      simp only [PtyHandoff.step, State.successorReadFails, onItsWay.unbroken, Bool.and_false,
        Bool.false_eq_true, if_false]
      split
      · rfl
      · rfl
  | seats conflict =>
      cases conflict with
      | none => exact stays _ (handles_seats setting state none).sender (onItsWay.seats unreturned)
      | some reason =>
          simp [Steady, onItsWay.carried] at steady
  | receives =>
      rcases onItsWay.receives upstream with isReceived | still
      · exact .inl isReceived
      · exact stays _ (handles_receives state).sender still
  | adopts outcome =>
      refine rests _ ?_
      change state.adopts outcome = state
      unfold State.adopts
      split
      · next isAdopting => exact (unanswered (by rw [isAdopting]; rfl)).elim
      · rfl
  | answers =>
      refine rests _ ?_
      change state.answers setting = state
      unfold State.answers
      split
      · next isAnswering => exact (unanswered (by rw [isAnswering]; rfl)).elim
      · rfl
  | closes =>
      refine rests _ ?_
      change state.closes = state
      unfold State.closes
      split
      · next isDone => exact (unanswered (by rw [isDone]; rfl)).elim
      · rfl

/-- What holds of a run whose waits for the verdict never end in the middle of a line. -/
structure Sound (setting : Setting) (state : State) : Prop where
  spoken : Spoken setting state
  placed : Placed state
  upstream : Upstream setting state
  downstream : Downstream setting state

theorem Sound.step (sound : Sound setting state) (action : Action)
    (uncut : NoCut state action = true) :
    Sound setting (step setting state action) :=
  ⟨sound.spoken.step action, sound.placed.step action, sound.upstream.step action,
    sound.downstream.step sound.spoken sound.placed action uncut⟩

theorem sound_initial (support : PrecommitSupport) : Sound setting (initial support) := by
  refine ⟨⟨rfl, rfl⟩, ⟨?_, ?_⟩, upstream_initial support, downstream_initial support⟩
  · rintro (isReceived | ⟨token, member⟩)
    · cases isReceived
    · cases member
  · rintro (⟨metadata, isAdopting⟩ | isAdopted)
    · cases isAdopting
    · cases isAdopted

theorem Delivered.step (delivered : Delivered setting state) (sound : Sound setting state)
    (action : Action) (steady : Steady setting state action = true) :
    Delivered setting (step setting state action) := by
  cases isCommitted : state.sender.committed with
  | false => exact Delivered.of_uncommitted isCommitted action steady
  | true =>
      intro _
      rcases delivered isCommitted with isReceived | ⟨unreturned, onItsWay⟩
      · exact .inl (received_step isReceived action)
      · cases isSender : state.sender with
        | awaitingAck left line =>
            exact onItsWay.step sound.spoken sound.upstream sound.downstream isSender action steady
        | done result =>
            rw [isSender] at unreturned
            cases unreturned
        | _ =>
            rw [isSender] at isCommitted
            cases isCommitted

end Yggterm.PtyHandoff
