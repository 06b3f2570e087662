import Mathlib.Data.List.Infix
import Yggterm.Library.Runs
import Yggterm.PtyHandoff.Session

/-!
# What holds in every handoff

Whatever the delays, timeouts and failures: what the successor has said fits where it is and
what it adopted, a descriptor is on its way or taken only past the commit point, and what is
adopted is the session that was sent.
-/

namespace Yggterm.PtyHandoff

open LineStreams Text Runs

variable {setting : Setting} {state : State}

/-! ## What each party's steps leave alone -/

def Message.isVerdict : Message → Bool
  | .verdict _ => true
  | .ack _ => false

def Action.isSender : Action → Bool
  | .connects _ => true
  | .writesMetadata _ => true
  | .senderReads => true
  | .senderReadFails => true
  | .timesOut => true
  | .sendsFd _ => true
  | _ => false

/-- Past the commit point: the descriptor was sent. -/
def Sender.committed : Sender → Bool
  | .awaitingAck _ _ => true
  | .done (.ok _) => true
  | .done (.error error) => error.committed
  | _ => false

/-- How far the sender has got. -/
inductive Stage where
  | starting
  | told
  | sent
  | returned
  deriving DecidableEq

def Sender.stage : Sender → Stage
  | .connecting => .starting
  | .writing => .starting
  | .awaitingVerdict _ => .told
  | .sending => .told
  | .awaitingAck _ _ => .sent
  | .done _ => .returned

/-- A sender that got no further than it was, or returned. -/
def Stays (before after : Sender) : Prop :=
  after.committed = before.committed ∧ (after.stage = .returned ∨ after.stage = before.stage)

theorem Stays.refl (sender : Sender) : Stays sender sender := ⟨rfl, .inr rfl⟩

theorem hearsVerdict_spec (setting : Setting) (state : State) (line : Bytes) :
    ∃ support sender, state.hearsVerdict setting line = { state with support, sender } ∧
      ((∃ verdict, setting.codec.readVerdict line = some verdict ∧ sender = .sending) ∨
        ∃ refused, sender = .done (.error ⟨false, refused⟩)) := by
  unfold State.hearsVerdict
  split
  · exact ⟨_, _, rfl, .inr ⟨false, rfl⟩⟩
  split
  · exact ⟨_, _, rfl, .inr ⟨false, rfl⟩⟩
  · next verdict isRead =>
      split
      · exact ⟨_, _, rfl, .inl ⟨verdict, isRead, rfl⟩⟩
      · exact ⟨_, _, rfl, .inr ⟨true, rfl⟩⟩

theorem hearsAck_spec (setting : Setting) (state : State) (left : Nat) (line : Bytes) :
    ∃ sender, state.hearsAck setting left line = { state with sender } ∧
      ((setting.codec.isPrecommitVerdict line = true ∧ sender = .awaitingAck (left - 1) []) ∨
        (setting.codec.isPrecommitVerdict line = false ∧
          ∃ ack, setting.codec.readAck line = some ack ∧ ack.adopted = true ∧
            sender = .done (.ok ack)) ∨
        ∃ refused, sender = .done (.error ⟨true, refused⟩) ∧
          (isBlank line = true ∨ (setting.codec.isPrecommitVerdict line = true ∧ left ≤ 1) ∨
            (setting.codec.isPrecommitVerdict line = false ∧
              ∀ ack, setting.codec.readAck line = some ack → ack.adopted = false))) := by
  unfold State.hearsAck
  split
  · next blank => exact ⟨_, rfl, .inr (.inr ⟨false, rfl, .inl blank⟩)⟩
  split
  · next isVerdict =>
      split
      · next last => exact ⟨_, rfl, .inr (.inr ⟨false, rfl, .inr (.inl ⟨isVerdict, last⟩)⟩)⟩
      · exact ⟨_, rfl, .inl ⟨isVerdict, rfl⟩⟩
  · next notVerdict =>
      rw [Bool.not_eq_true] at notVerdict
      split
      · next notRead =>
          refine ⟨_, rfl, .inr (.inr ⟨false, rfl, .inr (.inr ⟨notVerdict, ?_⟩)⟩)⟩
          intro ack isRead
          rw [notRead] at isRead
          cases isRead
      · next ack isRead =>
          split
          · next adopted =>
              exact ⟨_, rfl, .inr (.inl ⟨notVerdict, ack, isRead, adopted, rfl⟩)⟩
          · next refused =>
              refine ⟨_, rfl, .inr (.inr ⟨true, rfl, .inr (.inr ⟨notVerdict, ?_⟩)⟩)⟩
              intro other isOther
              rw [isRead] at isOther
              cases isOther
              exact Bool.not_eq_true _ ▸ refused

/-- What a byte makes of the sender. -/
theorem senderTakes_spec (setting : Setting) (state : State) (byte : UInt8) :
    ∃ support sender, state.senderTakes setting byte = { state with support, sender } ∧
      Stays state.sender sender := by
  unfold State.senderTakes
  split
  · next isSender =>
      split
      · exact ⟨_, _, rfl, isSender ▸ ⟨rfl, .inr rfl⟩⟩
      · next line _ =>
          obtain ⟨support, sender, same, ⟨_, _, rfl⟩ | ⟨refused, rfl⟩⟩ :=
            hearsVerdict_spec setting state line
          · exact ⟨support, _, same, isSender ▸ ⟨rfl, .inr rfl⟩⟩
          · exact ⟨support, _, same, isSender ▸ ⟨rfl, .inl rfl⟩⟩
      · exact ⟨_, _, rfl, isSender ▸ ⟨rfl, .inl rfl⟩⟩
  · next left _ isSender =>
      split
      · exact ⟨_, _, rfl, isSender ▸ ⟨rfl, .inr rfl⟩⟩
      · next line _ =>
          obtain ⟨sender, same, ⟨_, rfl⟩ | ⟨_, ack, _, _, rfl⟩ | ⟨refused, rfl, _⟩⟩ :=
            hearsAck_spec setting state left line
          · exact ⟨_, _, same, isSender ▸ ⟨rfl, .inr rfl⟩⟩
          · exact ⟨_, _, same, isSender ▸ ⟨rfl, .inl rfl⟩⟩
          · exact ⟨_, _, same, isSender ▸ ⟨rfl, .inl rfl⟩⟩
      · exact ⟨_, _, rfl, isSender ▸ ⟨rfl, .inl rfl⟩⟩
  · exact ⟨_, _, rfl, Stays.refl _⟩

theorem senderEnds_spec (setting : Setting) (state : State) :
    ∃ support sender, state.senderEnds setting = { state with support, sender } ∧
      Stays state.sender sender := by
  unfold State.senderEnds
  split
  · next line isSender =>
      obtain ⟨support, sender, same, ⟨_, _, rfl⟩ | ⟨refused, rfl⟩⟩ :=
        hearsVerdict_spec setting state line
      · exact ⟨support, _, same, isSender ▸ ⟨rfl, .inr rfl⟩⟩
      · exact ⟨support, _, same, isSender ▸ ⟨rfl, .inl rfl⟩⟩
  · next left line isSender =>
      obtain ⟨sender, same, ⟨_, rfl⟩ | ⟨_, ack, _, _, rfl⟩ | ⟨refused, rfl, _⟩⟩ :=
        hearsAck_spec setting state left line
      · exact ⟨_, _, same, isSender ▸ ⟨rfl, .inr rfl⟩⟩
      · exact ⟨_, _, same, isSender ▸ ⟨rfl, .inl rfl⟩⟩
      · exact ⟨_, _, same, isSender ▸ ⟨rfl, .inl rfl⟩⟩
  · exact ⟨_, _, rfl, Stays.refl _⟩

/-- No descriptor is in the second list that is not in the first. -/
def NoNewDescriptor (before after : List Packet) : Prop :=
  ∀ token, .descriptor token ∈ after → .descriptor token ∈ before

theorem NoNewDescriptor.refl (packets : List Packet) : NoNewDescriptor packets packets :=
  fun _ member => member

theorem descriptor_not_mem_bytes (bytes : Bytes) (token : Bytes) :
    Packet.descriptor token ∉ bytes.map Packet.byte := by
  simp

/-- A step of the sender leaves the successor alone.  It gets past the commit point only by
sending the descriptor, and no other step sends one. -/
theorem senderReads_spec (setting : Setting) (state : State) :
    ∃ support sender toSender, state.senderReads setting =
      { state with support, sender, toSender } ∧
      Stays state.sender sender := by
  unfold State.senderReads
  split
  · exact ⟨_, _, _, rfl, Stays.refl _⟩
  · split
    · next byte rest _ =>
        obtain ⟨support, sender, same, committed⟩ :=
          senderTakes_spec setting { state with toSender := rest } byte
        exact ⟨support, sender, rest, same, committed⟩
    · split
      · obtain ⟨support, sender, same, committed⟩ := senderEnds_spec setting state
        exact ⟨support, sender, _, same, committed⟩
      · exact ⟨_, _, _, rfl, Stays.refl _⟩

theorem senderReadFails_spec (state : State) :
    ∃ sender, state.senderReadFails = { state with sender } ∧
      Stays state.sender sender := by
  unfold State.senderReadFails
  split
  · split
    · next isSender => exact ⟨_, rfl, isSender ▸ ⟨rfl, .inl rfl⟩⟩
    · next isSender => exact ⟨_, rfl, isSender ▸ ⟨rfl, .inl rfl⟩⟩
    · exact ⟨_, rfl, Stays.refl _⟩
  · exact ⟨_, rfl, Stays.refl _⟩

theorem timesOut_spec (state : State) :
    ∃ support sender ackTimedOut, state.timesOut = { state with support, sender, ackTimedOut } ∧
      Stays state.sender sender := by
  unfold State.timesOut
  split
  · next isSender => exact ⟨_, _, _, rfl, isSender ▸ ⟨rfl, .inr rfl⟩⟩
  · next isSender => exact ⟨_, _, _, rfl, isSender ▸ ⟨rfl, .inl rfl⟩⟩
  · exact ⟨_, _, _, rfl, Stays.refl _⟩

theorem connects_spec (state : State) (reached : Bool) :
    ∃ sender, state.connects reached = { state with sender } ∧
      Stays state.sender sender := by
  unfold State.connects
  split
  · next isSender =>
      split
      · exact ⟨_, rfl, isSender ▸ ⟨rfl, .inr rfl⟩⟩
      · exact ⟨_, rfl, isSender ▸ ⟨rfl, .inl rfl⟩⟩
  · exact ⟨_, rfl, Stays.refl _⟩

theorem writesMetadata_spec (setting : Setting) (state : State) (failsAfter : Option Nat) :
    ∃ sender toSuccessor, state.writesMetadata setting failsAfter =
        { state with sender, toSuccessor } ∧
      sender.committed = state.sender.committed ∧
      NoNewDescriptor state.toSuccessor toSuccessor := by
  unfold State.writesMetadata
  split
  · next isSender =>
      split
      · exact ⟨_, _, rfl, isSender ▸ rfl, NoNewDescriptor.refl _⟩
      · split
        · next count =>
            refine ⟨_, _, rfl, isSender ▸ rfl, ?_⟩
            intro token member
            rcases List.mem_append.mp member with old | new
            · exact old
            · exact absurd ((List.take_sublist _ _).subset new) (descriptor_not_mem_bytes _ token)
        · refine ⟨_, _, rfl, ?_, ?_⟩
          · rw [isSender]
            split
            · rfl
            · rfl
          · intro token member
            rcases List.mem_append.mp member with old | new
            · exact old
            · exact absurd new (descriptor_not_mem_bytes _ token)
  · exact ⟨_, _, rfl, rfl, NoNewDescriptor.refl _⟩

theorem sendsFd_spec (setting : Setting) (state : State) (succeeds : Bool) :
    (∃ sender, state.sendsFd setting succeeds = { state with sender } ∧
      sender.committed = state.sender.committed ∧
      (sender = state.sender ∨ sender = .done (.error ⟨false, false⟩))) ∨
    (succeeds = true ∧ state.sender = .sending ∧ state.broken = false ∧
      state.sendsFd setting succeeds =
        { state with
          toSuccessor := state.toSuccessor ++ [setting.descriptor]
          sender := .awaitingAck 2 [] }) := by
  unfold State.sendsFd
  split
  · next isSender =>
      split
      · next goes =>
          simp only [Bool.and_eq_true, Bool.not_eq_true'] at goes
          exact .inr ⟨goes.1.1.1, isSender, goes.1.1.2, rfl⟩
      · exact .inl ⟨_, rfl, isSender ▸ rfl, .inr rfl⟩
  · exact .inl ⟨_, rfl, rfl, .inl rfl⟩

theorem hearsMetadata_spec (setting : Setting) (state : State) (line : Bytes) :
    ∃ successor, state.hearsMetadata setting line = { state with successor } ∧
      ((∃ metadata, setting.codec.readMetadata line = some metadata ∧
          successor = .seating (setting.heard metadata)) ∨
        ∃ served, served.adopted = false ∧ successor = .answering served) := by
  unfold State.hearsMetadata
  split
  · exact ⟨_, rfl, .inr ⟨_, rfl, rfl⟩⟩
  · split
    · exact ⟨_, rfl, .inr ⟨_, rfl, rfl⟩⟩
    · next metadata isRead =>
        split
        · exact ⟨_, rfl, .inr ⟨_, rfl, rfl⟩⟩
        · exact ⟨_, rfl, .inl ⟨metadata, isRead, rfl⟩⟩

theorem successorTakes_spec (setting : Setting) (state : State) (line : Bytes) (byte : UInt8) :
    ∃ successor, state.successorTakes setting line byte = { state with successor } ∧
      ((∃ more, successor = .reading more) ∨ (∃ metadata, successor = .seating metadata) ∨
        ∃ served, served.adopted = false ∧ successor = .answering served) := by
  unfold State.successorTakes
  split
  · exact ⟨_, rfl, .inl ⟨_, rfl⟩⟩
  · next line _ =>
      obtain ⟨successor, same, ⟨metadata, _, rfl⟩ | ⟨served, refused, rfl⟩⟩ :=
        hearsMetadata_spec setting state line
      · exact ⟨_, same, .inr (.inl ⟨_, rfl⟩)⟩
      · exact ⟨_, same, .inr (.inr ⟨served, refused, rfl⟩)⟩
  · exact ⟨_, rfl, .inr (.inr ⟨_, rfl, rfl⟩)⟩

/-- While it reads, the successor goes on reading, seats what it read, or refuses. -/
theorem successorReads_spec (setting : Setting) (state : State) :
    state.successorReads setting = state ∨
      ∃ line successor toSuccessor, state.successor = .reading line ∧
        state.successorReads setting = { state with successor, toSuccessor } ∧
        NoNewDescriptor state.toSuccessor toSuccessor ∧
        ((∃ more, successor = .reading more) ∨ (∃ metadata, successor = .seating metadata) ∨
          ∃ served, served.adopted = false ∧ successor = .answering served) := by
  unfold State.successorReads
  split
  · next line isReading =>
      refine .inr ⟨line, ?_⟩
      split
      · next byte rest isPackets =>
          obtain ⟨successor, same, becomes⟩ :=
            successorTakes_spec setting { state with toSuccessor := rest } line byte
          refine ⟨successor, rest, isReading, same, ?_, becomes⟩
          intro token member
          exact isPackets ▸ List.mem_cons_of_mem _ member
      · next rest isPackets =>
          refine ⟨.reading line, rest, isReading, ?_, ?_, .inl ⟨line, rfl⟩⟩
          · rw [← isReading]
          · intro token member
            exact isPackets ▸ List.mem_cons_of_mem _ member
      · next byte others rest isPackets =>
          obtain ⟨successor, same, becomes⟩ := successorTakes_spec setting
            { state with toSuccessor := others.map Packet.byte ++ rest } line byte
          refine ⟨successor, _, isReading, same, ?_, becomes⟩
          intro token member
          rcases List.mem_append.mp member with inBytes | inRest
          · exact absurd inBytes (descriptor_not_mem_bytes _ token)
          · exact isPackets ▸ List.mem_cons_of_mem _ inRest
      · split
        · obtain ⟨successor, same, ⟨metadata, _, rfl⟩ | ⟨served, refused, rfl⟩⟩ :=
            hearsMetadata_spec setting state line
          · exact ⟨_, _, isReading, same, NoNewDescriptor.refl _, .inr (.inl ⟨_, rfl⟩)⟩
          · exact ⟨_, _, isReading, same, NoNewDescriptor.refl _,
              .inr (.inr ⟨served, refused, rfl⟩)⟩
        · refine ⟨.reading line, state.toSuccessor, isReading, ?_, NoNewDescriptor.refl _,
            .inl ⟨line, rfl⟩⟩
          rw [← isReading]
  · exact .inl rfl

/-! ## What the successor has said -/

/-- Nothing, or a verdict, which goes ahead where the session may be adopted. -/
def Opening (accepted : Bool) (said : List Message) : Prop :=
  said = [] ∨ ∃ conflict, (accepted = true → conflict = none) ∧
    said = [.verdict (verdictOf conflict)]

theorem Opening.mono {said : List Message} (opening : Opening true said) (accepted : Bool) :
    Opening accepted said :=
  opening.imp_right fun ⟨conflict, goesAhead, same⟩ => ⟨conflict, fun _ => goesAhead rfl, same⟩

/-- What the successor has said, and what it adopted, where it is. -/
def Spoken (setting : Setting) (state : State) : Prop :=
  match state.successor with
  | .reading _ => state.said = [] ∧ state.adopted = none
  | .seating _ => state.said = [] ∧ state.adopted = none
  | .receiving _ => Opening true state.said ∧ state.adopted = none
  | .adopting _ => Opening true state.said ∧ state.adopted = none
  | .answering served =>
      Opening served.adopted state.said ∧ served.adopted = state.adopted.isSome
  | .done served =>
      (Opening served.adopted state.said ∨ ∃ opening, Opening served.adopted opening ∧
        state.said = opening ++ [.ack (served.ack setting)]) ∧
      served.adopted = state.adopted.isSome
  | .closed served =>
      (Opening served.adopted state.said ∨ ∃ opening, Opening served.adopted opening ∧
        state.said = opening ++ [.ack (served.ack setting)]) ∧
      served.adopted = state.adopted.isSome

theorem adopted_ack (setting : Setting) (served : HandoffServed) :
    (served.ack setting).adopted = served.adopted := by
  unfold HandoffServed.ack
  split
  · next adopted => rw [adopted]; rfl
  · next refused => rw [Bool.not_eq_true] at refused; rw [refused]; rfl

theorem writes_spec (setting : Setting) (state : State) (message : Message) :
    ((state.broken || state.sender.isDone) = true ∧
      state.writes setting message = { state with lost := true }) ∨
    ((state.broken || state.sender.isDone) = false ∧
      state.writes setting message = { state with
        toSender := state.toSender ++ (setting.codec.line message ++ [newline])
        said := state.said ++ [message] }) := by
  unfold State.writes
  split
  · next gone => exact .inl ⟨gone, rfl⟩
  · next open_ => exact .inr ⟨by simpa using open_, rfl⟩

theorem Spoken.successorReads (spoken : Spoken setting state) :
    Spoken setting (state.successorReads setting) := by
  rcases successorReads_spec setting state with same |
    ⟨line, successor, toSuccessor, isReading, same, _, becomes⟩
  · rwa [same]
  · rw [Spoken, isReading] at spoken
    obtain ⟨nothing, unadopted⟩ := spoken
    rw [same]
    rcases becomes with ⟨more, rfl⟩ | ⟨metadata, rfl⟩ | ⟨served, refused, rfl⟩
    · exact ⟨nothing, unadopted⟩
    · exact ⟨nothing, unadopted⟩
    · refine ⟨.inl nothing, ?_⟩
      rw [refused, unadopted]
      rfl

theorem Spoken.refuses (opening : Opening false state.said) (unadopted : state.adopted = none)
    {served : HandoffServed} (refused : served.adopted = false) :
    Spoken setting (state.refuses served) := by
  refine ⟨refused ▸ opening, ?_⟩
  change served.adopted = state.adopted.isSome
  rw [refused, unadopted]
  rfl

theorem Spoken.successorReadFails (spoken : Spoken setting state) :
    Spoken setting state.successorReadFails := by
  unfold State.successorReadFails
  split
  · next line isReading =>
      split
      · rw [Spoken, isReading] at spoken
        exact Spoken.refuses (.inl spoken.1) spoken.2 rfl
      · exact spoken
  · exact spoken

theorem precommit_verdictOf (conflict : Option (List Char)) :
    (verdictOf conflict).precommit = true := by
  cases conflict with
  | none => rfl
  | some reason => rfl

theorem Spoken.decided {metadata : HandoffMetadata} {conflict : Option (List Char)}
    (opening : Opening conflict.isNone state.said) (unadopted : state.adopted = none) :
    Spoken setting { state with successor := decided metadata conflict } := by
  cases conflict with
  | none => exact ⟨opening, unadopted⟩
  | some reason => exact Spoken.refuses opening unadopted rfl

theorem Spoken.seats (spoken : Spoken setting state) (conflict : Option (List Char)) :
    Spoken setting (state.seats setting conflict) := by
  unfold State.seats
  split
  · next metadata isSeating =>
      rw [Spoken, isSeating] at spoken
      obtain ⟨nothing, unadopted⟩ := spoken
      split
      · rcases writes_spec setting state (.verdict (verdictOf conflict)) with
          ⟨gone, same⟩ | ⟨here, same⟩
        · rw [if_pos gone, same]
          exact @Spoken.refuses setting _ (.inl nothing) unadopted _ rfl
        · rw [if_neg (by simp [here]), same]
          refine Spoken.decided (.inr ⟨conflict, Option.isNone_iff_eq_none.mp, ?_⟩) unadopted
          simp [nothing]
      · exact Spoken.decided (.inl nothing) unadopted
  · exact spoken

/-- The descriptor is taken where it is the next thing in flight. -/
theorem receives_spec (state : State) :
    state.receives = state ∨
      (∃ metadata served, state.successor = .receiving metadata ∧ served.adopted = false ∧
        state.receives = state.refuses served) ∨
      ∃ metadata token rest successor, state.successor = .receiving metadata ∧
        state.toSuccessor = .descriptor token :: rest ∧
        state.receives = { state with toSuccessor := rest, received := true, successor } ∧
        (successor = .adopting metadata ∨
          ∃ served, served.adopted = false ∧ successor = .answering served) := by
  unfold State.receives
  split
  · next metadata isReceiving =>
      split
      · next token rest isPackets =>
          refine .inr (.inr ⟨metadata, token, rest, ?_⟩)
          split
          · exact ⟨_, isReceiving, isPackets, rfl, .inl rfl⟩
          · exact ⟨_, isReceiving, isPackets, rfl, .inr ⟨_, rfl, rfl⟩⟩
      · exact .inr (.inl ⟨metadata, _, isReceiving, rfl, rfl⟩)
      · split
        · exact .inr (.inl ⟨metadata, _, isReceiving, rfl, rfl⟩)
        · exact .inl rfl
  · exact .inl rfl

theorem Spoken.receives (spoken : Spoken setting state) : Spoken setting state.receives := by
  rcases receives_spec state with same | ⟨metadata, served, isReceiving, refused, same⟩ |
    ⟨metadata, token, rest, successor, isReceiving, _, same, becomes⟩
  · rwa [same]
  · rw [Spoken, isReceiving] at spoken
    rw [same]
    exact Spoken.refuses (spoken.1.mono false) spoken.2 refused
  · rw [Spoken, isReceiving] at spoken
    obtain ⟨opening, unadopted⟩ := spoken
    rw [same]
    rcases becomes with rfl | ⟨served, refused, rfl⟩
    · exact ⟨opening, unadopted⟩
    · refine ⟨opening.mono _, ?_⟩
      simp [refused, unadopted]

theorem Spoken.adopts (spoken : Spoken setting state) (outcome : Except (List Char) Unit) :
    Spoken setting (state.adopts outcome) := by
  unfold State.adopts
  split
  · next metadata isAdopting =>
      rw [Spoken, isAdopting] at spoken
      obtain ⟨opening, unadopted⟩ := spoken
      split
      · exact ⟨opening, rfl⟩
      · refine ⟨opening.mono _, ?_⟩
        simp [unadopted]
  · exact spoken

theorem Spoken.answers (spoken : Spoken setting state) :
    Spoken setting (state.answers setting) := by
  unfold State.answers
  split
  · next served isAnswering =>
      rw [Spoken, isAnswering] at spoken
      obtain ⟨opening, sameAnswer⟩ := spoken
      rcases writes_spec setting state (.ack (served.ack setting)) with ⟨_, same⟩ | ⟨_, same⟩
      · rw [same]
        exact ⟨.inl opening, sameAnswer⟩
      · rw [same]
        exact ⟨.inr ⟨state.said, opening, rfl⟩, sameAnswer⟩
  · exact spoken

theorem Spoken.closes (spoken : Spoken setting state) : Spoken setting state.closes := by
  unfold State.closes
  split
  · next served isDone =>
      rw [Spoken, isDone] at spoken
      exact spoken
  · exact spoken

/-- A step of the sender leaves alone what is the successor's.  Only by sending the descriptor
does it get past the commit point, or a descriptor into flight. -/
theorem step_of_sender {action : Action} (isSender : action.isSender = true) :
    ∃ support sender toSuccessor toSender ackTimedOut,
      step setting state action =
        { state with support, sender, toSuccessor, toSender, ackTimedOut } ∧
      ((sender.committed = state.sender.committed ∧
          NoNewDescriptor state.toSuccessor toSuccessor) ∨ sender.committed = true) := by
  cases action with
  | connects reached =>
      obtain ⟨sender, same, stays⟩ := connects_spec state reached
      exact ⟨_, sender, _, _, _, same, .inl ⟨stays.1, NoNewDescriptor.refl _⟩⟩
  | writesMetadata failsAfter =>
      obtain ⟨sender, toSuccessor, same, committed, nothingNew⟩ :=
        writesMetadata_spec setting state failsAfter
      exact ⟨_, sender, toSuccessor, _, _, same, .inl ⟨committed, nothingNew⟩⟩
  | senderReads =>
      obtain ⟨support, sender, toSender, same, stays⟩ := senderReads_spec setting state
      exact ⟨support, sender, _, toSender, _, same, .inl ⟨stays.1, NoNewDescriptor.refl _⟩⟩
  | senderReadFails =>
      obtain ⟨sender, same, stays⟩ := senderReadFails_spec state
      exact ⟨_, sender, _, _, _, same, .inl ⟨stays.1, NoNewDescriptor.refl _⟩⟩
  | timesOut =>
      obtain ⟨support, sender, ackTimedOut, same, stays⟩ := timesOut_spec state
      exact ⟨support, sender, _, _, ackTimedOut, same, .inl ⟨stays.1, NoNewDescriptor.refl _⟩⟩
  | sendsFd succeeds =>
      rcases sendsFd_spec setting state succeeds with ⟨sender, same, committed, _⟩ | ⟨_, _, _, same⟩
      · exact ⟨_, sender, _, _, _, same, .inl ⟨committed, NoNewDescriptor.refl _⟩⟩
      · exact ⟨_, _, _, _, _, same, .inr rfl⟩
  | breaks toSuccessor toSender => cases isSender
  | successorReads => cases isSender
  | successorReadFails => cases isSender
  | seats conflict => cases isSender
  | receives => cases isSender
  | adopts outcome => cases isSender
  | answers => cases isSender
  | closes => cases isSender

theorem Spoken.step (spoken : Spoken setting state) (action : Action) :
    Spoken setting (step setting state action) := by
  by_cases isSender : action.isSender = true
  · obtain ⟨support, sender, toSuccessor, toSender, ackTimedOut, same, _⟩ :=
      @step_of_sender setting state action isSender
    rw [same]
    exact spoken
  · cases action with
    | breaks toSuccessor toSender => exact spoken
    | successorReads => exact spoken.successorReads
    | successorReadFails => exact spoken.successorReadFails
    | seats conflict => exact spoken.seats conflict
    | receives => exact spoken.receives
    | adopts outcome => exact spoken.adopts outcome
    | answers => exact spoken.answers
    | closes => exact spoken.closes
    | _ => exact absurd rfl isSender

/-! ## Where the descriptor is -/

/-- The descriptor is on its way, or was taken out of the successor's socket. -/
def State.inTransit (state : State) : Prop :=
  state.received = true ∨ ∃ token, .descriptor token ∈ state.toSuccessor

structure Placed (state : State) : Prop where
  sent : state.inTransit → state.sender.committed = true
  taken : (∃ metadata, state.successor = .adopting metadata) ∨ state.adopted.isSome = true →
    state.received = true

/-- What a step of the successor, or a break, does with the descriptor. -/
structure Handles (before after : State) : Prop where
  sender : after.sender = before.sender
  transit : after.inTransit → before.inTransit
  received : before.received = true → after.received = true
  taken : (∃ metadata, after.successor = .adopting metadata) ∨ after.adopted.isSome = true →
    after.received = true ∨ (∃ metadata, before.successor = .adopting metadata) ∨
      before.adopted.isSome = true

theorem Handles.of_same {before after : State} (sender : after.sender = before.sender)
    (received : after.received = before.received) (adopted : after.adopted = before.adopted)
    (nothingNew : NoNewDescriptor before.toSuccessor after.toSuccessor)
    (successor : after.successor = before.successor ∨
      ∀ metadata, after.successor ≠ .adopting metadata) : Handles before after := by
  refine ⟨sender, ?_, fun was => by rw [received, was], ?_⟩
  · rintro (was | ⟨token, member⟩)
    · exact .inl (received ▸ was)
    · exact .inr ⟨token, nothingNew token member⟩
  · rintro (⟨metadata, isAdopting⟩ | was)
    · rcases successor with same | other
      · exact .inr (.inl ⟨metadata, same ▸ isAdopting⟩)
      · exact absurd isAdopting (other metadata)
    · exact .inr (.inr (adopted ▸ was))

theorem handles_seats (setting : Setting) (state : State) (conflict : Option (List Char)) :
    Handles state (state.seats setting conflict) := by
  unfold State.seats
  split
  · have leads : ∀ metadata other :
        HandoffMetadata, decided metadata conflict ≠ .adopting other := by
      intro metadata other
      cases conflict with
      | none => simp [decided]
      | some reason => simp [decided]
    next metadata _ =>
    split
    · rcases writes_spec setting state (.verdict (verdictOf conflict)) with
        ⟨gone, same⟩ | ⟨here, same⟩
      · rw [if_pos gone, same]
        exact Handles.of_same rfl rfl rfl (NoNewDescriptor.refl _) (.inr (by simp [State.refuses]))
      · rw [if_neg (by simp [here]), same]
        exact Handles.of_same rfl rfl rfl (NoNewDescriptor.refl _) (.inr (leads metadata))
    · exact Handles.of_same rfl rfl rfl (NoNewDescriptor.refl _) (.inr (leads metadata))
  · exact Handles.of_same rfl rfl rfl (NoNewDescriptor.refl _) (.inl rfl)

theorem handles_answers (setting : Setting) (state : State) :
    Handles state (state.answers setting) := by
  unfold State.answers
  split
  · next served _ =>
      rcases writes_spec setting state (.ack (served.ack setting)) with ⟨_, same⟩ | ⟨_, same⟩
      · rw [same]
        exact Handles.of_same rfl rfl rfl (NoNewDescriptor.refl _) (.inr (by simp))
      · rw [same]
        exact Handles.of_same rfl rfl rfl (NoNewDescriptor.refl _) (.inr (by simp))
  · exact Handles.of_same rfl rfl rfl (NoNewDescriptor.refl _) (.inl rfl)

theorem handles_receives (state : State) : Handles state state.receives := by
  rcases receives_spec state with same | ⟨metadata, served, isReceiving, refused, same⟩ |
    ⟨metadata, token, rest, successor, isReceiving, isPackets, same, _⟩
  · rw [same]
    exact Handles.of_same rfl rfl rfl (NoNewDescriptor.refl _) (.inl rfl)
  · rw [same]
    exact Handles.of_same rfl rfl rfl (NoNewDescriptor.refl _) (.inr (by simp [State.refuses]))
  · rw [same]
    refine ⟨rfl, fun _ => ?_, fun _ => rfl, fun _ => .inl rfl⟩
    exact .inr ⟨token, isPackets ▸ List.mem_cons_self⟩

theorem handles_adopts (state : State) (outcome : Except (List Char) Unit) :
    Handles state (state.adopts outcome) := by
  unfold State.adopts
  split
  · next metadata isAdopting =>
      split
      · refine ⟨rfl, id, id, fun _ => .inr (.inl ⟨metadata, isAdopting⟩)⟩
      · exact Handles.of_same rfl rfl rfl (NoNewDescriptor.refl _) (.inr (by simp))
  · exact Handles.of_same rfl rfl rfl (NoNewDescriptor.refl _) (.inl rfl)

theorem handles_closes (state : State) : Handles state state.closes := by
  unfold State.closes
  split
  · exact Handles.of_same rfl rfl rfl (NoNewDescriptor.refl _) (.inr (by simp))
  · exact Handles.of_same rfl rfl rfl (NoNewDescriptor.refl _) (.inl rfl)

theorem handles_successorReads (setting : Setting) (state : State) :
    Handles state (state.successorReads setting) := by
  rcases successorReads_spec setting state with same |
    ⟨line, successor, toSuccessor, isReading, same, nothingNew, becomes⟩
  · rw [same]
    exact Handles.of_same rfl rfl rfl (NoNewDescriptor.refl _) (.inl rfl)
  · rw [same]
    refine Handles.of_same rfl rfl rfl nothingNew ?_
    rcases becomes with ⟨more, rfl⟩ | ⟨metadata, rfl⟩ | ⟨served, _, rfl⟩
    · exact .inr (by simp)
    · exact .inr (by simp)
    · exact .inr (by simp)

theorem handles_successorReadFails (state : State) : Handles state state.successorReadFails := by
  unfold State.successorReadFails
  split
  · split
    · exact Handles.of_same rfl rfl rfl (NoNewDescriptor.refl _) (.inr (by simp [State.refuses]))
    · exact Handles.of_same rfl rfl rfl (NoNewDescriptor.refl _) (.inl rfl)
  · exact Handles.of_same rfl rfl rfl (NoNewDescriptor.refl _) (.inl rfl)

theorem handles_step {action : Action} (isOther : action.isSender = false) :
    Handles state (step setting state action) := by
  cases action with
  | breaks toSuccessor toSender =>
      refine Handles.of_same rfl rfl rfl ?_ (.inl rfl)
      intro token member
      exact (List.take_sublist _ _).subset member
  | successorReads => exact handles_successorReads setting state
  | successorReadFails => exact handles_successorReadFails state
  | seats conflict => exact handles_seats setting state conflict
  | receives => exact handles_receives state
  | adopts outcome => exact handles_adopts state outcome
  | answers => exact handles_answers setting state
  | closes => exact handles_closes state
  | _ => cases isOther

theorem Placed.step (placed : Placed state) (action : Action) :
    Placed (step setting state action) := by
  cases isSender : action.isSender with
  | true =>
      obtain ⟨support, sender, toSuccessor, toSender, ackTimedOut, same, goes⟩ :=
        @step_of_sender setting state action isSender
      rw [same]
      refine ⟨?_, placed.taken⟩
      rcases goes with ⟨committed, nothingNew⟩ | committed
      · rintro (was | ⟨token, member⟩)
        · exact committed.trans (placed.sent (.inl was))
        · exact committed.trans (placed.sent (.inr ⟨token, nothingNew token member⟩))
      · exact fun _ => committed
  | false =>
      have handles := @handles_step setting state action isSender
      refine ⟨?_, ?_⟩
      · intro transit
        rw [handles.sender]
        exact placed.sent (handles.transit transit)
      · intro taken
        rcases handles.taken taken with was | before
        · exact was
        · exact handles.received (placed.taken before)

end Yggterm.PtyHandoff
