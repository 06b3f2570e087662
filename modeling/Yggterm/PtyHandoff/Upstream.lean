import Yggterm.PtyHandoff.Exchange

/-!
# What reaches the successor

The metadata line and, behind it, the descriptor.  A successor that takes the descriptor has
read the whole line, so what it adopts is the session that was sent.
-/

namespace Yggterm.PtyHandoff

open LineStreams Text Runs

variable {setting : Setting} {state after : State}

/-- The metadata line as it is sent. -/
def Setting.told (setting : Setting) : List Packet :=
  (setting.codec.metadataLine setting.metadata ++ [newline]).map .byte

/-- All that is ever sent to the successor. -/
def Setting.upstream (setting : Setting) : List Packet := setting.told ++ [setting.descriptor]

/-- What the sender has sent before the descriptor, where it is. -/
def Setting.sentBefore (setting : Setting) : Stage → Option (List Packet)
  | .starting => some []
  | .told => some setting.told
  | _ => none

/-- Nothing is in flight to the successor, and nothing will be. -/
def State.silent (state : State) : Prop :=
  state.toSuccessor = [] ∧ (state.broken = true ∨ state.sender.stage = .returned)

/-- What the successor has taken and what is in flight to it begin what it is sent, and
nothing of it is missing while the connection holds. -/
def Flows (setting : Setting) (state : State) (taken : List Packet) : Prop :=
  taken ++ state.toSuccessor <+: setting.upstream ∧
    (state.broken = false → ∀ packets ∈ setting.sentBefore state.sender.stage,
      taken ++ state.toSuccessor = packets)

/-- The successor has the session of the line, or nothing comes behind what it has. -/
def Knows (setting : Setting) (state : State) (metadata : HandoffMetadata) : Prop :=
  (metadata = setting.heard setting.metadata ∧ Flows setting state setting.told) ∨ state.silent

structure Upstream (setting : Setting) (state : State) : Prop where
  place :
    match state.successor with
    | .reading line => newline ∉ line ∧ Flows setting state (line.map .byte)
    | .seating metadata => Knows setting state metadata
    | .receiving metadata => Knows setting state metadata
    | .adopting metadata => metadata = setting.heard setting.metadata
    | _ => True
  adopted : ∀ metadata ∈ state.adopted, metadata = setting.heard setting.metadata

/-- A step that leaves the successor where it is. -/
theorem Upstream.carries (upstream : Upstream setting state)
    (successor : after.successor = state.successor) (adopted : after.adopted = state.adopted)
    (flows : ∀ taken, Flows setting state taken → Flows setting after taken)
    (quiet : state.silent → after.silent) : Upstream setting after := by
  obtain ⟨place, isSession⟩ := upstream
  refine ⟨?_, by rwa [adopted]⟩
  rw [successor]
  revert place
  cases state.successor with
  | reading line => exact fun ⟨clean, begins⟩ => ⟨clean, flows _ begins⟩
  | seating metadata => exact Or.imp (fun ⟨same, begins⟩ => ⟨same, flows _ begins⟩) quiet
  | receiving metadata => exact Or.imp (fun ⟨same, begins⟩ => ⟨same, flows _ begins⟩) quiet
  | adopting metadata => exact id
  | answering served => exact id
  | done served => exact id
  | closed served => exact id

/-! ## Steps of the sender -/

theorem Upstream.stays (upstream : Upstream setting state) {support : PrecommitSupport}
    {sender : Sender} {toSender : Bytes} {ackTimedOut : Bool} (stays : Stays state.sender sender) :
    Upstream setting { state with support, sender, toSender, ackTimedOut } := by
  refine upstream.carries rfl rfl ?_ ?_
  · rintro taken ⟨begins, whole⟩
    refine ⟨begins, fun unbroken packets isSent => ?_⟩
    rcases stays.2 with isOver | same
    · rw [isOver] at isSent
      cases isSent
    · exact whole unbroken packets (same ▸ isSent)
  · rintro ⟨nothing, broken | returned⟩
    · exact ⟨nothing, .inl broken⟩
    · rcases stays.2 with isOver | same
      · exact ⟨nothing, .inr isOver⟩
      · exact ⟨nothing, .inr (same.trans returned)⟩

/-- Sending what comes next. -/
theorem Upstream.appends (upstream : Upstream setting state) (unbroken : state.broken = false)
    {before packets : List Packet} {sender : Sender}
    (sent : setting.sentBefore state.sender.stage = some before)
    (begins : before ++ packets <+: setting.upstream)
    (whole : ∀ all ∈ setting.sentBefore sender.stage, before ++ packets = all) :
    Upstream setting { state with sender, toSuccessor := state.toSuccessor ++ packets } := by
  refine upstream.carries rfl rfl ?_ ?_
  · rintro taken ⟨_, wasWhole⟩
    have isBefore := wasWhole unbroken before sent
    refine ⟨?_, fun _ all isAll => ?_⟩
    · rw [← List.append_assoc, isBefore]
      exact begins
    · rw [← List.append_assoc, isBefore]
      exact whole all isAll
  · rintro ⟨_, broken | returned⟩
    · rw [unbroken] at broken
      cases broken
    · rw [returned] at sent
      cases sent

theorem Upstream.writesMetadata (upstream : Upstream setting state) (failsAfter : Option Nat) :
    Upstream setting (state.writesMetadata setting failsAfter) := by
  have told : setting.told <+: setting.upstream := List.prefix_append _ _
  unfold State.writesMetadata
  split
  · next isWriting =>
      have nothing : setting.sentBefore state.sender.stage = some [] := by rw [isWriting]; rfl
      split
      · exact upstream.stays (isWriting ▸ ⟨rfl, .inl rfl⟩)
      · next here =>
          simp only [Bool.or_eq_true, not_or, Bool.not_eq_true] at here
          split
          · next count =>
              refine upstream.appends here.1 nothing ?_ ?_
              · exact (List.take_prefix _ _).trans told
              · intro all isAll
                cases isAll
          · refine upstream.appends here.1 nothing told ?_
            intro all isAll
            split at isAll
            · cases isAll
              rfl
            · cases isAll
              rfl
  · exact upstream

theorem Upstream.sendsFd (upstream : Upstream setting state) (succeeds : Bool) :
    Upstream setting (state.sendsFd setting succeeds) := by
  rcases sendsFd_spec setting state succeeds with
    ⟨sender, same, committed, rfl | rfl⟩ | ⟨_, isSending, unbroken, same⟩
  · rw [same]
    exact upstream
  · rw [same]
    exact upstream.stays ⟨committed, .inl rfl⟩
  · rw [same]
    have sent : setting.sentBefore state.sender.stage = some setting.told := by rw [isSending]; rfl
    refine upstream.appends unbroken sent (List.prefix_refl _) ?_
    intro all isAll
    cases isAll

/-! ## Steps of the successor -/

/-- The successor never meets the descriptor while it still reads the line. -/
theorem descriptor_not_next {line : Bytes} (clean : newline ∉ line) {token : Bytes}
    {rest : List Packet}
    (begins : line.map Packet.byte ++ .descriptor token :: rest <+: setting.upstream) : False := by
  have noDescriptor : .descriptor token ∉ setting.told := by simp [Setting.told]
  have lineClean : Packet.byte newline ∉ line.map Packet.byte := by simpa using clean
  have hasNewline : Packet.byte newline ∈ setting.told := by simp [Setting.told]
  obtain ⟨later, whole⟩ := begins
  rw [List.append_assoc, Setting.upstream, List.append_eq_append_iff] at whole
  rcases whole with ⟨gap, isTold, isRest⟩ | ⟨gap, isLine, _⟩
  · cases gap with
    | nil =>
        rw [List.append_nil] at isTold
        exact lineClean (isTold ▸ hasNewline)
    | cons packet others =>
        obtain ⟨rfl, _⟩ := List.cons_eq_cons.mp isRest
        exact noDescriptor (isTold ▸ by simp)
  · exact lineClean (isLine ▸ List.mem_append_left _ hasNewline)

theorem upstream_eq (setting : Setting) : setting.upstream =
    (setting.codec.metadataLine setting.metadata).map Packet.byte ++
      .byte newline :: [setting.descriptor] := by
  simp [Setting.upstream, Setting.told]

/-- A successor that meets a newline has read the whole line. -/
theorem line_of_newline {line : Bytes} (clean : newline ∉ line) {rest : List Packet}
    (begins : line.map Packet.byte ++ .byte newline :: rest <+: setting.upstream) :
    line = setting.codec.metadataLine setting.metadata := by
  obtain ⟨later, whole⟩ := begins
  rw [upstream_eq, List.append_assoc, List.cons_append] at whole
  have lineClean : Packet.byte newline ∉ line.map Packet.byte := by simpa using clean
  have toldClean : Packet.byte newline ∉
      (setting.codec.metadataLine setting.metadata).map Packet.byte := by
    simpa using setting.codec.newline_not_mem_metadataLine setting.metadata
  obtain ⟨same, _⟩ := eq_of_append_separator lineClean toldClean whole
  exact List.map_injective_iff.mpr (fun _ _ equal => by simpa using equal) same

/-- What the successor has read of the line begins it. -/
theorem length_le_of_flows {line : Bytes} (clean : newline ∉ line)
    (flows : Flows setting state (line.map .byte)) :
    line.length ≤ (setting.codec.metadataLine setting.metadata).length := by
  have begins := (List.prefix_append _ state.toSuccessor).trans flows.1
  rw [upstream_eq] at begins
  have lineClean : Packet.byte newline ∉ line.map Packet.byte := by simpa using clean
  simpa using (prefix_of_clean lineClean begins).length_le

theorem Upstream.hearsMetadata (adopted : ∀ metadata ∈ state.adopted,
    metadata = setting.heard setting.metadata) {line : Bytes}
    (isSession : (line = setting.codec.metadataLine setting.metadata ∧
      Flows setting state setting.told) ∨ state.silent) :
    Upstream setting (state.hearsMetadata setting line) := by
  obtain ⟨successor, same, ⟨metadata, isRead, rfl⟩ | ⟨served, _, rfl⟩⟩ :=
    hearsMetadata_spec setting state line
  · rw [same]
    refine ⟨?_, adopted⟩
    rcases isSession with ⟨rfl, flows⟩ | silent
    · rw [setting.codec.readMetadata_metadataLine] at isRead
      cases isRead
      exact .inl ⟨rfl, flows⟩
    · exact .inr silent
  · rw [same]
    exact ⟨trivial, adopted⟩

/-- Reading on in the line. -/
theorem Flows.more {line : Bytes} {byte : UInt8} {rest : List Packet}
    (flows : Flows setting state (line.map .byte))
    (isPackets : state.toSuccessor = .byte byte :: rest) :
    Flows setting { state with toSuccessor := rest } ((line ++ [byte]).map .byte) := by
  have moved : (line ++ [byte]).map Packet.byte ++ rest =
      line.map Packet.byte ++ state.toSuccessor := by simp [isPackets]
  refine ⟨?_, fun unbroken packets isSent => moved.trans (flows.2 unbroken packets isSent)⟩
  rw [moved]
  exact flows.1

theorem Upstream.successorTakes (adopted : ∀ metadata ∈ state.adopted,
    metadata = setting.heard setting.metadata) {line : Bytes} (clean : newline ∉ line)
    {byte : UInt8} {rest : List Packet} (isPackets : state.toSuccessor = .byte byte :: rest)
    (flows : Flows setting state (line.map .byte)) :
    Upstream setting ({ state with toSuccessor := rest }.successorTakes setting line byte) := by
  have moves := flows.more isPackets
  have begins := flows.1
  unfold State.successorTakes readByte
  by_cases isNewline : byte = newline
  · subst isNewline
    simp only [if_true]
    have isLine := line_of_newline clean (isPackets ▸ begins)
    refine @Upstream.hearsMetadata setting { state with toSuccessor := rest } adopted line ?_
    refine .inl ⟨isLine, ?_⟩
    rw [Setting.told, ← isLine]
    exact moves
  · simp only [if_neg isNewline]
    split
    · next more isMore =>
        split at isMore
        · cases isMore
        · cases isMore
          refine ⟨⟨?_, moves⟩, adopted⟩
          simp [clean, Ne.symm isNewline]
    · next isLine =>
        split at isLine
        · cases isLine
        · cases isLine
    · exact ⟨trivial, adopted⟩

theorem Upstream.successorReads (upstream : Upstream setting state) :
    Upstream setting (state.successorReads setting) := by
  unfold State.successorReads
  split
  · next line isReading =>
      have place := upstream.place
      rw [isReading] at place
      obtain ⟨clean, flows⟩ := place
      split
      · next byte rest isPackets =>
          exact Upstream.successorTakes upstream.adopted clean isPackets flows
      · next isPackets => exact (descriptor_not_next clean (isPackets ▸ flows.1)).elim
      · next isPackets => exact (descriptor_not_next clean (isPackets ▸ flows.1)).elim
      · next nothing =>
          split
          · next gone =>
              rw [Bool.or_eq_true] at gone
              refine Upstream.hearsMetadata upstream.adopted (.inr ⟨nothing, ?_⟩)
              refine gone.imp_right fun isDone => ?_
              revert isDone
              cases state.sender with
              | done result => exact fun _ => rfl
              | _ => exact fun isDone => nomatch isDone
          · exact upstream
  · exact upstream

theorem Upstream.successorReadFails (upstream : Upstream setting state) :
    Upstream setting state.successorReadFails := by
  unfold State.successorReadFails
  split
  · split
    · exact ⟨trivial, upstream.adopted⟩
    · exact upstream
  · exact upstream

/-- What the successor says does not reach the successor. -/
theorem Knows.writes {metadata : HandoffMetadata} (knows : Knows setting state metadata)
    (message : Message) : Knows setting (state.writes setting message) metadata := by
  rcases writes_spec setting state message with ⟨_, same⟩ | ⟨_, same⟩
  · rw [same]
    exact knows
  · rw [same]
    exact knows

theorem writes_adopted (setting : Setting) (state : State) (message : Message) :
    (state.writes setting message).adopted = state.adopted := by
  rcases writes_spec setting state message with ⟨_, same⟩ | ⟨_, same⟩
  · rw [same]
  · rw [same]

theorem Upstream.decided (adopted : ∀ metadata ∈ state.adopted,
    metadata = setting.heard setting.metadata) {metadata : HandoffMetadata}
    (knows : Knows setting state metadata) (conflict : Option (List Char)) :
    Upstream setting { state with successor := decided metadata conflict } := by
  cases conflict with
  | none => exact ⟨knows, adopted⟩
  | some reason => exact ⟨trivial, adopted⟩

theorem Upstream.seats (upstream : Upstream setting state) (conflict : Option (List Char)) :
    Upstream setting (state.seats setting conflict) := by
  unfold State.seats
  split
  · next metadata isSeating =>
      have knows := upstream.place
      rw [isSeating] at knows
      split
      · have adopted : ∀ metadata ∈ (state.writes setting (.verdict (verdictOf conflict))).adopted,
            metadata = setting.heard setting.metadata := by
          rw [writes_adopted]
          exact upstream.adopted
        dsimp only
        split
        · exact ⟨trivial, adopted⟩
        · exact Upstream.decided adopted (knows.writes _) conflict
      · exact Upstream.decided upstream.adopted knows conflict
  · exact upstream

theorem Upstream.receives (upstream : Upstream setting state) :
    Upstream setting state.receives := by
  rcases receives_spec state with same | ⟨metadata, served, isReceiving, refused, same⟩ |
    ⟨metadata, token, rest, successor, isReceiving, isPackets, same, becomes⟩
  · rwa [same]
  · rw [same]
    exact ⟨trivial, upstream.adopted⟩
  · rw [same]
    have knows := upstream.place
    rw [isReceiving] at knows
    rcases becomes with rfl | ⟨served, _, rfl⟩
    · refine ⟨?_, upstream.adopted⟩
      rcases knows with ⟨isSession, _⟩ | ⟨nothing, _⟩
      · exact isSession
      · rw [nothing] at isPackets
        cases isPackets
    · exact ⟨trivial, upstream.adopted⟩

theorem Upstream.adopts (upstream : Upstream setting state) (outcome : Except (List Char) Unit) :
    Upstream setting (state.adopts outcome) := by
  unfold State.adopts
  split
  · next metadata isAdopting =>
      have isSession := upstream.place
      rw [isAdopting] at isSession
      split
      · refine ⟨trivial, fun other isOther => ?_⟩
        cases isOther
        exact isSession
      · exact ⟨trivial, upstream.adopted⟩
  · exact upstream

theorem Upstream.answers (upstream : Upstream setting state) :
    Upstream setting (state.answers setting) := by
  unfold State.answers
  split
  · refine ⟨trivial, ?_⟩
    dsimp only
    rw [writes_adopted]
    exact upstream.adopted
  · exact upstream

theorem Upstream.closes (upstream : Upstream setting state) : Upstream setting state.closes := by
  unfold State.closes
  split
  · exact ⟨trivial, upstream.adopted⟩
  · exact upstream

theorem Upstream.breaks (upstream : Upstream setting state) (toSuccessor toSender : Nat) :
    Upstream setting (state.breaks toSuccessor toSender) := by
  refine upstream.carries rfl rfl ?_ ?_
  · rintro taken ⟨begins, _⟩
    refine ⟨List.IsPrefix.trans ?_ begins, fun unbroken => nomatch unbroken⟩
    exact (List.prefix_append_right_inj taken).mpr (List.take_prefix _ _)
  · rintro ⟨nothing, _⟩
    refine ⟨?_, .inl rfl⟩
    simp [State.breaks, nothing]

theorem Upstream.step (upstream : Upstream setting state) (action : Action) :
    Upstream setting (step setting state action) := by
  cases action with
  | connects reached =>
      obtain ⟨sender, same, stays⟩ := connects_spec state reached
      change Upstream setting (state.connects reached)
      rw [same]
      exact upstream.stays stays
  | writesMetadata failsAfter => exact upstream.writesMetadata failsAfter
  | senderReads =>
      obtain ⟨support, sender, toSender, same, stays⟩ := senderReads_spec setting state
      change Upstream setting (state.senderReads setting)
      rw [same]
      exact upstream.stays stays
  | senderReadFails =>
      obtain ⟨sender, same, stays⟩ := senderReadFails_spec state
      change Upstream setting (state.senderReadFails)
      rw [same]
      exact upstream.stays stays
  | timesOut =>
      obtain ⟨support, sender, ackTimedOut, same, stays⟩ := timesOut_spec state
      change Upstream setting (state.timesOut)
      rw [same]
      exact upstream.stays stays
  | sendsFd succeeds => exact upstream.sendsFd succeeds
  | breaks toSuccessor toSender => exact upstream.breaks toSuccessor toSender
  | successorReads => exact upstream.successorReads
  | successorReadFails => exact upstream.successorReadFails
  | seats conflict => exact upstream.seats conflict
  | receives => exact upstream.receives
  | adopts outcome => exact upstream.adopts outcome
  | answers => exact upstream.answers
  | closes => exact upstream.closes

theorem upstream_initial (support : PrecommitSupport) : Upstream setting (initial support) := by
  refine ⟨⟨List.not_mem_nil, List.nil_prefix, ?_⟩, fun metadata isAdopted => nomatch isAdopted⟩
  intro _ packets isSent
  cases isSent
  rfl

end Yggterm.PtyHandoff
