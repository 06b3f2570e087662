import Yggterm.PtyHandoff.Wire

/-!
# One handoff

`send_session` and `serve_handoff` as two parties, and the bytes in flight between them.
Delays, timeouts, failures of the connection, and the answers of the successor's two
callbacks are the environment's: they are the actions.  An action that is not possible
where it is tried changes nothing.
-/

namespace Yggterm.PtyHandoff

open LineStreams Text

/-! ## The parties -/

inductive PrecommitSupport where
  | unknown
  | speaks
  | oneSilence
  | silent
  deriving DecidableEq

/-- `saw_silence`. -/
def PrecommitSupport.sawSilence : PrecommitSupport → PrecommitSupport
  | .speaks => .speaks
  | .unknown => .oneSilence
  | .oneSilence => .silent
  | .silent => .silent

structure HandoffError where
  committed : Bool
  refused : Bool
  deriving DecidableEq

/-- Where `send_session` is.  A line that is being read is kept as far as it was read, an
ack with the lines that may still be read for it. -/
inductive Sender where
  | connecting
  | writing
  | awaitingVerdict (line : Bytes)
  | sending
  | awaitingAck (left : Nat) (line : Bytes)
  | done (result : Except HandoffError HandoffAck)
  deriving DecidableEq

structure HandoffServed where
  runtimeKey : Option (List Char)
  adopted : Bool
  error : Option (List Char)
  refusedBeforeCommit : Bool
  deriving DecidableEq

/-- `HandoffServed::refused`. -/
def servedRefused (runtimeKey : Option (List Char)) (error : List Char) (beforeCommit : Bool) :
    HandoffServed :=
  ⟨runtimeKey, false, some error, beforeCommit⟩

/-- Where `serve_handoff` is. -/
inductive Successor where
  | reading (line : Bytes)
  | seating (metadata : HandoffMetadata)
  | receiving (metadata : HandoffMetadata)
  | adopting (metadata : HandoffMetadata)
  | answering (served : HandoffServed)
  | done (served : HandoffServed)
  | closed (served : HandoffServed)
  deriving DecidableEq

/-- What is on its way to the successor: a byte, or the message of the descriptor. -/
inductive Packet where
  | byte (byte : UInt8)
  | descriptor (token : Bytes)
  deriving DecidableEq

/-- What a handoff is between: the session, the successor's process, and whether its build
knows the verdict. -/
structure Setting where
  codec : HandoffCodec
  metadata : HandoffMetadata
  speaks : Bool
  pid : Fin (2 ^ 32)
  startTime : Option (Fin (2 ^ 64))

/-- The message of the descriptor. -/
def Setting.descriptor (setting : Setting) : Packet :=
  .descriptor (Utf8.encode setting.metadata.token)

/-- The last five are history: what the successor said, whether the descriptor came out of
its socket, with what it adopted, whether a part of its answer was lost, and whether the
sender gave up waiting for the ack. -/
structure State where
  support : PrecommitSupport
  sender : Sender
  successor : Successor
  toSuccessor : List Packet
  toSender : Bytes
  broken : Bool
  said : List Message
  received : Bool
  adopted : Option HandoffMetadata
  lost : Bool
  ackTimedOut : Bool

def initial (support : PrecommitSupport) : State :=
  ⟨support, .connecting, .reading [], [], [], false, [], false, none, false, false⟩

/-- The sender's end is closed once it has returned. -/
def Sender.isDone : Sender → Bool
  | .done _ => true
  | _ => false

def Successor.isClosed : Successor → Bool
  | .closed _ => true
  | _ => false

/-! ## The sender -/

def State.fails (state : State) (committed refused : Bool) : State :=
  { state with sender := .done (.error ⟨committed, refused⟩) }

/-- The line that `read_precommit_verdict` read. -/
def State.hearsVerdict (setting : Setting) (state : State) (line : Bytes) : State :=
  if isBlank line then state.fails false false
  else
    match setting.codec.readVerdict line with
    | none => state.fails false false
    | some verdict =>
        let state := { state with support := .speaks }
        if verdict.proceed then { state with sender := .sending } else state.fails false true

/-- The line that `read_ack_past_a_late_verdict` read. -/
def State.hearsAck (setting : Setting) (state : State) (left : Nat) (line : Bytes) : State :=
  if isBlank line then state.fails true false
  else if setting.codec.isPrecommitVerdict line then
    if left ≤ 1 then state.fails true false
    else { state with sender := .awaitingAck (left - 1) [] }
  else
    match setting.codec.readAck line with
    | none => state.fails true false
    | some ack =>
        if ack.adopted then { state with sender := .done (.ok ack) } else state.fails true true

/-- The sender reads one byte. -/
def State.senderTakes (setting : Setting) (state : State) (byte : UInt8) : State :=
  match state.sender with
  | .awaitingVerdict line =>
      match readByte line byte with
      | .more line => { state with sender := .awaitingVerdict line }
      | .line line => state.hearsVerdict setting line
      | .tooLong => state.fails false false
  | .awaitingAck left line =>
      match readByte line byte with
      | .more line => { state with sender := .awaitingAck left line }
      | .line line => state.hearsAck setting left line
      | .tooLong => state.fails true false
  | _ => state

/-- The stream has ended: the line is what was read of it. -/
def State.senderEnds (setting : Setting) (state : State) : State :=
  match state.sender with
  | .awaitingVerdict line => state.hearsVerdict setting line
  | .awaitingAck left line => state.hearsAck setting left line
  | _ => state

def Sender.isReading : Sender → Bool
  | .awaitingVerdict _ => true
  | .awaitingAck _ _ => true
  | _ => false

/-- Nothing more can come from the successor. -/
def State.streamOver (state : State) : Bool :=
  state.toSender = [] && (state.broken || state.successor.isClosed)

def State.senderReads (setting : Setting) (state : State) : State :=
  if state.sender.isReading = false then state
  else
    match state.toSender with
    | byte :: rest => { state with toSender := rest }.senderTakes setting byte
    | [] => if state.streamOver then state.senderEnds setting else state

/-- A read fails where nothing more can come. -/
def State.senderReadFails (state : State) : State :=
  if state.streamOver then
    match state.sender with
    | .awaitingVerdict _ => state.fails false false
    | .awaitingAck _ _ => state.fails true false
    | _ => state
  else state

/-- The read timeout of the phase fires; what was read of a line is gone. -/
def State.timesOut (state : State) : State :=
  match state.sender with
  | .awaitingVerdict _ =>
      { state with support := state.support.sawSilence, sender := .sending }
  | .awaitingAck _ _ => { state.fails true false with ackTimedOut := true }
  | _ => state

def State.connects (state : State) (reached : Bool) : State :=
  match state.sender with
  | .connecting => if reached then { state with sender := .writing } else state.fails false false
  | _ => state

/-- The metadata line is written, whole or up to a failure. -/
def State.writesMetadata (setting : Setting) (state : State) (failsAfter : Option Nat) : State :=
  match state.sender with
  | .writing =>
      let line := (setting.codec.metadataLine setting.metadata ++ [newline]).map Packet.byte
      if state.broken || state.successor.isClosed then state.fails false false
      else
        match failsAfter with
        | some count =>
            { state.fails false false with toSuccessor := state.toSuccessor ++ line.take count }
        | none =>
            { state with
              toSuccessor := state.toSuccessor ++ line
              sender :=
                if setting.metadata.precommitVerdict && state.support ≠ .silent then
                  .awaitingVerdict []
                else .sending }
  | _ => state

/-- `send_master_fd`, and the commit point where it succeeds. -/
def State.sendsFd (setting : Setting) (state : State) (succeeds : Bool) : State :=
  match state.sender with
  | .sending =>
      if succeeds && !state.broken && !state.successor.isClosed &&
          (Utf8.encode setting.metadata.token).length ≤ handoffTokenMaxBytes then
        { state with
          toSuccessor := state.toSuccessor ++ [setting.descriptor]
          sender := .awaitingAck 2 [] }
      else state.fails false false
  | _ => state

/-! ## The successor -/

def State.refuses (state : State) (served : HandoffServed) : State :=
  { state with successor := .answering served }

/-- What the successor's build reads of the metadata. -/
def Setting.heard (setting : Setting) (metadata : HandoffMetadata) : HandoffMetadata :=
  { metadata with precommitVerdict := metadata.precommitVerdict && setting.speaks }

/-- The line that `receive_metadata` read. -/
def State.hearsMetadata (setting : Setting) (state : State) (line : Bytes) : State :=
  if isBlank line then
    state.refuses (servedRefused none
      "handoff connection closed before sending metadata".toList true)
  else
    match setting.codec.readMetadata line with
    | none => state.refuses (servedRefused none "decoding handoff metadata".toList true)
    | some metadata =>
        if metadata.version ≠ handoffWireVersion then
          state.refuses (servedRefused none ("handoff wire version ".toList ++
            Nat.toDigits 10 metadata.version ++ " is not ".toList ++
              Nat.toDigits 10 handoffWireVersion ++
            "; refusing BEFORE the fd moves".toList) true)
        else { state with successor := .seating (setting.heard metadata) }

/-- The successor reads one byte of the metadata line. -/
def State.successorTakes (setting : Setting) (state : State) (line : Bytes) (byte : UInt8) :
    State :=
  match readByte line byte with
  | .more line => { state with successor := .reading line }
  | .line line => state.hearsMetadata setting line
  | .tooLong => state.refuses (servedRefused none "reading handoff metadata line".toList true)

/-- An ordinary read of the descriptor's message takes its first byte and destroys the
descriptor. -/
def State.successorReads (setting : Setting) (state : State) : State :=
  match state.successor with
  | .reading line =>
      match state.toSuccessor with
      | .byte byte :: rest => { state with toSuccessor := rest }.successorTakes setting line byte
      | .descriptor [] :: rest => { state with toSuccessor := rest }
      | .descriptor (byte :: others) :: rest =>
          { state with
            toSuccessor := others.map Packet.byte ++ rest }.successorTakes setting line byte
      | [] =>
          if state.broken || state.sender.isDone then state.hearsMetadata setting line else state
  | _ => state

def State.successorReadFails (state : State) : State :=
  match state.successor with
  | .reading _ =>
      if state.toSuccessor = [] && state.broken then
        state.refuses (servedRefused none "reading handoff metadata line".toList true)
      else state
  | _ => state

/-- What the successor writes is in flight, or lost where nobody reads any more. -/
def State.writes (setting : Setting) (state : State) (message : Message) : State :=
  if state.broken || state.sender.isDone then { state with lost := true }
  else
    { state with
      toSender := state.toSender ++ (setting.codec.line message ++ [newline])
      said := state.said ++ [message] }

/-- The verdict of a seat decision. -/
def verdictOf : Option (List Char) → HandoffVerdict
  | some reason => verdictRefused reason
  | none => verdictProceed

/-- Where a seat decision leads. -/
def decided (metadata : HandoffMetadata) : Option (List Char) → Successor
  | some reason => .answering (servedRefused (some metadata.runtimeKey) reason true)
  | none => .receiving metadata

/-- The seat decision, and the verdict where it was asked for. -/
def State.seats (setting : Setting) (state : State) (conflict : Option (List Char)) : State :=
  match state.successor with
  | .seating metadata =>
      if metadata.precommitVerdict then
        let spoken := state.writes setting (.verdict (verdictOf conflict))
        if state.broken || state.sender.isDone then
          spoken.refuses (servedRefused (some metadata.runtimeKey)
            "writing handoff verdict".toList true)
        else { spoken with successor := decided metadata conflict }
      else { state with successor := decided metadata conflict }
  | _ => state

/-- `receive_descriptor`: the descriptor, with the token of the line that was read. -/
def State.receives (state : State) : State :=
  match state.successor with
  | .receiving metadata =>
      let key := some metadata.runtimeKey
      match state.toSuccessor with
      | .descriptor token :: rest =>
          let state := { state with toSuccessor := rest, received := true }
          if Utf8.fromUtf8Lossy token = metadata.token then
            { state with successor := .adopting metadata }
          else state.refuses (servedRefused key "handoff token does not match".toList false)
      | .byte _ :: _ => state.refuses (servedRefused key "receiving master fd".toList false)
      | [] =>
          if state.broken || state.sender.isDone then
            state.refuses (servedRefused key "receiving master fd".toList false)
          else state
  | _ => state

/-- What `adopt` answers. -/
def State.adopts (state : State) (outcome : Except (List Char) Unit) : State :=
  match state.successor with
  | .adopting metadata =>
      match outcome with
      | .ok () =>
          { state with
            adopted := some metadata
            successor := .answering ⟨some metadata.runtimeKey, true, none, false⟩ }
      | .error reason =>
          { state with
            successor := .answering ⟨some metadata.runtimeKey, false, some reason, false⟩ }
  | _ => state

/-- The ack of what was served. -/
def HandoffServed.ack (setting : Setting) (served : HandoffServed) : HandoffAck :=
  if served.adopted then ackAdoptedHere setting.pid setting.startTime
  else ackRefused (served.error.getD "no reason given".toList)

def State.answers (setting : Setting) (state : State) : State :=
  match state.successor with
  | .answering served =>
      { state.writes setting (.ack (served.ack setting)) with successor := .done served }
  | _ => state

def State.closes (state : State) : State :=
  match state.successor with
  | .done served => { state with successor := .closed served }
  | _ => state

/-! ## Runs -/

/-- The connection breaks; of what is in flight, some still arrives. -/
def State.breaks (state : State) (toSuccessor toSender : Nat) : State :=
  { state with
    toSuccessor := state.toSuccessor.take toSuccessor
    toSender := state.toSender.take toSender
    broken := true
    lost := state.lost || toSender < state.toSender.length }

inductive Action where
  | connects (reached : Bool)
  | writesMetadata (failsAfter : Option Nat)
  | senderReads
  | senderReadFails
  | timesOut
  | sendsFd (succeeds : Bool)
  | breaks (toSuccessor toSender : Nat)
  | successorReads
  | successorReadFails
  | seats (conflict : Option (List Char))
  | receives
  | adopts (outcome : Except (List Char) Unit)
  | answers
  | closes

def step (setting : Setting) (state : State) : Action → State
  | .connects reached => state.connects reached
  | .writesMetadata failsAfter => state.writesMetadata setting failsAfter
  | .senderReads => state.senderReads setting
  | .senderReadFails => state.senderReadFails
  | .timesOut => state.timesOut
  | .sendsFd succeeds => state.sendsFd setting succeeds
  | .breaks toSuccessor toSender => state.breaks toSuccessor toSender
  | .successorReads => state.successorReads setting
  | .successorReadFails => state.successorReadFails
  | .seats conflict => state.seats setting conflict
  | .receives => state.receives
  | .adopts outcome => state.adopts outcome
  | .answers => state.answers setting
  | .closes => state.closes

end Yggterm.PtyHandoff
