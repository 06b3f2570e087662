import Mathlib.Algebra.Ring.Nat
import Yggterm.Library.LineStreams
import Yggterm.Library.Text
import Yggterm.Library.Utf8

/-!
# The handoff wire

`pty_handoff.rs`: what a retiring daemon and its successor say to each other over one
connection, a line at a time, and how a line is read.  Strings are lists of bytes.  The JSON
of a line is a library's; what the protocol relies on of it is `HandoffCodec`.
-/

namespace Yggterm.PtyHandoff

open LineStreams Text

abbrev Bytes := List UInt8

def newline : UInt8 := 0x0a

structure HandoffMetadata where
  version : Fin (2 ^ 32)
  runtimeKey : List Char
  launchCommand : List Char
  cwd : Option (List Char)
  cols : Fin (2 ^ 16)
  rows : Fin (2 ^ 16)
  shellPid : Fin (2 ^ 32)
  shellStartTime : Fin (2 ^ 64)
  screen : List Char
  precommitVerdict : Bool
  deriving DecidableEq

/-- `HANDOFF_WIRE_VERSION`. -/
def handoffWireVersion : Fin (2 ^ 32) := 1

/-- `handoff_token`. -/
def handoffToken (runtimeKey : List Char) (shellPid shellStartTime : Nat) : List Char :=
  "key=".toList ++ runtimeKey ++ " pid=".toList ++ Nat.toDigits 10 shellPid ++
    " start=".toList ++ Nat.toDigits 10 shellStartTime

/-- The token that goes with the descriptor of a session. -/
def HandoffMetadata.token (metadata : HandoffMetadata) : List Char :=
  handoffToken metadata.runtimeKey metadata.shellPid metadata.shellStartTime

/-- `HANDOFF_TOKEN_MAX_BYTES`. -/
def handoffTokenMaxBytes : Nat := 512

structure HandoffVerdict where
  precommit : Bool
  proceed : Bool
  error : Option (List Char)
  deriving DecidableEq

/-- `HandoffVerdict::proceed`. -/
def verdictProceed : HandoffVerdict := ⟨true, true, none⟩

/-- `HandoffVerdict::refused`. -/
def verdictRefused (error : List Char) : HandoffVerdict := ⟨true, false, some error⟩

structure HandoffAck where
  adopted : Bool
  error : Option (List Char)
  adopterPid : Option (Fin (2 ^ 32))
  adopterStartTime : Option (Fin (2 ^ 64))
  deriving DecidableEq

/-- `HandoffAck::adopted_here`, by a process that may not know when it started. -/
def ackAdoptedHere (pid : Fin (2 ^ 32)) (startTime : Option (Fin (2 ^ 64))) : HandoffAck :=
  ⟨true, none, some pid, startTime⟩

/-- `HandoffAck::refused`. -/
def ackRefused (error : List Char) : HandoffAck := ⟨false, some error, none, none⟩

/-- What the successor says. -/
inductive Message where
  | verdict (verdict : HandoffVerdict)
  | ack (ack : HandoffAck)
  deriving DecidableEq

/-- `MAX_HANDOFF_METADATA_BYTES`. -/
def maxHandoffMetadataBytes : Nat := 8 * 1024 * 1024

/-- Whether nothing is left of a line that is read lossily and trimmed. -/
def isBlank (line : Bytes) : Bool := trim (Utf8.fromUtf8Lossy line) = []

/-- The JSON of the lines, and what a line is read as once it is decoded lossily and
trimmed.  A JSON object is not over before its last character. -/
structure HandoffCodec where
  metadataLine : HandoffMetadata → Bytes
  line : Message → Bytes
  readMetadata : Bytes → Option HandoffMetadata
  readVerdict : Bytes → Option HandoffVerdict
  readAck : Bytes → Option HandoffAck
  /-- `line_is_a_precommit_verdict`. -/
  isPrecommitVerdict : Bytes → Bool
  readMetadata_metadataLine : ∀ metadata, readMetadata (metadataLine metadata) = some metadata
  newline_not_mem_metadataLine : ∀ metadata, newline ∉ metadataLine metadata
  isBlank_metadataLine : ∀ metadata, isBlank (metadataLine metadata) = false
  newline_not_mem_line : ∀ message, newline ∉ line message
  isBlank_line : ∀ message, isBlank (line message) = false
  readVerdict_verdict : ∀ verdict, readVerdict (line (.verdict verdict)) = some verdict
  readVerdict_ack : ∀ ack, readVerdict (line (.ack ack)) = none
  readAck_ack : ∀ ack, readAck (line (.ack ack)) = some ack
  isPrecommitVerdict_verdict : ∀ verdict,
    isPrecommitVerdict (line (.verdict verdict)) = verdict.precommit
  isPrecommitVerdict_ack : ∀ ack, isPrecommitVerdict (line (.ack ack)) = false
  readVerdict_of_cut : ∀ message part, part <+: line message → part ≠ line message →
    readVerdict part = none
  readAck_of_cut : ∀ message part, part <+: line message → part ≠ line message →
    readAck part = none
  isPrecommitVerdict_of_cut : ∀ message part, part <+: line message → part ≠ line message →
    isPrecommitVerdict part = false
  length_line_proceed : (line (.verdict verdictProceed)).length ≤ maxHandoffMetadataBytes
  length_line_adopted : ∀ pid startTime,
    (line (.ack (ackAdoptedHere pid startTime))).length ≤ maxHandoffMetadataBytes

theorem isBlank_nil : isBlank [] = true := by
  rw [isBlank, Utf8.fromUtf8Lossy_nil]
  rfl

theorem HandoffCodec.line_ne_nil (codec : HandoffCodec) (message : Message) :
    codec.line message ≠ [] := by
  intro empty
  have solid := codec.isBlank_line message
  rw [empty, isBlank_nil] at solid
  cases solid

/-! ## Reading a line -/

/-- What one byte makes of a line that is being read. -/
inductive LineRead where
  | more (line : Bytes)
  | line (line : Bytes)
  | tooLong

/-- `read_line_without_overreading`, at one byte. -/
def readByte (line : Bytes) (byte : UInt8) : LineRead :=
  if byte = newline then .line line
  else if (line ++ [byte]).length > maxHandoffMetadataBytes then .tooLong
  else .more (line ++ [byte])

end Yggterm.PtyHandoff
