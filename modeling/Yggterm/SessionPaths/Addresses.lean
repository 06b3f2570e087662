import Yggterm.Library.Lines
import Yggterm.Library.Tags
import Yggterm.Ownership.Ledger

/-!
# The addresses of remote rows

`agent_scheme.rs` registers the schemes of session paths.  The path of a remote row names the
agent by its scheme, then the machine, then the session; two readers take it apart again.
-/

namespace Yggterm.SessionPaths

open Ownership (SessionKind)
open Search Tags Text

inductive SchemeRole where
  | rowIdentity
  | runtimeKey
  | rowAndRuntimeKey
  deriving DecidableEq

inductive SchemeLocality where
  | here
  | remote
  deriving DecidableEq

structure SchemeDescriptor where
  schemePrefix : List Char
  role : SchemeRole
  locality : SchemeLocality
  kind : Option SessionKind
  agent : Bool
  legacy : Bool
  deriving DecidableEq

/-- The pair of schemes that an agent registers: its remote row, and its runtime key. -/
def agentSchemes (kind : SessionKind) (row runtime : String) : List SchemeDescriptor :=
  [⟨row.toList, .rowIdentity, .remote, some kind, true, false⟩,
    ⟨runtime.toList, .runtimeKey, .remote, some kind, true, false⟩]

/-- An alias that is read only. -/
def legacyAlias (start : String) (kind : Option SessionKind) : SchemeDescriptor :=
  ⟨start.toList, .rowAndRuntimeKey, .here, kind, true, true⟩

def sessionPathSchemes : List SchemeDescriptor :=
  [⟨"local://".toList, .rowAndRuntimeKey, .here, none, true, false⟩,
    ⟨"remote-session://".toList, .rowIdentity, .remote, some .codex, true, false⟩,
    ⟨"remote-cc://".toList, .rowIdentity, .remote, some .claudeCode, true, false⟩,
    ⟨"codex-runtime://".toList, .runtimeKey, .remote, some .codex, true, false⟩,
    ⟨"cc-runtime://".toList, .runtimeKey, .remote, some .claudeCode, true, false⟩] ++
  agentSchemes .pi "remote-pi://" "pi-runtime://" ++
  agentSchemes .openCode "remote-opencode://" "opencode-runtime://" ++
  agentSchemes .qwenCode "remote-qwen://" "qwen-runtime://" ++
  agentSchemes .kimi "remote-kimi://" "kimi-runtime://" ++
  agentSchemes .muse "remote-muse://" "muse-runtime://" ++
  agentSchemes .antigravity "remote-agy://" "agy-runtime://" ++
  agentSchemes .grokBuild "remote-grok://" "grok-runtime://" ++
  agentSchemes .zcodeTui "remote-zcode-tui://" "zcode-tui-runtime://" ++
  agentSchemes .devin "remote-devin://" "devin-runtime://" ++
  agentSchemes .mimoCode "remote-mimo://" "mimo-runtime://" ++
  [⟨"live::".toList, .rowAndRuntimeKey, .here, some .shell, false, false⟩,
    ⟨"ssh://".toList, .rowIdentity, .remote, some .sshShell, false, false⟩,
    ⟨"document::".toList, .rowIdentity, .here, some .document, false, false⟩,
    legacyAlias "codex://" (some .codex),
    legacyAlias "codex::" (some .codex),
    legacyAlias "codex-litellm://" (some .codexLiteLlm),
    legacyAlias "codex-litellm::" (some .codexLiteLlm),
    legacyAlias "local::" none,
    ⟨"remote-runtime://".toList, .rowIdentity, .remote, none, true, true⟩]

def SchemeRole.namesRow (role : SchemeRole) : Bool :=
  role = rowIdentity || role = rowAndRuntimeKey

def remoteRowSchemes : List SchemeDescriptor :=
  sessionPathSchemes.filter fun scheme =>
    !scheme.legacy && scheme.locality = .remote && scheme.role.namesRow

def remoteAgentRowSchemes : List SchemeDescriptor :=
  sessionPathSchemes.filter fun scheme =>
    scheme.agent && !scheme.legacy && scheme.locality = .remote && scheme.role.namesRow

def remoteAgentSessionPath (kind : SessionKind) (machineKey sessionId : List Char) : List Char :=
  let start := ((remoteAgentRowSchemes.find? fun scheme => scheme.kind = some kind).map
    SchemeDescriptor.schemePrefix).getD "remote-session://".toList
  start ++ (machineKey ++ '/' :: sessionId)

def parseRemoteAgentSessionPath (path : List Char) :
    Option (SessionKind × List Char × List Char) := do
  let (scheme, rest) ←
    readTag SchemeDescriptor.schemePrefix remoteAgentRowSchemes (trimStart path)
  let kind ← scheme.kind
  let (machineKey, sessionId) ← findText ['/'] rest
  if trim machineKey = [] ∨ trim sessionId = [] then none
  else some (kind, trim machineKey, trim sessionId)

def remoteRowMachineKey (path : List Char) : Option (List Char) := do
  let (_, rest) ← readTag SchemeDescriptor.schemePrefix remoteRowSchemes (trimStart path)
  let key := trim (← (rest.splitOn '/').head?)
  if key = [] then none else some key

/-! ## The table -/

theorem remoteAgentRowSchemes_sublist : remoteAgentRowSchemes.Sublist remoteRowSchemes := by
  have isPart : remoteAgentRowSchemes = remoteRowSchemes.filter SchemeDescriptor.agent := by
    rw [remoteAgentRowSchemes, remoteRowSchemes, List.filter_filter]
    simp only [Bool.and_assoc]
  rw [isPart]
  exact List.filter_sublist

/-- No scheme of a remote row begins another. -/
theorem remoteRowSchemes_prefixFree :
    PrefixFree SchemeDescriptor.schemePrefix remoteRowSchemes := by
  unfold PrefixFree
  decide

theorem trimStart_schemePrefix_append {scheme : SchemeDescriptor}
    (member : scheme ∈ remoteRowSchemes) (rest : List Char) :
    trimStart (scheme.schemePrefix ++ rest) = scheme.schemePrefix ++ rest := by
  have solid : remoteRowSchemes.all (fun scheme =>
      scheme.schemePrefix.head?.any fun first => !isWhitespace first) = true := by decide
  obtain ⟨first, isFirst, isSolid⟩ := (Option.any_eq_true _ _).mp
    (List.all_eq_true.mp solid scheme member)
  obtain ⟨others, isPrefix⟩ := List.head?_eq_some_iff.mp isFirst
  rw [isPrefix, List.cons_append, trimStart]
  exact List.dropWhile_cons_of_neg (by simpa using isSolid)

/-! ## Addresses -/

/-- A remote row of an agent whose rows have a scheme. -/
structure RemoteAddress where
  kind : SessionKind
  machineKey : List Char
  sessionId : List Char
  registered : ∃ scheme ∈ remoteAgentRowSchemes, scheme.kind = some kind
  machineTrimmed : trim machineKey = machineKey
  machineNonempty : machineKey ≠ []
  machineClean : '/' ∉ machineKey
  idTrimmed : trim sessionId = sessionId
  idNonempty : sessionId ≠ []

def RemoteAddress.path (address : RemoteAddress) : List Char :=
  remoteAgentSessionPath address.kind address.machineKey address.sessionId

/-- The path begins with a scheme of the agent. -/
theorem RemoteAddress.exists_scheme (address : RemoteAddress) :
    ∃ scheme ∈ remoteAgentRowSchemes, scheme.kind = some address.kind ∧
      address.path = scheme.schemePrefix ++ (address.machineKey ++ '/' :: address.sessionId) := by
  obtain ⟨registered, isRegistered, isKind⟩ := address.registered
  have isSome : (remoteAgentRowSchemes.find? fun scheme =>
      scheme.kind = some address.kind).isSome = true :=
    List.find?_isSome.mpr ⟨registered, isRegistered, by simpa using isKind⟩
  obtain ⟨scheme, found⟩ := Option.isSome_iff_exists.mp isSome
  have hasKind := List.find?_some found
  refine ⟨scheme, List.mem_of_find?_eq_some found, of_decide_eq_true hasKind, ?_⟩
  rw [RemoteAddress.path, remoteAgentSessionPath, found]
  rfl

theorem RemoteAddress.parse_path (address : RemoteAddress) :
    parseRemoteAgentSessionPath address.path =
      some (address.kind, address.machineKey, address.sessionId) := by
  obtain ⟨scheme, member, isKind, isPath⟩ := address.exists_scheme
  have isRow := remoteAgentRowSchemes_sublist.subset member
  have free := remoteRowSchemes_prefixFree.sublist remoteAgentRowSchemes_sublist
  rw [parseRemoteAgentSessionPath, isPath, trimStart_schemePrefix_append isRow,
    readTag_append free member, Option.bind_eq_bind, Option.bind_some]
  simp only [isKind, Option.bind_eq_bind, Option.bind_some,
    findText_singleton address.machineClean, address.machineTrimmed, address.idTrimmed]
  rw [if_neg (not_or.mpr ⟨address.machineNonempty, address.idNonempty⟩)]

theorem RemoteAddress.machineKey_path (address : RemoteAddress) :
    remoteRowMachineKey address.path = some address.machineKey := by
  obtain ⟨scheme, member, _, isPath⟩ := address.exists_scheme
  have isRow := remoteAgentRowSchemes_sublist.subset member
  have isFirst : ((address.machineKey ++ '/' :: address.sessionId).splitOn '/').head? =
      some address.machineKey := by
    rw [List.splitOn_eq_splitOnP, List.splitOnP_append_cons _ _ (by simp),
      List.splitOnP_eq_singleton]
    · rfl
    · intro char inKey
      simpa using fun same : char = '/' => address.machineClean (same ▸ inKey)
  rw [remoteRowMachineKey, isPath, trimStart_schemePrefix_append isRow,
    readTag_append remoteRowSchemes_prefixFree isRow, Option.bind_eq_bind, Option.bind_some]
  simp only [isFirst, Option.bind_eq_bind, Option.bind_some, address.machineTrimmed]
  rw [if_neg address.machineNonempty]

/-- Paths of remote rows are read back, and different rows have different paths. -/
theorem addresses_round_trip :
    (∀ address : RemoteAddress,
      parseRemoteAgentSessionPath address.path =
        some (address.kind, address.machineKey, address.sessionId) ∧
      remoteRowMachineKey address.path = some address.machineKey) ∧
    ∀ first second : RemoteAddress, first.path = second.path →
      first.kind = second.kind ∧ first.machineKey = second.machineKey ∧
        first.sessionId = second.sessionId := by
  refine ⟨fun address => ⟨address.parse_path, address.machineKey_path⟩, ?_⟩
  intro first second samePath
  have same := first.parse_path
  rw [samePath, second.parse_path, Option.some.injEq, Prod.mk.injEq, Prod.mk.injEq] at same
  obtain ⟨sameKind, sameMachine, sameId⟩ := same
  exact ⟨sameKind.symm, sameMachine.symm, sameId.symm⟩

example : (RemoteAddress.mk .mimoCode "buildbox".toList "a/b//".toList (by decide) (by decide)
    (by decide) (by decide) (by decide) (by decide)).path =
      "remote-mimo://buildbox/a/b//".toList := by decide

end Yggterm.SessionPaths
