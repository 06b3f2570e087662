import Yggterm.KeyTips.Badges
import Yggterm.Library.Ascii

/-!
# When a badge does what it shows

Behind a walk that ends on a level every badge is faithful.  The badges behind a group letter
are faithful when they are one digit that the group knows.
-/

namespace Yggterm.KeyTips

open KeyTipTree Utf8

/-! ## The scopes of a built tree -/

/-- The nodes of a level are those of a scope that was declared. -/
theorem build_eq_some {scopes : List (ScopeId × List KeyTipDecl)} {keymap : KeymapConfig}
    {scope : List Char} {nodes : List AssignedNode}
    (known : build scopes keymap scope = some nodes) :
    ∃ entry ∈ scopes, nodes = assignScope entry.1 entry.2 keymap := by
  induction scopes using List.reverseRecOn with
  | nil => cases known
  | append_singleton scopes entry inductionHypothesis =>
      rw [build, List.foldl_concat, Function.update_apply] at known
      split_ifs at known with isLast
      · exact ⟨entry, List.mem_append_right _ (List.mem_singleton_self _),
          (Option.some.inj known).symm⟩
      · obtain ⟨earlier, isEarlier, same⟩ := inductionHypothesis known
        exact ⟨earlier, List.mem_append_left _ isEarlier, same⟩

theorem wellMade_build {scopes : List (ScopeId × List KeyTipDecl)} {keymap : KeymapConfig}
    {scope : List Char} {nodes : List AssignedNode}
    (known : build scopes keymap scope = some nodes) {node : AssignedNode} (member : node ∈ nodes) :
    WellMade node := by
  obtain ⟨entry, _, rfl⟩ := build_eq_some known
  exact wellMade_assignScope member

theorem isTip_of_wellMade {node : AssignedNode} (wellMade : WellMade node) : IsTip node.tip := by
  cases node with
  | leaf key title tip target => exact wellMade
  | group tip title members => exact .inl wellMade.1

theorem IsTip.lower {tip : Tip} (isTip : IsTip tip) : tip.map Char.toLower = tip := by
  rcases isTip with ⟨letter, rfl, lower⟩ | ⟨first, second, rfl, firstLower, secondLower⟩
  · rw [List.map_singleton, lower]
  · rw [List.map_cons, List.map_singleton, firstLower, secondLower]

/-- The walker lowers a badge back to its tip. -/
theorem IsTip.lower_upper {tip : Tip} (isTip : IsTip tip) :
    (tip.map Char.toUpper).map Char.toLower = tip := by
  rw [List.map_map]
  calc tip.map (Char.toLower ∘ Char.toUpper)
      _ = tip.map Char.toLower := List.map_congr_left fun char _ => Ascii.toLower_toUpper char
      _ = tip := isTip.lower

/-! ## Behind a walk -/

section Behind

variable {tree : KeyTipTree}

theorem scopeAt_eq (sequence : List Char) : tree.scopeAt sequence = (tree.walk sequence).scope? :=
  scopeFrom_eq 0 _ _

variable {sequence more : List Char} (typesMore : more ≠ [])

include typesMore

theorem resolve_append_of_level {scope : List Char} (lands : tree.walk sequence = .level scope) :
    tree.resolve (sequence ++ more) = tree.resolveFrom 0 scope (more.map Char.toLower) := by
  rw [resolve, List.map_append]
  apply resolveFrom_append_of_level _ (Nat.zero_le _) lands
  exact fun nothing => typesMore (List.map_eq_nil_iff.mp nothing)

theorem resolve_append_of_group {scope tip typed : List Char} {members : List GroupMember}
    (lands : tree.walk sequence = .group scope tip members typed) :
    tree.resolve (sequence ++ more) = chooseMember members (typed ++ more.map Char.toLower) := by
  rw [resolve, List.map_append]
  apply resolveFrom_append_of_group _ (Nat.zero_le _) lands
  exact fun nothing => typesMore (List.map_eq_nil_iff.mp nothing)

end Behind

/-! ## The badge of an element -/

theorem tipFor_eq_some_iff {tree : KeyTipTree} {sequence nodeKey text : List Char} :
    tree.tipFor sequence nodeKey = some text ↔
      ∃ scope nodes node, (tree.walk sequence).scope? = some scope ∧ tree scope = some nodes ∧
        nodes.find? (·.anchors nodeKey) = some node ∧ node.tip.map Char.toUpper = text := by
  simp [tipFor, scopeAt_eq, paintedTip_eq, Option.bind_eq_some_iff]

theorem IsTip.upper_ne_nil {tip : Tip} (isTip : IsTip tip) : tip.map Char.toUpper ≠ [] := by
  rcases isTip with ⟨letter, rfl, _⟩ | ⟨first, second, rfl, _, _⟩ <;> simp

section Faithful

variable {tree : KeyTipTree}
  (wellMade : ∀ scope nodes, tree scope = some nodes → ∀ node ∈ nodes, WellMade node)
  (apart : ∀ scope nodes, tree scope = some nodes → TipsApart nodes)
  {sequence nodeKey : List Char}

section Tip

include wellMade

/-- Behind a group letter a badge goes to the members of the group. -/
theorem actsOn_behindGroup_iff {scope tip typed : List Char} {members : List GroupMember}
    (lands : tree.walk sequence = .group scope tip members typed) {group : List Char}
    {nodes : List AssignedNode} (known : tree group = some nodes) {node : AssignedNode}
    (anchors : nodes.find? (·.anchors nodeKey) = some node) :
    ActsOn tree nodeKey (tree.resolve (sequence ++ node.tip.map Char.toUpper)) ↔
      ∃ digit member, typed ++ node.tip = [digit] ∧ memberAt members digit = some member ∧
        member.key = nodeKey := by
  have isTip := isTip_of_wellMade
    (wellMade group nodes known node (List.mem_of_find?_eq_some anchors))
  rw [resolve_append_of_group isTip.upper_ne_nil lands, isTip.lower_upper]
  exact actsOn_chooseMember_iff

include apart

theorem actsOn_behindLevel {scope : List Char} (lands : tree.walk sequence = .level scope)
    {nodes : List AssignedNode} (known : tree scope = some nodes) {node : AssignedNode}
    (anchors : nodes.find? (·.anchors nodeKey) = some node) :
    ActsOn tree nodeKey (tree.resolve (sequence ++ node.tip.map Char.toUpper)) := by
  have member := List.mem_of_find?_eq_some anchors
  have isTip := isTip_of_wellMade (wellMade scope nodes known node member)
  rw [resolve_append_of_level isTip.upper_ne_nil lands, isTip.lower_upper,
    resolveFrom_tip known (apart scope nodes known) member isTip]
  exact actsOn_answer known member (List.find?_some anchors)

theorem actsOn_of_tipFor (reads : ReadsBack tree sequence nodeKey) {text : List Char}
    (painted : tree.tipFor sequence nodeKey = some text) :
    ActsOn tree nodeKey (tree.resolve (sequence ++ text)) := by
  obtain ⟨scope, nodes, node, isScope, known, anchors, rfl⟩ := tipFor_eq_some_iff.mp painted
  cases lands : tree.walk sequence with
  | nowhere =>
      rw [lands] at isScope
      cases isScope
  | level level =>
      rw [lands] at isScope
      obtain rfl := Option.some.inj isScope
      exact actsOn_behindLevel wellMade apart lands known anchors
  | group level tip members typed =>
      rw [lands] at isScope
      obtain rfl := Option.some.inj isScope
      apply (actsOn_behindGroup_iff wellMade lands known anchors).mpr
      exact reads.tipApart level tip members typed nodes node lands known anchors

end Tip

/-! ## The number of a member -/

theorem groupMemberTip_of_ascii (parent : List Char) {letter : Char}
    (isAscii : letter.toNat < 0x80) :
    tree.groupMemberTip (parent ++ [letter]) nodeKey =
      some ((tree.walk parent).scope?.bind fun scope => (tree scope).bind fun nodes =>
        (memberUnder nodes [letter] nodeKey).map fun member => Nat.toDigits 10 member.number) := by
  have bytes : (encode (parent ++ [letter])).length = (encode parent).length + 1 := by
    rw [encode_append, List.length_append, encode_cons, encode_nil, List.append_nil,
      length_encodeChar_of_ascii isAscii]
  rw [groupMemberTip, bytes]
  dsimp only
  rw [splitBytes_append, Option.map_some, scopeAt_eq]

/-- The cut one byte before the end panics inside a longer character. -/
theorem groupMemberTip_of_not_ascii (parent : List Char) {letter : Char}
    (notAscii : ¬ letter.toNat < 0x80) :
    tree.groupMemberTip (parent ++ [letter]) nodeKey = none := by
  have long := one_lt_length_encodeChar notAscii
  have bytes : (encode (parent ++ [letter])).length =
      (encode parent).length + (encodeChar letter).length := by
    rw [encode_append, List.length_append, encode_cons, encode_nil, List.append_nil]
  rw [groupMemberTip]
  cases total : (encode (parent ++ [letter])).length with
  | zero => omega
  | succ front =>
      dsimp only
      rw [Option.map_eq_none_iff]
      cases cut : splitBytes front (parent ++ [letter]) with
      | none => rfl
      | some parts =>
          obtain ⟨whole, length⟩ := eq_append_of_splitBytes cut
          exfalso
          rcases List.eq_nil_or_concat parts.2 with nothing | ⟨between, last, isLast⟩
          · rw [nothing, List.append_nil] at whole
            rw [← whole] at length
            omega
          · rw [isLast, List.concat_eq_append, ← List.append_assoc] at whole
            have within : (encode parent).length =
                (encode parts.1).length + (encode between).length := by
              rw [(List.append_inj' whole rfl).1, encode_append, List.length_append]
            omega

include wellMade apart

/-- Behind a level and a group letter the walker reads one digit. -/
theorem resolve_groupNumber {parent : List Char} {letter : Char} {scope : List Char}
    (lands : tree.walk parent = .level scope) {nodes : List AssignedNode}
    (known : tree scope = some nodes) {title : List Char} {members : List GroupMember}
    (isGroup : .group [letter] title members ∈ nodes) {member : GroupMember}
    (found : (members.find? fun member => member.key = nodeKey) = some member) :
    tree.resolve (parent ++ [letter] ++ Nat.toDigits 10 member.number) = .run nodeKey ↔
      member.number < 10 := by
  obtain ⟨⟨_, isLetter, lower⟩, distinct⟩ := wellMade scope nodes known _ isGroup
  obtain rfl := List.singleton_inj.mp isLetter
  have inside := List.mem_of_find?_eq_some found
  have sameKey : member.key = nodeKey := by simpa using List.find?_some found
  have typesMore : (Nat.toDigits 10 member.number).map Char.toLower ≠ [] :=
    fun nothing => Nat.toDigits_ne_nil (List.map_eq_nil_iff.mp nothing)
  rw [List.append_assoc, resolve_append_of_level (List.append_ne_nil_of_left_ne_nil
    (List.cons_ne_nil _ _) _) lands, List.singleton_append, List.map_cons, lower,
    resolveFrom_groupLetter known (apart scope nodes known) isGroup lower typesMore]
  constructor
  · intro runs
    by_contra large
    apply chooseMember_of_long _ nodeKey runs
    rw [List.length_map]
    exact length_toDigits.mpr large
  · intro short
    rw [Nat.toDigits_of_lt_base short, List.map_singleton, chooseMember,
      memberAt_digitChar distinct inside short]
    exact congrArg ChordResolution.run sameKey

omit wellMade apart in
/-- Two letters of groups are never both read. -/
theorem resolve_numberBehindGroup {parent : List Char} {letter : Char} {scope tip typed : List Char}
    {members : List GroupMember} (lands : tree.walk parent = .group scope tip members typed)
    (number : Nat) (nodeKey : List Char) :
    tree.resolve (parent ++ [letter] ++ Nat.toDigits 10 number) ≠ .run nodeKey := by
  have shows : 0 < (Nat.toDigits 10 number).length := List.length_pos_iff.mpr Nat.toDigits_ne_nil
  rw [List.append_assoc, resolve_append_of_group (List.append_ne_nil_of_left_ne_nil
    (List.cons_ne_nil _ _) _) lands]
  apply chooseMember_of_long
  rw [List.singleton_append, List.map_cons, List.length_append, List.length_cons, List.length_map]
  omega

theorem run_of_groupMemberTip (reads : ReadsBack tree sequence nodeKey) :
    ∃ answer, tree.groupMemberTip sequence nodeKey = some answer ∧
      ∀ number, answer = some number → tree.resolve (sequence ++ number) = .run nodeKey := by
  rcases List.eq_nil_or_concat sequence with rfl | ⟨parent, letter, isSequence⟩
  · exact ⟨none, rfl, fun number impossible => by cases impossible⟩
  · rw [List.concat_eq_append] at isSequence
    have isAscii := reads.lastByte letter (by rw [isSequence, List.getLast?_concat])
    refine ⟨_, isSequence ▸ groupMemberTip_of_ascii parent isAscii, ?_⟩
    intro number isNumber
    cases lands : tree.walk parent with
    | nowhere =>
        rw [lands] at isNumber
        cases isNumber
    | level scope =>
        rw [lands] at isNumber
        obtain ⟨_, isScope, onLevel⟩ := Option.bind_eq_some_iff.mp isNumber
        obtain rfl := Option.some.inj isScope
        obtain ⟨nodes, known, shows⟩ := Option.bind_eq_some_iff.mp onLevel
        obtain ⟨member, under, rfl⟩ := Option.map_eq_some_iff.mp shows
        obtain ⟨title, members, isGroup, found⟩ := memberUnder_spec under
        rw [isSequence]
        apply (resolve_groupNumber wellMade apart lands known isGroup found).mpr
        exact reads.oneDigit parent letter scope nodes title members member isSequence lands known
          isGroup found
    | group scope tip members typed =>
        rw [lands] at isNumber
        obtain ⟨_, isScope, onLevel⟩ := Option.bind_eq_some_iff.mp isNumber
        obtain rfl := Option.some.inj isScope
        obtain ⟨nodes, known, shows⟩ := Option.bind_eq_some_iff.mp onLevel
        obtain ⟨member, under, _⟩ := Option.map_eq_some_iff.mp shows
        obtain ⟨title, inside, isGroup, found⟩ := memberUnder_spec under
        exfalso
        apply reads.numberApart parent letter scope tip members typed nodes isSequence lands known
          title inside isGroup member (List.mem_of_find?_eq_some found)
        simpa using List.find?_some found

/-! ## Both directions -/

/-- A badge is read back exactly when it is within the walker's reach. -/
theorem faithfulAt_iff_of_wellMade :
    FaithfulAt tree sequence nodeKey ↔ ReadsBack tree sequence nodeKey := by
  constructor
  · intro faithful
    have isAscii : ∀ parent letter, sequence = parent ++ [letter] → letter.toNat < 0x80 := by
      intro parent letter isSequence
      by_contra notAscii
      obtain ⟨answer, defined, _⟩ := faithful.number
      rw [isSequence, groupMemberTip_of_not_ascii parent notAscii] at defined
      cases defined
    have runs : ∀ parent letter scope nodes member, sequence = parent ++ [letter] →
        (tree.walk parent).scope? = some scope → tree scope = some nodes →
        memberUnder nodes [letter] nodeKey = some member →
        tree.resolve (parent ++ [letter] ++ Nat.toDigits 10 member.number) = .run nodeKey := by
      intro parent letter scope nodes member isSequence isScope known found
      obtain ⟨answer, defined, acts⟩ := faithful.number
      rw [isSequence, groupMemberTip_of_ascii parent (isAscii parent letter isSequence), isScope,
        Option.bind_some, known, Option.bind_some, found, Option.map_some] at defined
      rw [← isSequence]
      exact acts _ (Option.some.inj defined).symm
    refine ⟨?lastByte, ?oneDigit, ?tipApart, ?numberApart⟩
    case lastByte =>
      intro char isLast
      obtain ⟨parent, isSequence⟩ := List.getLast?_eq_some_iff.mp isLast
      exact isAscii parent char isSequence
    case oneDigit =>
      intro parent letter scope nodes title members member isSequence lands known isGroup found
      apply (resolve_groupNumber wellMade apart lands known isGroup found).mp
      exact runs parent letter scope nodes member isSequence (by rw [lands]; rfl) known
        (memberUnder_eq_some (apart scope nodes known) isGroup found)
    case tipApart =>
      intro scope tip members typed nodes node lands known anchors
      apply (actsOn_behindGroup_iff wellMade lands known anchors).mp
      apply faithful.tip
      exact tipFor_eq_some_iff.mpr ⟨_, nodes, node, by rw [lands]; rfl, known, anchors, rfl⟩
    case numberApart =>
      intro parent letter scope tip members typed nodes isSequence lands known title inside isGroup
        member isInside sameKey
      have isSome : (inside.find? fun member => member.key = nodeKey).isSome = true :=
        List.find?_isSome.mpr ⟨member, isInside, decide_eq_true sameKey⟩
      obtain ⟨shown, found⟩ := Option.isSome_iff_exists.mp isSome
      apply resolve_numberBehindGroup lands shown.number nodeKey
      exact runs parent letter _ nodes shown isSequence (by rw [lands]; rfl) known
        (memberUnder_eq_some (apart _ nodes known) isGroup found)
  · intro reads
    exact ⟨fun _ painted => actsOn_of_tipFor wellMade apart reads painted,
      run_of_groupMemberTip wellMade apart reads⟩

end Faithful

/-- For every tree that is built from scopes whose tips are told apart, what is painted for an
element behind a typed sequence is what typing it does exactly where it reads back. -/
theorem faithfulAt_iff {scopes : List (ScopeId × List KeyTipDecl)} {keymap : KeymapConfig}
    (apart : ∀ scope nodes, build scopes keymap scope = some nodes → TipsApart nodes)
    (sequence nodeKey : List Char) :
    FaithfulAt (build scopes keymap) sequence nodeKey ↔
      ReadsBack (build scopes keymap) sequence nodeKey :=
  faithfulAt_iff_of_wellMade (fun _ _ known _ member => wellMade_build known member) apart

/-- Apps that ask for the same letter. -/
def appsUnder (letter : Char) (names : List (List Char)) : List KeyTipDecl :=
  names.map fun name => ⟨name, name, some letter, .app, .run⟩

/-- Two apps under a letter, and ten. -/
def twoApps : List KeyTipDecl := appsUnder 'n' ["notes".toList, "news".toList]

def tenApps : List KeyTipDecl := appsUnder 'n' ((letters.take 10).map fun name => [name])

theorem tipsApart_of_singleton {scopeId : ScopeId} {decls : List KeyTipDecl}
    {keymap : KeymapConfig} (apart : TipsApart (assignScope scopeId decls keymap))
    (scope : List Char) (nodes : List AssignedNode)
    (known : build [(scopeId, decls)] keymap scope = some nodes) : TipsApart nodes := by
  obtain ⟨entry, isEntry, rfl⟩ := build_eq_some known
  rw [List.mem_singleton.mp isEntry]
  exact apart

/-- The second of two apps under a letter is behind its number. -/
theorem secondApp_readsBack :
    ReadsBack (build [(.root, twoApps)] .empty) ['n'] "news".toList := by
  apply (faithfulAt_iff (tipsApart_of_singleton (by decide +kernel)) ['n'] "news".toList).mp
  refine ⟨?_, some ['2'], by decide +kernel, ?_⟩
  · intro tip painted
    have unpainted : tipFor (build [(.root, twoApps)] .empty) ['n'] "news".toList = none := by
      decide
    rw [unpainted] at painted
    cases painted
  · intro number isNumber
    obtain rfl := Option.some.inj isNumber
    decide +kernel

/-- The tenth app under a letter shows two digits, and the walker reads one. -/
theorem tenthApp_unreached : ¬ ∀ (scopes : List (ScopeId × List KeyTipDecl))
    (keymap : KeymapConfig),
    (∀ scope nodes, build scopes keymap scope = some nodes → TipsApart nodes) →
      ∀ sequence nodeKey, (∃ entry ∈ scopes, ∃ decl ∈ entry.2, decl.key = nodeKey) →
        FaithfulAt (build scopes keymap) sequence nodeKey := by
  intro claimed
  have faithful := claimed [(.root, tenApps)] .empty
    (tipsApart_of_singleton (by decide)) ['n'] ['j'] (by decide)
  obtain ⟨answer, shown, acts⟩ := faithful.number
  have isTen : groupMemberTip (build [(.root, tenApps)] .empty) ['n'] ['j'] =
      some (some ['1', '0']) := by decide +kernel
  rw [isTen] at shown
  have runs := acts ['1', '0'] (Option.some.inj shown).symm
  have isInvalid : resolve (build [(.root, tenApps)] .empty) (['n'] ++ ['1', '0']) =
      .invalid := by decide
  rw [isInvalid] at runs
  cases runs

end Yggterm.KeyTips
