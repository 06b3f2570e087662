import Yggterm.KeyTips.Walks

/-!
# Badges do what they show

A badge is read back by the walker: typing it behind the keys that are on the screen acts on
the element it stands on.
-/

namespace Yggterm.KeyTips

open KeyTipTree Utf8

/-- The element itself, or the group that it is in, which opens. -/
def ActsOn (tree : KeyTipTree) (nodeKey : List Char) (resolution : ChordResolution) : Prop :=
  resolution = .run nodeKey ∨ (∃ scope, resolution = .descend nodeKey scope) ∨
    ∃ scope nodes tip title members, tree scope = some nodes ∧
      .group tip title members ∈ nodes ∧ (∃ member ∈ members, member.key = nodeKey) ∧
      resolution = .descend [] (groupScope scope tip)

/-- What is painted for an element behind a typed sequence is what typing it does. -/
structure FaithfulAt (tree : KeyTipTree) (sequence nodeKey : List Char) : Prop where
  tip : ∀ tip, tree.tipFor sequence nodeKey = some tip →
    ActsOn tree nodeKey (tree.resolve (sequence ++ tip))
  number : ∃ answer, tree.groupMemberTip sequence nodeKey = some answer ∧
    ∀ number, answer = some number → tree.resolve (sequence ++ number) = .run nodeKey

/-- Whether the badge of a node stands on an element. -/
def AssignedNode.anchors (nodeKey : List Char) : AssignedNode → Bool
  | leaf key _ _ _ => key = nodeKey
  | group _ _ members => members.head?.map GroupMember.key = some nodeKey

/-- The sequence ends at a byte of its own; the number of an element under the group letter that
ends it is one digit; and where the sequence has entered a group, no scope with the id of the
group holds the element, unless under the digit that selects it in the group. -/
structure ReadsBack (tree : KeyTipTree) (sequence nodeKey : List Char) : Prop where
  lastByte : ∀ char, sequence.getLast? = some char → char.toNat < 0x80
  oneDigit : ∀ parent letter scope nodes title members member, sequence = parent ++ [letter] →
    tree.walk parent = .level scope → tree scope = some nodes →
    .group [letter] title members ∈ nodes →
    (members.find? fun member => member.key = nodeKey) = some member → member.number < 10
  tipApart : ∀ scope tip members typed nodes node,
    tree.walk sequence = .group scope tip members typed →
    tree (groupScope scope tip) = some nodes → nodes.find? (·.anchors nodeKey) = some node →
    ∃ digit member, typed ++ node.tip = [digit] ∧ memberAt members digit = some member ∧
      member.key = nodeKey
  numberApart : ∀ parent letter scope tip members typed nodes, sequence = parent ++ [letter] →
    tree.walk parent = .group scope tip members typed →
    tree (groupScope scope tip) = some nodes → ∀ title inside,
    .group [letter] title inside ∈ nodes → ∀ member ∈ inside, member.key ≠ nodeKey

/-! ## Members -/

theorem chooseMember_cases (members : List GroupMember) (chars : List Char) :
    chooseMember members chars = .invalid ∨ ∃ digit member, chars = [digit] ∧
      memberAt members digit = some member ∧ chooseMember members chars = .run member.key := by
  cases chars with
  | nil => exact .inl rfl
  | cons digit rest =>
      cases rest with
      | cons second later => exact .inl rfl
      | nil =>
          rw [chooseMember]
          cases found : memberAt members digit with
          | none => exact .inl rfl
          | some member => exact .inr ⟨digit, member, rfl, found, rfl⟩

theorem chooseMember_eq_run_iff {members : List GroupMember} {chars key : List Char} :
    chooseMember members chars = .run key ↔
      ∃ digit member, chars = [digit] ∧ memberAt members digit = some member ∧
        member.key = key := by
  constructor
  · intro runs
    rcases chooseMember_cases members chars with invalid | ⟨digit, member, isDigit, found, answer⟩
    · rw [invalid] at runs
      cases runs
    · rw [answer] at runs
      exact ⟨digit, member, isDigit, found, ChordResolution.run.inj runs⟩
  · rintro ⟨digit, member, rfl, found, rfl⟩
    rw [chooseMember, found]

theorem actsOn_chooseMember_iff {tree : KeyTipTree} {members : List GroupMember}
    {chars key : List Char} : ActsOn tree key (chooseMember members chars) ↔
      ∃ digit member, chars = [digit] ∧ memberAt members digit = some member ∧
        member.key = key := by
  rw [← chooseMember_eq_run_iff]
  constructor
  · intro acts
    rcases chooseMember_cases members chars with invalid | ⟨_, member, _, _, answer⟩
    · rw [invalid] at acts
      simp [ActsOn] at acts
    · rw [answer] at acts ⊢
      simpa [ActsOn] using acts
  · exact .inl

/-- Two keys behind a group letter select nothing. -/
theorem chooseMember_of_long {members : List GroupMember} {chars : List Char}
    (long : 2 ≤ chars.length) (key : List Char) : chooseMember members chars ≠ .run key := by
  intro runs
  obtain ⟨digit, _, rfl, _⟩ := chooseMember_eq_run_iff.mp runs
  simp at long

/-- A number of one digit selects its member. -/
theorem memberAt_digitChar {members : List GroupMember}
    (distinct : (members.map GroupMember.number).Nodup) {member : GroupMember}
    (inside : member ∈ members) (short : member.number < 10) :
    memberAt members member.number.digitChar.toLower = some member := by
  have isNumber : toDigit member.number.digitChar.toLower = some member.number := by
    have digits : ∀ digit : Fin 10, toDigit (digit.val.digitChar.toLower) = some digit.val := by
      decide
    exact digits ⟨member.number, short⟩
  rw [memberAt, isNumber, Option.bind_some]
  cases found : members.find? fun other => decide (other.number = member.number) with
  | none => exact absurd (List.find?_eq_none.mp found member inside) (by simp)
  | some other =>
      have same : other.number = member.number := by simpa using List.find?_some found
      have isMember :=
        List.inj_on_of_nodup_map distinct (List.mem_of_find?_eq_some found) inside same
      rw [isMember]

/-! ## What is painted -/

/-- An element shows the tip of the first node that stands on it. -/
theorem paintedTip_eq (nodes : List AssignedNode) (nodeKey : List Char) :
    paintedTip nodes nodeKey = (nodes.find? (·.anchors nodeKey)).map AssignedNode.tip := by
  induction nodes with
  | nil => rfl
  | cons node rest inductionHypothesis =>
      rw [paintedTip, List.findSome?_cons, ← paintedTip, inductionHypothesis, List.find?_cons]
      cases node with
      | leaf key title tip target =>
          by_cases same : key = nodeKey <;> simp [AssignedNode.anchors, AssignedNode.tip, same]
      | group tip title members =>
          cases members with
          | nil => simp [AssignedNode.anchors]
          | cons first later =>
              by_cases same : first.key = nodeKey <;>
                simp [AssignedNode.anchors, AssignedNode.tip, same]

/-- A node acts on the element that it stands on. -/
theorem actsOn_answer {tree : KeyTipTree} {scope nodeKey : List Char} {nodes : List AssignedNode}
    (known : tree scope = some nodes) {node : AssignedNode} (member : node ∈ nodes)
    (anchors : node.anchors nodeKey = true) : ActsOn tree nodeKey (node.answer scope) := by
  cases node with
  | leaf key title tip target =>
      obtain rfl := of_decide_eq_true anchors
      cases target with
      | run => exact .inl rfl
      | descend child => exact .inr (.inl ⟨child.asStr, rfl⟩)
  | group tip title members =>
      obtain ⟨first, isFirst, sameKey⟩ := Option.map_eq_some_iff.mp (of_decide_eq_true anchors)
      exact .inr (.inr ⟨scope, nodes, tip, title, members, known, member,
        ⟨first, List.mem_of_head? isFirst, sameKey⟩, rfl⟩)

theorem memberUnder_spec {nodes : List AssignedNode} {letter nodeKey : List Char}
    {member : GroupMember} (found : memberUnder nodes letter nodeKey = some member) :
    ∃ title members, .group letter title members ∈ nodes ∧
      (members.find? fun member => member.key = nodeKey) = some member := by
  obtain ⟨node, isNode, gives⟩ := List.exists_of_findSome?_eq_some found
  cases node with
  | leaf => cases gives
  | group tip title members =>
      obtain ⟨rfl, isFound⟩ := Option.ite_none_right_eq_some.mp gives
      exact ⟨title, members, isNode, isFound⟩

/-- With the tips apart there is one group under a letter. -/
theorem memberUnder_eq_some {nodes : List AssignedNode} (apart : TipsApart nodes)
    {letter title nodeKey : List Char} {members : List GroupMember}
    (isGroup : .group letter title members ∈ nodes) {member : GroupMember}
    (found : (members.find? fun member => member.key = nodeKey) = some member) :
    memberUnder nodes letter nodeKey = some member := by
  cases under : memberUnder nodes letter nodeKey with
  | none =>
      have misses := List.findSome?_eq_none_iff.mp under _ isGroup
      dsimp only at misses
      rw [if_pos rfl, found] at misses
      cases misses
  | some other =>
      obtain ⟨otherTitle, others, isOther, isFound⟩ := memberUnder_spec under
      have same := List.inj_on_of_nodup_map apart.1 isGroup isOther rfl
      obtain ⟨_, _, rfl⟩ := AssignedNode.group.inj same
      rw [← isFound, found]

theorem length_toDigits {number : Nat} : 2 ≤ (Nat.toDigits 10 number).length ↔ ¬ number < 10 := by
  have short := Nat.length_toDigits_le_iff (b := 10) (n := number) (k := 1) (by decide) (by decide)
  omega

end Yggterm.KeyTips
