import Yggterm.KeyTips.Model
import Yggterm.KeyTips.Shapes

/-!
# Walking the tree of KeyTips

The painter and the walker go down the tree on their own.  Both are readings of one walk, which
says where typed keys land: on a level, or behind a group letter with what was typed there.
-/

namespace Yggterm.KeyTips

/-! ## One level -/

/-- The tips of a level are told apart while they are typed. -/
def TipsApart (nodes : List AssignedNode) : Prop :=
  (nodes.map AssignedNode.tip).Nodup ∧
    ∀ node ∈ nodes, ∀ other ∈ nodes, node.tip <+: other.tip → node.tip = other.tip

instance (nodes : List AssignedNode) : Decidable (TipsApart nodes) :=
  inferInstanceAs (Decidable (_ ∧ _))

section Level

variable {nodes : List AssignedNode}

theorem matchSecond_append {first : Char} {chars : List Char} {node : AssignedNode}
    {consumed : Nat} (matched : matchSecond nodes first chars = .node node consumed)
    (more : List Char) :
    matchSecond nodes first (chars ++ more) = .node node consumed ∧
      consumed ≤ chars.length + 1 := by
  cases chars with
  | nil => cases matched
  | cons second later =>
      rw [matchSecond] at matched
      rw [List.cons_append, matchSecond]
      cases found : nodes.find? fun node => decide (node.tip = [first, second]) with
      | none =>
          rw [found] at matched
          cases matched
      | some other =>
          rw [found] at matched
          obtain ⟨rfl, rfl⟩ := TipMatch.node.inj matched
          exact ⟨rfl, by simp⟩

/-- A match consumes typed keys, and more keys behind them change nothing. -/
theorem matchTip_append {chars : List Char} {node : AssignedNode} {consumed : Nat}
    (matched : matchTip nodes chars = .node node consumed) (more : List Char) :
    matchTip nodes (chars ++ more) = .node node consumed ∧ consumed ≤ chars.length := by
  cases chars with
  | nil => cases matched
  | cons first rest =>
      rw [matchTip] at matched
      rw [List.cons_append, matchTip]
      cases found : nodes.find? fun node => decide (node.tip = [first]) with
      | some other =>
          rw [found] at matched
          obtain ⟨rfl, rfl⟩ := TipMatch.node.inj matched
          exact ⟨rfl, by simp⟩
      | none =>
          rw [found] at matched
          dsimp only at matched ⊢
          by_cases claims : (nodes.any fun node => decide (node.tip.length = 2) &&
              decide (node.tip.head? = some first)) = true
          · rw [if_pos claims] at matched ⊢
            exact matchSecond_append matched more
          · rw [if_neg claims] at matched
            cases matched

variable (apart : TipsApart nodes) {node : AssignedNode} (member : node ∈ nodes)

include apart member

theorem find?_tip : (nodes.find? fun other => other.tip = node.tip) = some node := by
  cases found : nodes.find? fun other => decide (other.tip = node.tip) with
  | none => exact absurd (List.find?_eq_none.mp found node member) (by simp)
  | some other =>
      have sameTip : other.tip = node.tip := by simpa using List.find?_some found
      have isNode :=
        List.inj_on_of_nodup_map apart.1 (List.mem_of_find?_eq_some found) member sameTip
      rw [isNode]

/-- A tip that is typed is matched. -/
theorem matchTip_tip (isTip : IsTip node.tip) (rest : List Char) :
    matchTip nodes (node.tip ++ rest) = .node node node.tip.length := by
  have found := find?_tip apart member
  rcases isTip with ⟨letter, single, _⟩ | ⟨first, second, pair, _, _⟩
  · rw [single] at found ⊢
    rw [List.cons_append, matchTip, found]
    rfl
  · have notSingle : (nodes.find? fun other => decide (other.tip = [first])) = none := by
      apply List.find?_eq_none.mpr
      intro other isOther sameTip
      have isFirst : other.tip = [first] := of_decide_eq_true sameTip
      have within : other.tip <+: node.tip := by
        rw [isFirst, pair]
        exact ⟨[second], rfl⟩
      have same := apart.2 other isOther node member within
      rw [isFirst, pair] at same
      cases same
    have claims : (nodes.any fun other => decide (other.tip.length = 2) &&
        decide (other.tip.head? = some first)) = true := by
      apply List.any_eq_true.mpr
      exact ⟨node, member, by simp [pair]⟩
    rw [pair] at found ⊢
    rw [List.cons_append, matchTip, notSingle]
    dsimp only
    rw [if_pos claims, List.cons_append, matchSecond, found]
    rfl

end Level

/-! ## The walk -/

/-- Where typed keys land: on a level, or behind the letter of a group with the keys typed
there. -/
inductive Landing where
  | nowhere
  | level (scope : List Char)
  | group (scope : List Char) (tip : Tip) (members : List GroupMember) (typed : List Char)

def Landing.scope? : Landing → Option (List Char)
  | nowhere => none
  | level scope => some scope
  | group scope tip _ _ => some (groupScope scope tip)

/-- What pressing a node's tip does, when it is the last key. -/
def AssignedNode.answer (scope : List Char) : AssignedNode → ChordResolution
  | leaf key _ _ .run => .run key
  | leaf key _ _ (.descend child) => .descend key child.asStr
  | group tip _ _ => .descend [] (groupScope scope tip)

namespace KeyTipTree

variable (tree : KeyTipTree)

def walkFrom : Nat → List Char → List Char → Landing
  | _, scope, [] => .level scope
  | skip + 1, scope, _ :: rest => walkFrom skip scope rest
  | 0, scope, first :: rest =>
      match tree scope with
      | none => .nowhere
      | some nodes =>
          match matchTip nodes (first :: rest) with
          | .node (.leaf _ _ _ (.descend child)) consumed =>
              walkFrom (consumed - 1) child.asStr rest
          | .node (.leaf _ _ _ .run) _ => .nowhere
          | .node (.group tip _ members) consumed =>
              .group scope tip members (rest.drop (consumed - 1))
          | .pending => .nowhere
          | .invalid => .nowhere

def walk (typed : List Char) : Landing :=
  tree.walkFrom 0 ScopeId.root.asStr (typed.map Char.toLower)

variable {tree}

/-- The painter asks for the level where a walk ends. -/
theorem scopeFrom_eq (skip : Nat) (scope chars : List Char) :
    tree.scopeFrom skip scope chars = (tree.walkFrom skip scope chars).scope? := by
  fun_induction walkFrom tree skip scope chars with
  | case1 => simp [scopeFrom, Landing.scope?]
  | case2 _ _ _ _ inductionHypothesis => rw [scopeFrom, inductionHypothesis]
  | case3 _ _ _ absent => simp [scopeFrom, absent, Landing.scope?]
  | case4 _ _ _ _ known _ _ _ _ _ matched inductionHypothesis =>
      simp [scopeFrom, known, matched, inductionHypothesis]
  | case5 _ _ _ _ known _ _ _ _ matched => simp [scopeFrom, known, matched, Landing.scope?]
  | case6 _ _ _ _ known _ _ _ _ matched => simp [scopeFrom, known, matched, Landing.scope?]
  | case7 _ _ _ _ known matched => simp [scopeFrom, known, matched, Landing.scope?]
  | case8 _ _ _ _ known matched => simp [scopeFrom, known, matched, Landing.scope?]

theorem resolveFrom_of_descend {scope rest : List Char} {first : Char}
    {nodes : List AssignedNode} (known : tree scope = some nodes) {key title tip : List Char}
    {child : ScopeId} {consumed : Nat}
    (matched : matchTip nodes (first :: rest) =
      .node (.leaf key title tip (.descend child)) consumed)
    {more : List Char} (typesMore : more ≠ []) :
    tree.resolveFrom 0 scope (first :: rest ++ more) =
        tree.resolveFrom (consumed - 1) child.asStr (rest ++ more) ∧
      consumed - 1 ≤ rest.length := by
  obtain ⟨still, within⟩ := matchTip_append matched more
  have inside : consumed - 1 ≤ rest.length := Nat.sub_le_of_le_add within
  have notLast : (rest ++ more).drop (consumed - 1) ≠ [] := by
    rw [List.drop_append_of_le_length inside]
    exact List.append_ne_nil_of_right_ne_nil _ typesMore
  rw [List.cons_append] at still ⊢
  rw [resolveFrom, known]
  dsimp only
  rw [still]
  dsimp only
  rw [if_neg notLast]
  exact ⟨rfl, inside⟩

/-- More keys behind a level are walked from that level. -/
theorem resolveFrom_append_of_level {more : List Char} (typesMore : more ≠ []) {level : List Char}
    {skip : Nat} {scope chars : List Char} (enough : skip ≤ chars.length)
    (lands : tree.walkFrom skip scope chars = .level level) :
    tree.resolveFrom skip scope (chars ++ more) = tree.resolveFrom 0 level more := by
  fun_induction walkFrom tree skip scope chars with
  | case1 skip scope =>
      obtain rfl := Nat.le_zero.mp enough
      obtain rfl := Landing.level.inj lands
      rfl
  | case2 skip scope char rest inductionHypothesis =>
      rw [List.cons_append, resolveFrom]
      exact inductionHypothesis (Nat.le_of_succ_le_succ enough) lands
  | case3 => cases lands
  | case4 scope first rest nodes known key title tip child consumed matched inductionHypothesis =>
      obtain ⟨below, inside⟩ := resolveFrom_of_descend known matched typesMore
      rw [below]
      exact inductionHypothesis inside lands
  | case5 => cases lands
  | case6 => cases lands
  | case7 => cases lands
  | case8 => cases lands

/-- Behind a group letter the typed keys, and no others, select a member. -/
theorem resolveFrom_append_of_group {more : List Char} (typesMore : more ≠ [])
    {group tip : List Char} {members : List GroupMember} {typed : List Char} {skip : Nat}
    {scope chars : List Char} (enough : skip ≤ chars.length)
    (lands : tree.walkFrom skip scope chars = .group group tip members typed) :
    tree.resolveFrom skip scope (chars ++ more) = chooseMember members (typed ++ more) := by
  fun_induction walkFrom tree skip scope chars with
  | case1 skip scope => cases lands
  | case2 skip scope char rest inductionHypothesis =>
      rw [List.cons_append, resolveFrom]
      exact inductionHypothesis (Nat.le_of_succ_le_succ enough) lands
  | case3 => cases lands
  | case4 scope first rest nodes known key title tip child consumed matched inductionHypothesis =>
      obtain ⟨below, inside⟩ := resolveFrom_of_descend known matched typesMore
      rw [below]
      exact inductionHypothesis inside lands
  | case5 => cases lands
  | case6 scope first rest nodes known tip title members consumed matched =>
      obtain ⟨still, within⟩ := matchTip_append matched more
      have inside : consumed - 1 ≤ rest.length := Nat.sub_le_of_le_add within
      obtain ⟨rfl, rfl, rfl, rfl⟩ := Landing.group.inj lands
      rw [List.cons_append] at still ⊢
      rw [resolveFrom, known]
      dsimp only
      rw [still]
      dsimp only
      rw [List.drop_append_of_le_length inside, if_neg]
      exact List.append_ne_nil_of_right_ne_nil _ typesMore
  | case7 => cases lands
  | case8 => cases lands

/-! ## Typing a tip -/

section Typing

variable {scope : List Char} {nodes : List AssignedNode} (known : tree scope = some nodes)
  (apart : TipsApart nodes)

include known apart

/-- What a tip does when it is typed on the level of its node. -/
theorem resolveFrom_tip {node : AssignedNode} (member : node ∈ nodes) (isTip : IsTip node.tip) :
    tree.resolveFrom 0 scope node.tip = node.answer scope := by
  have matched := matchTip_tip apart member isTip []
  have nonempty : node.tip ≠ [] := by
    rcases isTip with ⟨letter, single, _⟩ | ⟨first, second, pair, _, _⟩
    · exact single ▸ List.cons_ne_nil _ _
    · exact pair ▸ List.cons_ne_nil _ _
  rw [List.append_nil] at matched
  obtain ⟨first, rest, isCons⟩ := List.exists_cons_of_ne_nil nonempty
  have consumesAll : rest.drop (node.tip.length - 1) = [] := by
    rw [isCons, List.length_cons, Nat.add_sub_cancel, List.drop_length]
  rw [isCons] at matched consumesAll ⊢
  rw [resolveFrom, known]
  dsimp only
  rw [matched]
  dsimp only
  rw [consumesAll]
  cases node with
  | leaf key title tip target => cases target <;> rfl
  | group tip title members => rfl

theorem resolveFrom_groupLetter {letter : Char} {title : List Char} {members : List GroupMember}
    (member : .group [letter] title members ∈ nodes) (lower : letter.toLower = letter)
    {more : List Char} (typesMore : more ≠ []) :
    tree.resolveFrom 0 scope (letter :: more) = chooseMember members more := by
  have matched := matchTip_tip apart member (.inl ⟨letter, rfl, lower⟩) more
  have isMatch : matchTip nodes (letter :: more) = .node (.group [letter] title members) 1 :=
    matched
  rw [resolveFrom, known]
  dsimp only
  rw [isMatch]
  exact if_neg typesMore

end Typing

end KeyTipTree

end Yggterm.KeyTips
