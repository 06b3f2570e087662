import Yggterm.CwdTree.Tree

/-!
# What the compression keeps

The compression takes nodes that hold nothing out of the tree, and joins their names to those of
their children.  Joining is associative but for the empty name, which the segments of a path below
`/root/` may have.
-/

namespace Yggterm.CwdTree

open Ownership Tries Workspace

/-- The children of a node, and those of their children. -/
abbrev Nodes := Forest (List Char) NodeData

/-- The node holds nothing. -/
def NodeData.Bare (node : NodeData) : Prop :=
  node.project = none ∧ node.explicitTitle = none ∧ node.document = none

instance (node : NodeData) : Decidable node.Bare :=
  inferInstanceAs (Decidable (node.project = none ∧ node.explicitTitle = none ∧
    node.document = none))

/-- The node may be taken in by its parent. -/
def NodeData.Plain (node : NodeData) : Prop :=
  node.explicitTitle = none ∧ node.document = none

/-- All that a node has but its name. -/
def NodeData.unnamed (node : NodeData) : NodeData := { node with name := [] }

/-- A node in the place of its one child. -/
def NodeData.merged (node child : NodeData) : NodeData :=
  { node with
    name := joinSessionLabel node.name child.name
    fullPath := child.fullPath
    document := child.document
    project := child.project }

/-- There is exactly one child, and it is plain. -/
def OnePlain : Nodes → Prop
  | .cons _ child _ .nil => child.Plain
  | _ => False

/-- The loop stops at the node at once. -/
def Stays (node : NodeData) : Nodes → Prop
  | .cons key child _ .nil => node.Bare → ¬child.Plain ∧ key = child.name
  | _ => True

/-- The compression finds nothing to do. -/
def Normal : Nodes → Prop
  | .nil => True
  | .cons _ node children rest => Stays node children ∧ Normal children ∧ Normal rest

/-- No node that holds nothing has exactly one child that is plain. -/
def Tight : Nodes → Prop
  | .nil => True
  | .cons _ node children rest => ¬(node.Bare ∧ OnePlain children) ∧ Tight children ∧ Tight rest

/-- The marked nodes of a walk, without their names, each behind the marked nodes above it. -/
def marked (above : List NodeData) : Nodes → List (List NodeData × NodeData)
  | .nil => []
  | .cons _ node children rest =>
      if node.Bare then marked above children ++ marked above rest
      else (above, node.unnamed) :: marked (above ++ [node.unnamed]) children ++ marked above rest

/-- The names on the way to a node, joined. -/
def labelBelow (above : Option (List Char)) (name : List Char) : List Char :=
  match above with
  | none => name
  | some label => joinSessionLabel label name

/-- The nodes of a walk, each with the joined names on the way to it. -/
def labelled (above : Option (List Char)) : Nodes → List (List Char × NodeData)
  | .nil => []
  | .cons _ node children rest =>
      (labelBelow above node.name, node.unnamed) ::
        labelled (some (labelBelow above node.name)) children ++ labelled above rest

/-! ## The loop -/

theorem Stays.eq_of {node other : NodeData} (bare : other.Bare → node.Bare) {children : Nodes}
    (stays : Stays node children) : Stays other children := by
  cases children with
  | nil => trivial
  | cons key child below rest =>
      cases rest with
      | nil => exact fun isBare => stays (bare isBare)
      | cons => trivial

theorem titled_of_not_plain {child : NodeData} (notPlain : ¬child.Plain) :
    (child.explicitTitle.isSome || child.document.isSome) = true := by
  by_contra other
  simp only [Bool.or_eq_true, not_or, Bool.not_eq_true, Option.isSome_eq_false_iff,
    Option.isNone_iff_eq_none] at other
  exact notPlain other

theorem collapse_of_stays {node : NodeData} {children : Nodes} (stays : Stays node children) :
    collapse node children = ⟨node, children⟩ := by
  cases children with
  | nil => rfl
  | cons key child below rest =>
      cases rest with
      | cons => rfl
      | nil =>
          rw [collapse]
          split
          · next bare =>
              obtain ⟨notPlain, rfl⟩ := stays bare
              rw [if_pos (titled_of_not_plain notPlain)]
          · rfl

/-- What the loop makes of a node whose children are compressed: it keeps the child, perhaps under
another key, or takes it in and stops. -/
inductive Collapsed (node : NodeData) : Nodes → CodexBrowserTree → Prop where
  | kept {children : Nodes} (stays : Stays node children) : Collapsed node children ⟨node, children⟩
  | rekeyed {key : List Char} {child : NodeData} {below : Nodes}
      (stays : Stays node (.cons child.name child below .nil)) :
      Collapsed node (.cons key child below .nil) ⟨node, .cons child.name child below .nil⟩
  | taken {key : List Char} {child : NodeData} {below : Nodes} (bare : node.Bare)
      (plain : child.Plain) (stays : Stays (node.merged child) below) :
      Collapsed node (.cons key child below .nil) ⟨node.merged child, below⟩

theorem collapsed_of_normal (node : NodeData) {children : Nodes} (normal : Normal children) :
    Collapsed node children (collapse node children) := by
  cases children with
  | nil => exact .kept trivial
  | cons key child below rest =>
      cases rest with
      | cons => exact .kept trivial
      | nil =>
          by_cases bare : node.Bare
          · by_cases plain : child.Plain
            · have stays : Stays (node.merged child) below := by
                apply normal.1.eq_of
                rintro ⟨noProject, _, _⟩
                exact ⟨noProject, plain⟩
              have absorbed : collapse node (.cons key child below .nil) =
                  collapse (node.merged child) below := by
                have notKept : ¬(child.explicitTitle.isSome || child.document.isSome) = true := by
                  simp [plain.1, plain.2]
                rw [collapse]
                exact (if_pos bare).trans (if_neg notKept)
              rw [absorbed, collapse_of_stays stays]
              exact .taken bare plain stays
            · have stays : Stays node (.cons child.name child below .nil) := fun _ => ⟨plain, rfl⟩
              have rekeyed : collapse node (.cons key child below .nil) =
                  ⟨node, .cons child.name child below .nil⟩ := by
                rw [collapse]
                exact (if_pos bare).trans (if_pos (titled_of_not_plain plain))
              rw [rekeyed]
              exact .rekeyed stays
          · have stays : Stays node (.cons key child below .nil) := fun isBare => absurd isBare bare
            rw [collapse_of_stays stays]
            exact .kept stays

/-- The compression leaves nothing to do. -/
theorem normal_compressChildren (forest : Nodes) : Normal (compressChildren forest) := by
  induction forest with
  | nil => trivial
  | cons key node children rest childrenHypothesis restHypothesis =>
      rw [compressChildren]
      generalize isCollapsed : collapse node (compressChildren children) = tree
      have collapsed := collapsed_of_normal node childrenHypothesis
      rw [isCollapsed] at collapsed
      generalize compressChildren children = compressed at collapsed childrenHypothesis
      cases collapsed with
      | kept stays => exact ⟨stays, childrenHypothesis, restHypothesis⟩
      | rekeyed stays =>
          exact ⟨stays, ⟨childrenHypothesis.1, childrenHypothesis.2.1, trivial⟩, restHypothesis⟩
      | taken bare plain stays => exact ⟨stays, childrenHypothesis.2.1, restHypothesis⟩

theorem compressChildren_of_normal {forest : Nodes} (normal : Normal forest) :
    compressChildren forest = forest := by
  induction forest with
  | nil => rfl
  | cons key node children rest childrenHypothesis restHypothesis =>
      obtain ⟨stays, childrenNormal, restNormal⟩ := normal
      rw [compressChildren, childrenHypothesis childrenNormal, restHypothesis restNormal,
        collapse_of_stays stays]

theorem not_onePlain_of_stays {node : NodeData} {children : Nodes} (stays : Stays node children)
    (bare : node.Bare) : ¬OnePlain children := by
  intro onePlain
  cases children with
  | nil => exact onePlain
  | cons key child below rest =>
      cases rest with
      | nil => exact (stays bare).1 onePlain
      | cons => exact onePlain

theorem tight_of_normal {forest : Nodes} (normal : Normal forest) : Tight forest := by
  induction forest with
  | nil => trivial
  | cons key node children rest childrenHypothesis restHypothesis =>
      obtain ⟨stays, childrenNormal, restNormal⟩ := normal
      refine ⟨?_, childrenHypothesis childrenNormal, restHypothesis restNormal⟩
      rintro ⟨bare, onePlain⟩
      exact not_onePlain_of_stays stays bare onePlain

/-! ## What is kept -/

/-- Groups and documents come with titles, and the last node of every path holds something. -/
def Sound : Nodes → Prop
  | .nil => True
  | .cons _ node children rest =>
      (node.explicitTitle = none → node.groupKind = none ∧ node.document = none) ∧
        (children = .nil → ¬node.Bare) ∧ Sound children ∧ Sound rest

theorem bare_merged_iff {node child : NodeData} (bare : node.Bare) (plain : child.Plain) :
    (node.merged child).Bare ↔ child.Bare := by
  simp only [NodeData.Bare, NodeData.merged, bare.2.1, plain.1]

theorem compressChildren_eq_nil_iff {forest : Nodes} :
    compressChildren forest = .nil ↔ forest = .nil := by
  cases forest with
  | nil => exact Iff.rfl
  | cons => simp [compressChildren]

theorem sound_compressChildren {forest : Nodes} (sound : Sound forest) :
    Sound (compressChildren forest) := by
  induction forest with
  | nil => trivial
  | cons key node children rest childrenHypothesis restHypothesis =>
      obtain ⟨titled, holds, childrenSound, restSound⟩ := sound
      have compressedSound := childrenHypothesis childrenSound
      have compressedHolds : compressChildren children = .nil → ¬node.Bare :=
        fun isNil => holds (compressChildren_eq_nil_iff.mp isNil)
      have collapsed := collapsed_of_normal node (normal_compressChildren children)
      rw [compressChildren]
      generalize collapse node (compressChildren children) = tree at collapsed
      generalize compressChildren children = compressed at *
      cases collapsed with
      | kept => exact ⟨titled, compressedHolds, compressedSound, restHypothesis restSound⟩
      | rekeyed =>
          obtain ⟨childTitled, childHolds, belowSound, _⟩ := compressedSound
          exact ⟨titled, nofun, ⟨childTitled, childHolds, belowSound, trivial⟩,
            restHypothesis restSound⟩
      | taken bare plain =>
          obtain ⟨_, childHolds, belowSound, _⟩ := compressedSound
          refine ⟨fun _ => ⟨(titled bare.2.1).1, plain.2⟩, ?_, belowSound,
            restHypothesis restSound⟩
          exact fun isNil => mt (bare_merged_iff bare plain).mp (childHolds isNil)

theorem unnamed_merged {node child : NodeData} (bare : node.Bare) (plain : child.Plain)
    (nodeTitled : node.explicitTitle = none → node.groupKind = none ∧ node.document = none)
    (childTitled : child.explicitTitle = none → child.groupKind = none ∧ child.document = none) :
    (node.merged child).unnamed = child.unnamed := by
  simp only [NodeData.unnamed, NodeData.merged, bare.2.1, plain.1, (nodeTitled bare.2.1).1,
    (childTitled plain.1).1]

/-- The marked nodes stay, with all but their names, behind the same marked nodes. -/
theorem marked_compressChildren {forest : Nodes} (sound : Sound forest) (above : List NodeData) :
    marked above (compressChildren forest) = marked above forest := by
  induction forest generalizing above with
  | nil => rfl
  | cons key node children rest childrenHypothesis restHypothesis =>
      obtain ⟨titled, _, childrenSound, restSound⟩ := sound
      have collapsed := collapsed_of_normal node (normal_compressChildren children)
      have compressedSound := sound_compressChildren childrenSound
      have sameChildren := fun above => (childrenHypothesis childrenSound above).symm
      rw [compressChildren, marked, marked, restHypothesis restSound, sameChildren, sameChildren]
      generalize collapse node (compressChildren children) = tree at collapsed
      generalize compressChildren children = compressed at *
      cases collapsed with
      | kept => rfl
      | rekeyed => rfl
      | taken bare plain =>
          obtain ⟨childTitled, _⟩ := compressedSound
          rw [if_pos bare, unnamed_merged bare plain titled childTitled]
          simp only [bare_merged_iff bare plain, marked]
          split
          · rw [List.append_nil]
          · rw [List.append_nil, List.cons_append]

/-! ## What is unchanged -/

/-- Some node without a name holds nothing, and has exactly one child, which is plain. -/
def Hollow : Nodes → Prop
  | .nil => False
  | .cons _ node children rest =>
      (node.name = [] ∧ node.Bare ∧ OnePlain children) ∨ Hollow children ∨ Hollow rest

/-- What a name stands behind when it is joined to another. -/
def joinStart (left : List Char) : List Char :=
  if left.getLast? = some '/' then left else left ++ ['/']

theorem joinSessionLabel_eq (left right : List Char) :
    joinSessionLabel left right = joinStart left ++ right := by
  rw [joinSessionLabel, joinStart]
  split
  · next isRoot => rw [isRoot]; rfl
  · split
    · rfl
    · simp

theorem joinStart_append {front back : List Char} (nonempty : back ≠ []) :
    joinStart (front ++ back) = front ++ joinStart back := by
  rw [joinStart, joinStart, List.getLast?_append_of_ne_nil _ nonempty]
  split
  · rfl
  · rw [List.append_assoc]

/-- A start stays as it is where nothing is joined to it. -/
theorem joinStart_joinStart (left : List Char) : joinStart (joinStart left) = joinStart left := by
  have ends : (joinStart left).getLast? = some '/' := by
    rw [joinStart]
    split
    · next isEnd => exact isEnd
    · exact List.getLast?_concat
  conv_lhs => rw [joinStart]
  exact if_pos ends

/-- Joining is associative around a name that is not empty. -/
theorem joinSessionLabel_assoc (left : List Char) {middle : List Char} (nonempty : middle ≠ [])
    (right : List Char) :
    joinSessionLabel left (joinSessionLabel middle right) =
      joinSessionLabel (joinSessionLabel left middle) right := by
  rw [joinSessionLabel_eq, joinSessionLabel_eq, joinSessionLabel_eq, joinSessionLabel_eq,
    joinStart_append nonempty, List.append_assoc]

theorem labelBelow_join (above : Option (List Char)) {middle : List Char}
    (nonempty : middle ≠ []) (right : List Char) :
    labelBelow above (joinSessionLabel middle right) =
      joinSessionLabel (labelBelow above middle) right := by
  cases above with
  | none => rfl
  | some label => exact joinSessionLabel_assoc label nonempty right

theorem plain_collapse_iff {node : NodeData} {children : Nodes} {tree : CodexBrowserTree}
    (collapsed : Collapsed node children tree) : tree.data.Plain ↔ node.Plain := by
  cases collapsed with
  | kept => exact Iff.rfl
  | rekeyed => exact Iff.rfl
  | taken bare plain => exact iff_of_true ⟨bare.2.1, plain.2⟩ bare.2

/-- The compression changes nothing about which children are alone and plain. -/
theorem onePlain_compressChildren_iff {forest : Nodes} :
    OnePlain (compressChildren forest) ↔ OnePlain forest := by
  cases forest with
  | nil => exact Iff.rfl
  | cons key node children rest =>
      cases rest with
      | cons => exact Iff.rfl
      | nil =>
          exact plain_collapse_iff (collapsed_of_normal node (normal_compressChildren children))

/-- The nodes that stay have the joined names that they had. -/
theorem labelled_compressChildren {forest : Nodes} (sound : Sound forest) (whole : ¬Hollow forest)
    (above : Option (List Char)) :
    (labelled above (compressChildren forest)).Sublist (labelled above forest) := by
  induction forest generalizing above with
  | nil => exact .refl _
  | cons key node children rest childrenHypothesis restHypothesis =>
      obtain ⟨titled, _, childrenSound, restSound⟩ := sound
      rw [Hollow, not_or, not_or] at whole
      obtain ⟨notHere, childrenWhole, restWhole⟩ := whole
      have collapsed := collapsed_of_normal node (normal_compressChildren children)
      have compressedSound := sound_compressChildren childrenSound
      have onePlain : OnePlain (compressChildren children) ↔ OnePlain children :=
        onePlain_compressChildren_iff
      have below := childrenHypothesis childrenSound childrenWhole
        (some (labelBelow above node.name))
      have behind := restHypothesis restSound restWhole above
      rw [compressChildren, labelled, labelled]
      generalize collapse node (compressChildren children) = tree at collapsed
      generalize compressChildren children = compressed at *
      cases collapsed with
      | kept => exact (below.append behind).cons_cons _
      | rekeyed => exact (below.append behind).cons_cons _
      | @taken _ child _ bare plain =>
          obtain ⟨childTitled, _⟩ := compressedSound
          have nonempty : node.name ≠ [] := fun empty => notHere ⟨empty, bare, onePlain.mp plain⟩
          have sameLabel : labelBelow above (node.merged child).name =
              joinSessionLabel (labelBelow above node.name) child.name :=
            labelBelow_join above nonempty child.name
          rw [sameLabel, unnamed_merged bare plain titled childTitled]
          rw [labelled, labelled, List.append_nil] at below
          exact (below.append behind).cons _

/-! ## What gets longer -/

/-- The characters that a name adds to the names below it. -/
def added (name : List Char) : Nat := if name = [] then 0 else (joinStart name).length

theorem length_joinStart_join (left name : List Char) :
    (joinStart (joinSessionLabel left name)).length = (joinStart left).length + added name := by
  rw [joinSessionLabel_eq, added]
  split
  · next empty => rw [empty, List.append_nil, joinStart_joinStart, Nat.add_zero]
  · next nonempty => rw [joinStart_append nonempty, List.length_append]

theorem joinStart_ne_nil (left : List Char) : joinStart left ≠ [] := by
  intro empty
  have same := joinStart_joinStart left
  rw [empty] at same
  cases same

/-- The sum of the lengths of the joined names of marked nodes, below names that add up to
`start`. -/
def total (start : Nat) : Nodes → Nat
  | .nil => 0
  | .cons _ node children rest =>
      (if node.Bare then 0 else start + node.name.length) +
        total (start + added node.name) children + total start rest

def labelLength (above : Option (List Char)) (forest : Nodes) : Nat :=
  (((labelled above forest).filter fun entry => !decide entry.2.Bare).map fun entry =>
    entry.1.length).sum

theorem labelLength_cons (above : Option (List Char)) (key : List Char) (node : NodeData)
    (children rest : Nodes) : labelLength above (.cons key node children rest) =
      (if node.Bare then 0 else (labelBelow above node.name).length) +
        labelLength (some (labelBelow above node.name)) children + labelLength above rest := by
  have same : node.unnamed.Bare ↔ node.Bare := Iff.rfl
  rw [labelLength, labelled, List.cons_append, List.filter_cons, List.filter_append]
  by_cases bare : node.Bare
  · simp [same, bare, labelLength]
  · simp [same, bare, labelLength, Nat.add_assoc]

theorem labelLength_some (label : List Char) (forest : Nodes) :
    labelLength (some label) forest = total (joinStart label).length forest := by
  induction forest generalizing label with
  | nil => rfl
  | cons key node children rest childrenHypothesis restHypothesis =>
      rw [labelLength_cons, total, childrenHypothesis, restHypothesis, labelBelow,
        length_joinStart_join, joinSessionLabel_eq, List.length_append]

/-- The nodes at the top have names. -/
def Rooted : Nodes → Prop
  | .nil => True
  | .cons _ node _ rest => node.name ≠ [] ∧ Rooted rest

theorem labelLength_none {forest : Nodes} (rooted : Rooted forest) :
    labelLength none forest = total 0 forest := by
  induction forest with
  | nil => rfl
  | cons key node children rest _ restHypothesis =>
      obtain ⟨nonempty, restRooted⟩ := rooted
      have start : added node.name = (joinStart node.name).length := if_neg nonempty
      rw [labelLength_cons, total, labelLength_some, restHypothesis restRooted, labelBelow, start,
        Nat.zero_add, Nat.zero_add]

theorem rooted_compressChildren {forest : Nodes} (rooted : Rooted forest) :
    Rooted (compressChildren forest) := by
  induction forest with
  | nil => trivial
  | cons key node children rest _ restHypothesis =>
      obtain ⟨nonempty, restRooted⟩ := rooted
      refine ⟨?_, restHypothesis restRooted⟩
      have collapsed := collapsed_of_normal node (normal_compressChildren children)
      generalize collapse node (compressChildren children) = tree at collapsed
      generalize compressChildren children = compressed at collapsed
      cases collapsed with
      | kept => exact nonempty
      | rekeyed => exact nonempty
      | @taken _ child =>
          intro empty
          rw [NodeData.merged, joinSessionLabel_eq] at empty
          exact joinStart_ne_nil node.name (List.append_eq_nil_iff.mp empty).1

theorem total_mono {first second : Nat} (less : first ≤ second) (forest : Nodes) :
    total first forest ≤ total second forest := by
  induction forest generalizing first second with
  | nil => exact Nat.le_refl _
  | cons key node children rest childrenHypothesis restHypothesis =>
      have inChildren := childrenHypothesis (Nat.add_le_add_right less (added node.name))
      have inRest := restHypothesis less
      rw [total, total]
      split <;> omega

/-- Below every node stands a marked one, whose joined names get longer. -/
theorem total_strictMono {first second : Nat} (less : first < second) {forest : Nodes}
    (sound : Sound forest) (nonempty : forest ≠ .nil) :
    total first forest < total second forest := by
  induction forest generalizing first second with
  | nil => exact absurd rfl nonempty
  | cons key node children rest childrenHypothesis _ =>
      obtain ⟨_, holds, childrenSound, _⟩ := sound
      have inRest := total_mono (Nat.le_of_lt less) rest
      have moved : first + added node.name < second + added node.name := by omega
      have inChildren := total_mono (Nat.le_of_lt moved) children
      rw [total, total]
      split
      · next bare =>
          have strictly := childrenHypothesis moved childrenSound fun isNil => holds isNil bare
          omega
      · omega

/-- A node in the place of its child adds what it added before, and a separator where it has no
name. -/
theorem total_merged (start : Nat) {node child : NodeData} (bare : node.Bare) (plain : child.Plain)
    (key other : List Char) (below rest : Nodes) :
    total start (.cons key (node.merged child) below rest) =
      total (start + (joinStart node.name).length) (.cons other child below .nil) +
        total start rest := by
  have name : (node.merged child).name = joinSessionLabel node.name child.name := rfl
  have start' : added (joinSessionLabel node.name child.name) =
      (joinStart node.name).length + added child.name := by
    rw [← length_joinStart_join, added, if_neg]
    rw [joinSessionLabel_eq]
    exact List.append_ne_nil_of_left_ne_nil (joinStart_ne_nil node.name) _
  rw [total, total, total, name, start', joinSessionLabel_eq, List.length_append]
  simp only [bare_merged_iff bare plain, Nat.add_assoc, Nat.add_zero]

/-- The joined names never get shorter, and get longer at a hollow node. -/
theorem total_compressChildren {forest : Nodes} (sound : Sound forest) (start : Nat) :
    total start forest ≤ total start (compressChildren forest) ∧
      (Hollow forest → total start forest < total start (compressChildren forest)) := by
  induction forest generalizing start with
  | nil => exact ⟨Nat.le_refl _, False.elim⟩
  | cons key node children rest childrenHypothesis restHypothesis =>
      obtain ⟨_, _, childrenSound, restSound⟩ := sound
      have collapsed := collapsed_of_normal node (normal_compressChildren children)
      have compressedSound := sound_compressChildren childrenSound
      have onePlain : OnePlain (compressChildren children) ↔ OnePlain children :=
        onePlain_compressChildren_iff
      obtain ⟨below, belowStrictly⟩ := childrenHypothesis childrenSound (start + added node.name)
      obtain ⟨behind, behindStrictly⟩ := restHypothesis restSound start
      rw [compressChildren, total, Hollow]
      generalize collapse node (compressChildren children) = tree at collapsed
      generalize compressChildren children = compressed at *
      -- The node is not hollow where it stays.
      have stayed : (node.Bare → ¬OnePlain compressed) → ¬(node.Bare ∧ OnePlain children) :=
        fun notOne here => notOne here.1 (onePlain.mpr here.2)
      cases collapsed with
      | kept stays =>
          dsimp only
          rw [total]
          refine ⟨by omega, ?_⟩
          rintro (⟨_, here⟩ | inChildren | inRest)
          · exact absurd here (stayed (not_onePlain_of_stays stays))
          · have strictly := belowStrictly inChildren
            omega
          · have strictly := behindStrictly inRest
            omega
      | @rekeyed _ child grandchildren stays =>
          rw [total] at below belowStrictly
          dsimp only
          rw [total, total]
          refine ⟨by omega, ?_⟩
          rintro (⟨_, here⟩ | inChildren | inRest)
          · exact absurd here (stayed fun bare => (stays bare).1)
          · have strictly := belowStrictly inChildren
            omega
          · have strictly := behindStrictly inRest
            omega
      | @taken key child grandchildren bare plain =>
          dsimp only
          rw [total_merged start bare plain _ key, if_pos bare]
          have grows : added node.name ≤ (joinStart node.name).length := by
            rw [added]
            split
            · exact Nat.zero_le _
            · exact Nat.le_refl _
          have moved := total_mono (Nat.add_le_add_left grows start)
            (.cons key child grandchildren .nil)
          refine ⟨by omega, ?_⟩
          rintro (⟨empty, _⟩ | inChildren | inRest)
          · have longer : start + added node.name < start + (joinStart node.name).length := by
              rw [added, if_pos empty]
              have positive := List.length_pos_of_ne_nil (joinStart_ne_nil node.name)
              omega
            have strictly := total_strictMono longer compressedSound nofun
            omega
          · have strictly := belowStrictly inChildren
            omega
          · have strictly := behindStrictly inRest
            omega

end Yggterm.CwdTree
