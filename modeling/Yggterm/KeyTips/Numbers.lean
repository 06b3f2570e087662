import Mathlib.Data.List.Duplicate
import Yggterm.KeyTips.Shapes
import Yggterm.Library.Recalls

/-!
# Numbers that are learned

The number of a member is recorded under its pin key, to be given again.  A member that is
absent keeps its pin, but its number is not kept free.
-/

namespace Yggterm.KeyTips

open Recalls Runs

namespace KeymapConfig

def pinNumber (keymap : KeymapConfig) (pinKey : List Char) (number : Nat) : KeymapConfig :=
  { keymap with pinned := keymap.pinned.insert pinKey number }

/-- What is recorded under the pin keys. -/
def pins (keymap : KeymapConfig) (pinKey : List Char) : Option Nat := keymap.pinned[pinKey]?

theorem pinKey_inj {scope : ScopeId} {letter other : Char} {key otherKey : List Char} :
    pinKey scope letter key = pinKey scope other otherKey ↔ letter = other ∧ key = otherKey := by
  simp [pinKey]

end KeymapConfig

open KeymapConfig

/-- The numbers of the members of a group, under their pin keys. -/
def nodePins (scope : ScopeId) : AssignedNode → Round (List Char) Nat
  | .group [letter] _ members =>
      members.map fun member => (pinKey scope letter member.key, member.number)
  | _ => []

def givenPins (scope : ScopeId) (nodes : List AssignedNode) : Round (List Char) Nat :=
  nodes.flatMap (nodePins scope)

/-- A list of declarations is assigned, and every member of every group recorded. -/
def assignAndPin (scope : ScopeId) (keymap : KeymapConfig) (decls : List KeyTipDecl) :
    KeymapConfig :=
  (givenPins scope (assignScope scope decls keymap)).foldl
    (fun keymap pin => keymap.pinNumber pin.1 pin.2) keymap

/-- What the lists of a history are assigned, one after the other. -/
def assignments (scope : ScopeId) (keymap : KeymapConfig) :
    List (List KeyTipDecl) → List (List AssignedNode)
  | [] => []
  | decls :: rest =>
      assignScope scope decls keymap :: assignments scope (assignAndPin scope keymap decls) rest

/-- A member of both groups of a letter has the same number in both. -/
def Unmoved (earlier later : List AssignedNode) : Prop :=
  ∀ letter title members otherTitle others, .group [letter] title members ∈ earlier →
    .group [letter] otherTitle others ∈ later → ∀ member ∈ members, ∀ other ∈ others,
      member.key = other.key → other.number = member.number

/-- The members of a group have different numbers from one on. -/
def Numbered (nodes : List AssignedNode) : Prop :=
  ∀ tip title members, .group tip title members ∈ nodes →
    (members.map GroupMember.number).Nodup ∧ ∀ member ∈ members, 1 ≤ member.number

/-- Learned numbers never move. -/
structure NumbersKept (history : List (List AssignedNode)) : Prop where
  unmoved : history.Pairwise Unmoved
  numbered : ∀ nodes ∈ history, Numbered nodes

/-- The apps that ask for a letter which no shell declaration has. -/
def claimants (scope : ScopeId) (keymap : KeymapConfig) (decls : List KeyTipDecl) (letter : Char) :
    List (KeyTipDecl × Nat) :=
  (ofOrigin .app decls).filter fun entry =>
    freeWish keymap (shellPool scope decls keymap) entry = some letter

/-- The keys of the apps that are numbered under a letter: a lone one is not. -/
def groupKeys (scope : ScopeId) (keymap : KeymapConfig) (decls : List KeyTipDecl) (letter : Char) :
    List (List Char) :=
  if 2 ≤ (claimants scope keymap decls letter).length then
    (claimants scope keymap decls letter).map fun claimant => claimant.1.key
  else []

/-- No number is recorded for two that are numbered under one letter. -/
def PinsApart (scope : ScopeId) (keymap : KeymapConfig) (decls : List KeyTipDecl) : Prop :=
  ∀ letter, ((groupKeys scope keymap decls letter).filterMap fun key =>
    keymap.pins (pinKey scope letter key)).Nodup

/-- No key that was numbered twice under a letter is numbered there again. -/
def OnceEach (scope : ScopeId) (keymap : KeymapConfig) (earlier later : List KeyTipDecl) : Prop :=
  ∀ letter key, List.Duplicate key (groupKeys scope keymap earlier letter) →
    key ∉ groupKeys scope keymap later letter

/-! ## Rounds of pins -/

theorem mem_givenPins {scope : ScopeId} {nodes : List AssignedNode} {pin : List Char × Nat} :
    pin ∈ givenPins scope nodes ↔ ∃ letter title members, .group [letter] title members ∈ nodes ∧
      ∃ member ∈ members, pin = (pinKey scope letter member.key, member.number) := by
  rw [givenPins, List.mem_flatMap]
  constructor
  · rintro ⟨node, isNode, isPin⟩
    cases node with
    | leaf => cases isPin
    | group tip title members =>
        rcases tip with _ | ⟨letter, _ | ⟨second, rest⟩⟩
        · cases isPin
        · obtain ⟨member, isMember, rfl⟩ := List.mem_map.mp isPin
          exact ⟨letter, title, members, isNode, member, isMember, rfl⟩
        · cases isPin
  · rintro ⟨letter, title, members, isNode, member, isMember, rfl⟩
    exact ⟨_, isNode, List.mem_map_of_mem isMember⟩

theorem agree_givenPins_iff {scope : ScopeId} {earlier later : List AssignedNode} :
    Agree (givenPins scope earlier) (givenPins scope later) ↔ Unmoved earlier later := by
  constructor
  · intro agree letter title members otherTitle others isEarlier isLater member isMember other
      isOther sameKey
    exact agree _ (mem_givenPins.mpr ⟨letter, title, members, isEarlier, member, isMember, rfl⟩)
      _ (mem_givenPins.mpr ⟨letter, otherTitle, others, isLater, other, isOther, rfl⟩)
      (pinKey_inj.mpr ⟨rfl, sameKey⟩)
  · intro unmoved pin isPin otherPin isOtherPin samePinKey
    obtain ⟨letter, title, members, isEarlier, member, isMember, rfl⟩ := mem_givenPins.mp isPin
    obtain ⟨otherLetter, otherTitle, others, isLater, other, isOther, rfl⟩ :=
      mem_givenPins.mp isOtherPin
    obtain ⟨rfl, sameKey⟩ := pinKey_inj.mp samePinKey
    exact unmoved letter title members otherTitle others isEarlier isLater member isMember other
      isOther sameKey

theorem pins_pinNumber (keymap : KeymapConfig) (pinKey : List Char) (number : Nat) :
    (keymap.pinNumber pinKey number).pins =
      Function.update keymap.pins pinKey (some number) := by
  funext other
  rw [pins, pinNumber, Std.TreeMap.getElem?_insert, Function.update_apply]
  simp only [Std.LawfulEqCmp.compare_eq_iff_eq, eq_comm (a := other)]
  rfl

theorem pins_assignAndPin (scope : ScopeId) (keymap : KeymapConfig) (decls : List KeyTipDecl) :
    (assignAndPin scope keymap decls).pins =
      learn keymap.pins (givenPins scope (assignScope scope decls keymap)) := by
  rw [assignAndPin]
  generalize givenPins scope (assignScope scope decls keymap) = round
  induction round generalizing keymap with
  | nil => rfl
  | cons pin rest inductionHypothesis =>
      rw [List.foldl_cons, inductionHypothesis, pins_pinNumber]
      rfl

theorem keytips_assignAndPin (scope : ScopeId) (keymap : KeymapConfig) (decls : List KeyTipDecl) :
    (assignAndPin scope keymap decls).keytips = keymap.keytips := by
  rw [assignAndPin]
  generalize givenPins scope (assignScope scope decls keymap) = round
  induction round generalizing keymap with
  | nil => rfl
  | cons pin rest inductionHypothesis => exact inductionHypothesis (keymap.pinNumber pin.1 pin.2)

/-! ## The members under a letter -/

section Members

variable (scope : ScopeId) (keymap : KeymapConfig) (decls : List KeyTipDecl) (letter : Char)

/-- The members that are numbered under a letter. -/
def groupMembers : List GroupMember :=
  if 2 ≤ (claimants scope keymap decls letter).length then
    numberGroup scope letter (claimants scope keymap decls letter) keymap
  else []

theorem nodup_claimants_places : ((claimants scope keymap decls letter).map Prod.snd).Nodup :=
  (ofOrigin_nodup decls .app).sublist (List.filter_sublist.map _)

variable {scope keymap decls letter}

/-- A group is that of the claimants of its letter. -/
theorem mem_assignScope_group {tip : Tip} {title : List Char} {members : List GroupMember} :
    .group tip title members ∈ assignScope scope decls keymap → ∃ letter, tip = [letter] ∧
      members = groupMembers scope keymap decls letter := by
  intro isGroup
  rw [(assignScope_perm scope decls keymap).mem_iff, assignedEntries] at isGroup
  obtain ⟨entry, inEntries, isNode⟩ := List.mem_map.mp isGroup
  have notLeaf : ∀ (apps : List (KeyTipDecl × Nat)) (tips : List Tip),
      entry ∉ leafEntries apps tips := by
    intro apps tips inLeaves
    obtain ⟨pair, _, rfl⟩ := List.mem_map.mp inLeaves
    cases isNode
  rcases List.mem_append.mp inEntries with inFirst | inLeft
  · rcases List.mem_append.mp inFirst with inShell | inLaid
    · exact absurd inShell (notLeaf _ _)
    · obtain ⟨laid, isLaid, isEntry⟩ := List.mem_flatMap.mp inLaid
      have areClaimants : laid.2 = claimants scope keymap decls laid.1 :=
        (wish_of_mem_laidLetters isLaid).1
      rw [areClaimants] at isEntry
      refine ⟨laid.1, ?_⟩
      rw [groupMembers]
      generalize claimants scope keymap decls laid.1 = apps at isEntry ⊢
      rcases apps with _ | ⟨first, _ | ⟨second, rest⟩⟩
      · cases isEntry
      · obtain rfl := List.mem_singleton.mp isEntry
        cases isNode
      · obtain rfl := List.mem_singleton.mp isEntry
        obtain ⟨rfl, rfl, rfl⟩ := AssignedNode.group.inj isNode
        exact ⟨rfl, rfl⟩
  · exact absurd inLeft (notLeaf _ _)

theorem group_mem_assignScope (several : 2 ≤ (claimants scope keymap decls letter).length) :
    ∃ title, .group [letter] title (groupMembers scope keymap decls letter) ∈
      assignScope scope decls keymap := by
  have isLaid : (letter, claimants scope keymap decls letter) ∈
      laidLetters scope decls keymap :=
    (mem_claimedLetters keymap _).mpr ⟨rfl, List.ne_nil_of_length_pos (by omega)⟩
  refine ⟨"New …".toList, ?_⟩
  rw [(assignScope_perm scope decls keymap).mem_iff, assignedEntries, List.map_append,
    List.map_append]
  apply List.mem_append_left
  apply List.mem_append_right
  rw [List.mem_map]
  obtain ⟨first, second, rest, isList⟩ :
      ∃ first second rest, claimants scope keymap decls letter = first :: second :: rest := by
    generalize claimants scope keymap decls letter = apps at several
    rcases apps with _ | ⟨first, _ | ⟨second, rest⟩⟩
    · simp at several
    · simp at several
    · exact ⟨first, second, rest, rfl⟩
  refine ⟨(first.2, _), List.mem_flatMap.mpr ⟨_, isLaid, ?_⟩, rfl⟩
  rw [groupMembers, if_pos several, isList]
  exact List.mem_singleton_self _

theorem mem_groupMembers_iff {member : GroupMember} :
    member ∈ groupMembers scope keymap decls letter ↔ ∃ title members,
      .group [letter] title members ∈ assignScope scope decls keymap ∧ member ∈ members := by
  constructor
  · intro isMember
    have several : 2 ≤ (claimants scope keymap decls letter).length := by
      by_contra few
      rw [groupMembers, if_neg few] at isMember
      cases isMember
    obtain ⟨title, isGroup⟩ := group_mem_assignScope several
    exact ⟨title, _, isGroup, isMember⟩
  · rintro ⟨title, members, isGroup, isMember⟩
    obtain ⟨other, isTip, rfl⟩ := mem_assignScope_group isGroup
    rwa [(List.cons.inj isTip).1]

theorem groupMembers_keys : ((groupMembers scope keymap decls letter).map GroupMember.key).Perm
    (groupKeys scope keymap decls letter) := by
  rw [groupMembers, groupKeys]
  split
  · have declared := (numberGroup_declared scope letter (claimants scope keymap decls letter)
      keymap).map Prod.fst
    rw [List.map_map, List.map_map] at declared
    exact declared
  · exact .refl _

theorem nodup_groupMembers :
    ((groupMembers scope keymap decls letter).map GroupMember.number).Nodup := by
  rw [groupMembers]
  split
  · exact nodup_numberGroup scope letter (nodup_claimants_places scope keymap decls letter) keymap
  · exact List.nodup_nil

end Members

theorem mem_givenPins_assignScope {scope : ScopeId} {keymap : KeymapConfig}
    {decls : List KeyTipDecl} {pin : List Char × Nat} :
    pin ∈ givenPins scope (assignScope scope decls keymap) ↔ ∃ letter,
      ∃ member ∈ groupMembers scope keymap decls letter,
        pin = (pinKey scope letter member.key, member.number) := by
  rw [mem_givenPins]
  constructor
  · rintro ⟨letter, title, members, isGroup, member, isMember, isPin⟩
    exact ⟨letter, member, mem_groupMembers_iff.mpr ⟨title, members, isGroup, isMember⟩, isPin⟩
  · rintro ⟨letter, member, isMember, isPin⟩
    obtain ⟨title, members, isGroup, inMembers⟩ := mem_groupMembers_iff.mp isMember
    exact ⟨letter, title, members, isGroup, member, inMembers, isPin⟩

/-! ## Pins that are honored -/

section Pins

variable {pin : KeyTipDecl → Option Nat}

/-- A pin is given to a claimant that has it. -/
theorem exists_of_mem_honorPins {claimants : List (KeyTipDecl × Nat)} {used : List Nat}
    {entry : Nat × Nat} (member : entry ∈ (honorPins pin claimants used).2) :
    ∃ claimant ∈ claimants, claimant.2 = entry.1 ∧ pin claimant.1 = some entry.2 := by
  fun_induction honorPins pin claimants used with
  | case1 used => cases member
  | case2 claimant _ _ _ inductionHypothesis =>
      obtain ⟨other, inRest, isOther⟩ := inductionHypothesis member
      exact ⟨other, List.mem_cons_of_mem claimant inRest, isOther⟩
  | case3 claimant _ _ _ _ _ inductionHypothesis =>
      obtain ⟨other, inRest, isOther⟩ := inductionHypothesis member
      exact ⟨other, List.mem_cons_of_mem claimant inRest, isOther⟩
  | case4 claimant _ _ number isPinned _ _ inductionHypothesis =>
      rcases List.mem_cons.mp member with rfl | inLater
      · exact ⟨claimant, List.mem_cons_self, rfl, isPinned⟩
      · obtain ⟨other, inRest, isOther⟩ := inductionHypothesis inLater
        exact ⟨other, List.mem_cons_of_mem claimant inRest, isOther⟩

/-- With their pins apart all claimants have theirs. -/
theorem lookup_honorPins {claimants : List (KeyTipDecl × Nat)} {used : List Nat}
    (places : (claimants.map Prod.snd).Nodup)
    (apart : (claimants.filterMap fun claimant => pin claimant.1).Nodup)
    (free : ∀ claimant ∈ claimants, ∀ number, pin claimant.1 = some number → number ∉ used) :
    ∀ claimant ∈ claimants,
      (honorPins pin claimants used).2.lookup claimant.2 = pin claimant.1 := by
  have notLater {claimant : KeyTipDecl × Nat} {rest : List (KeyTipDecl × Nat)} {used : List Nat}
      (placesApart : ((claimant :: rest).map Prod.snd).Nodup) :
      (honorPins pin rest used).2.lookup claimant.2 = none := by
    rw [Option.eq_none_iff_forall_ne_some]
    intro number isPinned
    obtain ⟨other, inRest, samePlace, _⟩ := exists_of_mem_honorPins (mem_of_lookup isPinned)
    exact (List.nodup_cons.mp placesApart).1 (List.mem_map.mpr ⟨other, inRest, samePlace⟩)
  fun_induction honorPins pin claimants used with
  | case1 used => exact List.forall_mem_nil _
  | case2 claimant rest used unpinned inductionHypothesis =>
      simp only [List.filterMap_cons, unpinned] at apart
      have later := inductionHypothesis (List.nodup_cons.mp places).2 apart
        (List.forall_mem_cons.mp free).2
      exact List.forall_mem_cons.mpr ⟨(notLater places).trans unpinned.symm, later⟩
  | case3 claimant rest used number isPinned isUsed inductionHypothesis =>
      exact absurd isUsed (free claimant List.mem_cons_self number isPinned)
  | case4 claimant rest used number isPinned isFree later inductionHypothesis =>
      simp only [List.filterMap_cons, isPinned, List.nodup_cons] at apart
      obtain ⟨notAgain, restApart⟩ := apart
      have restFree : ∀ other ∈ rest, ∀ pinned, pin other.1 = some pinned →
          pinned ∉ used ++ [number] := by
        intro other inRest pinned isOther
        rw [List.mem_append, List.mem_singleton, not_or]
        refine ⟨(List.forall_mem_cons.mp free).2 other inRest pinned isOther, ?_⟩
        rintro rfl
        exact notAgain (List.mem_filterMap.mpr ⟨other, inRest, isOther⟩)
      have inLater := inductionHypothesis (List.nodup_cons.mp places).2 restApart restFree
      refine List.forall_mem_cons.mpr ⟨List.lookup_cons_self.trans isPinned.symm, ?_⟩
      intro other inRest
      have otherPlace : other.2 ≠ claimant.2 := fun same =>
        (List.nodup_cons.mp places).1 (same ▸ List.mem_map_of_mem inRest)
      rw [List.lookup_cons, beq_false_of_ne otherPlace]
      exact inLater other inRest

/-- A member has the number that its claimant was pinned to. -/
theorem exists_of_mem_fillNumbers {pinnedFor : List (Nat × Nat)}
    {claimants : List (KeyTipDecl × Nat)} {used : List Nat} {next : Nat} {member : GroupMember}
    (inside : member ∈ fillNumbers pinnedFor claimants used next) :
    ∃ claimant ∈ claimants, claimant.1.key = member.key ∧
      ∀ number, pinnedFor.lookup claimant.2 = some number → member.number = number := by
  fun_induction fillNumbers pinnedFor claimants used next with
  | case1 used next => cases inside
  | case2 claimant rest used next number isPinned inductionHypothesis =>
      rcases List.mem_cons.mp inside with rfl | later
      · refine ⟨claimant, List.mem_cons_self, rfl, fun other isOther => ?_⟩
        exact Option.some.inj (isPinned.symm.trans isOther)
      · obtain ⟨other, inRest, isOther⟩ := inductionHypothesis later
        exact ⟨other, List.mem_cons_of_mem claimant inRest, isOther⟩
  | case3 claimant rest used next unpinned number inductionHypothesis =>
      rcases List.mem_cons.mp inside with rfl | later
      · refine ⟨claimant, List.mem_cons_self, rfl, fun other isOther => ?_⟩
        rw [unpinned] at isOther
        cases isOther
      · obtain ⟨other, inRest, isOther⟩ := inductionHypothesis later
        exact ⟨other, List.mem_cons_of_mem claimant inRest, isOther⟩

theorem le_nextFree (used : List Nat) (next : Nat) : next ≤ nextFree used next := by
  fun_induction nextFree used next with
  | case1 next isUsed inductionHypothesis => exact (Nat.le_succ next).trans inductionHypothesis
  | case2 next isFree => exact le_rfl

theorem positive_fillNumbers {pinnedFor : List (Nat × Nat)}
    {claimants : List (KeyTipDecl × Nat)} {used : List Nat} {next : Nat}
    (pinned : ∀ place number, pinnedFor.lookup place = some number → 1 ≤ number)
    (positive : 1 ≤ next) : ∀ member ∈ fillNumbers pinnedFor claimants used next,
      1 ≤ member.number := by
  fun_induction fillNumbers pinnedFor claimants used next with
  | case1 used next => exact List.forall_mem_nil _
  | case2 claimant rest used next number isPinned inductionHypothesis =>
      exact List.forall_mem_cons.mpr ⟨pinned _ _ isPinned, inductionHypothesis positive⟩
  | case3 claimant rest used next unpinned number inductionHypothesis =>
      have isPositive := positive.trans (le_nextFree used next)
      exact List.forall_mem_cons.mpr ⟨isPositive, inductionHypothesis isPositive⟩

end Pins

theorem filterMap_sublist_map {Item Value : Type} {items : List Item}
    {pinned : Item → Option Value} {number : Item → Value}
    (honored : ∀ item ∈ items, ∀ value, pinned item = some value → number item = value) :
    (items.filterMap pinned).Sublist (items.map number) := by
  induction items with
  | nil => exact List.Sublist.refl []
  | cons item rest inductionHypothesis =>
      obtain ⟨isHonored, restHonored⟩ := List.forall_mem_cons.mp honored
      rw [List.map_cons]
      cases isPinned : pinned item with
      | none =>
          rw [List.filterMap_cons_none isPinned]
          exact (inductionHypothesis restHonored).cons _
      | some value =>
          rw [List.filterMap_cons_some isPinned, isHonored value isPinned]
          exact (inductionHypothesis restHonored).cons_cons value

/-- With different numbers a key is there twice just where it has two numbers. -/
theorem duplicate_map_iff {Item Key : Type} {items : List Item} {number : Item → Nat}
    (distinct : (items.map number).Nodup) {keyOf : Item → Key} {key : Key} :
    List.Duplicate key (items.map keyOf) ↔ ∃ item ∈ items, ∃ other ∈ items,
      keyOf item = key ∧ keyOf other = key ∧ number item ≠ number other := by
  induction items with
  | nil => simp
  | cons first rest inductionHypothesis =>
      rw [List.map_cons, List.nodup_cons] at distinct
      obtain ⟨notAgain, restDistinct⟩ := distinct
      have different : ∀ other ∈ rest, number first ≠ number other :=
        fun other inRest same => notAgain (same ▸ List.mem_map_of_mem inRest)
      rw [List.map_cons, List.duplicate_cons_iff, inductionHypothesis restDistinct, List.mem_map]
      constructor
      · rintro (⟨isFirst, other, inRest, isOther⟩ | ⟨item, isItem, other, isOther, sameKeys⟩)
        · exact ⟨first, List.mem_cons_self, other, List.mem_cons_of_mem first inRest, isFirst,
            isOther, different other inRest⟩
        · exact ⟨item, List.mem_cons_of_mem first isItem, other, List.mem_cons_of_mem first isOther,
            sameKeys⟩
      · rintro ⟨item, isItem, other, isOther, itemKey, otherKey, apart⟩
        rcases List.mem_cons.mp isItem with rfl | itemInRest
        · rcases List.mem_cons.mp isOther with rfl | otherInRest
          · exact absurd rfl apart
          · exact .inl ⟨itemKey, other, otherInRest, otherKey⟩
        · rcases List.mem_cons.mp isOther with rfl | otherInRest
          · exact .inl ⟨otherKey, item, itemInRest, itemKey⟩
          · exact .inr ⟨item, itemInRest, other, otherInRest, itemKey, otherKey, apart⟩

section Honored

variable {scope : ScopeId} {keymap : KeymapConfig} {decls : List KeyTipDecl} {letter : Char}

/-- With the pins of a letter apart its members have the numbers that are recorded for them. -/
theorem number_of_pinned
    (apart : ((groupKeys scope keymap decls letter).filterMap fun key =>
      keymap.pins (pinKey scope letter key)).Nodup)
    {member : GroupMember} (isMember : member ∈ groupMembers scope keymap decls letter)
    {number : Nat} (isPinned : keymap.pins (pinKey scope letter member.key) = some number) :
    member.number = number := by
  have several : 2 ≤ (claimants scope keymap decls letter).length := by
    by_contra few
    rw [groupMembers, if_neg few] at isMember
    cases isMember
  rw [groupMembers, if_pos several, numberGroup, List.mem_insertionSort] at isMember
  rw [groupKeys, if_pos several, List.filterMap_map] at apart
  obtain ⟨claimant, isClaimant, sameKey, isNumber⟩ := exists_of_mem_fillNumbers isMember
  apply isNumber
  rw [lookup_honorPins (nodup_claimants_places scope keymap decls letter) apart
    (fun _ _ _ _ => List.not_mem_nil) claimant isClaimant, sameKey]
  exact isPinned

theorem pinsApart_of_honored
    (honored : ∀ member ∈ groupMembers scope keymap decls letter, ∀ number,
      keymap.pins (pinKey scope letter member.key) = some number → member.number = number) :
    ((groupKeys scope keymap decls letter).filterMap fun key =>
      keymap.pins (pinKey scope letter key)).Nodup := by
  have sameKeys : ((groupMembers scope keymap decls letter).map GroupMember.key).Perm
      (groupKeys scope keymap decls letter) := groupMembers_keys
  rw [← (sameKeys.filterMap _).nodup_iff, List.filterMap_map]
  have areNumbers : ((groupMembers scope keymap decls letter).filterMap fun member =>
      keymap.pins (pinKey scope letter member.key)).Sublist
        ((groupMembers scope keymap decls letter).map GroupMember.number) :=
    filterMap_sublist_map honored
  exact nodup_groupMembers.sublist areNumbers

/-- A list of declarations is given what is recorded just where the pins are apart. -/
theorem honors_iff : Honors keymap.pins (givenPins scope (assignScope scope decls keymap)) ↔
    PinsApart scope keymap decls := by
  constructor
  · intro honors letter
    apply pinsApart_of_honored
    intro member isMember
    exact honors _ (mem_givenPins_assignScope.mpr ⟨letter, member, isMember, rfl⟩)
  · intro apart pin isPin number isPinned
    obtain ⟨letter, member, isMember, rfl⟩ := mem_givenPins_assignScope.mp isPin
    exact number_of_pinned (apart letter) isMember isPinned

theorem numbered_assignScope
    (positive : ∀ pinKey number, keymap.pins pinKey = some number → 1 ≤ number) :
    Numbered (assignScope scope decls keymap) := by
  intro tip title members isGroup
  obtain ⟨letter, _, rfl⟩ := mem_assignScope_group isGroup
  refine ⟨nodup_groupMembers, ?_⟩
  rw [groupMembers]
  split
  · intro member isMember
    rw [numberGroup, List.mem_insertionSort] at isMember
    refine positive_fillNumbers ?_ le_rfl member isMember
    intro place number isPinned
    obtain ⟨claimant, _, _, isPin⟩ := exists_of_mem_honorPins (mem_of_lookup isPinned)
    exact positive _ _ isPin
  · exact List.forall_mem_nil _

end Honored

/-- Groups do not depend on the pins. -/
theorem groupKeys_congr (scope : ScopeId) {keymap later : KeymapConfig}
    (same : later.keytips = keymap.keytips) (decls : List KeyTipDecl) :
    groupKeys scope later decls = groupKeys scope keymap decls := by
  obtain ⟨keytips, pinned⟩ := keymap
  obtain ⟨_, laterPinned⟩ := later
  cases same
  rfl

theorem duplicate_perm {Key : Type} [DecidableEq Key] {key : Key} {keys others : List Key}
    (perm : keys.Perm others) : List.Duplicate key keys ↔ List.Duplicate key others := by
  rw [List.duplicate_iff_two_le_count, List.duplicate_iff_two_le_count, perm.count_eq]

/-- No key with two numbers is numbered again just where none was numbered twice. -/
theorem settled_iff {scope : ScopeId} {start keymap later : KeymapConfig}
    (same : keymap.keytips = start.keytips) (sameLater : later.keytips = start.keytips)
    {decls others : List KeyTipDecl} :
    Settled (givenPins scope (assignScope scope decls keymap))
        (givenPins scope (assignScope scope others later)) ↔
      OnceEach scope start decls others := by
  have isTwice {letter : Char} {key : List Char} :
      List.Duplicate key (groupKeys scope start decls letter) ↔
        ∃ member ∈ groupMembers scope keymap decls letter,
          ∃ other ∈ groupMembers scope keymap decls letter,
            member.key = key ∧ other.key = key ∧ member.number ≠ other.number := by
    rw [← duplicate_map_iff nodup_groupMembers, duplicate_perm groupMembers_keys,
      groupKeys_congr scope same]
  have isAgain {letter : Char} {key : List Char} :
      key ∈ groupKeys scope start others letter ↔
        ∃ last ∈ groupMembers scope later others letter, last.key = key := by
    rw [← groupKeys_congr scope sameLater, ← groupMembers_keys.mem_iff, List.mem_map]
  constructor
  · intro settled letter key twice again
    obtain ⟨member, isMember, other, isOther, rfl, sameKey, different⟩ := isTwice.mp twice
    obtain ⟨last, isLast, lastKey⟩ := isAgain.mp again
    apply settled _ (mem_givenPins_assignScope.mpr ⟨letter, member, isMember, rfl⟩)
      _ (mem_givenPins_assignScope.mpr ⟨letter, other, isOther, rfl⟩)
      (pinKey_inj.mpr ⟨rfl, sameKey.symm⟩) different
      _ (mem_givenPins_assignScope.mpr ⟨letter, last, isLast, rfl⟩)
    exact pinKey_inj.mpr ⟨rfl, lastKey⟩
  · intro once pin isPin otherPin isOtherPin samePinKey different lastPin isLastPin samePin
    obtain ⟨letter, member, isMember, rfl⟩ := mem_givenPins_assignScope.mp isPin
    obtain ⟨otherLetter, other, isOther, rfl⟩ := mem_givenPins_assignScope.mp isOtherPin
    obtain ⟨lastLetter, last, isLast, rfl⟩ := mem_givenPins_assignScope.mp isLastPin
    obtain ⟨rfl, sameKey⟩ := pinKey_inj.mp samePinKey
    obtain ⟨rfl, lastKey⟩ := pinKey_inj.mp samePin
    exact once _ member.key
      (isTwice.mpr ⟨member, isMember, other, isOther, rfl, sameKey.symm, different⟩)
      (isAgain.mpr ⟨last, isLast, lastKey⟩)

/-! ## Histories -/

section History

variable (scope : ScopeId)

theorem mem_assignments {keymap : KeymapConfig} {history : List (List KeyTipDecl)}
    {nodes : List AssignedNode} (member : nodes ∈ assignments scope keymap history) :
    ∃ decls ∈ history, ∃ later, later.keytips = keymap.keytips ∧
      nodes = assignScope scope decls later := by
  induction history generalizing keymap with
  | nil => cases member
  | cons first rest inductionHypothesis =>
      rcases List.mem_cons.mp member with rfl | inRest
      · exact ⟨first, List.mem_cons_self, keymap, rfl, rfl⟩
      · obtain ⟨decls, isDecls, later, same, isNodes⟩ := inductionHypothesis inRest
        exact ⟨decls, List.mem_cons_of_mem first isDecls, later,
          same.trans (keytips_assignAndPin scope keymap first), isNodes⟩

theorem exists_assignment (keymap : KeymapConfig) {history : List (List KeyTipDecl)}
    {decls : List KeyTipDecl} (member : decls ∈ history) :
    ∃ later, later.keytips = keymap.keytips ∧
      assignScope scope decls later ∈ assignments scope keymap history := by
  induction history generalizing keymap with
  | nil => cases member
  | cons first rest inductionHypothesis =>
      rcases List.mem_cons.mp member with rfl | inRest
      · exact ⟨keymap, rfl, List.mem_cons_self⟩
      · obtain ⟨later, same, isNodes⟩ :=
          inductionHypothesis (assignAndPin scope keymap first) inRest
        exact ⟨later, same.trans (keytips_assignAndPin scope keymap first),
          List.mem_cons_of_mem _ isNodes⟩

theorem pairwise_settled_iff {start keymap : KeymapConfig}
    (same : keymap.keytips = start.keytips) (history : List (List KeyTipDecl)) :
    ((assignments scope keymap history).map (givenPins scope)).Pairwise Settled ↔
      history.Pairwise (OnceEach scope start) := by
  induction history generalizing keymap with
  | nil => exact iff_of_true List.Pairwise.nil List.Pairwise.nil
  | cons decls rest inductionHypothesis =>
      have sameNext := (keytips_assignAndPin scope keymap decls).trans same
      rw [assignments, List.map_cons, List.pairwise_cons, List.pairwise_cons,
        inductionHypothesis sameNext, List.forall_mem_map]
      refine and_congr_left fun _ => ?_
      constructor
      · intro settled others isLater
        obtain ⟨later, sameLater, isNodes⟩ :=
          exists_assignment scope (assignAndPin scope keymap decls) isLater
        exact (settled_iff same (sameLater.trans sameNext)).mp (settled _ isNodes)
      · intro once nodes isNodes
        obtain ⟨others, isLater, later, sameLater, rfl⟩ := mem_assignments scope isNodes
        exact (settled_iff same (sameLater.trans sameNext)).mpr (once others isLater)

theorem guarded_pins_iff (keymap : KeymapConfig) (history : List (List KeyTipDecl)) :
    Guarded learn Honors keymap.pins ((assignments scope keymap history).map (givenPins scope)) ↔
      Guarded (assignAndPin scope) (PinsApart scope) keymap history := by
  induction history generalizing keymap with
  | nil => exact Iff.rfl
  | cons decls rest inductionHypothesis =>
      rw [assignments, List.map_cons, Guarded, Guarded, honors_iff, ← pins_assignAndPin,
        inductionHypothesis]

theorem numbered_assignments {keymap : KeymapConfig}
    (positive : ∀ pinKey number, keymap.pins pinKey = some number → 1 ≤ number)
    (history : List (List KeyTipDecl)) :
    ∀ nodes ∈ assignments scope keymap history, Numbered nodes := by
  induction history generalizing keymap with
  | nil => exact List.forall_mem_nil _
  | cons decls rest inductionHypothesis =>
      have numbered : Numbered (assignScope scope decls keymap) := numbered_assignScope positive
      refine List.forall_mem_cons.mpr ⟨numbered, inductionHypothesis ?_⟩
      intro pinKey number isPinned
      rw [pins_assignAndPin] at isPinned
      rcases learn_cases keymap.pins (givenPins scope (assignScope scope decls keymap)) pinKey with
        ⟨pin, isPin, _, learned⟩ | ⟨_, unchanged⟩
      · obtain ⟨letter, title, members, isGroup, member, isMember, rfl⟩ := mem_givenPins.mp isPin
        rw [learned, Option.some.injEq] at isPinned
        rw [← isPinned]
        exact (numbered [letter] title members isGroup).2 member isMember
      · exact positive pinKey number (unchanged.symm.trans isPinned)

/-- Numbers are kept exactly where no group meets two members that one number is recorded for, and
no key that was in a group twice comes back to it. -/
theorem numbersKept_iff (keytips : Std.TreeMap (List Char) Char)
    (history : List (List KeyTipDecl)) :
    NumbersKept (assignments scope ⟨keytips, ∅⟩ history) ↔
      Guarded (assignAndPin scope) (PinsApart scope) ⟨keytips, ∅⟩ history ∧
        history.Pairwise (OnceEach scope ⟨keytips, ∅⟩) := by
  have unpinned : (⟨keytips, ∅⟩ : KeymapConfig).pins = fun _ => none :=
    funext fun _ => Std.TreeMap.getElem?_emptyc
  have agree : (assignments scope ⟨keytips, ∅⟩ history).Pairwise Unmoved ↔
      ((assignments scope ⟨keytips, ∅⟩ history).map (givenPins scope)).Pairwise Agree := by
    rw [List.pairwise_map]
    exact List.Pairwise.iff fun _ _ => agree_givenPins_iff.symm
  rw [← guarded_pins_iff, ← pairwise_settled_iff scope rfl, unpinned, ← pairwise_agree_iff, ← agree]
  refine ⟨NumbersKept.unmoved, fun unmoved => ⟨unmoved, ?_⟩⟩
  apply numbered_assignments
  intro pinKey number isPinned
  rw [unpinned] at isPinned
  cases isPinned

end History

/-- The apps of the menu of new rows that ask for one letter. -/
def newHere (names : List (List Char)) : List KeyTipDecl :=
  names.map fun name =>
    ⟨"insert.n.".toList ++ name, "New ".toList ++ name ++ " here".toList, some 'n', .app, .run⟩

/-- A number of an app of that menu, under its pin key. -/
def herePin (name : List Char) (number : Nat) : List Char × Nat :=
  (pinKey .insert 'n' ("insert.n.".toList ++ name), number)

/-- An app is removed, another one installed, and the first one installed again. -/
def reinstalled : List (List KeyTipDecl) :=
  [newHere ["ychrome".toList, "cellulose".toList], newHere ["cellulose".toList, "yedit".toList],
    newHere ["ychrome".toList, "cellulose".toList, "yedit".toList]]

/-- The new app was given the number of the one that was away, and loses it to it. -/
theorem not_numbersKept_reinstalled :
    ¬NumbersKept (assignments .insert .empty reinstalled) := by
  rintro ⟨unmoved, _⟩
  have agree : ((assignments .insert .empty reinstalled).map (givenPins .insert)).Pairwise Agree :=
    List.pairwise_map.mpr (unmoved.imp agree_givenPins_iff.mpr)
  have rounds : (assignments .insert .empty reinstalled).map (givenPins .insert) =
      [[herePin "ychrome".toList 1, herePin "cellulose".toList 2],
        [herePin "yedit".toList 1, herePin "cellulose".toList 2],
        [herePin "ychrome".toList 1, herePin "cellulose".toList 2, herePin "yedit".toList 3]] := by
    decide +kernel
  rw [rounds] at agree
  have moved := (List.pairwise_cons.mp (List.pairwise_cons.mp agree).2).1 _ List.mem_cons_self
    _ List.mem_cons_self (herePin "yedit".toList 3) (by decide) rfl
  cases moved

end Yggterm.KeyTips
