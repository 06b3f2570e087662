import Yggterm.KeyTips.Places

/-!
# What an assigned node looks like

Whatever its scope, an assigned node has a tip of one or two keys; a group stands under one
letter, and its members have different numbers.
-/

namespace Yggterm.KeyTips

open Ladders

/-! ## Group numbers -/

section Numbers

theorem nextFree_not_mem (used : List Nat) (next : Nat) : nextFree used next ∉ used := by
  fun_induction nextFree used next with
  | case1 next isUsed inductionHypothesis => exact inductionHypothesis
  | case2 next isFree => exact isFree

variable {pin : KeyTipDecl → Option Nat}

theorem mem_used_honorPins {claimants : List (KeyTipDecl × Nat)} {used : List Nat} {number : Nat}
    (isUsed : number ∈ used) : number ∈ (honorPins pin claimants used).1 := by
  fun_induction honorPins pin claimants used with
  | case1 used => exact isUsed
  | case2 _ _ _ _ inductionHypothesis => exact inductionHypothesis isUsed
  | case3 _ _ _ _ _ _ inductionHypothesis => exact inductionHypothesis isUsed
  | case4 _ _ _ _ _ _ _ inductionHypothesis =>
      exact inductionHypothesis (List.mem_append_left _ isUsed)

/-- A pinned number is used, and was free before. -/
theorem mem_honorPins {claimants : List (KeyTipDecl × Nat)} {used : List Nat} {entry : Nat × Nat}
    (member : entry ∈ (honorPins pin claimants used).2) :
    entry.2 ∈ (honorPins pin claimants used).1 ∧ entry.2 ∉ used := by
  fun_induction honorPins pin claimants used with
  | case1 used => cases member
  | case2 _ _ _ _ inductionHypothesis => exact inductionHypothesis member
  | case3 _ _ _ _ _ _ inductionHypothesis => exact inductionHypothesis member
  | case4 used claimant rest number _ isFree later inductionHypothesis =>
      rcases List.mem_cons.mp member with rfl | inLater
      · exact ⟨mem_used_honorPins (List.mem_append_right _ (List.mem_singleton_self _)), isFree⟩
      · obtain ⟨isUsed, wasFree⟩ := inductionHypothesis inLater
        exact ⟨isUsed, fun inUsed => wasFree (List.mem_append_left _ inUsed)⟩

theorem nodup_honorPins (claimants : List (KeyTipDecl × Nat)) (used : List Nat) :
    ((honorPins pin claimants used).2.map Prod.snd).Nodup := by
  fun_induction honorPins pin claimants used with
  | case1 used => exact List.nodup_nil
  | case2 _ _ _ _ inductionHypothesis => exact inductionHypothesis
  | case3 _ _ _ _ _ _ inductionHypothesis => exact inductionHypothesis
  | case4 used claimant rest number _ _ later inductionHypothesis =>
      rw [List.map_cons, List.nodup_cons]
      refine ⟨?_, inductionHypothesis⟩
      intro repeated
      obtain ⟨entry, inLater, same⟩ := List.mem_map.mp repeated
      apply (mem_honorPins inLater).2
      rw [same]
      exact List.mem_append_right _ (List.mem_singleton_self _)

variable {pinnedFor : List (Nat × Nat)}

/-- A member's number is pinned, or it was free. -/
theorem mem_fillNumbers {claimants : List (KeyTipDecl × Nat)} {used : List Nat} {next : Nat}
    {member : GroupMember} (inside : member ∈ fillNumbers pinnedFor claimants used next) :
    (∃ claimant ∈ claimants, pinnedFor.lookup claimant.2 = some member.number) ∨
      member.number ∉ used := by
  fun_induction fillNumbers pinnedFor claimants used next with
  | case1 used next => cases inside
  | case2 claimant rest used next number isPinned inductionHypothesis =>
      rcases List.mem_cons.mp inside with rfl | later
      · exact .inl ⟨claimant, List.mem_cons_self, isPinned⟩
      · rcases inductionHypothesis later with ⟨other, inRest, pinned⟩ | wasFree
        · exact .inl ⟨other, List.mem_cons_of_mem _ inRest, pinned⟩
        · exact .inr wasFree
  | case3 claimant rest used next _ number inductionHypothesis =>
      rcases List.mem_cons.mp inside with rfl | later
      · exact .inr (nextFree_not_mem used next)
      · rcases inductionHypothesis later with ⟨other, inRest, pinned⟩ | wasFree
        · exact .inl ⟨other, List.mem_cons_of_mem _ inRest, pinned⟩
        · exact .inr fun inUsed => wasFree (List.mem_append_left _ inUsed)

theorem nodup_fillNumbers {claimants : List (KeyTipDecl × Nat)} {used : List Nat} {next : Nat}
    (places : (claimants.map Prod.snd).Nodup)
    (pinsUsed : ∀ place number, pinnedFor.lookup place = some number → number ∈ used)
    (pinsApart : ∀ place other number, pinnedFor.lookup place = some number →
      pinnedFor.lookup other = some number → place = other) :
    ((fillNumbers pinnedFor claimants used next).map GroupMember.number).Nodup := by
  fun_induction fillNumbers pinnedFor claimants used next with
  | case1 used next => exact List.nodup_nil
  | case2 claimant rest used next number isPinned inductionHypothesis =>
      rw [List.map_cons, List.nodup_cons] at places
      rw [List.map_cons, List.nodup_cons]
      refine ⟨?_, inductionHypothesis places.2 pinsUsed⟩
      intro repeated
      obtain ⟨member, inRest, same⟩ := List.mem_map.mp repeated
      rcases mem_fillNumbers inRest with ⟨other, isClaimant, pinned⟩ | wasFree
      · rw [same] at pinned
        apply places.1
        rw [pinsApart _ _ _ isPinned pinned]
        exact List.mem_map_of_mem isClaimant
      · rw [same] at wasFree
        exact wasFree (pinsUsed _ _ isPinned)
  | case3 claimant rest used next _ number inductionHypothesis =>
      rw [List.map_cons, List.nodup_cons] at places
      rw [List.map_cons, List.nodup_cons]
      have stillUsed : ∀ place pinned, pinnedFor.lookup place = some pinned →
          pinned ∈ used ++ [number] :=
        fun place pinned isPinned => List.mem_append_left _ (pinsUsed place pinned isPinned)
      refine ⟨?_, inductionHypothesis places.2 stillUsed⟩
      intro repeated
      obtain ⟨member, inRest, same⟩ := List.mem_map.mp repeated
      rcases mem_fillNumbers inRest with ⟨other, isClaimant, pinned⟩ | wasFree
      · rw [same] at pinned
        exact nextFree_not_mem used next (pinsUsed _ _ pinned)
      · rw [same] at wasFree
        exact wasFree (List.mem_append_right _ (List.mem_singleton_self _))

theorem mem_of_lookup {place number : Nat} (pinned : pinnedFor.lookup place = some number) :
    (place, number) ∈ pinnedFor := by
  obtain ⟨before, after, rfl, _⟩ := List.lookup_eq_some_iff.mp pinned
  exact List.mem_append_right _ List.mem_cons_self

theorem nodup_numberGroup (scope : ScopeId) (letter : Char)
    {claimants : List (KeyTipDecl × Nat)} (places : (claimants.map Prod.snd).Nodup)
    (keymap : KeymapConfig) :
    ((numberGroup scope letter claimants keymap).map GroupMember.number).Nodup := by
  rw [numberGroup]
  apply (((List.perm_insertionSort _ _).map GroupMember.number).nodup_iff).mpr
  apply nodup_fillNumbers places
  · intro place number pinned
    exact (mem_honorPins (mem_of_lookup pinned)).1
  · intro place other number pinned otherPinned
    have same := List.inj_on_of_nodup_map (nodup_honorPins claimants []) (mem_of_lookup pinned)
      (mem_of_lookup otherPinned) rfl
    exact congrArg Prod.fst same

end Numbers

/-! ## Nodes -/

def WellMade : AssignedNode → Prop
  | .leaf _ _ tip _ => IsTip tip
  | .group tip _ members =>
      (∃ letter, tip = [letter] ∧ letter.toLower = letter) ∧
        (members.map GroupMember.number).Nodup

theorem isTip_of_mem_tipsOf {prefixes : List Char}
    (prefixesLower : ∀ letter ∈ prefixes, letter.toLower = letter)
    {wish : KeyTipDecl → Option Char}
    (lower : ∀ decl letter, wish decl = some letter → letter.toLower = letter)
    {reservedNs : Bool} {taken : List Tip} {entries : List (KeyTipDecl × Nat)} {tip : Tip}
    (member : tip ∈ tipsOf reservedNs prefixes wish taken entries) : IsTip tip := by
  induction entries generalizing taken with
  | nil => cases member
  | cons entry rest inductionHypothesis =>
      rcases List.mem_cons.mp member with rfl | later
      · exact isTip_pick prefixesLower lower reservedNs taken entry.1
      · exact inductionHypothesis later

theorem wellMade_of_mem_leafEntries {entries : List (KeyTipDecl × Nat)} {tips : List Tip}
    (areTips : ∀ tip ∈ tips, IsTip tip) {entry : Nat × AssignedNode}
    (member : entry ∈ leafEntries entries tips) : WellMade entry.2 := by
  obtain ⟨pair, inZip, rfl⟩ := List.mem_map.mp member
  exact areTips pair.2 (List.of_mem_zip inZip).2

theorem wellMade_of_mem_letterNode (scope : ScopeId) (keymap : KeymapConfig) {letter : Char}
    (lower : letter.toLower = letter) {claimants : List (KeyTipDecl × Nat)}
    (places : (claimants.map Prod.snd).Nodup) {entry : Nat × AssignedNode}
    (member : entry ∈ letterNode scope keymap letter claimants) : WellMade entry.2 := by
  unfold letterNode at member
  split at member
  · cases member
  · obtain rfl := List.mem_singleton.mp member
    exact .inl ⟨letter, rfl, lower⟩
  · obtain rfl := List.mem_singleton.mp member
    exact ⟨⟨letter, rfl, lower⟩, nodup_numberGroup scope letter places keymap⟩

theorem wellMade_assignScope {scope : ScopeId} {decls : List KeyTipDecl} {keymap : KeymapConfig}
    {node : AssignedNode} (member : node ∈ assignScope scope decls keymap) : WellMade node := by
  rw [(assignScope_perm scope decls keymap).mem_iff, assignedEntries] at member
  obtain ⟨entry, inEntries, rfl⟩ := List.mem_map.mp member
  have prefixesLower := overflowPrefixes_lower decls keymap
  rcases List.mem_append.mp inEntries with inFirst | inLeft
  · rcases List.mem_append.mp inFirst with inShell | inLaid
    · apply wellMade_of_mem_leafEntries _ inShell
      exact fun tip isTip => isTip_of_mem_tipsOf prefixesLower (fun _ _ => desired_lower) isTip
    · obtain ⟨laid, isLaid, isNode⟩ := List.mem_flatMap.mp inLaid
      apply wellMade_of_mem_letterNode scope keymap (free_of_mem_laidLetters isLaid).1 _ isNode
      rw [(wish_of_mem_laidLetters isLaid).1]
      exact (ofOrigin_nodup decls .app).sublist (List.filter_sublist.map _)
  · apply wellMade_of_mem_leafEntries _ inLeft
    intro tip isTip
    exact isTip_of_mem_tipsOf prefixesLower (fun _ _ impossible => absurd impossible (by simp))
      isTip

end Yggterm.KeyTips
