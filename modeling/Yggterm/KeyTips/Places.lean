import Yggterm.KeyTips.Passes

/-!
# Every declaration stands in the result once

The passes part the declarations among them, and each writes down what it assigns at the places
of its declarations, so that the result has every declaration, and the tips of all passes.
-/

namespace Yggterm.KeyTips

open Ladders

/-- What a declaration brings to a node. -/
def KeyTipDecl.declared (decl : KeyTipDecl) : List Char × List Char × Target :=
  (decl.key, decl.title, decl.target)

def AssignedNode.declared : AssignedNode → List (List Char × List Char × Target)
  | leaf key title _ target => [(key, title, target)]
  | group _ _ members => members.map fun member => (member.key, member.title, member.target)

section Places

theorem fillNumbers_declared (pinnedFor : List (Nat × Nat)) (claimants : List (KeyTipDecl × Nat))
    (used : List Nat) (next : Nat) :
    (fillNumbers pinnedFor claimants used next).map
        (fun member => (member.key, member.title, member.target)) =
      claimants.map fun claimant => claimant.1.declared := by
  induction claimants generalizing used next with
  | nil => rfl
  | cons claimant rest inductionHypothesis =>
      unfold fillNumbers
      split <;> simp [inductionHypothesis, KeyTipDecl.declared]

/-- A group has each of its claimants as a member. -/
theorem numberGroup_declared (scope : ScopeId) (letter : Char)
    (claimants : List (KeyTipDecl × Nat)) (keymap : KeymapConfig) :
    ((numberGroup scope letter claimants keymap).map
        fun member => (member.key, member.title, member.target)).Perm
      (claimants.map fun claimant => claimant.1.declared) := by
  unfold numberGroup
  rw [← fillNumbers_declared _ claimants _ 1]
  exact (List.perm_insertionSort _ _).map _

theorem letterNode_declared (scope : ScopeId) (keymap : KeymapConfig) (letter : Char)
    (claimants : List (KeyTipDecl × Nat)) :
    ((letterNode scope keymap letter claimants).flatMap fun entry => entry.2.declared).Perm
      (claimants.map fun claimant => claimant.1.declared) := by
  unfold letterNode
  split
  · exact .refl _
  · exact .refl _
  · rw [List.flatMap_cons, List.flatMap_nil, List.append_nil]
    exact numberGroup_declared scope letter _ keymap

theorem letterNode_places (scope : ScopeId) (keymap : KeymapConfig) (letter : Char)
    (claimants : List (KeyTipDecl × Nat)) :
    ((letterNode scope keymap letter claimants).map Prod.fst).Sublist (claimants.map Prod.snd) := by
  unfold letterNode
  split
  · exact .refl _
  · exact .refl _
  · exact (List.nil_sublist _).cons_cons _

theorem letterNode_tips (scope : ScopeId) (keymap : KeymapConfig) {letter : Char}
    {claimants : List (KeyTipDecl × Nat)} (nonempty : claimants ≠ []) :
    (letterNode scope keymap letter claimants).map (fun entry => entry.2.tip) = [[letter]] := by
  unfold letterNode
  split
  · contradiction
  · rfl
  · rfl

theorem leafEntries_places {entries : List (KeyTipDecl × Nat)} {tips : List Tip}
    (sameLength : tips.length = entries.length) :
    (leafEntries entries tips).map Prod.fst = entries.map Prod.snd := by
  have unzipped : (entries.zip tips).map Prod.fst = entries := List.map_fst_zip sameLength.ge
  conv_rhs => rw [← unzipped]
  simp [leafEntries, Function.comp_def]

theorem leafEntries_tips {entries : List (KeyTipDecl × Nat)} {tips : List Tip}
    (sameLength : tips.length = entries.length) :
    (leafEntries entries tips).map (fun entry => entry.2.tip) = tips := by
  have unzipped : (entries.zip tips).map Prod.snd = tips := List.map_snd_zip sameLength.le
  conv_rhs => rw [← unzipped]
  simp [leafEntries, Function.comp_def, leafOf, AssignedNode.tip]

theorem leafEntries_declared {entries : List (KeyTipDecl × Nat)} {tips : List Tip}
    (sameLength : tips.length = entries.length) :
    (leafEntries entries tips).flatMap (fun entry => entry.2.declared) =
      entries.map fun entry => entry.1.declared := by
  have unzipped : (entries.zip tips).map Prod.fst = entries := List.map_fst_zip sameLength.ge
  conv_rhs => rw [← unzipped, List.map_map]
  rw [leafEntries, List.flatMap_map, ← List.flatMap_pure_eq_map]
  rfl

theorem lookup_of_mem {Value : Type} {entries : List (Nat × Value)}
    (distinct : (entries.map Prod.fst).Nodup) {entry : Nat × Value} (member : entry ∈ entries) :
    entries.lookup entry.1 = some entry.2 := by
  induction entries with
  | nil => contradiction
  | cons first rest inductionHypothesis =>
      obtain ⟨notAgain, restDistinct⟩ := List.nodup_cons.mp distinct
      rcases List.mem_cons.mp member with rfl | later
      · exact List.lookup_cons_self
      · have other : (entry.1 == first.1) = false := by
          rw [beq_eq_false_iff_ne]
          intro same
          exact notAgain (same ▸ List.mem_map_of_mem later)
        have skipped : (first :: rest).lookup entry.1 = rest.lookup entry.1 := by
          cases first
          rw [List.lookup_cons, other]
        exact skipped.trans (inductionHypothesis restDistinct later)

/-- Looking up every place gives all the entries, when no place has two. -/
theorem filterMap_lookup_perm {Value : Type} {entries : List (Nat × Value)} {count : Nat}
    (distinct : (entries.map Prod.fst).Nodup) (places : ∀ entry ∈ entries, entry.1 < count) :
    ((List.range count).filterMap fun place => entries.lookup place).Perm
      (entries.map Prod.snd) := by
  have sameplaces : (List.range count).Perm (entries.map Prod.fst ++
      (List.range count).filter fun place => place ∉ entries.map Prod.fst) := by
    refine (List.perm_ext_iff_of_nodup List.nodup_range ?_).mpr ?_
    · refine distinct.append (List.nodup_range.filter _) ?_
      intro place isPlace other
      simpa [isPlace] using (List.mem_filter.mp other).2
    · intro place
      simp only [List.mem_append, List.mem_filter, List.mem_range, decide_eq_true_eq]
      constructor
      · intro small
        by_cases isPlace : place ∈ entries.map Prod.fst
        · exact .inl isPlace
        · exact .inr ⟨small, isPlace⟩
      · rintro (isPlace | ⟨small, _⟩)
        · obtain ⟨entry, member, rfl⟩ := List.mem_map.mp isPlace
          exact places entry member
        · exact small
  refine (sameplaces.filterMap _).trans ?_
  rw [List.filterMap_append]
  have found : (entries.map Prod.fst).filterMap (fun place => entries.lookup place) =
      entries.map Prod.snd := by
    rw [List.filterMap_map, ← List.filterMap_eq_map]
    exact List.filterMap_congr fun entry member => lookup_of_mem distinct member
  have missed : ((List.range count).filter fun place => place ∉ entries.map Prod.fst).filterMap
      (fun place => entries.lookup place) = [] := by
    rw [List.filterMap_eq_nil_iff]
    intro place isOther
    have absent := (List.mem_filter.mp isOther).2
    rw [decide_eq_true_eq] at absent
    rw [List.lookup_eq_none_iff]
    intro entry member
    rw [bne_iff_ne]
    rintro rfl
    exact absent (List.mem_map_of_mem member)
  rw [found, missed, List.append_nil]

end Places

section Scope

variable (scope : ScopeId) (decls : List KeyTipDecl) (keymap : KeymapConfig)

theorem length_shellTips : (shellTips scope decls keymap).length = (ofOrigin .shell decls).length :=
  length_allocate _ _

theorem length_leftTips :
    (leftTips scope decls keymap).length = (leftApps scope decls keymap).length :=
  length_allocate _ _

theorem ofOrigin_nodup (origin : Origin) :
    ((ofOrigin origin decls).map Prod.snd).Nodup := by
  have places : (decls.zipIdx.map Prod.snd).Nodup := by
    rw [List.zipIdx_map_snd]
    exact List.nodup_range'
  exact places.sublist (List.filter_sublist.map _)

theorem laidLetters_perm : ((laidLetters scope decls keymap).flatMap Prod.snd).Perm
    ((ofOrigin .app decls).filter fun entry =>
      ¬ freeWish keymap (shellPool scope decls keymap) entry = none) := by
  have apps : (ofOrigin .app decls).Nodup := (ofOrigin_nodup decls .app).of_map _
  refine (List.perm_ext_iff_of_nodup ?_ (apps.filter _)).mpr ?_
  · rw [List.nodup_flatMap]
    refine ⟨?_, ?_⟩
    · intro entry member
      rw [(wish_of_mem_laidLetters member).1]
      exact apps.filter _
    · have letters : ((laidLetters scope decls keymap).map Prod.fst).Nodup :=
        claimedLetters_nodup _ _ _
      refine (List.pairwise_map.mp letters).imp_of_mem ?_
      intro first second isFirst isSecond different app inFirst inSecond
      rw [(wish_of_mem_laidLetters isFirst).1] at inFirst
      rw [(wish_of_mem_laidLetters isSecond).1] at inSecond
      have firstWish := (List.mem_filter.mp inFirst).2
      have secondWish := (List.mem_filter.mp inSecond).2
      rw [decide_eq_true_eq] at firstWish secondWish
      exact different (Option.some.inj (firstWish.symm.trans secondWish))
  · intro app
    simp only [List.mem_flatMap, List.mem_filter, decide_eq_true_eq]
    constructor
    · rintro ⟨entry, member, isClaimant⟩
      rw [(wish_of_mem_laidLetters member).1] at isClaimant
      obtain ⟨isApp, wish⟩ := List.mem_filter.mp isClaimant
      rw [decide_eq_true_eq] at wish
      exact ⟨isApp, by simp [wish]⟩
    · rintro ⟨isApp, wishes⟩
      obtain ⟨letter, wish⟩ := Option.ne_none_iff_exists'.mp wishes
      have isClaimant : app ∈ (ofOrigin .app decls).filter fun entry =>
          freeWish keymap (shellPool scope decls keymap) entry = some letter :=
        List.mem_filter.mpr ⟨isApp, by simpa using wish⟩
      exact ⟨(letter, _), (mem_claimedLetters keymap _).mpr ⟨rfl, List.ne_nil_of_mem isClaimant⟩,
        isClaimant⟩

/-- Every declaration is in exactly one of the passes. -/
theorem passes_perm : (ofOrigin .shell decls ++
    ((laidLetters scope decls keymap).flatMap Prod.snd ++ leftApps scope decls keymap)).Perm
      decls.zipIdx := by
  have apps : ((laidLetters scope decls keymap).flatMap Prod.snd ++
      leftApps scope decls keymap).Perm (ofOrigin .app decls) :=
    (List.perm_append_comm.trans ((laidLetters_perm scope decls keymap).append_left _)).trans
      (by simpa [leftApps] using List.filter_append_perm _ _)
  have origins : ofOrigin .app decls =
      decls.zipIdx.filter fun entry => !decide (entry.1.origin = .shell) := by
    apply List.filter_congr
    intro entry _
    cases entry.1.origin <;> rfl
  refine (apps.append_left _).trans ?_
  rw [origins]
  exact List.filter_append_perm _ _

theorem assignedEntries_places : ((assignedEntries scope decls keymap).map Prod.fst).Nodup ∧
    ∀ entry ∈ assignedEntries scope decls keymap, entry.1 < decls.length := by
  have places := (passes_perm scope decls keymap).map Prod.snd
  rw [List.zipIdx_map_snd] at places
  have inside : ((assignedEntries scope decls keymap).map Prod.fst).Sublist
      ((ofOrigin .shell decls ++ ((laidLetters scope decls keymap).flatMap Prod.snd ++
        leftApps scope decls keymap)).map Prod.snd) := by
    have laid : (((laidLetters scope decls keymap).flatMap fun entry =>
        letterNode scope keymap entry.1 entry.2).map Prod.fst).Sublist
        (((laidLetters scope decls keymap).flatMap Prod.snd).map Prod.snd) := by
      induction laidLetters scope decls keymap with
      | nil => exact .refl _
      | cons entry rest inductionHypothesis =>
          simp only [List.flatMap_cons, List.map_append]
          exact (letterNode_places scope keymap entry.1 entry.2).append inductionHypothesis
    rw [assignedEntries, List.map_append, List.map_append,
      leafEntries_places (length_shellTips _ _ _), leafEntries_places (length_leftTips _ _ _),
      List.map_append, List.map_append, List.append_assoc]
    exact (List.Sublist.refl _).append (laid.append (List.Sublist.refl _))
  refine ⟨(places.nodup_iff.mpr List.nodup_range').sublist inside, ?_⟩
  intro entry member
  have isPlace := places.subset (inside.subset (List.mem_map_of_mem member))
  simpa using isPlace

theorem assignScope_perm : (assignScope scope decls keymap).Perm
    ((assignedEntries scope decls keymap).map Prod.snd) := by
  rw [assignScope_eq]
  exact filterMap_lookup_perm (assignedEntries_places scope decls keymap).1
    (assignedEntries_places scope decls keymap).2

/-- Every declaration stands in the result once. -/
theorem assignScope_declared : ((assignScope scope decls keymap).flatMap
    AssignedNode.declared).Perm (decls.map KeyTipDecl.declared) := by
  refine ((assignScope_perm scope decls keymap).flatMap_right _).trans ?_
  have entries : ((assignedEntries scope decls keymap).flatMap fun entry =>
      entry.2.declared).Perm ((ofOrigin .shell decls ++
        ((laidLetters scope decls keymap).flatMap Prod.snd ++ leftApps scope decls keymap)).map
          fun entry => entry.1.declared) := by
    have laid : (((laidLetters scope decls keymap).flatMap fun entry =>
        letterNode scope keymap entry.1 entry.2).flatMap fun entry => entry.2.declared).Perm
        (((laidLetters scope decls keymap).flatMap Prod.snd).map fun entry =>
          entry.1.declared) := by
      induction laidLetters scope decls keymap with
      | nil => exact .refl _
      | cons entry rest inductionHypothesis =>
          simp only [List.flatMap_cons, List.flatMap_append, List.map_append]
          exact (letterNode_declared scope keymap entry.1 entry.2).append inductionHypothesis
    rw [assignedEntries, List.flatMap_append, List.flatMap_append,
      leafEntries_declared (length_shellTips _ _ _), leafEntries_declared (length_leftTips _ _ _),
      List.map_append, List.map_append, List.append_assoc]
    exact (laid.append_right _).append_left _
  rw [List.flatMap_map]
  refine entries.trans (((passes_perm scope decls keymap).map _).trans ?_)
  have unzipped : decls.zipIdx.map Prod.fst = decls := List.zipIdx_map_fst 0 decls
  conv_rhs => rw [← unzipped, List.map_map]
  rfl

/-- The tips of the result, pass by pass. -/
theorem assignScope_tips : ((assignScope scope decls keymap).map AssignedNode.tip).Perm
    (shellTips scope decls keymap ++ letterTips scope decls keymap ++
      leftTips scope decls keymap) := by
  refine ((assignScope_perm scope decls keymap).map _).trans ?_
  have laid : ((laidLetters scope decls keymap).flatMap fun entry =>
      letterNode scope keymap entry.1 entry.2).map (fun entry => entry.2.tip) =
      letterTips scope decls keymap := by
    rw [List.map_flatMap, letterTips, ← List.flatMap_pure_eq_map]
    apply List.flatMap_congr
    intro entry member
    exact letterNode_tips scope keymap (wish_of_mem_laidLetters member).2
  rw [List.map_map, assignedEntries, List.map_append, List.map_append]
  simp only [Function.comp_def]
  rw [leafEntries_tips (length_shellTips _ _ _), leafEntries_tips (length_leftTips _ _ _), laid]

end Scope

end Yggterm.KeyTips
