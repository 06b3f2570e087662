import Yggterm.KeyTips.Places

/-!
# Every KeyTip is its own

When the tips of a scope are enough for its shell declarations, no two tips are equal and none is
the first half of another.  At the root the letters kept for apps are lost to the shell, and
`overflow_prefixes` does not count with that: too many shell declarations there run out of tips.
-/

namespace Yggterm.KeyTips

open Ladders

/-- Every declaration has its place in the result, and no tip stands for two things. -/
structure Unambiguous (scope : ScopeId) (decls : List KeyTipDecl) (nodes : List AssignedNode) :
    Prop where
  once : (nodes.flatMap AssignedNode.declared).Perm (decls.map KeyTipDecl.declared)
  distinct : (nodes.map AssignedNode.tip).Nodup
  noHalf : ∀ node ∈ nodes, ∀ other ∈ nodes, ∀ first second,
    node.tip = [first] → other.tip ≠ [first, second]
  spared : scope = .root → ∀ decl ∈ decls, decl.origin = .shell → ∀ node ∈ nodes,
    decl.key ∈ node.declared.map Prod.fst → ∀ letter, node.tip = [letter] →
      reservedLetter letter = false

/-- The capacity that `overflow_prefixes` computes with. -/
def capacityWith (prefixes : List Char) : Nat :=
  singleTipCapacity - prefixes.length + tipsPerPrefix * prefixes.length

section Stock

theorem openLetter_app (reservedNs : Bool) (prefixes : List Char) (letter : Char) :
    openLetter reservedNs prefixes .app letter = decide (letter ∉ prefixes) := by
  simp [openLetter, legalLetter]

theorem stockTips_nodup {reservedNs : Bool} {prefixes : List Char} (distinct : prefixes.Nodup)
    (origin : Origin) : (stockTips reservedNs prefixes origin).Nodup := by
  have alphanumerics : (letters ++ digits).Nodup := by decide
  refine List.Nodup.append ?_ ?_ ?_
  · exact (alphanumerics.filter _).map fun _ _ same => List.head_eq_of_cons_eq same
  · refine List.nodup_flatMap.mpr ⟨fun first _ => ?_, ?_⟩
    · apply alphanumerics.map
      intro second other same
      simpa using same
    · refine distinct.imp fun {first other} different tip inFirst inOther => ?_
      obtain ⟨second, _, rfl⟩ := List.mem_map.mp inFirst
      obtain ⟨another, _, same⟩ := List.mem_map.mp inOther
      exact different (List.head_eq_of_cons_eq same).symm
  · intro tip isSingle isPair
    obtain ⟨letter, _, rfl⟩ := List.mem_map.mp isSingle
    obtain ⟨first, _, second, _, same⟩ := mem_pairTips.mp isPair
    exact absurd same (by simp)

/-- An app may have as many tips as `overflow_prefixes` counts. -/
theorem length_stockTips_app {prefixes : List Char} (distinct : prefixes.Nodup)
    (areLetters : prefixes ⊆ letters) (reservedNs : Bool) :
    (stockTips reservedNs prefixes .app).length = capacityWith prefixes := by
  have reserved : ((letters ++ digits).filter (· ∈ prefixes)).Perm prefixes := by
    have alphanumerics : (letters ++ digits).Nodup := by decide
    refine (List.perm_ext_iff_of_nodup (alphanumerics.filter _) distinct).mpr fun letter => ?_
    rw [List.mem_filter, decide_eq_true_eq, and_iff_right_iff_imp]
    exact fun isPrefix => List.mem_append_left _ (areLetters isPrefix)
  have parted : ((letters ++ digits).filter (· ∈ prefixes)).length +
      ((letters ++ digits).filter (openLetter reservedNs prefixes .app)).length = 36 := by
    have split := (List.filter_append_perm (· ∈ prefixes) (letters ++ digits)).length_eq
    rw [List.length_append] at split
    have isOpen : (letters ++ digits).filter (openLetter reservedNs prefixes .app) =
        (letters ++ digits).filter fun letter => !decide (letter ∈ prefixes) :=
      List.filter_congr fun letter _ => by simp [openLetter_app]
    rw [isOpen, split]
    rfl
  have pairs :
      (pairTips prefixes (letters ++ digits)).length = tipsPerPrefix * prefixes.length := by
    rw [pairTips, List.length_flatMap]
    simp only [List.length_map, List.map_const', List.sum_replicate_nat]
    exact Nat.mul_comm _ _
  rw [reserved.length_eq] at parted
  rw [stockTips, List.length_append, List.length_map, pairs, capacityWith, singleTipCapacity]
  omega

end Stock

section Scope

variable (scope : ScopeId) (decls : List KeyTipDecl) (keymap : KeymapConfig)

/-- The tips that shell declarations may have in a scope: the stock, and what they ask for. -/
def shellStock : Finset Tip :=
  (stockTips scope.isReservedNamespace (overflowPrefixes decls keymap) .shell ++
    (ofOrigin .shell decls).filterMap fun entry =>
      wishedTip scope.isReservedNamespace (overflowPrefixes decls keymap) (desired keymap)
        entry.1).toFinset

/-- Every shell declaration finds a tip on its ladder. -/
def ShellServed : Prop :=
  Served (fun entry : KeyTipDecl × Nat => tipLadder scope.isReservedNamespace
      (overflowPrefixes decls keymap) (desired keymap) entry.1)
    (fun entry => [lastResort entry.1]) [] (ofOrigin .shell decls)

theorem shellServed_iff : ShellServed scope decls keymap ↔
    (ofOrigin .shell decls).length ≤ (shellStock scope decls keymap).card := by
  have isShell : ∀ entry ∈ ofOrigin .shell decls, entry.1.origin = .shell :=
    fun entry member => by simpa using (List.mem_filter.mp member).2
  let prefixes := overflowPrefixes decls keymap
  have counted : ShellServed scope decls keymap ↔ (ofOrigin .shell decls).length ≤
      (available (stockTips scope.isReservedNamespace prefixes .shell).toFinset
        (fun entry : KeyTipDecl × Nat => wishedTip scope.isReservedNamespace prefixes
          (desired keymap) entry.1) [] (ofOrigin .shell decls)).card := by
    refine served_iff (fun entry member tip => ?_) (fun entry _ tip wished _ => ?_) []
    · rw [List.mem_toFinset, ← isShell entry member]
      exact mem_tipLadder
    · exact head?_tipLadder wished
  rw [counted]
  congr! 2
  ext tip
  simp [shellStock, mem_available, prefixes]

theorem length_le_flatMap {entries : List (Char × List (KeyTipDecl × Nat))}
    (nonempty : ∀ entry ∈ entries, entry.2 ≠ []) :
    entries.length ≤ (entries.flatMap Prod.snd).length := by
  induction entries with
  | nil => exact Nat.le_refl 0
  | cons entry rest inductionHypothesis =>
      obtain ⟨hasClaimant, others⟩ := List.forall_mem_cons.mp nonempty
      have positive := List.length_pos_of_ne_nil hasClaimant
      have later := inductionHypothesis others
      rw [List.flatMap_cons, List.length_append, List.length_cons]
      omega

/-- The apps that are left always find a tip, when all declarations fit. -/
theorem leftServed (fits : decls.length ≤ capacityWith (overflowPrefixes decls keymap)) :
    Served (fun entry : KeyTipDecl × Nat => tipLadder scope.isReservedNamespace
        (overflowPrefixes decls keymap) (fun _ => none) entry.1)
      (fun entry => [lastResort entry.1])
      ((letterTips scope decls keymap).reverse ++ (shellTips scope decls keymap).reverse)
      (leftApps scope decls keymap) := by
  let prefixes := overflowPrefixes decls keymap
  let stock := (stockTips scope.isReservedNamespace prefixes .app).toFinset
  let taken := (letterTips scope decls keymap).reverse ++ (shellTips scope decls keymap).reverse
  have isApp : ∀ entry ∈ leftApps scope decls keymap, entry.1.origin = .app := by
    intro entry member
    simpa using (List.mem_filter.mp (List.mem_filter.mp member).1).2
  have stocked : stock.card = capacityWith (overflowPrefixes decls keymap) := by
    rw [List.toFinset_card_of_nodup (stockTips_nodup (overflowPrefixes_nodup decls keymap) .app)]
    exact length_stockTips_app (overflowPrefixes_nodup decls keymap)
      (fun _ => mem_letters_of_mem_overflowPrefixes) _
  have laid : (laidLetters scope decls keymap).length ≤
      ((laidLetters scope decls keymap).flatMap Prod.snd).length :=
    length_le_flatMap fun entry member => (wish_of_mem_laidLetters member).2
  have all := (passes_perm scope decls keymap).length_eq
  have free : stock.card - taken.toFinset.card ≤ (stock \ taken.toFinset).card :=
    Finset.le_card_sdiff _ _
  have takenFew : taken.toFinset.card ≤
      (laidLetters scope decls keymap).length + (ofOrigin .shell decls).length := by
    refine (List.toFinset_card_le taken).trans ?_
    simp [taken, letterTips, length_shellTips]
  have counted : Served (fun entry : KeyTipDecl × Nat => tipLadder scope.isReservedNamespace
        prefixes (fun _ => none) entry.1) (fun entry => [lastResort entry.1]) taken
        (leftApps scope decls keymap) ↔
      (leftApps scope decls keymap).length ≤
        (available stock (fun _ => none) taken (leftApps scope decls keymap)).card := by
    refine served_iff (fun entry member tip => ?_) (fun _ _ _ impossible _ => ?_) taken
    · rw [List.mem_toFinset, ← isApp entry member]
      exact mem_tipLadder
    · exact absurd impossible (by simp)
  have isAvailable : available stock (fun _ => none) taken (leftApps scope decls keymap) =
      stock \ taken.toFinset := by
    ext tip
    simp [mem_available]
  refine counted.mpr ?_
  rw [isAvailable]
  simp only [List.length_append, List.length_zipIdx] at all
  omega

/-- A tip beside the reserved prefixes, or below one of them. -/
def Apart (prefixes : List Char) (tip : Tip) : Prop :=
  (∃ letter, letter ∉ prefixes ∧ tip = [letter]) ∨
    ∃ first ∈ prefixes, ∃ second, tip = [first, second]

variable {scope decls keymap}

theorem open_of_mem_tipLadder {reservedNs : Bool} {prefixes : List Char}
    {wish : KeyTipDecl → Option Char} {decl : KeyTipDecl} {letter : Char}
    (member : [letter] ∈ tipLadder reservedNs prefixes wish decl) :
    openLetter reservedNs prefixes decl.origin letter = true := by
  rcases List.mem_append.mp member with isSingle | isPair
  · obtain ⟨_, isOpen, same⟩ := List.mem_map.mp isSingle
    rw [← List.head_eq_of_cons_eq same]
    exact (List.mem_filter.mp isOpen).2
  · obtain ⟨_, _, _, _, impossible⟩ := mem_pairTips.mp isPair
    exact absurd impossible (by simp)

theorem apart_of_mem_tipLadder {reservedNs : Bool} {prefixes : List Char}
    {wish : KeyTipDecl → Option Char} {decl : KeyTipDecl} {tip : Tip}
    (member : tip ∈ tipLadder reservedNs prefixes wish decl) : Apart prefixes tip := by
  rcases List.mem_append.mp member with isSingle | isPair
  · obtain ⟨letter, isOpen, rfl⟩ := List.mem_map.mp isSingle
    have isFree := (List.mem_filter.mp isOpen).2
    simp only [openLetter, Bool.and_eq_true, decide_eq_true_eq] at isFree
    exact .inl ⟨letter, isFree.1, rfl⟩
  · obtain ⟨first, isPrefix, second, _, rfl⟩ := mem_pairTips.mp isPair
    exact .inr ⟨first, isPrefix, second, rfl⟩

theorem not_half {prefixes : List Char} {tip other : Tip} (tipApart : Apart prefixes tip)
    (otherApart : Apart prefixes other) {first second : Char} (isSingle : tip = [first]) :
    other ≠ [first, second] := by
  rintro rfl
  rcases tipApart with ⟨letter, isFree, rfl⟩ | ⟨_, _, _, rfl⟩
  · rcases otherApart with ⟨_, _, impossible⟩ | ⟨half, isPrefix, another, same⟩
    · exact absurd impossible (by simp)
    · have sameLetter : letter = half :=
        (List.head_eq_of_cons_eq isSingle).trans (List.head_eq_of_cons_eq same)
      exact isFree (sameLetter ▸ isPrefix)
  · exact absurd isSingle (by simp)

/-- The tips of all the passes lie apart, when the shell declarations are served. -/
theorem tips_apart (served : ShellServed scope decls keymap)
    (fits : decls.length ≤ capacityWith (overflowPrefixes decls keymap)) :
    (shellTips scope decls keymap ++ letterTips scope decls keymap ++
        leftTips scope decls keymap).Nodup ∧
      ∀ tip ∈ shellTips scope decls keymap ++ letterTips scope decls keymap ++
        leftTips scope decls keymap, Apart (overflowPrefixes decls keymap) tip := by
  have left := leftServed scope decls keymap fits
  have lettersDistinct : (letterTips scope decls keymap).Nodup := by
    have distinct : ((laidLetters scope decls keymap).map Prod.fst).Nodup :=
      claimedLetters_nodup _ _ _
    have tips := distinct.map fun _ _ (same : [_] = [_]) => List.head_eq_of_cons_eq same
    rwa [List.map_map] at tips
  have shellsDistinct : (shellTips scope decls keymap ++ []).Nodup :=
    served.nodup List.nodup_nil
  rw [List.append_nil] at shellsDistinct
  have takenDistinct : ((letterTips scope decls keymap).reverse ++
      (shellTips scope decls keymap).reverse).Nodup := by
    rw [← List.reverse_append, List.nodup_reverse]
    refine shellsDistinct.append lettersDistinct fun tip inShells inLetters => ?_
    obtain ⟨entry, member, rfl⟩ := List.mem_map.mp inLetters
    exact (free_of_mem_laidLetters member).2.2 inShells
  refine ⟨?_, ?_⟩
  · have all : (leftTips scope decls keymap ++ ((letterTips scope decls keymap).reverse ++
        (shellTips scope decls keymap).reverse)).Nodup := left.nodup takenDistinct
    rw [← List.reverse_append] at all
    exact (List.perm_append_comm.trans ((List.reverse_perm _).append_right _)).nodup_iff.mp all
  · intro tip member
    rcases List.mem_append.mp member with inFirst | inLeft
    · rcases List.mem_append.mp inFirst with inShells | inLetters
      · obtain ⟨entry, _, onLadder⟩ := served.exists_of_mem inShells
        exact apart_of_mem_tipLadder onLadder
      · obtain ⟨entry, isLaid, rfl⟩ := List.mem_map.mp inLetters
        exact .inl ⟨entry.1, (free_of_mem_laidLetters isLaid).2.1, rfl⟩
    · obtain ⟨entry, _, onLadder⟩ := left.exists_of_mem inLeft
      exact apart_of_mem_tipLadder onLadder

theorem origin_of_key (distinct : (decls.map KeyTipDecl.key).Nodup) {decl : KeyTipDecl}
    (isDecl : decl ∈ decls) {origin : Origin} {entry : KeyTipDecl × Nat}
    (member : entry ∈ ofOrigin origin decls) (sameKey : entry.1.key = decl.key) :
    decl.origin = origin := by
  obtain ⟨inDecls, isOrigin⟩ := List.mem_filter.mp member
  have entryDecl : entry.1 ∈ decls := List.fst_mem_of_mem_zipIdx inDecls
  rw [← List.inj_on_of_nodup_map distinct entryDecl isDecl sameKey]
  exact of_decide_eq_true isOrigin

theorem mem_leafEntries {entries : List (KeyTipDecl × Nat)} {tips : List Tip} {place : Nat}
    {node : AssignedNode} :
    (place, node) ∈ leafEntries entries tips ↔
      ∃ pair ∈ entries.zip tips, pair.1.2 = place ∧ leafOf pair.1.1 pair.2 = node := by
  simp [leafEntries]

/-- What has a key of a shell declaration in the result is the leaf of a shell declaration. -/
theorem shell_of_declared (distinct : (decls.map KeyTipDecl.key).Nodup) {decl : KeyTipDecl}
    (isDecl : decl ∈ decls) (isShell : decl.origin = .shell) {node : AssignedNode}
    (member : node ∈ assignScope scope decls keymap)
    (declares : decl.key ∈ node.declared.map Prod.fst) :
    ∃ pair ∈ (ofOrigin .shell decls).zip (shellTips scope decls keymap),
      leafOf pair.1.1 pair.2 = node := by
  obtain ⟨⟨place, _⟩, inEntries, rfl⟩ :=
    List.mem_map.mp ((assignScope_perm scope decls keymap).subset member)
  have notApp : ∀ entry ∈ ofOrigin .app decls, entry.1.key ≠ decl.key := by
    intro app isApp sameKey
    rw [origin_of_key distinct isDecl isApp sameKey] at isShell
    contradiction
  simp only [assignedEntries, List.mem_append] at inEntries
  rcases inEntries with (inShells | inLetters) | inLeft
  · obtain ⟨pair, isPair, _, isLeaf⟩ := mem_leafEntries.mp inShells
    exact ⟨pair, isPair, isLeaf⟩
  · obtain ⟨entry, isLaid, inNodes⟩ := List.mem_flatMap.mp inLetters
    obtain ⟨declared, isDeclared, sameKey⟩ := List.mem_map.mp declares
    have inClaimants := (letterNode_declared scope keymap entry.1 entry.2).subset
      (List.mem_flatMap.mpr ⟨_, inNodes, isDeclared⟩)
    obtain ⟨claimant, isClaimant, rfl⟩ := List.mem_map.mp inClaimants
    rw [(wish_of_mem_laidLetters isLaid).1] at isClaimant
    exact absurd sameKey (notApp claimant (List.mem_filter.mp isClaimant).1)
  · obtain ⟨pair, isPair, _, rfl⟩ := mem_leafEntries.mp inLeft
    have isLeft := (List.of_mem_zip isPair).1
    refine absurd ?_ (notApp pair.1 (List.mem_filter.mp isLeft).1)
    simpa [leafOf, AssignedNode.declared, eq_comm] using declares

theorem unambiguous_of_served (distinct : (decls.map KeyTipDecl.key).Nodup)
    (fits : decls.length ≤ capacityWith (overflowPrefixes decls keymap))
    (served : ShellServed scope decls keymap) :
    Unambiguous scope decls (assignScope scope decls keymap) := by
  obtain ⟨tipsDistinct, tipsApart⟩ := tips_apart served fits
  have tips := assignScope_tips scope decls keymap
  have nodeApart : ∀ node ∈ assignScope scope decls keymap,
      Apart (overflowPrefixes decls keymap) node.tip := fun node member =>
    tipsApart _ (tips.subset (List.mem_map_of_mem member))
  exact
    { once := assignScope_declared scope decls keymap
      distinct := tips.nodup_iff.mpr tipsDistinct
      noHalf := fun node member other isOther first second isSingle =>
        not_half (nodeApart node member) (nodeApart other isOther) isSingle
      spared := by
        rintro rfl decl isDecl isShell node member declares letter isTip
        obtain ⟨pair, isPair, rfl⟩ := shell_of_declared distinct isDecl isShell member declares
        have onLadder := served.forall_mem_zip pair isPair
        have origin : pair.1.1.origin = .shell :=
          of_decide_eq_true (List.mem_filter.mp (List.of_mem_zip isPair).1).2
        have isLetter : pair.2 = [letter] := isTip
        rw [isLetter] at onLadder
        have isOpen := open_of_mem_tipLadder onLadder
        simpa [openLetter, legalLetter, origin, ScopeId.isReservedNamespace] using
          (Bool.and_eq_true_iff.mp isOpen).2 }

/-- Where the ladder of a shell declaration is used up, it takes its last resort. -/
theorem exists_of_not_shellServed (unserved : ¬ ShellServed scope decls keymap) :
    ∃ item, (item, [lastResort item.1]) ∈
        (ofOrigin .shell decls).zip (shellTips scope decls keymap) ∧
      ∃ tipsBefore tipsAfter, shellTips scope decls keymap =
          tipsBefore ++ [lastResort item.1] :: tipsAfter ∧
        ∀ tip ∈ tipLadder scope.isReservedNamespace (overflowPrefixes decls keymap)
          (desired keymap) item.1, tip ∈ tipsBefore := by
  obtain ⟨before, item, after, items, usedUp, handed⟩ := exists_of_not_served unserved
  rw [List.append_nil] at usedUp
  refine ⟨item, ?_, _, _, handed, usedUp⟩
  rw [shellTips, tipsOf, handed, items, List.zip_append (length_allocate _ _).symm]
  exact List.mem_append_right _ List.mem_cons_self

/-- The declaration that finds nothing left takes a tip that breaks the rules. -/
theorem not_unambiguous_of_not_served (unserved : ¬ ShellServed scope decls keymap) :
    ¬ Unambiguous scope decls (assignScope scope decls keymap) := by
  obtain ⟨item, isLast, tipsBefore, tipsAfter, shellTipsAre, usedUp⟩ :=
    exists_of_not_shellServed unserved
  have isShell := (List.of_mem_zip isLast).1
  have origin : item.1.origin = .shell := of_decide_eq_true (List.mem_filter.mp isShell).2
  have stockUsed : ∀ tip ∈ stockTips scope.isReservedNamespace (overflowPrefixes decls keymap)
      .shell, tip ∈ tipsBefore := fun tip inStock =>
    usedUp tip (mem_tipLadder.mpr (.inl (by rwa [origin])))
  have tips := assignScope_tips scope decls keymap
  rw [List.append_assoc, shellTipsAre] at tips
  have hasTip : ∀ tip ∈ tipsBefore ++ [lastResort item.1] :: tipsAfter,
      ∃ node ∈ assignScope scope decls keymap, node.tip = tip := fun tip member =>
    List.mem_map.mp (tips.symm.subset (List.mem_append_left _ member))
  intro unambiguous
  by_cases isPrefix : lastResort item.1 ∈ overflowPrefixes decls keymap
  · -- The first half of pairs that are given out.
    have isUsed : [lastResort item.1, 'a'] ∈ tipsBefore := by
      apply stockUsed
      refine List.mem_append_right _ (mem_pairTips.mpr ⟨_, isPrefix, 'a', by decide, rfl⟩)
    obtain ⟨node, member, isSingle⟩ := hasTip [lastResort item.1] (by simp)
    obtain ⟨other, isOther, isPair⟩ := hasTip _ (List.mem_append_left _ isUsed)
    exact unambiguous.noHalf node member other isOther _ _ isSingle isPair
  by_cases isLegal : legalLetter scope.isReservedNamespace .shell (lastResort item.1) = true
  · -- Given out before.
    have isUsed : [lastResort item.1] ∈ tipsBefore := by
      apply stockUsed
      refine List.mem_append_left _ (List.mem_map.mpr ⟨_, List.mem_filter.mpr
        ⟨lastResort_mem item.1, ?_⟩, rfl⟩)
      simp [openLetter, isPrefix, isLegal]
    have distinct := (tips.nodup_iff.mp unambiguous.distinct).of_append_left
    exact List.disjoint_of_nodup_append distinct isUsed List.mem_cons_self
  · -- Kept for apps.
    have isRoot : scope = .root ∧ reservedLetter (lastResort item.1) = true := by
      simpa [legalLetter, ScopeId.isReservedNamespace] using isLegal
    have inEntries : (item.2, leafOf item.1 [lastResort item.1]) ∈
        assignedEntries scope decls keymap := by
      refine List.mem_append_left _ (List.mem_append_left _ ?_)
      exact mem_leafEntries.mpr ⟨_, isLast, rfl, rfl⟩
    have member := (assignScope_perm scope decls keymap).symm.subset
      (List.mem_map_of_mem (f := Prod.snd) inEntries)
    have inDecls : item.1 ∈ decls :=
      List.fst_mem_of_mem_zipIdx (List.mem_filter.mp isShell).1
    have spared := unambiguous.spared isRoot.1 item.1 inDecls origin _ member
      (by simp [leafOf, AssignedNode.declared]) _ rfl
    exact absurd spared (by simp [isRoot.2])

/-- Every KeyTip of a scope that fits is its own exactly when the shell declarations are no more
than the tips they may have. -/
theorem assignScope_unambiguous_iff (scope : ScopeId) (decls : List KeyTipDecl)
    (keymap : KeymapConfig) (distinct : (decls.map KeyTipDecl.key).Nodup)
    (fits : decls.length ≤ capacityWith (overflowPrefixes decls keymap)) :
    Unambiguous scope decls (assignScope scope decls keymap) ↔
      (ofOrigin .shell decls).length ≤ (shellStock scope decls keymap).card := by
  rw [← shellServed_iff]
  refine ⟨fun unambiguous => ?_, unambiguous_of_served distinct fits⟩
  by_contra unserved
  exact not_unambiguous_of_not_served unserved unambiguous

end Scope

/-- Two shell declarations and two apps that ask for the same letter. -/
def smallMenu : List KeyTipDecl :=
  [⟨"open".toList, "Open".toList, some 'o', .shell, .run⟩,
    ⟨"other".toList, "Other".toList, some 'o', .shell, .run⟩,
    ⟨"notes".toList, "Notes".toList, some 'n', .app, .run⟩,
    ⟨"news".toList, "News".toList, some 'n', .app, .run⟩]

theorem smallMenu_unambiguous :
    Unambiguous .insert smallMenu (assignScope .insert smallMenu .empty) :=
  (assignScope_unambiguous_iff .insert smallMenu .empty (by decide) (by decide)).mpr
    (by decide +kernel)

/-- A shell declaration for each letter, without titles or wishes. -/
def crowdedRoot : List KeyTipDecl :=
  letters.map fun letter => ⟨[letter], [], none, .shell, .run⟩

/-- At the root the last of them gets a `z` again. -/
theorem crowdedRoot_repeats : ¬ ∀ (scope : ScopeId) (decls : List KeyTipDecl)
    (keymap : KeymapConfig), (decls.map KeyTipDecl.key).Nodup →
      decls.length ≤ capacityWith (overflowPrefixes decls keymap) →
        Unambiguous scope decls (assignScope scope decls keymap) := by
  intro claimed
  have distinct := (claimed .root crowdedRoot .empty (by decide) (by decide)).distinct
  have repeats : ¬ ((assignScope .root crowdedRoot .empty).map AssignedNode.tip).Nodup := by
    decide +kernel
  exact repeats distinct

end Yggterm.KeyTips
