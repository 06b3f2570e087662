import Yggterm.KeyTips.Ladder

/-!
# The three passes

Shell declarations go down the ladder first, then each letter that apps ask for is laid, and
the apps that are left go down the ladder.  Here is what the passes hand out, pass by pass.
-/

namespace Yggterm.KeyTips

open Ladders

theorem reservePrefixes_sublist (needed : Nat) (wanted candidates : List Char) (capacity : Nat) :
    (reservePrefixes needed wanted candidates capacity).Sublist candidates := by
  induction candidates generalizing capacity with
  | nil => exact List.Sublist.refl []
  | cons letter rest inductionHypothesis =>
      unfold reservePrefixes
      split
      · exact List.nil_sublist _
      split
      · exact (inductionHypothesis capacity).cons letter
      · exact (inductionHypothesis _).cons_cons letter

theorem overflowPrefixes_sublist (decls : List KeyTipDecl) (keymap : KeymapConfig) :
    (overflowPrefixes decls keymap).Sublist letters.reverse := by
  unfold overflowPrefixes
  split
  · exact List.nil_sublist _
  · exact reservePrefixes_sublist _ _ _ _

theorem overflowPrefixes_nodup (decls : List KeyTipDecl) (keymap : KeymapConfig) :
    (overflowPrefixes decls keymap).Nodup :=
  (overflowPrefixes_sublist decls keymap).nodup (by decide)

theorem mem_letters_of_mem_overflowPrefixes {decls : List KeyTipDecl} {keymap : KeymapConfig}
    {letter : Char} (isPrefix : letter ∈ overflowPrefixes decls keymap) : letter ∈ letters :=
  List.mem_reverse.mp ((overflowPrefixes_sublist decls keymap).subset isPrefix)

theorem overflowPrefixes_lower (decls : List KeyTipDecl) (keymap : KeymapConfig) :
    ∀ letter ∈ overflowPrefixes decls keymap, letter.toLower = letter := fun letter isPrefix =>
  toLower_of_mem_alphanumerics letter
    (List.mem_append_left digits (mem_letters_of_mem_overflowPrefixes isPrefix))

section Sorting

variable (keymap : KeymapConfig) (pool : TipPool)

theorem foldl_sortApps_snd (apps : List (KeyTipDecl × Nat))
    (state : Std.TreeMap Char (List (KeyTipDecl × Nat)) × List (KeyTipDecl × Nat)) :
    (apps.foldl (sortApps keymap pool) state).2 =
      state.2 ++ apps.filter fun entry => freeWish keymap pool entry = none := by
  induction apps generalizing state with
  | nil => exact (List.append_nil _).symm
  | cons entry rest inductionHypothesis =>
      rw [List.foldl_cons, inductionHypothesis]
      cases wish : freeWish keymap pool entry <;> simp [sortApps, wish]

/-- The claimants of a letter, in the order of their declarations. -/
theorem getD_foldl_sortApps (apps : List (KeyTipDecl × Nat))
    (state : Std.TreeMap Char (List (KeyTipDecl × Nat)) × List (KeyTipDecl × Nat)) (letter : Char) :
    (apps.foldl (sortApps keymap pool) state).1.getD letter [] =
      state.1.getD letter [] ++ apps.filter fun entry =>
        freeWish keymap pool entry = some letter := by
  induction apps generalizing state with
  | nil => exact (List.append_nil _).symm
  | cons entry rest inductionHypothesis =>
      rw [List.foldl_cons, inductionHypothesis]
      cases wish : freeWish keymap pool entry with
      | none => simp [sortApps, wish]
      | some wished =>
          by_cases same : wished = letter
          · subst same
            simp [sortApps, wish]
          · simp [sortApps, wish, same, Std.TreeMap.getD_insert]

theorem mem_foldl_sortApps (apps : List (KeyTipDecl × Nat))
    (state : Std.TreeMap Char (List (KeyTipDecl × Nat)) × List (KeyTipDecl × Nat)) (letter : Char) :
    letter ∈ (apps.foldl (sortApps keymap pool) state).1 ↔
      letter ∈ state.1 ∨ ∃ entry ∈ apps, freeWish keymap pool entry = some letter := by
  induction apps generalizing state with
  | nil => simp
  | cons entry rest inductionHypothesis =>
      rw [List.foldl_cons, inductionHypothesis]
      cases wish : freeWish keymap pool entry with
      | none => simp [sortApps, wish]
      | some wished =>
          simp only [sortApps, wish, Std.TreeMap.mem_insert, Std.LawfulEqCmp.compare_eq_iff_eq,
            List.mem_cons, exists_eq_or_imp, Option.some.injEq]
          tauto

/-- The letters that apps ask for, with their claimants. -/
def claimedLetters (apps : List (KeyTipDecl × Nat)) : List (Char × List (KeyTipDecl × Nat)) :=
  (apps.foldl (sortApps keymap pool) (∅, [])).1.toList

theorem mem_claimedLetters {apps : List (KeyTipDecl × Nat)} {letter : Char}
    {claimants : List (KeyTipDecl × Nat)} :
    (letter, claimants) ∈ claimedLetters keymap pool apps ↔
      claimants = apps.filter (fun entry => freeWish keymap pool entry = some letter) ∧
        claimants ≠ [] := by
  have claimantsOf := getD_foldl_sortApps keymap pool apps (∅, []) letter
  have isClaimed := mem_foldl_sortApps keymap pool apps (∅, []) letter
  rw [claimedLetters, Std.TreeMap.mem_toList_iff_getElem?_eq_some]
  simp only [Std.TreeMap.getD_emptyc, List.nil_append, Std.TreeMap.not_mem_emptyc, false_or] at *
  generalize (apps.foldl (sortApps keymap pool) (∅, [])).1 = sorted at claimantsOf isClaimed
  rw [Std.TreeMap.getD_eq_getD_getElem?] at claimantsOf
  rw [Std.TreeMap.mem_iff_isSome_getElem?] at isClaimed
  cases found : sorted[letter]? with
  | none =>
      rw [found] at isClaimed
      have nobody : ∀ entry ∈ apps, freeWish keymap pool entry ≠ some letter := by
        intro entry member wished
        exact absurd (isClaimed.mpr ⟨entry, member, wished⟩) (by simp)
      constructor
      · exact fun impossible => by contradiction
      · rintro ⟨rfl, nonempty⟩
        exact absurd (List.filter_eq_nil_iff.mpr (by simpa using nobody)) nonempty
  | some others =>
      rw [found] at claimantsOf isClaimed
      obtain ⟨entry, member, wished⟩ := isClaimed.mp rfl
      rw [Option.getD_some] at claimantsOf
      rw [Option.some.injEq, claimantsOf, eq_comm]
      refine ⟨fun same => ⟨same, ?_⟩, And.left⟩
      rw [same]
      exact List.ne_nil_of_mem (List.mem_filter.mpr ⟨member, by simpa using wished⟩)

theorem claimedLetters_nodup (apps : List (KeyTipDecl × Nat)) :
    ((claimedLetters keymap pool apps).map Prod.fst).Nodup := by
  rw [claimedLetters, Std.TreeMap.map_fst_toList_eq_keys]
  exact Std.TreeMap.nodup_keys

end Sorting

theorem foldl_layLetter (scope : ScopeId) (keymap : KeymapConfig) {prefixes : List Char}
    {laid : List (Char × List (KeyTipDecl × Nat))}
    (lower : ∀ entry ∈ laid, entry.1.toLower = entry.1) (state : Assignment) {taken : List Tip}
    (stands : StandsFor state.1 prefixes taken) :
    StandsFor (laid.foldl (layLetter scope keymap) state).1 prefixes
        ((laid.map fun entry => [entry.1]).reverse ++ taken) ∧
      (laid.foldl (layLetter scope keymap) state).2 =
        state.2 ++ laid.flatMap fun entry => letterNode scope keymap entry.1 entry.2 := by
  induction laid generalizing state taken with
  | nil => exact ⟨stands, (List.append_nil _).symm⟩
  | cons entry rest inductionHypothesis =>
      obtain ⟨isLower, restLower⟩ := List.forall_mem_cons.mp lower
      have next : StandsFor (layLetter scope keymap state entry).1 prefixes ([entry.1] :: taken) :=
        stands.claim (.inl ⟨entry.1, rfl, isLower⟩)
      obtain ⟨after, laidNodes⟩ := inductionHypothesis restLower _ next
      rw [List.foldl_cons, laidNodes]
      exact ⟨by simpa using after, by simp [layLetter]⟩

section Scope

variable (scope : ScopeId) (decls : List KeyTipDecl) (keymap : KeymapConfig)

/-- The tips of the shell declarations. -/
def shellTips : List Tip :=
  tipsOf scope.isReservedNamespace (overflowPrefixes decls keymap) (desired keymap) []
    (ofOrigin .shell decls)

/-- The pool after the shell declarations. -/
def shellPool : TipPool :=
  ((ofOrigin .shell decls).foldl (place scope.isReservedNamespace true (desired keymap))
    (TipPool.new (overflowPrefixes decls keymap), [])).1

def laidLetters : List (Char × List (KeyTipDecl × Nat)) :=
  claimedLetters keymap (shellPool scope decls keymap) (ofOrigin .app decls)

def letterTips : List Tip := (laidLetters scope decls keymap).map fun entry => [entry.1]

/-- The apps that go down the ladder. -/
def leftApps : List (KeyTipDecl × Nat) :=
  (ofOrigin .app decls).filter fun entry =>
    freeWish keymap (shellPool scope decls keymap) entry = none

def leftTips : List Tip :=
  tipsOf scope.isReservedNamespace (overflowPrefixes decls keymap) (fun _ => none)
    ((letterTips scope decls keymap).reverse ++ (shellTips scope decls keymap).reverse)
    (leftApps scope decls keymap)

/-- The nodes of declarations with their tips. -/
def leafEntries (entries : List (KeyTipDecl × Nat)) (tips : List Tip) :
    List (Nat × AssignedNode) :=
  (entries.zip tips).map fun pair => (pair.1.2, leafOf pair.1.1 pair.2)

def assignedEntries : List (Nat × AssignedNode) :=
  leafEntries (ofOrigin .shell decls) (shellTips scope decls keymap) ++
    (laidLetters scope decls keymap).flatMap (fun entry =>
      letterNode scope keymap entry.1 entry.2) ++
    leafEntries (leftApps scope decls keymap) (leftTips scope decls keymap)

theorem shellPass : StandsFor (shellPool scope decls keymap) (overflowPrefixes decls keymap)
      (shellTips scope decls keymap).reverse ∧
    ((ofOrigin .shell decls).foldl (place scope.isReservedNamespace true (desired keymap))
      (TipPool.new (overflowPrefixes decls keymap), [])).2 =
      leafEntries (ofOrigin .shell decls) (shellTips scope decls keymap) := by
  have passed := foldl_place (overflowPrefixes_lower decls keymap) (desired keymap)
    (fun _ _ => desired_lower) scope.isReservedNamespace (ofOrigin .shell decls)
    (TipPool.new (overflowPrefixes decls keymap), []) (standsFor_new _)
  rw [List.append_nil, List.nil_append] at passed
  exact passed

variable {scope decls keymap}

theorem wish_of_mem_laidLetters {entry : Char × List (KeyTipDecl × Nat)}
    (member : entry ∈ laidLetters scope decls keymap) :
    entry.2 = (ofOrigin .app decls).filter (fun app =>
        freeWish keymap (shellPool scope decls keymap) app = some entry.1) ∧ entry.2 ≠ [] :=
  (mem_claimedLetters keymap _).mp member

/-- A letter that is laid is free, and in lower case. -/
theorem free_of_mem_laidLetters {entry : Char × List (KeyTipDecl × Nat)}
    (member : entry ∈ laidLetters scope decls keymap) :
    entry.1.toLower = entry.1 ∧ entry.1 ∉ overflowPrefixes decls keymap ∧
      [entry.1] ∉ shellTips scope decls keymap := by
  obtain ⟨claimants, nonempty⟩ := wish_of_mem_laidLetters member
  obtain ⟨claimant, isClaimant⟩ := List.exists_mem_of_ne_nil _ nonempty
  rw [claimants] at isClaimant
  have wished := (List.mem_filter.mp isClaimant).2
  rw [decide_eq_true_eq] at wished
  obtain ⟨isWish, isFree⟩ := Option.filter_eq_some_iff.mp wished
  have lower := desired_lower isWish
  have stands := (shellPass scope decls keymap).1
  simp only [TipPool.singleFree, lower, stands.prefixes_eq, stands.single_iff,
    Bool.and_eq_true, decide_eq_true_eq, List.mem_reverse] at isFree
  exact ⟨lower, isFree.2, isFree.1⟩

variable (scope decls keymap)

theorem assignScope_eq : assignScope scope decls keymap =
    (List.range decls.length).filterMap fun index =>
      (assignedEntries scope decls keymap).lookup index := by
  let shells := (ofOrigin .shell decls).foldl
    (place scope.isReservedNamespace true (desired keymap))
    (TipPool.new (overflowPrefixes decls keymap), [])
  obtain ⟨shellStands, shellEntries⟩ := shellPass scope decls keymap
  have lower : ∀ entry ∈ laidLetters scope decls keymap, entry.1.toLower = entry.1 :=
    fun entry member => (free_of_mem_laidLetters member).1
  obtain ⟨letterStands, letterEntries⟩ := foldl_layLetter scope keymap lower shells shellStands
  have placed : ((leftApps scope decls keymap).foldl
      (place scope.isReservedNamespace true fun _ => none)
      ((laidLetters scope decls keymap).foldl (layLetter scope keymap) shells)).2 =
      assignedEntries scope decls keymap := by
    rw [(foldl_place (overflowPrefixes_lower decls keymap) (fun _ => none)
      (fun _ _ impossible => absurd impossible (by simp)) scope.isReservedNamespace
      (leftApps scope decls keymap) _ letterStands).2, letterEntries, shellEntries]
    rfl
  have isLeft : ((ofOrigin .app decls).foldl (sortApps keymap (shellPool scope decls keymap))
      (∅, [])).2 = leftApps scope decls keymap := foldl_sortApps_snd _ _ _ _
  rw [← isLeft] at placed
  exact congrArg (fun assignment : List (Nat × AssignedNode) =>
    (List.range decls.length).filterMap fun index => assignment.lookup index) placed

end Scope

end Yggterm.KeyTips
