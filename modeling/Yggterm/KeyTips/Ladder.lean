import Mathlib.Data.List.Find
import Yggterm.KeyTips.Model
import Yggterm.Library.Ascii
import Yggterm.Library.Ladders

/-!
# The ladder of a declaration

`pick_tip` gives the first tip of a ladder that nobody has.  The tips that a pool has given out
are kept here as one list.
-/

namespace Yggterm.KeyTips

open Ladders

/-- A tip as it is given out: one or two characters, in lower case. -/
def IsTip (tip : Tip) : Prop :=
  (∃ letter, tip = [letter] ∧ letter.toLower = letter) ∨
    ∃ first second, tip = [first, second] ∧ first.toLower = first ∧ second.toLower = second

/-- A pool with these prefixes that has given out these tips. -/
structure StandsFor (pool : TipPool) (prefixes : List Char) (taken : List Tip) : Prop where
  prefixes_eq : pool.prefixes = prefixes
  single_iff : ∀ letter, letter ∈ pool.taken ↔ [letter] ∈ taken
  pair_iff : ∀ first second, [first, second] ∈ pool.pairs ↔ [first, second] ∈ taken

theorem standsFor_new (prefixes : List Char) : StandsFor (TipPool.new prefixes) prefixes [] where
  prefixes_eq := rfl
  single_iff := by simp [TipPool.new]
  pair_iff := by simp [TipPool.new]

theorem StandsFor.claim {pool : TipPool} {prefixes : List Char} {taken : List Tip}
    (stands : StandsFor pool prefixes taken) {tip : Tip} (isTip : IsTip tip) :
    StandsFor (pool.claim tip) prefixes (tip :: taken) := by
  rcases isTip with ⟨letter, rfl, lower⟩ | ⟨first, second, rfl, firstLower, secondLower⟩
  · exact
      { prefixes_eq := stands.prefixes_eq
        single_iff := fun other => by
          simp [TipPool.claim, lower, stands.single_iff, or_comm]
        pair_iff := fun first second => by simp [TipPool.claim, stands.pair_iff] }
  · exact
      { prefixes_eq := stands.prefixes_eq
        single_iff := fun other => by simp [TipPool.claim, stands.single_iff]
        pair_iff := fun other another => by
          simp [TipPool.claim, firstLower, secondLower, stands.pair_iff, or_comm] }

/-- The letters that a declaration may have in a scope with these prefixes. -/
def openLetter (reservedNs : Bool) (prefixes : List Char) (origin : Origin) (letter : Char) :
    Bool :=
  letter ∉ prefixes && legalLetter reservedNs origin letter

def pairTips (prefixes : List Char) (seconds : List Char) : List Tip :=
  prefixes.flatMap fun first => seconds.map fun second => [first, second]

/-- What a declaration tries, in this order. -/
def tipLadder (reservedNs : Bool) (prefixes : List Char) (wish : KeyTipDecl → Option Char)
    (decl : KeyTipDecl) : List Tip :=
  (((wish decl).toList ++ titleLadder decl).filter
      (openLetter reservedNs prefixes decl.origin)).map (fun letter => [letter]) ++
    pairTips prefixes (titleLadder decl)

/-- The tips that every declaration of this origin may have. -/
def stockTips (reservedNs : Bool) (prefixes : List Char) (origin : Origin) : List Tip :=
  ((letters ++ digits).filter (openLetter reservedNs prefixes origin)).map
      (fun letter => [letter]) ++
    pairTips prefixes (letters ++ digits)

/-- The tip that a declaration asks for, if it may have it. -/
def wishedTip (reservedNs : Bool) (prefixes : List Char) (wish : KeyTipDecl → Option Char)
    (decl : KeyTipDecl) : Option Tip :=
  ((wish decl).filter (openLetter reservedNs prefixes decl.origin)).map fun letter => [letter]

theorem mem_pairTips {prefixes seconds : List Char} {tip : Tip} :
    tip ∈ pairTips prefixes seconds ↔
      ∃ first ∈ prefixes, ∃ second ∈ seconds, tip = [first, second] := by
  simp only [pairTips, List.mem_flatMap, List.mem_map, eq_comm]

theorem mem_alphanumerics {letter : Char} (alphanum : letter.isAlphanum = true) :
    letter.toLower ∈ letters ++ digits := by
  have checked : letter.isAlphanum = true → letter.toLower ∈ letters ++ digits :=
    Ascii.of_forall_ofNat (fun letter => letter.isAlphanum = true →
      letter.toLower ∈ letters ++ digits) (by decide) (Ascii.toNat_lt_of_isAlphanum alphanum)
  exact checked alphanum

theorem toLower_of_mem_alphanumerics :
    ∀ letter ∈ letters ++ digits, letter.toLower = letter := by
  intro letter member
  have all : (letters ++ digits).all (fun letter => !letter.isUpper) = true := by decide
  have notUpper := List.all_eq_true.mp all letter member
  exact Ascii.toLower_of_isUpper_eq_false (by simpa using notUpper)

/-- The title only changes the order of the letters and digits. -/
theorem mem_titleLadder {decl : KeyTipDecl} {letter : Char} :
    letter ∈ titleLadder decl ↔ letter ∈ letters ++ digits := by
  simp only [titleLadder, List.append_assoc, List.mem_append (t := letters ++ digits)]
  refine ⟨?_, .inr⟩
  rintro (inTitle | isAlphanumeric)
  · obtain ⟨original, member, rfl⟩ := List.mem_map.mp inTitle
    exact mem_alphanumerics (List.mem_filter.mp member).2
  · exact isAlphanumeric

theorem desired_lower {keymap : KeymapConfig} {decl : KeyTipDecl} {letter : Char}
    (wished : desired keymap decl = some letter) : letter.toLower = letter := by
  obtain ⟨original, _, rfl⟩ := Option.map_eq_some_iff.mp wished
  exact Ascii.toLower_toLower original

theorem mem_tipLadder {reservedNs : Bool} {prefixes : List Char}
    {wish : KeyTipDecl → Option Char} {decl : KeyTipDecl} {tip : Tip} :
    tip ∈ tipLadder reservedNs prefixes wish decl ↔
      tip ∈ stockTips reservedNs prefixes decl.origin ∨
        wishedTip reservedNs prefixes wish decl = some tip := by
  have pairs : tip ∈ pairTips prefixes (titleLadder decl) ↔
      tip ∈ pairTips prefixes (letters ++ digits) := by
    simp only [mem_pairTips, mem_titleLadder]
  have singles : ∀ items : List Char,
      tip ∈ (items.filter (openLetter reservedNs prefixes decl.origin)).map
        (fun letter => [letter]) ↔
      ∃ letter ∈ items, openLetter reservedNs prefixes decl.origin letter = true ∧
        [letter] = tip := by
    intro items
    simp only [List.mem_map, List.mem_filter, and_assoc]
  simp only [tipLadder, stockTips, List.mem_append (t := pairTips _ _), pairs, singles,
    List.mem_append (s := Option.toList _), mem_titleLadder, Option.mem_toList, wishedTip,
    Option.map_eq_some_iff, Option.filter_eq_some_iff]
  constructor
  · rintro (⟨letter, isWish | isStock, isOpen, isTip⟩ | isPair)
    · exact .inr ⟨letter, ⟨isWish, isOpen⟩, isTip⟩
    · exact .inl (.inl ⟨letter, isStock, isOpen, isTip⟩)
    · exact .inl (.inr isPair)
  · rintro ((⟨letter, isStock, isOpen, isTip⟩ | isPair) | ⟨letter, ⟨isWish, isOpen⟩, isTip⟩)
    · exact .inl ⟨letter, .inr isStock, isOpen, isTip⟩
    · exact .inr isPair
    · exact .inl ⟨letter, .inl isWish, isOpen, isTip⟩

/-- What a declaration asks for it tries first. -/
theorem head?_tipLadder {reservedNs : Bool} {prefixes : List Char}
    {wish : KeyTipDecl → Option Char} {decl : KeyTipDecl} {tip : Tip}
    (wished : wishedTip reservedNs prefixes wish decl = some tip) :
    (tipLadder reservedNs prefixes wish decl).head? = some tip := by
  obtain ⟨letter, isOpenWish, rfl⟩ := Option.map_eq_some_iff.mp wished
  obtain ⟨isWish, isOpen⟩ := Option.filter_eq_some_iff.mp isOpenWish
  simp [tipLadder, isWish, isOpen]

/-- In a pool that has given out these tips, the tip picked is the first of the ladder that is
left. -/
theorem pickTip_eq {pool : TipPool} {prefixes : List Char} {taken : List Tip}
    (stands : StandsFor pool prefixes taken) {wish : KeyTipDecl → Option Char}
    (lower : ∀ decl letter, wish decl = some letter → letter.toLower = letter)
    (reservedNs : Bool) (decl : KeyTipDecl) :
    pickTip decl (wish decl) pool reservedNs true =
      pick (tipLadder reservedNs prefixes wish) (fun decl => [lastResort decl]) taken decl := by
  have free : ∀ letter ∈ (wish decl).toList ++ titleLadder decl,
      (pool.singleFree letter && legalLetter reservedNs decl.origin letter) =
        (openLetter reservedNs prefixes decl.origin letter && decide ([letter] ∉ taken)) := by
    intro letter member
    have isLower : letter.toLower = letter := by
      rcases List.mem_append.mp member with isWish | inLadder
      · exact lower decl letter (Option.mem_toList.mp isWish)
      · exact toLower_of_mem_alphanumerics letter (mem_titleLadder.mp inLadder)
    rw [TipPool.singleFree, isLower, openLetter, stands.prefixes_eq, Bool.and_assoc,
      Bool.and_comm, decide_eq_decide.mpr (not_congr (stands.single_iff letter))]
  have pairFree : ∀ tip ∈ pairTips prefixes (titleLadder decl),
      pool.pairFree tip = decide (tip ∉ taken) := by
    intro tip member
    obtain ⟨first, _, second, _, rfl⟩ := mem_pairTips.mp member
    simp [TipPool.pairFree, stands.pair_iff]
  have onLadder : (tipLadder reservedNs prefixes wish decl).find? (fun tip => tip ∉ taken) =
      ((((wish decl).toList ++ titleLadder decl).find? fun letter =>
        pool.singleFree letter && legalLetter reservedNs decl.origin letter).map
          fun letter => [letter]).or
        ((pairTips prefixes (titleLadder decl)).find? pool.pairFree) := by
    rw [tipLadder, List.find?_append, List.find?_map, List.find?_filter, List.find?_congr free,
      List.find?_congr pairFree]
    simp
  have picks :
    pick (tipLadder reservedNs prefixes wish) (fun decl => [lastResort decl]) taken decl =
      ((tipLadder reservedNs prefixes wish decl).find? fun tip => tip ∉ taken).getD
        [lastResort decl] := by
    unfold pick
    congr!
  rw [picks, onLadder, pickTip, if_pos rfl, stands.prefixes_eq, pairTips]
  cases ((wish decl).toList ++ titleLadder decl).find? fun letter =>
      pool.singleFree letter && legalLetter reservedNs decl.origin letter with
  | some letter => rfl
  | none =>
      cases (prefixes.flatMap fun first => (titleLadder decl).map fun second =>
          [first, second]).find? pool.pairFree <;> rfl

theorem isTip_of_mem_pairTips {prefixes : List Char}
    (prefixesLower : ∀ letter ∈ prefixes, letter.toLower = letter) {tip : Tip}
    (member : tip ∈ pairTips prefixes (letters ++ digits)) : IsTip tip := by
  obtain ⟨first, isPrefix, second, isSecond, rfl⟩ := mem_pairTips.mp member
  exact .inr ⟨first, second, rfl, prefixesLower first isPrefix,
    toLower_of_mem_alphanumerics second isSecond⟩

theorem isTip_of_mem_stockTips {reservedNs : Bool} {prefixes : List Char} {origin : Origin}
    (prefixesLower : ∀ letter ∈ prefixes, letter.toLower = letter) {tip : Tip}
    (member : tip ∈ stockTips reservedNs prefixes origin) : IsTip tip := by
  rcases List.mem_append.mp member with isSingle | isPair
  · obtain ⟨letter, isOpen, rfl⟩ := List.mem_map.mp isSingle
    exact .inl ⟨letter, rfl, toLower_of_mem_alphanumerics letter (List.mem_filter.mp isOpen).1⟩
  · exact isTip_of_mem_pairTips prefixesLower isPair

theorem isTip_lastResort (decl : KeyTipDecl) : IsTip [lastResort decl] := by
  refine .inl ⟨_, rfl, ?_⟩
  unfold lastResort
  cases decl.title.find? Char.isAlphanum with
  | none => decide
  | some letter => exact Ascii.toLower_toLower letter

/-- The last resort is a letter or a digit. -/
theorem lastResort_mem (decl : KeyTipDecl) : lastResort decl ∈ letters ++ digits := by
  unfold lastResort
  cases found : decl.title.find? Char.isAlphanum with
  | none => decide
  | some letter => exact mem_alphanumerics (List.find?_some found)

theorem isTip_pick {prefixes : List Char}
    (prefixesLower : ∀ letter ∈ prefixes, letter.toLower = letter)
    {wish : KeyTipDecl → Option Char}
    (lower : ∀ decl letter, wish decl = some letter → letter.toLower = letter)
    (reservedNs : Bool) (taken : List Tip) (decl : KeyTipDecl) :
    IsTip (pick (tipLadder reservedNs prefixes wish) (fun decl => [lastResort decl]) taken
      decl) := by
  by_cases free : ∃ tip ∈ tipLadder reservedNs prefixes wish decl, tip ∉ taken
  · rcases mem_tipLadder.mp (pick_spec free).1 with inStock | isWish
    · exact isTip_of_mem_stockTips prefixesLower inStock
    · obtain ⟨letter, isOpenWish, isTip⟩ := Option.map_eq_some_iff.mp isWish
      exact .inl ⟨letter, isTip.symm, lower decl letter (Option.filter_eq_some_iff.mp isOpenWish).1⟩
  · rw [pick_eq_spare (by simpa using free)]
    exact isTip_lastResort decl

/-- The names that declarations take one after another. -/
abbrev tipsOf (reservedNs : Bool) (prefixes : List Char) (wish : KeyTipDecl → Option Char)
    (taken : List Tip) (entries : List (KeyTipDecl × Nat)) : List Tip :=
  allocate (fun entry : KeyTipDecl × Nat => tipLadder reservedNs prefixes wish entry.1)
    (fun entry => [lastResort entry.1]) taken entries

/-- A pass over declarations hands out tips along their ladders. -/
theorem foldl_place {prefixes : List Char}
    (prefixesLower : ∀ letter ∈ prefixes, letter.toLower = letter)
    (wish : KeyTipDecl → Option Char)
    (lower : ∀ decl letter, wish decl = some letter → letter.toLower = letter)
    (reservedNs : Bool) (entries : List (KeyTipDecl × Nat)) (state : Assignment)
    {taken : List Tip} (stands : StandsFor state.1 prefixes taken) :
    StandsFor (entries.foldl (place reservedNs true wish) state).1 prefixes
        ((tipsOf reservedNs prefixes wish taken entries).reverse ++ taken) ∧
      (entries.foldl (place reservedNs true wish) state).2 = state.2 ++
        (entries.zip (tipsOf reservedNs prefixes wish taken entries)).map fun pair =>
          (pair.1.2, leafOf pair.1.1 pair.2) := by
  induction entries generalizing state taken with
  | nil => exact ⟨stands, (List.append_nil _).symm⟩
  | cons entry rest inductionHypothesis =>
      have picked := pickTip_eq stands lower reservedNs entry.1
      have next : StandsFor (place reservedNs true wish state entry).1 prefixes
          (pick (tipLadder reservedNs prefixes wish) (fun decl =>
            [lastResort decl]) taken entry.1 ::
            taken) := by
        rw [place, picked]
        exact stands.claim (isTip_pick prefixesLower lower reservedNs taken entry.1)
      obtain ⟨after, placed⟩ := inductionHypothesis _ next
      rw [List.foldl_cons, placed]
      refine ⟨?_, ?_⟩
      · simpa [tipsOf, allocate, pick] using after
      · simp [tipsOf, allocate, place, picked, pick]

end Yggterm.KeyTips
