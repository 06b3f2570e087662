import Yggterm.Library.HashMaps

/-!
# Slots that are claimed one after another

A slot goes to the first that claims it.  A firm claim takes it from a holder whose claim
is not firm; nothing takes it from a firm one.
-/

namespace Slots

universe u v

variable {Slot : Type u} {Holder : Type v}

/-- Who holds a slot after these claims. -/
def elect (firm : Holder → Bool) (claims : List Holder) : Option Holder :=
  (claims.find? firm).or claims.head?

theorem mem_of_elect {firm : Holder → Bool} {claims : List Holder} {holder : Holder}
    (elected : elect firm claims = some holder) : holder ∈ claims := by
  rcases Option.or_eq_some_iff.mp elected with found | ⟨_, first⟩
  · exact List.mem_of_find?_eq_some found
  · exact List.mem_of_head? first

/-- A holder whose claim is not firm came first, and no firm claim came after it. -/
theorem elect_soft_iff {firm : Holder → Bool} {claims : List Holder} {holder : Holder}
    (soft : firm holder = false) :
    elect firm claims = some holder ↔
      claims.head? = some holder ∧ ∀ other ∈ claims, firm other = false := by
  rw [elect, Option.or_eq_some_iff]
  constructor
  · rintro (found | ⟨none, first⟩)
    · have holds := List.find?_some found
      rw [soft] at holds
      contradiction
    · exact ⟨first, by simpa using none⟩
  · rintro ⟨first, allSoft⟩
    exact .inr ⟨by simpa using allSoft, first⟩

theorem elect_concat {firm : Holder → Bool} (claims : List Holder) (later : Holder) :
    elect firm (claims ++ [later]) =
      match elect firm claims with
      | none => some later
      | some holder => some (if !firm holder && firm later then later else holder) := by
  cases found : claims.find? firm with
  | some holder =>
      have holds := List.find?_some found
      simp [elect, found, holds]
  | none =>
      cases claims with
      | nil => cases later_firm : firm later <;> simp [elect, later_firm]
      | cons first rest =>
          have firstSoft : firm first = false := by
            simpa using List.find?_eq_none.mp found first List.mem_cons_self
          have restSoft : rest.find? firm = none := by
            simpa [List.find?_cons, firstSoft] using found
          cases later_firm : firm later <;> simp [elect, firstSoft, restSoft, later_firm]

/-- The first of a sorted list for which a value is chosen. -/
theorem head?_filterMap_iff {Item : Type u} {Choice : Type v} {before : Item → Item → Prop}
    (asymmetric : ∀ first second, before first second → ¬ before second first)
    {items : List Item} (sorted : items.Pairwise before) {choose : Item → Option Choice}
    {chosen : Choice} :
    (items.filterMap choose).head? = some chosen ↔
      ∃ item ∈ items, choose item = some chosen ∧
        ∀ other ∈ items, (choose other).isSome → ¬ before other item := by
  induction items with
  | nil => simp
  | cons first rest inductionHypothesis =>
      obtain ⟨firstBefore, restSorted⟩ := List.pairwise_cons.mp sorted
      cases choice : choose first with
      | none =>
          rw [List.filterMap_cons_none choice, inductionHypothesis restSorted]
          simp [choice]
      | some firstChoice =>
          rw [List.filterMap_cons_some choice, List.head?_cons]
          constructor
          · intro isFirst
            refine ⟨first, List.mem_cons_self, choice.trans isFirst, ?_⟩
            intro other member _ isBefore
            rcases List.mem_cons.mp member with rfl | later
            · exact asymmetric _ _ isBefore isBefore
            · exact asymmetric _ _ isBefore (firstBefore other later)
          · rintro ⟨item, member, chose, none⟩
            rcases List.mem_cons.mp member with rfl | later
            · exact choice.symm.trans chose
            · exact absurd (firstBefore item later)
                (none first List.mem_cons_self (by simp [choice]))

variable [DecidableEq Slot]

/-- One claim. -/
def claim (firm : Holder → Bool) (held : Finmap fun _ : Slot => Holder) (entry : Slot × Holder) :
    Finmap fun _ : Slot => Holder :=
  match held.lookup entry.1 with
  | none => held.insert entry.1 entry.2
  | some holder => if !firm holder && firm entry.2 then held.insert entry.1 entry.2 else held

def claimAll (firm : Holder → Bool) (entries : List (Slot × Holder)) :
    Finmap fun _ : Slot => Holder :=
  entries.foldl (claim firm) ∅

/-- The claims on one slot, in their order. -/
def claimsOn (slot : Slot) (entries : List (Slot × Holder)) : List Holder :=
  entries.filterMap fun entry => if entry.1 = slot then some entry.2 else none

theorem mem_claimsOn {slot : Slot} {entries : List (Slot × Holder)} {holder : Holder} :
    holder ∈ claimsOn slot entries ↔ (slot, holder) ∈ entries := by
  simp only [claimsOn, List.mem_filterMap]
  constructor
  · rintro ⟨⟨other, held⟩, member, isSlot⟩
    obtain ⟨rfl, rfl⟩ : other = slot ∧ held = holder := by simpa using isSlot
    exact member
  · exact fun member => ⟨(slot, holder), member, by simp⟩

theorem lookup_claim (firm : Holder → Bool) (held : Finmap fun _ : Slot => Holder)
    (entry : Slot × Holder) (slot : Slot) :
    (claim firm held entry).lookup slot =
      if entry.1 = slot then
        match held.lookup slot with
        | none => some entry.2
        | some holder => some (if !firm holder && firm entry.2 then entry.2 else holder)
      else held.lookup slot := by
  by_cases same : entry.1 = slot
  · subst same
    rw [claim, if_pos rfl]
    cases isHeld : held.lookup entry.1 with
    | none => simp
    | some holder =>
        dsimp only
        split <;> simp [isHeld]
  · have other : slot ≠ entry.1 := fun equality => same equality.symm
    rw [claim, if_neg same]
    cases held.lookup entry.1 with
    | none => exact Finmap.lookup_insert_of_ne held other
    | some holder =>
        dsimp only
        split
        · exact Finmap.lookup_insert_of_ne held other
        · rfl

/-- After all claims every slot is held by the one that is elected for it. -/
theorem lookup_claimAll (firm : Holder → Bool) (entries : List (Slot × Holder)) (slot : Slot) :
    (claimAll firm entries).lookup slot = elect firm (claimsOn slot entries) := by
  induction entries using List.reverseRecOn with
  | nil => rfl
  | append_singleton entries entry inductionHypothesis =>
      rw [claimAll, List.foldl_append, List.foldl_cons, List.foldl_nil, lookup_claim]
      have before : (entries.foldl (claim firm) ∅).lookup slot =
          elect firm (claimsOn slot entries) := inductionHypothesis
      have onSlot : claimsOn slot (entries ++ [entry]) =
          claimsOn slot entries ++ claimsOn slot [entry] := List.filterMap_append
      rw [onSlot, before]
      by_cases same : entry.1 = slot
      · have last : claimsOn slot [entry] = [entry.2] := by simp [claimsOn, same]
        rw [if_pos same, last, elect_concat]
      · simp [claimsOn, same]

end Slots
