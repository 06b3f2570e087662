import Mathlib.Data.List.Lex
import Mathlib.Data.List.Nodup
import Mathlib.Order.Lattice

/-!
# Maps that keep their keys in order

The entries stand in the order of their keys, each key once, so that a search through the
entries answers the least key it accepts.
-/

universe u v

structure OrderedMap (Key : Type u) (Value : Type v) [LinearOrder Key] where
  entries : List (Key × Value)
  rising : entries.Pairwise fun first second => first.1 < second.1

namespace OrderedMap

variable {Key : Type u} {Value : Type v} [LinearOrder Key]

instance [DecidableEq Value] : DecidableEq (OrderedMap Key Value) := fun first second =>
  decidable_of_iff (first.entries = second.entries) (by
    cases first
    cases second
    simp)

def empty : OrderedMap Key Value := ⟨[], .nil⟩

instance : Inhabited (OrderedMap Key Value) := ⟨empty⟩

def keys (map : OrderedMap Key Value) : List Key := map.entries.map Prod.fst

def get? (map : OrderedMap Key Value) (key : Key) : Option Value :=
  (map.entries.find? fun entry => entry.1 = key).map Prod.snd

def insertEntry (key : Key) (value : Value) : List (Key × Value) → List (Key × Value)
  | [] => [(key, value)]
  | entry :: rest =>
      if key < entry.1 then (key, value) :: entry :: rest
      else if key = entry.1 then (key, value) :: rest
      else entry :: insertEntry key value rest

theorem mem_insertEntry {key : Key} {value : Value} {entries : List (Key × Value)}
    {entry : Key × Value} (member : entry ∈ insertEntry key value entries) :
    entry = (key, value) ∨ entry ∈ entries := by
  induction entries with
  | nil => exact .inl (List.mem_singleton.mp member)
  | cons first rest inductionHypothesis =>
      rw [insertEntry] at member
      split at member
      · exact List.mem_cons.mp member
      · split at member
        · rcases List.mem_cons.mp member with here | later
          · exact .inl here
          · exact .inr (List.mem_cons_of_mem first later)
        · rcases List.mem_cons.mp member with rfl | later
          · exact .inr List.mem_cons_self
          · rcases inductionHypothesis later with here | elsewhere
            · exact .inl here
            · exact .inr (List.mem_cons_of_mem first elsewhere)

theorem pairwise_insertEntry {entries : List (Key × Value)}
    (rising : entries.Pairwise fun first second => first.1 < second.1) (key : Key)
    (value : Value) :
    (insertEntry key value entries).Pairwise fun first second => first.1 < second.1 := by
  induction entries with
  | nil => exact List.pairwise_singleton _ _
  | cons first rest inductionHypothesis =>
      obtain ⟨below, restRising⟩ := List.pairwise_cons.mp rising
      rw [insertEntry]
      split
      · next before =>
          refine List.pairwise_cons.mpr ⟨?_, rising⟩
          intro other member
          rcases List.mem_cons.mp member with rfl | later
          · exact before
          · exact before.trans (below other later)
      · next notBefore =>
          split
          · next same =>
              refine List.pairwise_cons.mpr ⟨?_, restRising⟩
              intro other later
              exact same ▸ below other later
          · next different =>
              refine List.pairwise_cons.mpr ⟨?_, inductionHypothesis restRising⟩
              intro other member
              rcases mem_insertEntry member with rfl | later
              · exact lt_of_le_of_ne (le_of_not_gt notBefore) (Ne.symm different)
              · exact below other later

/-- `BTreeMap::insert`. -/
def insert (map : OrderedMap Key Value) (key : Key) (value : Value) : OrderedMap Key Value where
  entries := insertEntry key value map.entries
  rising := pairwise_insertEntry map.rising key value

/-- The entries that are kept. -/
def filter (keeps : Key → Value → Bool) (map : OrderedMap Key Value) : OrderedMap Key Value where
  entries := map.entries.filter fun entry => keeps entry.1 entry.2
  rising := map.rising.sublist List.filter_sublist

/-- `BTreeMap::remove`. -/
def erase (map : OrderedMap Key Value) (key : Key) : OrderedMap Key Value :=
  map.filter fun other _ => other != key

theorem eq_of_mem_of_fst_eq {map : OrderedMap Key Value} {first second : Key × Value}
    (isFirst : first ∈ map.entries) (isSecond : second ∈ map.entries)
    (same : first.1 = second.1) : first = second := by
  have distinct : (map.entries.map Prod.fst).Nodup :=
    List.pairwise_map.mpr (map.rising.imp fun below => ne_of_lt below)
  exact List.inj_on_of_nodup_map distinct isFirst isSecond same

theorem get?_eq_some_iff {map : OrderedMap Key Value} {key : Key} {value : Value} :
    map.get? key = some value ↔ (key, value) ∈ map.entries := by
  rw [get?, Option.map_eq_some_iff]
  constructor
  · rintro ⟨entry, found, rfl⟩
    have isKey : entry.1 = key := by simpa using List.find?_some found
    rw [← isKey]
    exact List.mem_of_find?_eq_some found
  · intro member
    cases found : map.entries.find? (fun entry => entry.1 = key) with
    | none => simpa using List.find?_eq_none.mp found (key, value) member
    | some entry =>
        have isKey : entry.1 = key := by simpa using List.find?_some found
        have same := eq_of_mem_of_fst_eq (List.mem_of_find?_eq_some found) member isKey
        exact ⟨entry, rfl, by rw [same]⟩

@[simp]
theorem get?_empty (key : Key) : (empty : OrderedMap Key Value).get? key = none := rfl

theorem mem_keys_iff {map : OrderedMap Key Value} {key : Key} :
    key ∈ map.keys ↔ ∃ value, map.get? key = some value := by
  simp [keys, get?_eq_some_iff]

theorem find?_insertEntry {key other : Key} {value : Value} {entries : List (Key × Value)}
    (rising : entries.Pairwise fun first second => first.1 < second.1) :
    (insertEntry key value entries).find? (fun entry => entry.1 = other) =
      if other = key then some (key, value) else entries.find? fun entry => entry.1 = other := by
  induction entries with
  | nil => by_cases same : other = key <;> simp [insertEntry, same, eq_comm]
  | cons first rest inductionHypothesis =>
      obtain ⟨below, restRising⟩ := List.pairwise_cons.mp rising
      rw [insertEntry]
      split
      · by_cases same : other = key
        · simp [same]
        · simp [same, Ne.symm same]
      · split
        · next isFirst =>
            subst isFirst
            by_cases same : other = first.1
            · simp [same]
            · simp [same, Ne.symm same]
        · next different =>
            rw [List.find?_cons, List.find?_cons, inductionHypothesis restRising]
            by_cases same : other = key
            · subst same
              simp [Ne.symm different]
            · simp [same]

theorem get?_insert (map : OrderedMap Key Value) (key other : Key) (value : Value) :
    (map.insert key value).get? other = if other = key then some value else map.get? other := by
  rw [get?, insert, find?_insertEntry map.rising]
  split
  · rfl
  · rfl

@[simp]
theorem get?_insert_self (map : OrderedMap Key Value) (key : Key) (value : Value) :
    (map.insert key value).get? key = some value := by
  rw [get?_insert, if_pos rfl]

theorem get?_insert_of_ne {key other : Key} (different : other ≠ key)
    (map : OrderedMap Key Value) (value : Value) :
    (map.insert key value).get? other = map.get? other := by
  rw [get?_insert, if_neg different]

theorem get?_filter (keeps : Key → Value → Bool) (map : OrderedMap Key Value) (key : Key) :
    (map.filter keeps).get? key = (map.get? key).filter (keeps key) := by
  ext value
  rw [get?_eq_some_iff, filter, List.mem_filter, Option.filter_eq_some_iff, get?_eq_some_iff]

theorem get?_erase (map : OrderedMap Key Value) (key other : Key) :
    (map.erase key).get? other = if other = key then none else map.get? other := by
  ext value
  rw [erase, get?_filter, Option.filter_eq_some_iff, bne_iff_ne]
  split
  · next same => simp [same]
  · next different => exact and_iff_left different

theorem insertEntry_perm {key : Key} {value : Value} {entries : List (Key × Value)}
    (rising : entries.Pairwise fun first second => first.1 < second.1) :
    (insertEntry key value entries).Perm
      ((key, value) :: entries.filter fun entry => entry.1 != key) := by
  induction entries with
  | nil => exact .refl _
  | cons first rest inductionHypothesis =>
      obtain ⟨below, restRising⟩ := List.pairwise_cons.mp rising
      have later : ∀ {other : Key}, other ≤ first.1 →
          rest.filter (fun entry => entry.1 != other) = rest := by
        intro other bounded
        apply List.filter_eq_self.mpr
        intro entry member
        exact bne_iff_ne.mpr (ne_of_gt (lt_of_le_of_lt bounded (below entry member)))
      rw [insertEntry]
      split
      · next before =>
          have other : (first.1 != key) = true := bne_iff_ne.mpr (ne_of_gt before)
          rw [List.filter_cons, if_pos other, later before.le]
      · split
        · next same =>
            rw [List.filter_cons_of_neg (by simp [same]), later same.le]
        · next different =>
            have other : (first.1 != key) = true := bne_iff_ne.mpr (Ne.symm different)
            rw [List.filter_cons, if_pos other]
            exact ((inductionHypothesis restRising).cons first).trans (List.Perm.swap _ _ _)

/-- What is inserted stands beside what was not under its key. -/
theorem entries_insert_perm (map : OrderedMap Key Value) (key : Key) (value : Value) :
    (map.insert key value).entries.Perm ((key, value) :: (map.erase key).entries) :=
  insertEntry_perm map.rising

theorem insertEntry_of_mem {key : Key} {value : Value} {entries : List (Key × Value)}
    (rising : entries.Pairwise fun first second => first.1 < second.1)
    (member : (key, value) ∈ entries) : insertEntry key value entries = entries := by
  induction entries with
  | nil => cases member
  | cons first rest inductionHypothesis =>
      obtain ⟨below, restRising⟩ := List.pairwise_cons.mp rising
      rw [insertEntry]
      rcases List.mem_cons.mp member with rfl | later
      · rw [if_neg (lt_irrefl _), if_pos rfl]
      · have above := below _ later
        rw [if_neg (lt_asymm above), if_neg (ne_of_gt above), inductionHypothesis restRising later]

theorem entries_perm_of_get? {map : OrderedMap Key Value} {key : Key} {value : Value}
    (stored : map.get? key = some value) :
    map.entries.Perm ((key, value) :: (map.erase key).entries) := by
  have same : (map.insert key value).entries = map.entries :=
    insertEntry_of_mem map.rising (get?_eq_some_iff.mp stored)
  exact same ▸ entries_insert_perm map key value

theorem entries_erase_of_get?_eq_none {map : OrderedMap Key Value} {key : Key}
    (absent : map.get? key = none) : (map.erase key).entries = map.entries := by
  apply List.filter_eq_self.mpr
  rintro ⟨other, value⟩ member
  apply bne_iff_ne.mpr
  rintro rfl
  rw [get?_eq_some_iff.mpr member] at absent
  cases absent

/-- The first entry that is accepted is the one with the least key. -/
theorem find?_eq_some_iff_least {map : OrderedMap Key Value} {accepts : Key × Value → Bool}
    {entry : Key × Value} :
    map.entries.find? accepts = some entry ↔
      entry ∈ map.entries ∧ accepts entry = true ∧
        ∀ other ∈ map.entries, accepts other = true → entry.1 ≤ other.1 := by
  constructor
  · intro found
    refine ⟨List.mem_of_find?_eq_some found, List.find?_some found, ?_⟩
    obtain ⟨_, before, after, isEntries, rejected⟩ := List.find?_eq_some_iff_append.mp found
    intro other member accepted
    have rising := map.rising
    rw [isEntries] at member rising
    rcases List.mem_append.mp member with earlier | later
    · exact absurd accepted (by simpa using rejected other earlier)
    · rcases List.mem_cons.mp later with rfl | behind
      · exact le_rfl
      · have above := (List.pairwise_cons.mp (List.pairwise_append.mp rising).2.1).1
        exact (above other behind).le
  · rintro ⟨member, accepted, least⟩
    cases found : map.entries.find? accepts with
    | none => exact absurd accepted (List.find?_eq_none.mp found entry member)
    | some other =>
        have isOther := List.mem_of_find?_eq_some found
        obtain ⟨_, before, after, isEntries, rejected⟩ := List.find?_eq_some_iff_append.mp found
        have rising := map.rising
        rw [isEntries] at member rising
        rcases List.mem_append.mp member with earlier | later
        · exact absurd accepted (by simpa using rejected entry earlier)
        · rcases List.mem_cons.mp later with rfl | behind
          · rfl
          · have above := (List.pairwise_cons.mp (List.pairwise_append.mp rising).2.1).1
            have notLess := least other isOther (List.find?_some found)
            exact absurd (above entry behind) (not_lt_of_ge notLess)

end OrderedMap
