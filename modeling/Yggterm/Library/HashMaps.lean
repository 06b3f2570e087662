import Mathlib.Data.Finmap
import Mathlib.Data.Finset.Sort

/-!
# Hash maps as finite maps

A hash map is a `Finmap`; the order in which it yields its keys is a separate
value, so that a program which iterates can be quantified over every order.
-/

namespace HashMaps

universe u v w

variable {Key : Type u} {Value : Type v} {Result : Type w} [DecidableEq Key]

/-- One order in which hash tables over `Key` yield their keys. -/
structure IterationOrder (Key : Type u) where
  keys : Finset Key → List Key
  nodup : ∀ keySet, (keys keySet).Nodup
  mem_keys : ∀ {keySet key}, key ∈ keys keySet ↔ key ∈ keySet

/-- Tables that yield their keys in increasing order. -/
instance [LinearOrder Key] : Inhabited (IterationOrder Key) where
  default :=
    { keys := fun keySet => keySet.sort (· ≤ ·)
      nodup := fun keySet => keySet.sort_nodup (· ≤ ·)
      mem_keys := Finset.mem_sort (· ≤ ·) }

theorem lookup_erase_eq (map : Finmap fun _ : Key => Value) (key other : Key) :
    (map.erase other).lookup key = if key = other then none else map.lookup key := by
  split
  · next equality => rw [equality, Finmap.lookup_erase]
  · next different => rw [Finmap.lookup_erase_ne different]

theorem lookup_insert_eq (map : Finmap fun _ : Key => Value) (key other : Key) (value : Value) :
    (map.insert other value).lookup key = if key = other then some value else map.lookup key := by
  split
  · next equality => rw [equality, Finmap.lookup_insert]
  · next different => rw [Finmap.lookup_insert_of_ne map different]

/-- Erasing a list of keys one after another. -/
theorem lookup_foldl_erase (map : Finmap fun _ : Key => Value) (keys : List Key) (key : Key) :
    (keys.foldl (fun map other => map.erase other) map).lookup key =
      if key ∈ keys then none else map.lookup key := by
  induction keys generalizing map with
  | nil => simp
  | cons other rest inductionHypothesis =>
      rw [List.foldl_cons, inductionHypothesis, lookup_erase_eq]
      by_cases isOther : key = other <;> simp [isOther]

/-- Inserting one value under each of a list of keys. -/
theorem lookup_foldl_insert (map : Finmap fun _ : Key => Value) (keys : List Key)
    (value : Value) (key : Key) :
    (keys.foldl (fun map other => map.insert other value) map).lookup key =
      if key ∈ keys then some value else map.lookup key := by
  induction keys generalizing map with
  | nil => simp
  | cons other rest inductionHypothesis =>
      rw [List.foldl_cons, inductionHypothesis, lookup_insert_eq]
      by_cases isOther : key = other <;> simp [isOther]

/-- Inserting a list of items one after another leaves the last one of each key. -/
theorem lookup_foldl_insert_items {Item : Type*} (keyOf : Item → Key) (valueOf : Item → Value)
    (items : List Item) (map : Finmap fun _ : Key => Value) (key : Key) :
    (items.foldl (fun map item => map.insert (keyOf item) (valueOf item)) map).lookup key =
      ((items.filter fun item => keyOf item = key).getLast?.map valueOf).or (map.lookup key) := by
  induction items using List.reverseRecOn with
  | nil => rfl
  | append_singleton items item inductionHypothesis =>
      rw [List.foldl_append, List.foldl_cons, List.foldl_nil, lookup_insert_eq,
        inductionHypothesis, List.filter_append]
      by_cases isKey : keyOf item = key
      · simp [isKey]
      · simp [isKey, Ne.symm isKey]

/-- Removing a list of elements from a hash set one after another. -/
theorem mem_foldl_erase (table : Finset Key) (keys : List Key) (key : Key) :
    key ∈ keys.foldl (fun table other => table.erase other) table ↔
      key ∈ table ∧ key ∉ keys := by
  induction keys generalizing table with
  | nil => simp
  | cons other rest inductionHypothesis =>
      rw [List.foldl_cons, inductionHypothesis, Finset.mem_erase, List.mem_cons]
      tauto

/-- Replace every value, as a loop over `values_mut` does. -/
def mapValues (update : Value → Result) (map : Finmap fun _ : Key => Value) :
    Finmap fun _ : Key => Result where
  entries := map.entries.map fun entry => ⟨entry.1, update entry.2⟩
  nodupKeys := by
    rw [← Multiset.nodup_keys, Multiset.keys, Multiset.map_map]
    exact Multiset.nodup_keys.mpr map.nodupKeys

@[simp]
theorem lookup_mapValues (update : Value → Result) (map : Finmap fun _ : Key => Value)
    (key : Key) : (mapValues update map).lookup key = (map.lookup key).map update := by
  refine Option.ext fun value => ?_
  rw [Option.map_eq_some_iff, ← Option.mem_def, Finmap.mem_lookup_iff, mapValues,
    Multiset.mem_map]
  constructor
  · rintro ⟨⟨otherKey, other⟩, member, equality⟩
    obtain ⟨rfl, rfl⟩ : otherKey = key ∧ update other = value := by simpa using equality
    exact ⟨other, Finmap.mem_lookup_iff.mpr member, rfl⟩
  · rintro ⟨other, found, rfl⟩
    exact ⟨⟨key, other⟩, Finmap.mem_lookup_iff.mp found, rfl⟩

end HashMaps
