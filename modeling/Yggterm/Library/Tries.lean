import Mathlib.Data.List.Induction
import Mathlib.Data.List.Nodup
import Mathlib.Order.Lattice

/-!
# Tries

A trie holds data at paths of keys: every node has its data and its children, in the
increasing order of their keys.  Writing at a path makes the nodes that are missing on the
way.  A trie is read by path, and listed in the order of a depth-first walk that may turn
back at some nodes.
-/

namespace Tries

universe u v w

/-- The children of a node, and those of their children. -/
inductive Forest (Key : Type u) (Data : Type v) where
  | nil
  | cons (key : Key) (data : Data) (children rest : Forest Key Data)

structure Trie (Key : Type u) (Data : Type v) where
  data : Data
  children : Forest Key Data

variable {Key : Type u} {Data : Type v} {Value : Type w} [LinearOrder Key]

namespace Forest

def keys : Forest Key Data → List Key
  | nil => []
  | cons key _ _ rest => key :: keys rest

def child? : Forest Key Data → Key → Option (Trie Key Data)
  | nil, _ => none
  | cons key data children rest, wanted =>
      if key = wanted then some ⟨data, children⟩ else child? rest wanted

/-- Change the child of a key, which is made when it is missing. -/
def modifyChild (wanted : Key) (fresh : Trie Key Data) (change : Trie Key Data → Trie Key Data) :
    Forest Key Data → Forest Key Data
  | nil => cons wanted (change fresh).data (change fresh).children nil
  | cons key data children rest =>
      if wanted < key then
        cons wanted (change fresh).data (change fresh).children (cons key data children rest)
      else if key = wanted then
        cons key (change ⟨data, children⟩).data (change ⟨data, children⟩).children rest
      else cons key data children (modifyChild wanted fresh change rest)

/-- The keys of every node's children increase. -/
def Sorted : Forest Key Data → Prop
  | nil => True
  | cons key _ children rest => (∀ other ∈ rest.keys, key < other) ∧ Sorted children ∧ Sorted rest

/-- The depth-first walk with each node's path, which does not go below a node that stops
it. -/
def walk (stops : Data → Bool) : Forest Key Data → List (List Key × Data)
  | nil => []
  | cons key data children rest =>
      ([key], data) :: ((if stops data then [] else walk stops children).map
        fun entry => (key :: entry.1, entry.2)) ++ walk stops rest

theorem mem_keys_modifyChild {wanted key : Key} {fresh : Trie Key Data}
    {change : Trie Key Data → Trie Key Data} {forest : Forest Key Data} :
    key ∈ (forest.modifyChild wanted fresh change).keys ↔ key = wanted ∨ key ∈ forest.keys := by
  induction forest with
  | nil => simp [modifyChild, keys]
  | cons first data children rest _ inductionHypothesis =>
      rw [modifyChild]
      split
      · simp [keys]
      · split
        · next same =>
            simp [keys, same]
        · simp [keys, inductionHypothesis, or_left_comm]

theorem child?_eq_none {forest : Forest Key Data} {wanted : Key} (missing : wanted ∉ forest.keys) :
    forest.child? wanted = none := by
  induction forest with
  | nil => rfl
  | cons first data children rest _ inductionHypothesis =>
      rw [keys, List.mem_cons, not_or] at missing
      rw [child?, if_neg (Ne.symm missing.1), inductionHypothesis missing.2]

theorem Sorted.child? {forest : Forest Key Data} (sorted : forest.Sorted) {key : Key}
    {trie : Trie Key Data} (isChild : forest.child? key = some trie) : trie.children.Sorted := by
  induction forest with
  | nil => cases isChild
  | cons first data children rest _ inductionHypothesis =>
      rw [Forest.child?] at isChild
      split at isChild
      · cases isChild
        exact sorted.2.1
      · exact inductionHypothesis sorted.2.2 isChild

theorem Sorted.modifyChild {forest : Forest Key Data} (sorted : forest.Sorted) (wanted : Key)
    {fresh : Trie Key Data} {change : Trie Key Data → Trie Key Data}
    (freshSorted : fresh.children.Sorted)
    (kept : ∀ trie : Trie Key Data, trie.children.Sorted → (change trie).children.Sorted) :
    (forest.modifyChild wanted fresh change).Sorted := by
  induction forest with
  | nil => exact ⟨nofun, kept fresh freshSorted, trivial⟩
  | cons first data children rest _ inductionHypothesis =>
      obtain ⟨above, childrenSorted, restSorted⟩ := sorted
      rw [Forest.modifyChild]
      split
      · next before =>
          refine ⟨?_, kept fresh freshSorted, above, childrenSorted, restSorted⟩
          intro other member
          rcases List.mem_cons.mp member with rfl | later
          · exact before
          · exact before.trans (above other later)
      · next notBefore =>
          split
          · exact ⟨above, kept ⟨data, children⟩ childrenSorted, restSorted⟩
          · next different =>
              refine ⟨?_, childrenSorted, inductionHypothesis restSorted⟩
              intro other member
              rcases mem_keys_modifyChild.mp member with rfl | later
              · exact lt_of_le_of_ne (not_lt.mp notBefore) different
              · exact above other later

theorem child?_modifyChild {forest : Forest Key Data} (sorted : forest.Sorted) (wanted key : Key)
    (fresh : Trie Key Data) (change : Trie Key Data → Trie Key Data) :
    (forest.modifyChild wanted fresh change).child? key =
      if key = wanted then some (change ((forest.child? wanted).getD fresh))
      else forest.child? key := by
  induction forest with
  | nil =>
      by_cases same : key = wanted
      · simp [modifyChild, child?, same]
      · simp [modifyChild, child?, same, Ne.symm same]
  | cons first data children rest _ inductionHypothesis =>
      obtain ⟨above, childrenSorted, restSorted⟩ := sorted
      rw [modifyChild]
      split
      · next before =>
          have missing : wanted ∉ (cons first data children rest).keys := by
            intro member
            rcases List.mem_cons.mp member with rfl | later
            · exact lt_irrefl _ before
            · exact lt_asymm before (above _ later)
          rw [child?_eq_none missing, child?]
          by_cases same : key = wanted
          · rw [if_pos same.symm, if_pos same]
            rfl
          · rw [if_neg (Ne.symm same), if_neg same]
      · split
        · next same =>
            subst same
            by_cases isFirst : key = first
            · simp [child?, isFirst]
            · simp [child?, isFirst, Ne.symm isFirst]
        · next different =>
            rw [child?, inductionHypothesis restSorted]
            by_cases isFirst : first = key
            · have notWanted : key ≠ wanted := isFirst ▸ different
              simp [child?, isFirst, notWanted]
            · simp [child?, isFirst, different]

end Forest

namespace Trie

/-- The data at a path. -/
def at? : Trie Key Data → List Key → Option Data
  | trie, [] => some trie.data
  | trie, key :: path => (trie.children.child? key).bind fun child => child.at? path

def fieldAt (field : Data → Option Value) (trie : Trie Key Data) (path : List Key) :
    Option Value :=
  (trie.at? path).bind field

/-- Change the data at a path.  A node that is missing on the way is made from the data of
its parent and its key. -/
def write (fresh : Data → Key → Data) (change : Data → Data) :
    List Key → Trie Key Data → Trie Key Data
  | [], trie => ⟨change trie.data, trie.children⟩
  | key :: path, trie =>
      ⟨trie.data, trie.children.modifyChild key ⟨fresh trie.data key, .nil⟩
        (write fresh change path)⟩

variable {fresh : Data → Key → Data} {change : Data → Data}

theorem sorted_write {trie : Trie Key Data} (sorted : trie.children.Sorted) (path : List Key) :
    (trie.write fresh change path).children.Sorted := by
  induction path generalizing trie with
  | nil => exact sorted
  | cons key path inductionHypothesis =>
      exact sorted.modifyChild key trivial fun child childSorted => inductionHypothesis childSorted

/-- A field that new nodes lack changes at the path written, and nowhere else. -/
theorem fieldAt_write {field : Data → Option Value} (rule : Option Value → Option Value)
    (blank : ∀ data key, field (fresh data key) = none)
    (changed : ∀ data, field (change data) = rule (field data)) {trie : Trie Key Data}
    (sorted : trie.children.Sorted) (path other : List Key) :
    (trie.write fresh change path).fieldAt field other =
      if other = path then rule (trie.fieldAt field other) else trie.fieldAt field other := by
  have missing : ∀ (data : Data) (key : Key) (other : List Key),
      fieldAt field ⟨fresh data key, .nil⟩ other = none := by
    intro data key other
    cases other with
    | nil => exact blank data key
    | cons first rest => rfl
  induction path generalizing trie other with
  | nil =>
      cases other with
      | nil => exact changed trie.data
      | cons first rest => rfl
  | cons key path inductionHypothesis =>
      cases other with
      | nil => rfl
      | cons first rest =>
          rw [fieldAt, write, at?, Forest.child?_modifyChild sorted]
          by_cases same : first = key
          · subst same
            rw [if_pos rfl, Option.bind_some]
            cases isChild : trie.children.child? first with
            | none =>
                have freshSorted :
                    (⟨fresh trie.data first, .nil⟩ : Trie Key Data).children.Sorted :=
                  trivial
                have written := inductionHypothesis freshSorted rest
                rw [missing] at written
                simpa [fieldAt, at?, isChild] using written
            | some child =>
                have written := inductionHypothesis (sorted.child? isChild) rest
                simpa [fieldAt, at?, isChild] using written
          · rw [if_neg same, if_neg (by simp [same])]
            rfl

/-- The data of every node has the place that its path gives it. -/
def Placed {Place : Type w} (place : Data → Place) (extend : Place → Key → Place)
    (trie : Trie Key Data) : Prop :=
  ∀ path data, trie.at? path = some data → place data = path.foldl extend (place trie.data)

theorem Placed.child {Place : Type w} {place : Data → Place} {extend : Place → Key → Place}
    {trie child : Trie Key Data} (placed : trie.Placed place extend) {key : Key}
    (isChild : trie.children.child? key = some child) :
    place child.data = extend (place trie.data) key ∧ child.Placed place extend := by
  have below : ∀ path data, child.at? path = some data →
      place data = path.foldl extend (extend (place trie.data) key) := by
    intro path data isData
    apply placed (key :: path)
    rw [at?, isChild]
    exact isData
  have isPlace : place child.data = extend (place trie.data) key := below [] child.data rfl
  refine ⟨isPlace, ?_⟩
  rw [← isPlace] at below
  exact below

theorem Placed.write {Place : Type w} {place : Data → Place} {extend : Place → Key → Place}
    (extended : ∀ data key, place (fresh data key) = extend (place data) key)
    (stays : ∀ data, place (change data) = place data) {trie : Trie Key Data}
    (sorted : trie.children.Sorted) (placed : trie.Placed place extend) (path : List Key) :
    (trie.write fresh change path).Placed place extend := by
  have atRoot : ∀ (path : List Key) (trie : Trie Key Data),
      place (trie.write fresh change path).data = place trie.data := by
    intro path trie
    cases path with
    | nil => exact stays trie.data
    | cons key path => rfl
  induction path generalizing trie with
  | nil =>
      intro other data isData
      cases other with
      | nil =>
          cases isData
          rfl
      | cons first rest =>
          rw [atRoot]
          exact placed (first :: rest) data isData
  | cons key path inductionHypothesis =>
      intro other data isData
      cases other with
      | nil =>
          cases isData
          rfl
      | cons first rest =>
          rw [Trie.write, at?, Forest.child?_modifyChild sorted] at isData
          by_cases same : first = key
          · subst same
            rw [if_pos rfl, Option.bind_some] at isData
            cases isChild : trie.children.child? first with
            | none =>
                rw [isChild, Option.getD_none] at isData
                have alone :
                    (⟨fresh trie.data first, .nil⟩ : Trie Key Data).Placed place extend := by
                  intro other data isData
                  cases other with
                  | nil =>
                      cases isData
                      rfl
                  | cons first rest => cases isData
                have freshSorted :
                    (⟨fresh trie.data first, .nil⟩ : Trie Key Data).children.Sorted :=
                  trivial
                rw [inductionHypothesis freshSorted alone rest data isData, atRoot, extended]
                rfl
            | some child =>
                rw [isChild, Option.getD_some] at isData
                obtain ⟨isPlace, childPlaced⟩ := placed.child isChild
                rw [inductionHypothesis (sorted.child? isChild) childPlaced rest data isData,
                  atRoot, isPlace]
                rfl
          · rw [if_neg same] at isData
            exact placed (first :: rest) data isData

/-! ### Writing one item after another -/

section Items

variable {Item : Type w}

/-- The last item that is written at a path. -/
def lastAt (target : Item → List Key) (items : List Item) (path : List Key) : Option Item :=
  (items.filter fun item => target item = path).getLast?

theorem lastAt_eq_none_iff {target : Item → List Key} {items : List Item} {path : List Key} :
    lastAt target items path = none ↔ ∀ item ∈ items, target item ≠ path := by
  simp [lastAt]

theorem mem_of_lastAt {target : Item → List Key} {items : List Item} {path : List Key}
    {item : Item} (isLast : lastAt target items path = some item) :
    item ∈ items ∧ target item = path := by
  have member := List.mem_of_getLast? isLast
  simpa using List.mem_filter.mp member

theorem lastAt_concat (target : Item → List Key) (items : List Item) (item : Item)
    (path : List Key) :
    lastAt target (items ++ [item]) path =
      if target item = path then some item else lastAt target items path := by
  rw [lastAt, List.filter_append]
  split
  · next same => simp [same]
  · next different => simp [lastAt, different]

def writeAll (fresh : Data → Key → Data) (change : Item → Data → Data)
    (target : Item → List Key) (items : List Item) (trie : Trie Key Data) : Trie Key Data :=
  items.foldl (fun trie item => trie.write fresh (change item) (target item)) trie

variable {changeItem : Item → Data → Data} {target : Item → List Key}

theorem writeAll_concat (items : List Item) (item : Item) (trie : Trie Key Data) :
    writeAll fresh changeItem target (items ++ [item]) trie =
      (writeAll fresh changeItem target items trie).write fresh (changeItem item)
        (target item) := by
  rw [writeAll, List.foldl_append]
  rfl

theorem sorted_writeAll {trie : Trie Key Data} (sorted : trie.children.Sorted)
    (items : List Item) : (writeAll fresh changeItem target items trie).children.Sorted := by
  induction items using List.reverseRec with
  | nil => exact sorted
  | append_singleton items item inductionHypothesis =>
      rw [writeAll_concat]
      exact sorted_write inductionHypothesis (target item)

theorem data_writeAll {trie : Trie Key Data} {items : List Item}
    (below : ∀ item ∈ items, target item ≠ []) :
    (writeAll fresh changeItem target items trie).data = trie.data := by
  induction items using List.reverseRec with
  | nil => rfl
  | append_singleton items item inductionHypothesis =>
      obtain ⟨earlier, last⟩ := List.forall_mem_append.mp below
      obtain ⟨key, path, isPath⟩ := List.exists_cons_of_ne_nil (last item List.mem_cons_self)
      rw [writeAll_concat, isPath]
      exact inductionHypothesis earlier

/-- A field that every item sets is what the last item at the path set. -/
theorem fieldAt_writeAll {field : Data → Option Value} {written : Item → Option Value}
    (blank : ∀ data key, field (fresh data key) = none)
    (sets : ∀ item data, field (changeItem item data) = written item) {trie : Trie Key Data}
    (sorted : trie.children.Sorted) (items : List Item) (path : List Key) :
    (writeAll fresh changeItem target items trie).fieldAt field path =
      match lastAt target items path with
      | some item => written item
      | none => trie.fieldAt field path := by
  induction items using List.reverseRec with
  | nil => rfl
  | append_singleton items item inductionHypothesis =>
      have itemsSorted : (writeAll fresh changeItem target items trie).children.Sorted :=
        sorted_writeAll sorted items
      have set := fieldAt_write (fun _ => written item) blank (sets item) itemsSorted
        (target item) path
      rw [writeAll_concat, set, lastAt_concat]
      by_cases same : target item = path
      · simp [same]
      · rw [if_neg (Ne.symm same), if_neg same]
        exact inductionHypothesis

/-- A field that no item touches stays as it was. -/
theorem fieldAt_writeAll_of_untouched {field : Data → Option Value}
    (blank : ∀ data key, field (fresh data key) = none)
    (keeps : ∀ item data, field (changeItem item data) = field data) {trie : Trie Key Data}
    (sorted : trie.children.Sorted) (items : List Item) (path : List Key) :
    (writeAll fresh changeItem target items trie).fieldAt field path = trie.fieldAt field path := by
  induction items using List.reverseRec with
  | nil => rfl
  | append_singleton items item inductionHypothesis =>
      have itemsSorted : (writeAll fresh changeItem target items trie).children.Sorted :=
        sorted_writeAll sorted items
      have kept := fieldAt_write id blank (keeps item) itemsSorted (target item) path
      rw [writeAll_concat, kept, id, ite_self, inductionHypothesis]

theorem Placed.writeAll {Place : Type w} {place : Data → Place} {extend : Place → Key → Place}
    (extended : ∀ data key, place (fresh data key) = extend (place data) key)
    (stays : ∀ item data, place (changeItem item data) = place data) {trie : Trie Key Data}
    (sorted : trie.children.Sorted) (placed : trie.Placed place extend) (items : List Item) :
    (writeAll fresh changeItem target items trie).Placed place extend := by
  induction items using List.reverseRec with
  | nil => exact placed
  | append_singleton items item inductionHypothesis =>
      rw [writeAll_concat]
      exact inductionHypothesis.write extended (stays item) (sorted_writeAll sorted items)
        (target item)

end Items

end Trie

namespace Forest

def at? (forest : Forest Key Data) : List Key → Option Data
  | [] => none
  | key :: path => (forest.child? key).bind fun child => child.at? path

theorem at?_eq (trie : Trie Key Data) {path : List Key} (nonempty : path ≠ []) :
    trie.children.at? path = trie.at? path := by
  cases path with
  | nil => exact absurd rfl nonempty
  | cons key path => rfl

theorem mem_keys_of_at? {forest : Forest Key Data} {key : Key} {path : List Key} {data : Data}
    (isData : forest.at? (key :: path) = some data) : key ∈ forest.keys := by
  by_contra missing
  rw [at?, child?_eq_none missing] at isData
  cases isData

@[simp]
theorem at?_nil (forest : Forest Key Data) : forest.at? [] = none := rfl

theorem at?_cons_self (key : Key) (data : Data) (children rest : Forest Key Data)
    (path : List Key) :
    (cons key data children rest).at? (key :: path) =
    (⟨data, children⟩ : Trie Key Data).at? path := by
  rw [at?, child?, if_pos rfl, Option.bind_some]

theorem at?_cons_of_ne {key first : Key} (different : first ≠ key) (data : Data)
    (children rest : Forest Key Data) (path : List Key) :
    (cons key data children rest).at? (first :: path) = rest.at? (first :: path) := by
  rw [at?, child?, if_neg (Ne.symm different), at?]

/-- No node above the path stops the walk. -/
def Reached (stops : Data → Bool) (forest : Forest Key Data) (path : List Key) : Prop :=
  ∀ upper, upper <+: path → upper ≠ path → ∀ data, forest.at? upper = some data →
    stops data = false

variable {stops : Data → Bool}

theorem reached_singleton (forest : Forest Key Data) (key : Key) :
    forest.Reached stops [key] := by
  intro upper above different data isData
  cases upper with
  | nil => cases isData
  | cons first upper =>
      obtain ⟨rfl, isNil⟩ := List.cons_prefix_cons.mp above
      exact absurd (by rw [List.prefix_nil.mp isNil]) different

theorem reached_cons_self {key : Key} {data : Data} {children rest : Forest Key Data}
    {path : List Key} (nonempty : path ≠ []) :
    (cons key data children rest).Reached stops (key :: path) ↔
      stops data = false ∧ children.Reached stops path := by
  constructor
  · intro reached
    refine ⟨?_, ?_⟩
    · apply reached [key] (by simp) (by simpa using nonempty.symm)
      rw [at?_cons_self]
      rfl
    · intro upper above different other isOther
      have upperNonempty : upper ≠ [] := by
        rintro rfl
        cases isOther
      apply reached (key :: upper) (by simpa using above) (by simpa using different)
      rw [at?_cons_self, ← at?_eq ⟨data, children⟩ upperNonempty]
      exact isOther
  · rintro ⟨goesOn, reached⟩ upper above different other isOther
    cases upper with
    | nil => cases isOther
    | cons first upper =>
        obtain ⟨rfl, below⟩ := List.cons_prefix_cons.mp above
        rw [at?_cons_self] at isOther
        rcases eq_or_ne upper [] with rfl | upperNonempty
        · cases isOther
          exact goesOn
        · rw [← at?_eq ⟨data, children⟩ upperNonempty] at isOther
          exact reached upper below (fun same => different (same ▸ rfl)) other isOther

theorem reached_cons_of_ne {key first : Key} {data : Data} {children rest : Forest Key Data}
    (different : first ≠ key) {path : List Key} :
    (cons key data children rest).Reached stops (first :: path) ↔
      rest.Reached stops (first :: path) := by
  have same : ∀ upper, upper <+: first :: path →
      (cons key data children rest).at? upper = rest.at? upper := by
    intro upper above
    cases upper with
    | nil => rfl
    | cons head upper =>
        obtain ⟨rfl, _⟩ := List.cons_prefix_cons.mp above
        exact at?_cons_of_ne different data children rest upper
  constructor
  · intro reached upper above other data isData
    exact reached upper above other data ((same upper above).trans isData)
  · intro reached upper above other data isData
    exact reached upper above other data ((same upper above).symm.trans isData)

/-- The walk lists what lies at the paths it reaches. -/
theorem mem_walk {forest : Forest Key Data} (sorted : forest.Sorted) {path : List Key}
    {data : Data} :
    (path, data) ∈ forest.walk stops ↔ forest.at? path = some data ∧ forest.Reached stops path := by
  induction forest generalizing path with
  | nil => cases path <;> simp [walk, at?, child?]
  | cons key own children rest childrenHypothesis restHypothesis =>
      obtain ⟨above, childrenSorted, restSorted⟩ := sorted
      cases path with
      | nil =>
          have notLater : ([], data) ∉ rest.walk stops := fun member => by
            simpa using ((restHypothesis restSorted).mp member).1
          simp [walk, notLater]
      | cons first path =>
          by_cases same : first = key
          · subst same
            have notLater : (first :: path, data) ∉ rest.walk stops := by
              intro member
              have isData := ((restHypothesis restSorted).mp member).1
              exact lt_irrefl _ (above first (mem_keys_of_at? isData))
            rcases eq_or_ne path [] with rfl | nonempty
            · have notBelow : ([], data) ∉ children.walk stops := fun member => by
                simpa using ((childrenHypothesis childrenSorted).mp member).1
              rw [at?_cons_self, and_iff_left (reached_singleton _ first)]
              cases goesOn :
                stops own <;> simp [walk, notLater, goesOn, notBelow, Trie.at?, eq_comm]
            · rw [at?_cons_self, reached_cons_self nonempty, ← at?_eq ⟨own, children⟩ nonempty,
                and_left_comm, ← childrenHypothesis childrenSorted]
              cases goesOn : stops own <;> simp [walk, notLater, goesOn, nonempty]
          · rw [at?_cons_of_ne same, reached_cons_of_ne same, ← restHypothesis restSorted]
            simp [walk, same, Ne.symm same]

theorem nodup_walk {forest : Forest Key Data} (sorted : forest.Sorted) :
    ((forest.walk stops).map Prod.fst).Nodup := by
  induction forest with
  | nil => exact List.nodup_nil
  | cons key own children rest childrenHypothesis restHypothesis =>
      obtain ⟨above, childrenSorted, restSorted⟩ := sorted
      have below : ((if stops own then [] else children.walk stops).map Prod.fst).Nodup := by
        split
        · exact List.nodup_nil
        · exact childrenHypothesis childrenSorted
      have paths : ((cons key own children rest).walk stops).map Prod.fst =
          ([] :: (if stops own then [] else children.walk stops).map Prod.fst).map (key :: ·) ++
            (rest.walk stops).map Prod.fst := by
        simp [walk, Function.comp_def]
      rw [paths]
      apply List.Nodup.append _ (restHypothesis restSorted)
      · intro path isFirst isLater
        obtain ⟨short, _, rfl⟩ := List.mem_map.mp isFirst
        obtain ⟨⟨_, data⟩, member, rfl⟩ := List.mem_map.mp isLater
        have isKey := mem_keys_of_at? ((mem_walk restSorted).mp member).1
        exact lt_irrefl _ (above key isKey)
      · apply List.Nodup.map (List.cons_injective)
        refine List.nodup_cons.mpr ⟨?_, below⟩
        intro member
        split at member
        · cases member
        · obtain ⟨⟨_, data⟩, isEntry, rfl⟩ := List.mem_map.mp member
          simpa using ((mem_walk childrenSorted).mp isEntry).1

end Forest

end Tries
