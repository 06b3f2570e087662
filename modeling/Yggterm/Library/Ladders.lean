import Mathlib.Data.Finset.Card
import Mathlib.Data.Finset.Dedup

/-!
# Names handed out along ladders

Items take names one after another: each the first of its own ladder that nobody has, or a
spare that may be taken.  A ladder holds a stock that all share, and at most one name of its
own before it.
-/

namespace Ladders

universe u v

variable {Item : Type u} {Name : Type v} [DecidableEq Name]

def pick (ladder : Item → List Name) (spare : Item → Name) (taken : List Name) (item : Item) :
    Name :=
  ((ladder item).find? (· ∉ taken)).getD (spare item)

/-- The names of the items, in their order. -/
def allocate (ladder : Item → List Name) (spare : Item → Name) :
    List Name → List Item → List Name
  | _, [] => []
  | taken, item :: rest =>
      let name := pick ladder spare taken item
      name :: allocate ladder spare (name :: taken) rest

/-- Everyone finds a name on the own ladder. -/
def Served (ladder : Item → List Name) (spare : Item → Name) : List Name → List Item → Prop
  | _, [] => True
  | taken, item :: rest =>
      (∃ name ∈ ladder item, name ∉ taken) ∧
        Served ladder spare (pick ladder spare taken item :: taken) rest

variable {ladder : Item → List Name} {spare : Item → Name}

theorem pick_spec {taken : List Name} {item : Item} (free : ∃ name ∈ ladder item, name ∉ taken) :
    pick ladder spare taken item ∈ ladder item ∧ pick ladder spare taken item ∉ taken := by
  cases found : (ladder item).find? (· ∉ taken) with
  | none =>
      obtain ⟨name, member, isFree⟩ := free
      exact absurd isFree (by simpa using List.find?_eq_none.mp found name member)
  | some name =>
      rw [pick, found]
      exact ⟨List.mem_of_find?_eq_some found, by simpa using List.find?_some found⟩

theorem pick_eq_spare {taken : List Name} {item : Item}
    (none : ∀ name ∈ ladder item, name ∈ taken) :
    pick ladder spare taken item = spare item := by
  have notFound : (ladder item).find? (· ∉ taken) = Option.none := by simpa using none
  rw [pick, notFound, Option.getD_none]

theorem length_allocate (taken : List Name) (items : List Item) :
    (allocate ladder spare taken items).length = items.length := by
  induction items generalizing taken with
  | nil => rfl
  | cons item rest inductionHypothesis => simp [allocate, inductionHypothesis]

/-- Items that are all served take different names, each from the ladder of its item. -/
theorem Served.nodup {taken : List Name} {items : List Item}
    (served : Served ladder spare taken items) (distinct : taken.Nodup) :
    (allocate ladder spare taken items ++ taken).Nodup := by
  induction items generalizing taken with
  | nil => exact distinct
  | cons item rest inductionHypothesis =>
      have later := inductionHypothesis served.2
        (List.nodup_cons.mpr ⟨(pick_spec served.1).2, distinct⟩)
      exact (List.perm_middle.nodup_iff).mp later

theorem Served.forall_mem_zip {taken : List Name} {items : List Item}
    (served : Served ladder spare taken items) :
    ∀ pair ∈ items.zip (allocate ladder spare taken items), pair.2 ∈ ladder pair.1 := by
  induction items generalizing taken with
  | nil => simp
  | cons item rest inductionHypothesis =>
      simp only [allocate, List.zip_cons_cons]
      exact List.forall_mem_cons.mpr ⟨(pick_spec served.1).1, inductionHypothesis served.2⟩

theorem Served.exists_of_mem {taken : List Name} {items : List Item}
    (served : Served ladder spare taken items) {name : Name}
    (member : name ∈ allocate ladder spare taken items) : ∃ item ∈ items, name ∈ ladder item := by
  rw [← List.map_snd_zip (length_allocate taken items).le] at member
  obtain ⟨pair, isPair, rfl⟩ := List.mem_map.mp member
  exact ⟨pair.1, (List.of_mem_zip isPair).1, served.forall_mem_zip pair isPair⟩

/-- The first that is not served takes its spare when its ladder is used up. -/
theorem exists_of_not_served {taken : List Name} {items : List Item}
    (unserved : ¬ Served ladder spare taken items) :
    ∃ before item after, items = before ++ item :: after ∧
      (∀ name ∈ ladder item, name ∈ allocate ladder spare taken before ++ taken) ∧
      allocate ladder spare taken items = allocate ladder spare taken before ++
        spare item :: allocate ladder spare
          (spare item :: ((allocate ladder spare taken before).reverse ++ taken)) after := by
  induction items generalizing taken with
  | nil => exact absurd trivial unserved
  | cons item rest inductionHypothesis =>
      by_cases free : ∃ name ∈ ladder item, name ∉ taken
      · obtain ⟨before, other, after, rfl, usedUp, allocated⟩ :=
          inductionHypothesis fun served => unserved ⟨free, served⟩
        refine ⟨item :: before, other, after, rfl, ?_, ?_⟩
        · intro name member
          have isUsed := usedUp name member
          simp only [allocate, List.mem_append, List.mem_cons] at isUsed ⊢
          tauto
        · simp [allocate, allocated]
      · have usedUp : ∀ name ∈ ladder item, name ∈ taken := by simpa using free
        refine ⟨[], item, rest, rfl, usedUp, ?_⟩
        simp [allocate, pick_eq_spare usedUp]

section Stock

variable {stock : Finset Name} {own : Item → Option Name}

/-- What nobody has of the stock and of the names that the items ask for. -/
def available (stock : Finset Name) (own : Item → Option Name) (taken : List Name)
    (items : List Item) : Finset Name :=
  (stock ∪ (items.filterMap own).toFinset).filter (· ∉ taken)

theorem mem_available {taken : List Name} {items : List Item} {name : Name} :
    name ∈ available stock own taken items ↔
      (name ∈ stock ∨ ∃ item ∈ items, own item = some name) ∧ name ∉ taken := by
  simp [available]

/-- Serving an item uses up one of the available names. -/
theorem available_cons {item : Item}
    (mem_ladder : ∀ name, name ∈ ladder item ↔ name ∈ stock ∨ own item = some name)
    (own_first : ∀ name, own item = some name → name ∉ stock → (ladder item).head? = some name)
    {taken : List Name} (rest : List Item)
    (free : ∃ name ∈ ladder item, name ∉ taken) :
    available stock own taken (item :: rest) =
      insert (pick ladder spare taken item)
        (available stock own (pick ladder spare taken item :: taken) rest) := by
  have picked : pick ladder spare taken item ∈ ladder item ∧
      pick ladder spare taken item ∉ taken := pick_spec free
  ext other
  simp only [Finset.mem_insert, mem_available, List.mem_cons, not_or]
  constructor
  · rintro ⟨asked, isFree⟩
    by_cases same : other = pick ladder spare taken item
    · exact .inl same
    refine .inr ⟨?_, same, isFree⟩
    rcases asked with inStock | ⟨wisher, rfl | later, isOwn⟩
    · exact .inl inStock
    · left
      by_contra outside
      obtain ⟨later, isLadder⟩ := List.head?_eq_some_iff.mp (own_first other isOwn outside)
      exact same (by simp [pick, isLadder, isFree])
    · exact .inr ⟨wisher, later, isOwn⟩
  · rintro (rfl | ⟨inStock | ⟨wisher, later, isOwn⟩, _, isFree⟩)
    · rcases (mem_ladder _).mp picked.1 with inStock | isOwn
      · exact ⟨.inl inStock, picked.2⟩
      · exact ⟨.inr ⟨item, .inl rfl, isOwn⟩, picked.2⟩
    · exact ⟨.inl inStock, isFree⟩
    · exact ⟨.inr ⟨wisher, .inr later, isOwn⟩, isFree⟩

/-- Everyone is served exactly when the items are no more than the available names. -/
theorem served_iff {items : List Item}
    (mem_ladder : ∀ item ∈ items, ∀ name, name ∈ ladder item ↔
      name ∈ stock ∨ own item = some name)
    (own_first : ∀ item ∈ items, ∀ name, own item = some name → name ∉ stock →
      (ladder item).head? = some name)
    (taken : List Name) :
    Served ladder spare taken items ↔ items.length ≤ (available stock own taken items).card := by
  induction items generalizing taken with
  | nil => simp [Served]
  | cons item rest inductionHypothesis =>
      obtain ⟨mem_ladder, restLadders⟩ := List.forall_mem_cons.mp mem_ladder
      obtain ⟨own_first, restFirst⟩ := List.forall_mem_cons.mp own_first
      by_cases free : ∃ name ∈ ladder item, name ∉ taken
      · have isNew : pick ladder spare taken item ∉
            available stock own (pick ladder spare taken item :: taken) rest := by
          simp [mem_available]
        rw [Served, inductionHypothesis restLadders restFirst,
          available_cons mem_ladder own_first rest free,
          Finset.card_insert_of_notMem isNew, List.length_cons, Nat.add_le_add_iff_right]
        exact ⟨And.right, fun enough => ⟨free, enough⟩⟩
      · have usedUp : ∀ name ∈ ladder item, name ∈ taken := by simpa using free
        have wished : available stock own taken (item :: rest) ⊆ (rest.filterMap own).toFinset := by
          intro name isAvailable
          obtain ⟨asked, isFree⟩ := mem_available.mp isAvailable
          rcases asked with inStock | ⟨wisher, member, isOwn⟩
          · exact absurd (usedUp name ((mem_ladder name).mpr (.inl inStock))) isFree
          rcases List.mem_cons.mp member with rfl | later
          · exact absurd (usedUp name ((mem_ladder name).mpr (.inr isOwn))) isFree
          · exact List.mem_toFinset.mpr (List.mem_filterMap.mpr ⟨wisher, later, isOwn⟩)
        have few : (available stock own taken (item :: rest)).card ≤ rest.length :=
          (Finset.card_le_card wished).trans
            ((List.toFinset_card_le _).trans (List.length_filterMap_le _ _))
        constructor
        · exact fun served => absurd served.1 free
        · intro enough
          rw [List.length_cons] at enough
          omega

end Stock

end Ladders
