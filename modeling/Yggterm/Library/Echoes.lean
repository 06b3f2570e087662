import Mathlib.Data.List.DropRight

/-!
# Runs of items with equal keys

Items are taken up one by one, and one with the key of the item taken last is an echo and is
left out, so that of each run of equal keys the first item stays.  Read from some point on, the
same items give the same result, but where the point falls into a run another item of it stays.
-/

namespace Echoes

universe u v

variable {Item : Type u} {Key : Type v} [DecidableEq Key] (key : Item → Key)

def isEcho (taken : List Item) (item : Item) : Bool :=
  taken.getLast?.any fun last => key last = key item

def push (taken : List Item) (item : Item) : List Item :=
  if isEcho key taken item then taken else taken ++ [item]

/-- No more than the last few are held. -/
def pushBounded (limit : Nat) (taken : List Item) (item : Item) : List Item :=
  if isEcho key taken item then taken else (taken ++ [item]).rtake limit

/-- The first items of the runs that come after an item with some key. -/
def headsAfter : Option Key → List Item → List Item
  | _, [] => []
  | before, item :: rest =>
      if before = some (key item) then headsAfter before rest
      else item :: headsAfter (some (key item)) rest

/-- The first items of the runs. -/
def heads (items : List Item) : List Item := headsAfter key none items

variable {key}

theorem headsAfter_of_echo {before : Option Key} {item : Item} {rest : List Item}
    (echo : before = some (key item)) :
    headsAfter key before (item :: rest) = headsAfter key before rest :=
  if_pos echo

theorem headsAfter_of_other {before : Option Key} {item : Item} {rest : List Item}
    (other : before ≠ some (key item)) :
    headsAfter key before (item :: rest) = item :: headsAfter key (some (key item)) rest :=
  if_neg other

theorem heads_cons (item : Item) (rest : List Item) :
    heads key (item :: rest) = item :: headsAfter key (some (key item)) rest :=
  headsAfter_of_other (Option.some_ne_none _).symm

theorem heads_eq_nil_iff {items : List Item} : heads key items = [] ↔ items = [] := by
  cases items with
  | nil => exact iff_of_true rfl rfl
  | cons item rest => simp [heads_cons]

theorem isEcho_iff {taken : List Item} {item : Item} :
    isEcho key taken item = true ↔ taken.getLast?.map key = some (key item) := by
  rw [isEcho]
  cases taken.getLast? <;> simp

theorem foldl_push (taken items : List Item) :
    items.foldl (push key) taken = taken ++ headsAfter key (taken.getLast?.map key) items := by
  induction items generalizing taken with
  | nil => exact (List.append_nil taken).symm
  | cons item rest inductionHypothesis =>
      rw [List.foldl_cons, inductionHypothesis]
      by_cases echo : taken.getLast?.map key = some (key item)
      · rw [push, if_pos (isEcho_iff.mpr echo), headsAfter_of_echo echo]
      · rw [push, if_neg (mt isEcho_iff.mp echo), headsAfter_of_other echo, List.getLast?_concat,
          List.append_assoc]
        rfl

theorem foldl_push_nil (items : List Item) : items.foldl (push key) [] = heads key items :=
  foldl_push [] items

/-- The last item taken has the key of the last item. -/
theorem getLast?_headsAfter (before : Option Key) (items : List Item) :
    ((headsAfter key before items).getLast?.map key).or before =
      (items.getLast?.map key).or before := by
  induction items generalizing before with
  | nil => rfl
  | cons item rest inductionHypothesis =>
      have later := inductionHypothesis (some (key item))
      have isLast : ∀ items : List Item, ((item :: items).getLast?.map key).or before =
          (items.getLast?.map key).or (some (key item)) := by
        intro items
        rw [List.getLast?_cons]
        cases items.getLast? <;> rfl
      by_cases echo : before = some (key item)
      · rw [headsAfter_of_echo echo, isLast, echo, later]
      · rw [headsAfter_of_other echo, isLast, isLast, later]

theorem getLast?_heads (items : List Item) :
    (heads key items).getLast?.map key = items.getLast?.map key := by
  have isLast : ((headsAfter key none items).getLast?.map key).or none =
      (items.getLast?.map key).or none := getLast?_headsAfter none items
  rwa [Option.or_none, Option.or_none] at isLast

theorem headsAfter_append (before : Option Key) (first second : List Item) :
    headsAfter key before (first ++ second) =
      headsAfter key before first ++
        headsAfter key ((first.getLast?.map key).or before) second := by
  induction first generalizing before with
  | nil => rfl
  | cons item rest inductionHypothesis =>
      have isLast : ((item :: rest).getLast?.map key).or before =
          (rest.getLast?.map key).or (some (key item)) := by
        rw [List.getLast?_cons]
        cases rest.getLast? <;> rfl
      rw [List.cons_append, isLast]
      by_cases echo : before = some (key item)
      · rw [headsAfter_of_echo echo, headsAfter_of_echo echo, inductionHypothesis, ← echo]
      · rw [headsAfter_of_other echo, headsAfter_of_other echo, inductionHypothesis,
          List.cons_append]

theorem heads_append (first second : List Item) :
    heads key (first ++ second) =
      heads key first ++ headsAfter key (first.getLast?.map key) second := by
  rw [heads, headsAfter_append, Option.or_none, heads]

/-! ## The first few -/

/-- The items are taken up until enough are taken. -/
def pushUntil (key : Item → Key) (limit : Nat) (taken : List Item) : List Item → List Item
  | [] => taken
  | item :: rest =>
      if limit ≤ (push key taken item).length then push key taken item
      else pushUntil key limit (push key taken item) rest

theorem length_push_le (taken : List Item) (item : Item) :
    (push key taken item).length ≤ taken.length + 1 := by
  rw [push]
  split
  · exact Nat.le_succ _
  · exact List.length_append.le

theorem pushUntil_eq {limit : Nat} {taken : List Item} (short : taken.length < limit)
    (items : List Item) :
    pushUntil key limit taken items = (items.foldl (push key) taken).take limit := by
  induction items generalizing taken with
  | nil => exact (List.take_of_length_le (Nat.le_of_lt short)).symm
  | cons item rest inductionHypothesis =>
      have grows : (push key taken item).length ≤ taken.length + 1 := length_push_le taken item
      rw [pushUntil, List.foldl_cons]
      split
      · next enough =>
          rw [foldl_push, List.take_append_of_le_length enough, List.take_of_length_le]
          omega
      · next few => exact inductionHypothesis (Nat.lt_of_not_le few)

/-- At least one item is taken, if there is any. -/
theorem pushUntil_nil (limit : Nat) (items : List Item) :
    pushUntil key limit [] items = (heads key items).take (max limit 1) := by
  cases limit with
  | zero =>
      cases items with
      | nil => rfl
      | cons item rest => simp [pushUntil, push, isEcho, heads_cons]
  | succ limit =>
      rw [pushUntil_eq (Nat.succ_pos limit), foldl_push_nil, Nat.max_eq_left (Nat.succ_pos limit)]

/-! ## The last few -/

theorem rtake_of_length_le {limit : Nat} {items : List Item} (short : items.length ≤ limit) :
    items.rtake limit = items := by
  rw [List.rtake, Nat.sub_eq_zero_of_le short, List.drop_zero]

theorem rtake_append_of_le {limit : Nat} {second : List Item} (enough : limit ≤ second.length)
    (first : List Item) : (first ++ second).rtake limit = second.rtake limit := by
  rw [List.rtake, List.rtake, List.length_append, Nat.add_sub_assoc enough,
    List.drop_length_add_append]

theorem length_rtake (limit : Nat) (items : List Item) :
    (items.rtake limit).length = min limit items.length := by
  rw [List.rtake, List.length_drop]
  omega

theorem isEcho_rtake (limit : Nat) (taken : List Item) (item : Item) :
    isEcho key (taken.rtake (limit + 1)) item = isEcho key taken item := by
  cases taken using List.reverseRecOn with
  | nil => rw [List.rtake_nil]
  | append_singleton front last =>
      rw [List.rtake_concat_succ, isEcho, isEcho, List.getLast?_concat, List.getLast?_concat]

/-- Holding the last few does as well as taking the last few in the end. -/
theorem pushBounded_rtake (limit : Nat) (taken : List Item) (item : Item) :
    pushBounded key limit (taken.rtake limit) item = (push key taken item).rtake limit := by
  cases limit with
  | zero => simp [pushBounded, isEcho]
  | succ limit =>
      rw [pushBounded, push, isEcho_rtake]
      split
      · rfl
      · rw [List.rtake_concat_succ, List.rtake_concat_succ]
        simp [List.rtake_eq_reverse_take_reverse, List.take_take]

theorem foldl_pushBounded (limit : Nat) (items : List Item) :
    items.foldl (pushBounded key limit) [] = (heads key items).rtake limit := by
  have held : ∀ taken : List Item, items.foldl (pushBounded key limit) (taken.rtake limit) =
      (items.foldl (push key) taken).rtake limit := by
    induction items with
    | nil => exact fun _ => rfl
    | cons item rest inductionHypothesis =>
        intro taken
        rw [List.foldl_cons, List.foldl_cons, pushBounded_rtake, inductionHypothesis]
  rw [← foldl_push_nil, ← held, List.rtake_nil]

/-- A run is cut before the items: the item of it that the whole list keeps is an earlier one, and
the items hold no more than `limit`. -/
def CutsRun (key : Item → Key) (limit : Nat) (before seen : List Item) : Prop :=
  (heads key seen).length = limit ∧ ∃ first ∈ seen.head?, ∃ kept ∈ (heads key before).getLast?,
    key kept = key first ∧ kept ≠ first

theorem rtake_echo_iff {limit : Nat} {before rest : List Item} {first kept : Item}
    (enough : limit ≤ (heads key (first :: rest)).length)
    (isKept : (heads key before).getLast? = some kept) (sameKey : key kept = key first) :
    (heads key before ++
        headsAfter key ((heads key before).getLast?.map key) (first :: rest)).rtake limit =
        (heads key (first :: rest)).rtake limit ↔
      ¬ CutsRun key limit before (first :: rest) := by
  obtain ⟨front, isFront⟩ := List.getLast?_eq_some_iff.mp isKept
  have later : headsAfter key ((heads key before).getLast?.map key) (first :: rest) =
      headsAfter key (some (key first)) rest := by
    rw [isKept, Option.map_some, sameKey, headsAfter_of_echo rfl]
  rw [later, CutsRun, heads_cons]
  rw [heads_cons] at enough
  generalize headsAfter key (some (key first)) rest = others at enough
  rcases Nat.lt_or_eq_of_le enough with more | exactly
  · have inOthers : limit ≤ others.length := Nat.le_of_lt_succ more
    rw [rtake_append_of_le inOthers, ← List.singleton_append, rtake_append_of_le inOthers]
    exact iff_of_true rfl fun cuts => absurd cuts.1 (Nat.ne_of_gt more)
  · have isLimit : limit = (kept :: others).length := exactly
    rw [isFront, List.append_assoc, List.singleton_append,
      rtake_append_of_le (Nat.le_of_eq isLimit), rtake_of_length_le (Nat.le_of_eq isLimit.symm),
      rtake_of_length_le (Nat.le_of_eq exactly.symm)]
    simp [exactly, sameKey]

/-- Items that hold enough end in what the whole list ends in, unless they cut a run. -/
theorem rtake_heads_append_iff {limit : Nat} {before seen : List Item}
    (enough : limit ≤ (heads key seen).length) :
    (heads key (before ++ seen)).rtake limit = (heads key seen).rtake limit ↔
      ¬ CutsRun key limit before seen := by
  cases seen with
  | nil =>
      obtain rfl : limit = 0 := Nat.le_zero.mp enough
      simp [CutsRun]
  | cons first rest =>
      rw [heads_append, ← getLast?_heads]
      by_cases echo : (heads key before).getLast?.map key = some (key first)
      · obtain ⟨kept, isKept, sameKey⟩ := Option.map_eq_some_iff.mp echo
        exact rtake_echo_iff enough isKept sameKey
      · have whole : headsAfter key ((heads key before).getLast?.map key) (first :: rest) =
            heads key (first :: rest) := by
          rw [headsAfter_of_other echo, heads_cons]
        rw [whole]
        refine iff_of_true (rtake_append_of_le enough _) ?_
        rintro ⟨_, _, ⟨⟩, kept, isKept, sameKey, _⟩
        exact echo (by rw [isKept, Option.map_some, sameKey])

end Echoes
