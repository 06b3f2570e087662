import Mathlib.Algebra.Ring.Nat
import Mathlib.Data.Finset.Card
import Mathlib.Data.List.Infix
import Mathlib.Data.List.ReduceOption
import Yggterm.Library.Utf8

/-!
# Which staged files the transcripts name

`referenced_candidates` of `clipboard_sweep.rs` reads the transcript stores with a stack of
directories.  It stops early when every candidate was found, and fails when something in a store
cannot be read.
-/

namespace Yggterm.Clipboard

/-- The name of a file, which need not be UTF-8. -/
inductive FileName where
  | text (name : List Char)
  | raw (bytes : List UInt8)
  deriving DecidableEq

def FileName.toStr : FileName → Option (List Char)
  | .text name => some name
  | .raw _ => none

/-- The extension is `jsonl`. -/
def FileName.isJsonl : FileName → Bool
  | .text name =>
      ".jsonl".toList.isSuffixOf name && decide (".jsonl".toList.length < name.length)
  | .raw bytes =>
      (Utf8.encode ".jsonl".toList).isSuffixOf bytes &&
        decide ((Utf8.encode ".jsonl".toList).length < bytes.length)

/-- An entry of a transcript store.  A directory may refuse to be listed, and a file may fail
after some of its lines. -/
inductive StoreEntry where
  | unreadable
  | directory (listing : Option (List StoreEntry))
  | file (name : FileName) (lines : List (List Char)) (fails : Bool)

abbrev Listing := Option (List StoreEntry)

/-- Why the reading ends before the stack is empty. -/
inductive Stop where
  | io
  | allReferenced (referenced : Finset (List Char))

def clipboard : List Char := "clipboard".toList

/-- One line, with its newline. -/
def readLine (candidates referenced : Finset (List Char)) (line : List Char) :
    Except Stop (Finset (List Char)) :=
  if clipboard <:+: line then
    let referenced := referenced ∪ candidates.filter fun candidate => candidate <:+: line
    if referenced.card = candidates.card then .error (.allReferenced referenced) else .ok referenced
  else .ok referenced

def readEntry (candidates referenced : Finset (List Char)) :
    StoreEntry → Except Stop (Finset (List Char))
  | .unreadable => .error .io
  | .directory _ => .ok referenced
  | .file name lines fails =>
      if name.isJsonl then
        (lines.foldlM (readLine candidates) referenced).bind fun referenced =>
          if fails then .error .io else .ok referenced
      else .ok referenced

def subdirectories (entries : List StoreEntry) : List Listing :=
  entries.filterMap fun entry =>
    match entry with
    | .directory listing => some listing
    | _ => none

/-- How much there is left to read at most. -/
noncomputable def weight (stack : List Listing) : Nat :=
  (stack.map fun listing => sizeOf listing + 1).sum

theorem weight_append (stack others : List Listing) :
    weight (stack ++ others) = weight stack + weight others := by
  simp [weight]

theorem weight_reverse (stack : List Listing) : weight stack.reverse = weight stack := by
  simp [weight]

theorem weight_subdirectories_le (entries : List StoreEntry) :
    weight (subdirectories entries) ≤ sizeOf entries := by
  induction entries with
  | nil => exact Nat.zero_le _
  | cons entry rest inductionHypothesis =>
      cases entry with
      | unreadable => exact inductionHypothesis.trans (by simp)
      | file name lines fails => exact inductionHypothesis.trans (by simp)
      | directory listing =>
          have here : weight (subdirectories (.directory listing :: rest)) =
              sizeOf listing + 1 + weight (subdirectories rest) := rfl
          rw [here, List.cons.sizeOf_spec, StoreEntry.directory.sizeOf_spec]
          omega

/-- The top of the stack is the last directory that was pushed. -/
def search (candidates : Finset (List Char)) :
    List Listing → Finset (List Char) → Except Stop (Finset (List Char))
  | [], referenced => .ok referenced
  | none :: _, _ => .error .io
  | some entries :: stack, referenced =>
      (entries.foldlM (readEntry candidates) referenced).bind
        (search candidates ((subdirectories entries).reverse ++ stack))
termination_by stack => weight stack
decreasing_by
  have lighter := weight_subdirectories_le entries
  have split : weight (some entries :: stack) = sizeOf (some entries) + 1 + weight stack := rfl
  rw [weight_append, weight_reverse, split, Option.some.sizeOf_spec]
  omega

/-- The roots that do not exist are left out; nothing is the answer when the reading failed. -/
def referencedCandidates (candidates : Finset (List Char)) (roots : List (Option Listing)) :
    Option (Finset (List Char)) :=
  if candidates = ∅ then some ∅
  else
    match search candidates (roots.reduceOption).reverse ∅ with
    | .ok referenced => some referenced
    | .error (.allReferenced referenced) => some referenced
    | .error .io => none

/-! ## What was read -/

/-- A line of a transcript, as far as it can be read. -/
inductive StoreEntry.Holds : StoreEntry → List Char → Prop where
  | file {name : FileName} {lines : List (List Char)} {fails : Bool} {line : List Char}
      (isJsonl : name.isJsonl = true) (member : line ∈ lines) : Holds (.file name lines fails) line
  | directory {entries : List StoreEntry} {entry : StoreEntry} {line : List Char}
      (member : entry ∈ entries) (holds : entry.Holds line) : Holds (.directory (some entries)) line

/-- A readable line of a transcript names the file. -/
def Named (roots : List (Option Listing)) (name : List Char) : Prop :=
  ∃ listing, some listing ∈ roots ∧ ∃ line, (StoreEntry.directory listing).Holds line ∧
    name <:+: line

/-- A step of the reading accounts for the lines that it read. -/
def Accounts (candidates before : Finset (List Char)) (reads : List Char → Prop) :
    Except Stop (Finset (List Char)) → Prop
  | .ok after => ∀ candidate, candidate ∈ after ↔
      candidate ∈ before ∨ candidate ∈ candidates ∧ ∃ line, reads line ∧ candidate <:+: line
  | .error (.allReferenced after) => after = candidates ∧ ∀ candidate ∈ candidates,
      candidate ∈ before ∨ ∃ line, reads line ∧ candidate <:+: line
  | .error .io => True

section Reading

variable {candidates before : Finset (List Char)}

theorem Accounts.congr {reads others : List Char → Prop}
    {result : Except Stop (Finset (List Char))} (accounts : Accounts candidates before reads result)
    (same : ∀ line, reads line ↔ others line) : Accounts candidates before others result := by
  have equal : reads = others := funext fun line => propext (same line)
  rwa [← equal]

theorem Accounts.ok_subset {reads : List Char → Prop} {after : Finset (List Char)}
    (accounts : Accounts candidates before reads (.ok after)) (inside : before ⊆ candidates) :
    after ⊆ candidates := by
  intro candidate member
  rcases (accounts candidate).mp member with old | new
  · exact inside old
  · exact new.1

theorem Accounts.bind {reads others : List Char → Prop}
    {first : Except Stop (Finset (List Char))}
    {rest : Finset (List Char) → Except Stop (Finset (List Char))}
    (inside : before ⊆ candidates) (accounts : Accounts candidates before reads first)
    (restAccounts : ∀ middle ⊆ candidates, Accounts candidates middle others (rest middle)) :
    Accounts candidates before (fun line => reads line ∨ others line) (first.bind rest) := by
  cases first with
  | error stop =>
      cases stop with
      | io => trivial
      | allReferenced after =>
          refine ⟨accounts.1, fun candidate member => ?_⟩
          rcases accounts.2 candidate member with old | ⟨line, isRead, names⟩
          · exact .inl old
          · exact .inr ⟨line, .inl isRead, names⟩
  | ok middle =>
      have next := restAccounts middle (accounts.ok_subset inside)
      rw [Except.bind]
      cases isResult : rest middle with
      | ok after =>
          rw [isResult] at next
          intro candidate
          rw [next candidate, accounts candidate]
          constructor
          · rintro ((old | ⟨member, line, isRead, names⟩) | ⟨member, line, isRead, names⟩)
            · exact .inl old
            · exact .inr ⟨member, line, .inl isRead, names⟩
            · exact .inr ⟨member, line, .inr isRead, names⟩
          · rintro (old | ⟨member, line, isRead | isRead, names⟩)
            · exact .inl (.inl old)
            · exact .inl (.inr ⟨member, line, isRead, names⟩)
            · exact .inr ⟨member, line, isRead, names⟩
      | error stop =>
          rw [isResult] at next
          cases stop with
          | io => trivial
          | allReferenced after =>
              refine ⟨next.1, fun candidate member => ?_⟩
              rcases next.2 candidate member with inMiddle | ⟨line, isRead, names⟩
              · rcases (accounts candidate).mp inMiddle with old | ⟨_, line, isRead, names⟩
                · exact .inl old
                · exact .inr ⟨line, .inl isRead, names⟩
              · exact .inr ⟨line, .inr isRead, names⟩

theorem accounts_foldlM {Item : Type} {reads : Item → List Char → Prop}
    {step : Finset (List Char) → Item → Except Stop (Finset (List Char))} {items : List Item}
    (accounts : ∀ item ∈ items, ∀ middle ⊆ candidates,
      Accounts candidates middle (reads item) (step middle item)) (inside : before ⊆ candidates) :
    Accounts candidates before (fun line => ∃ item ∈ items, reads item line)
      (items.foldlM step before) := by
  induction items generalizing before with
  | nil =>
      intro candidate
      simp
  | cons item rest inductionHypothesis =>
      obtain ⟨here, later⟩ := List.forall_mem_cons.mp accounts
      rw [List.foldlM_cons]
      refine (Accounts.bind inside (here before inside) fun middle isInside =>
        inductionHypothesis later isInside).congr fun line => ?_
      simp

theorem accounts_readLine (named : ∀ candidate ∈ candidates, clipboard <:+: candidate)
    (inside : before ⊆ candidates) (line : List Char) :
    Accounts candidates before (fun other => line = other) (readLine candidates before line) := by
  have noted : ∀ candidate, candidate ∈ before ∪ candidates.filter (· <:+: line) ↔
      candidate ∈ before ∨ candidate ∈ candidates ∧ ∃ other, line = other ∧
        candidate <:+: other := by
    simp
  by_cases mentions : clipboard <:+: line
  · rw [readLine, if_pos mentions]
    dsimp only
    split
    · next all =>
        have within : before ∪ candidates.filter (· <:+: line) ⊆ candidates :=
          Finset.union_subset inside (Finset.filter_subset _ _)
        have same := Finset.eq_of_subset_of_card_le within (Nat.le_of_eq all.symm)
        refine ⟨same, fun candidate member => ?_⟩
        rw [← same] at member
        exact ((noted candidate).mp member).imp_right And.right
    · exact noted
  · rw [readLine, if_neg mentions]
    intro candidate
    constructor
    · exact .inl
    · rintro (old | ⟨member, _, rfl, names⟩)
      · exact old
      · exact absurd ((named candidate member).trans names) mentions

theorem accounts_readEntry (named : ∀ candidate ∈ candidates, clipboard <:+: candidate)
    (inside : before ⊆ candidates) (entry : StoreEntry) :
    Accounts candidates before (fun line => (∀ listing, entry ≠ .directory listing) ∧
      entry.Holds line) (readEntry candidates before entry) := by
  cases entry with
  | unreadable => trivial
  | directory listing =>
      intro candidate
      simp
  | file name lines fails =>
      rw [readEntry]
      split
      · next isJsonl =>
          have readAll : Accounts candidates before (fun line => ∃ other ∈ lines, other = line)
              (lines.foldlM (readLine candidates) before) :=
            accounts_foldlM (fun line _ _ isInside => accounts_readLine named isInside line) inside
          have ended : ∀ middle ⊆ candidates, Accounts candidates middle (fun _ => False)
              (if fails then .error .io else .ok middle) := by
            intro middle _
            split
            · trivial
            · intro candidate
              simp
          refine (Accounts.bind inside readAll ended).congr ?_
          intro line
          constructor
          · rintro (⟨_, member, rfl⟩ | never)
            · exact ⟨nofun, .file isJsonl member⟩
            · exact never.elim
          · rintro ⟨_, ⟨_, member⟩⟩
            exact .inl ⟨line, member, rfl⟩
      · next notJsonl =>
          intro candidate
          constructor
          · exact .inl
          · rintro (old | ⟨_, line, ⟨_, ⟨isJsonl, _⟩⟩, _⟩)
            · exact old
            · exact absurd isJsonl notJsonl

theorem holds_directory_iff {entries : List StoreEntry} {line : List Char} :
    (StoreEntry.directory (some entries)).Holds line ↔
      (∃ entry ∈ entries, (∀ listing, entry ≠ .directory listing) ∧ entry.Holds line) ∨
        ∃ listing ∈ subdirectories entries, (StoreEntry.directory listing).Holds line := by
  constructor
  · rintro ⟨⟩
    next entry member holds =>
      cases entry with
      | unreadable => cases holds
      | file name lines fails => exact .inl ⟨_, member, nofun, holds⟩
      | directory listing =>
          exact .inr ⟨listing, List.mem_filterMap.mpr ⟨_, member, rfl⟩, holds⟩
  · rintro (⟨entry, member, _, holds⟩ | ⟨listing, member, holds⟩)
    · exact .directory member holds
    · obtain ⟨entry, isEntry, isListing⟩ := List.mem_filterMap.mp member
      cases entry with
      | unreadable => cases isListing
      | file name lines fails => cases isListing
      | directory other =>
          cases isListing
          exact .directory isEntry holds

theorem accounts_search (named : ∀ candidate ∈ candidates, clipboard <:+: candidate)
    (stack : List Listing) (inside : before ⊆ candidates) :
    Accounts candidates before
      (fun line => ∃ listing ∈ stack, (StoreEntry.directory listing).Holds line)
      (search candidates stack before) := by
  induction stack, before using search.induct with
  | case1 before =>
      rw [search]
      intro candidate
      simp
  | case2 before stack =>
      rw [search]
      trivial
  | case3 entries stack before inductionHypothesis =>
      rw [search]
      have here : Accounts candidates before _ (entries.foldlM (readEntry candidates) before) :=
        accounts_foldlM (fun entry _ _ isInside => accounts_readEntry named isInside entry) inside
      refine (Accounts.bind inside here fun _ isInside =>
        inductionHypothesis _ isInside).congr fun line => ?_
      rw [List.exists_mem_cons_iff, holds_directory_iff]
      simp [or_assoc, or_and_right, exists_or]

/-- Where the reading succeeds, the candidates found are those that a readable line names. -/
theorem mem_referencedCandidates_iff {roots : List (Option Listing)}
    {referenced : Finset (List Char)}
    (named : ∀ candidate ∈ candidates, clipboard <:+: candidate)
    (succeeds : referencedCandidates candidates roots = some referenced) {candidate : List Char}
    (member : candidate ∈ candidates) : candidate ∈ referenced ↔ Named roots candidate := by
  have nonempty : candidates ≠ ∅ := Finset.ne_empty_of_mem member
  rw [referencedCandidates, if_neg nonempty] at succeeds
  have accounts := accounts_search named roots.reduceOption.reverse (Finset.empty_subset candidates)
  have isNamed : (∃ line, (∃ listing ∈ roots.reduceOption.reverse,
      (StoreEntry.directory listing).Holds line) ∧ candidate <:+: line) ↔
        Named roots candidate := by
    simp only [List.mem_reverse, List.reduceOption_mem_iff, Named]
    constructor
    · rintro ⟨line, ⟨listing, isRoot, holds⟩, names⟩
      exact ⟨listing, isRoot, line, holds, names⟩
    · rintro ⟨listing, isRoot, line, holds, names⟩
      exact ⟨line, ⟨listing, isRoot, holds⟩, names⟩
  cases found : search candidates roots.reduceOption.reverse ∅ with
  | ok after =>
      rw [found] at succeeds accounts
      cases succeeds
      rw [accounts candidate, ← isNamed]
      simp [member]
  | error stop =>
      rw [found] at succeeds accounts
      cases stop with
      | io => cases succeeds
      | allReferenced after =>
          cases succeeds
          have isReferenced := (accounts.2 candidate member).resolve_left (Finset.notMem_empty _)
          exact iff_of_true (accounts.1 ▸ member) (isNamed.mp isReferenced)

end Reading

end Yggterm.Clipboard
