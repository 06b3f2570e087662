import Mathlib.Algebra.Order.BigOperators.Group.List
import Mathlib.Algebra.Order.Group.Nat
import Yggterm.CwdTree.Compression
import Yggterm.CwdTree.Placement

/-!
# The compression changes only the display

Trees that the inserters build, and what their compression keeps of them.
-/

namespace Yggterm.CwdTree

open Ownership Tries Workspace

inductive Insertion where
  | project (bucket : LocalAgentProjectBucket)
  | group (group : WorkspaceGroup)
  | document (document : WorkspaceDocumentSummary)

def insert (tree : CodexBrowserTree) : Insertion → CodexBrowserTree
  | .project bucket => insertCodexBrowserProject tree bucket
  | .group group => insertWorkspaceGroup tree group
  | .document document => insertWorkspaceDocument tree document

def built (root : NodeData) (insertions : List Insertion) : CodexBrowserTree :=
  insertions.foldl insert ⟨root, .nil⟩

/-! ## Trees that are built -/

/-- Groups and documents come with titles. -/
def NodeData.Titled (node : NodeData) : Prop :=
  node.explicitTitle = none → node.groupKind = none ∧ node.document = none

/-- What an inserter does to the node at the end of its path. -/
structure Marks (change : NodeData → NodeData) : Prop where
  holds : ∀ node, ¬(change node).Bare
  titles : ∀ node, node.Titled → (change node).Titled
  name : ∀ node, (change node).name = node.name

section Writing

variable {change : NodeData → NodeData}

theorem sound_modifyChild {step : CodexBrowserTree → CodexBrowserTree}
    (sound_step : ∀ tree, tree.data.Titled → Sound tree.children →
      (step tree).data.Titled ∧ ((step tree).children = .nil → ¬(step tree).data.Bare) ∧
        Sound (step tree).children)
    (key : List Char) (node : NodeData) (titled : node.Titled) {forest : Nodes}
    (sound : Sound forest) : Sound (forest.modifyChild key ⟨node, .nil⟩ step) := by
  obtain ⟨freshTitled, freshHolds, freshSound⟩ := sound_step ⟨node, .nil⟩ titled trivial
  induction forest with
  | nil => exact ⟨freshTitled, freshHolds, freshSound, trivial⟩
  | cons first data children rest _ restHypothesis =>
      obtain ⟨dataTitled, holds, childrenSound, restSound⟩ := sound
      rw [Forest.modifyChild]
      split
      · exact ⟨freshTitled, freshHolds, freshSound, dataTitled, holds, childrenSound, restSound⟩
      · split
        · obtain ⟨stepTitled, stepHolds, stepSound⟩ :=
            sound_step ⟨data, children⟩ dataTitled childrenSound
          exact ⟨stepTitled, stepHolds, stepSound, restSound⟩
        · exact ⟨dataTitled, holds, childrenSound, restHypothesis restSound⟩

theorem modifyChild_ne_nil (key : List Char) (fresh : CodexBrowserTree)
    (step : CodexBrowserTree → CodexBrowserTree) (forest : Nodes) :
    forest.modifyChild key fresh step ≠ .nil := by
  intro isNil
  cases forest with
  | nil => cases isNil
  | cons =>
      rw [Forest.modifyChild] at isNil
      split at isNil
      · cases isNil
      · split at isNil <;> cases isNil

theorem sound_write (marks : Marks change) (path : List (List Char)) (tree : CodexBrowserTree)
    (titled : tree.data.Titled) (sound : Sound tree.children) :
    (tree.write freshNode change path).data.Titled ∧
      ((tree.write freshNode change path).children = .nil →
        ¬(tree.write freshNode change path).data.Bare) ∧
      Sound (tree.write freshNode change path).children := by
  induction path generalizing tree with
  | nil => exact ⟨marks.titles tree.data titled, fun _ => marks.holds tree.data, sound⟩
  | cons key path inductionHypothesis =>
      have freshTitled : (freshNode tree.data key).Titled := fun _ => ⟨rfl, rfl⟩
      refine ⟨titled, fun isNil => absurd isNil (modifyChild_ne_nil _ _ _ _), ?_⟩
      exact sound_modifyChild inductionHypothesis key _ freshTitled sound

theorem name_write (marks : Marks change) (path : List (List Char)) (tree : CodexBrowserTree) :
    (tree.write freshNode change path).data.name = tree.data.name := by
  cases path with
  | nil => exact marks.name tree.data
  | cons => rfl

theorem rooted_modifyChild {step : CodexBrowserTree → CodexBrowserTree}
    (name_step : ∀ tree, (step tree).data.name = tree.data.name) (key : List Char)
    {fresh : CodexBrowserTree} (nonempty : fresh.data.name ≠ []) {forest : Nodes}
    (rooted : Rooted forest) : Rooted (forest.modifyChild key fresh step) := by
  have freshName : (step fresh).data.name ≠ [] := (name_step fresh).trans_ne nonempty
  induction forest with
  | nil => exact ⟨freshName, trivial⟩
  | cons first data children rest _ restHypothesis =>
      obtain ⟨dataName, restRooted⟩ := rooted
      rw [Forest.modifyChild]
      split
      · exact ⟨freshName, dataName, restRooted⟩
      · split
        · exact ⟨(name_step ⟨data, children⟩).trans_ne dataName, restRooted⟩
        · exact ⟨dataName, restHypothesis restRooted⟩

end Writing

theorem ne_nil_of_head_browserTreeSegments {cwd segment : List Char} {rest : List (List Char)}
    (isHead : browserTreeSegments cwd = segment :: rest) : segment ≠ [] := by
  rw [browserTreeSegments] at isHead
  split at isHead
  · rw [← (List.cons.inj isHead).1]
    exact List.cons_ne_nil _ _
  · split at isHead
    · rw [← (List.cons.inj isHead).1]
      exact List.cons_ne_nil _ _
    · split at isHead
      · rw [← (List.cons.inj isHead).1]
        exact List.cons_ne_nil _ _
      · rw [← (List.cons.inj isHead).1]
        exact List.cons_ne_nil _ _

/-- What holds of every tree that is built. -/
structure Grown (tree : CodexBrowserTree) : Prop where
  sound : Sound tree.children
  rooted : Rooted tree.children

theorem grown_write {change : NodeData → NodeData} (marks : Marks change) (cwd : List Char)
    {tree : CodexBrowserTree} (grown : Grown tree) :
    Grown (tree.write freshNode change (browserTreeSegments cwd)) := by
  obtain ⟨segment, rest, isCons⟩ := List.exists_cons_of_ne_nil (browserTreeSegments_ne_nil cwd)
  have nonempty := ne_nil_of_head_browserTreeSegments isCons
  have freshTitled : (freshNode tree.data segment).Titled := fun _ => ⟨rfl, rfl⟩
  rw [isCons]
  refine ⟨?_, ?_⟩
  · exact sound_modifyChild (sound_write marks rest) segment _ freshTitled grown.sound
  · exact rooted_modifyChild (name_write marks rest) segment nonempty grown.rooted

theorem marks_project (bucket : LocalAgentProjectBucket) :
    Marks fun node => { node with project := some bucket } where
  holds := fun _ bare => nomatch bare.1
  titles := fun _ titled => titled
  name := fun _ => rfl

theorem marks_group (group : WorkspaceGroup) :
    Marks fun node =>
      { node with explicitTitle := some group.title, groupKind := some group.kind } where
  holds := fun _ bare => nomatch bare.2.1
  titles := fun _ _ noTitle => nomatch noTitle
  name := fun _ => rfl

theorem marks_document (document : WorkspaceDocumentSummary) :
    Marks fun node =>
      { node with explicitTitle := some document.title, document := some document } where
  holds := fun _ bare => nomatch bare.2.1
  titles := fun _ _ noTitle => nomatch noTitle
  name := fun _ => rfl

theorem grown_insert {tree : CodexBrowserTree} (grown : Grown tree) (insertion : Insertion) :
    Grown (insert tree insertion) := by
  cases insertion with
  | project bucket => exact grown_write (marks_project bucket) bucket.cwd grown
  | group group => exact grown_write (marks_group group) group.virtualPath grown
  | document document => exact grown_write (marks_document document) document.virtualPath grown

theorem grown_built (root : NodeData) (insertions : List Insertion) :
    Grown (built root insertions) := by
  induction insertions using List.reverseRec with
  | nil => exact ⟨trivial, trivial⟩
  | append_singleton insertions insertion inductionHypothesis =>
      rw [built, List.foldl_append]
      exact grown_insert inductionHypothesis insertion

/-! ## The display -/

/-- The compression of a tree changes only its display. -/
structure DisplayOnly (tree : CodexBrowserTree) : Prop where
  root : (compressCodexBrowserTree tree).data = tree.data
  kept : marked [] (compressCodexBrowserTree tree).children = marked [] tree.children
  labels : (labelled none (compressCodexBrowserTree tree).children).Sublist
    (labelled none tree.children)
  tight : Tight (compressCodexBrowserTree tree).children
  again : compressCodexBrowserTree (compressCodexBrowserTree tree) = compressCodexBrowserTree tree

theorem labelLength_le_of_sublist {above : Option (List Char)} {first second : Nodes}
    (sublist : (labelled above first).Sublist (labelled above second)) :
    labelLength above first ≤ labelLength above second :=
  ((sublist.filter _).map _).sum_le_sum fun _ _ => Nat.zero_le _

/-- The joined names change below a hollow node. -/
theorem not_hollow_of_labels {tree : CodexBrowserTree} (grown : Grown tree)
    (labels : (labelled none (compressCodexBrowserTree tree).children).Sublist
      (labelled none tree.children)) : ¬Hollow tree.children := by
  intro hollow
  have longer := (total_compressChildren grown.sound 0).2 hollow
  have shorter := labelLength_le_of_sublist labels
  rw [labelLength_none grown.rooted] at shorter
  have compressed := labelLength_none (rooted_compressChildren grown.rooted)
  rw [← compressed] at longer
  exact absurd shorter (Nat.not_le_of_lt longer)

/-- The compression of a tree that is built changes only its display, unless a node below `/root`
that has no name and holds nothing has one child, which the compression takes. -/
theorem displayOnly_iff (root : NodeData) (insertions : List Insertion) :
    DisplayOnly (built root insertions) ↔ ¬Hollow (built root insertions).children := by
  have grown := grown_built root insertions
  generalize built root insertions = tree at grown
  constructor
  · intro displayOnly
    exact not_hollow_of_labels grown displayOnly.labels
  · intro whole
    have normal := normal_compressChildren tree.children
    refine ⟨rfl, marked_compressChildren grown.sound [],
      labelled_compressChildren grown.sound whole none, tight_of_normal normal, ?_⟩
    exact congrArg (Trie.mk tree.data) (compressChildren_of_normal normal)

/-- A bucket whose directory is written with two slashes. -/
def doubledBucket : LocalAgentProjectBucket where
  cwd := "/root//x".toList
  sessions := [
    { kind := .codex
      filePath := "/root/.codex/sessions/rollout.jsonl".toList
      sessionId := "0198c0de".toList
      cwd := "/root//x".toList
      title := none
      detail := none
      modifiedEpochMs := 1 }]

theorem not_displayOnly_doubled :
    ¬DisplayOnly (built treeRoot.data [.project doubledBucket]) := by
  intro displayOnly
  have labels := displayOnly.labels.map fun entry : List Char × NodeData => entry.1
  revert labels
  decide

end Yggterm.CwdTree
