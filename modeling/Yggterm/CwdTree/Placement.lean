import Yggterm.CwdTree.Tree

/-!
# Where the tree keeps what

What the assembled trie holds at a path of segments: the last document, the last group and
the last bucket that have these segments.
-/

namespace Yggterm.CwdTree

open Ownership Paths Text Tries Workspace

/-! ## Buckets -/

/-- Buckets in the order of their directories, each with sessions of its own. -/
structure Sorted (projects : List LocalAgentProjectBucket) : Prop where
  increasing : projects.Pairwise fun first second => first.cwd < second.cwd
  own : ∀ bucket ∈ projects, ∀ session ∈ bucket.sessions, session.cwd = bucket.cwd
  inhabited : ∀ bucket ∈ projects, bucket.sessions ≠ []

theorem Sorted.eq_of_cwd_eq {projects : List LocalAgentProjectBucket} (sorted : Sorted projects)
    {bucket other : LocalAgentProjectBucket} (isBucket : bucket ∈ projects)
    (isOther : other ∈ projects) (same : bucket.cwd = other.cwd) : bucket = other := by
  have distinct : (projects.map LocalAgentProjectBucket.cwd).Nodup :=
    List.pairwise_map.mpr (sorted.increasing.imp fun before => ne_of_lt before)
  exact List.inj_on_of_nodup_map distinct isBucket isOther same

theorem Sorted.nodup {projects : List LocalAgentProjectBucket} (sorted : Sorted projects) :
    projects.Nodup :=
  sorted.increasing.imp fun before same => ne_of_lt before (congrArg _ same)

/-- The sessions of all buckets, each with the directory of its bucket. -/
def bucketLeaves (projects : List LocalAgentProjectBucket) :
    List (List Char × LocalAgentSessionSummary) :=
  projects.flatMap fun bucket => bucket.sessions.map fun session => (bucket.cwd, session)

theorem perm_pushSession (session : LocalAgentSessionSummary)
    (projects : List LocalAgentProjectBucket) :
    (bucketLeaves (pushSession session projects)).Perm
      ((session.cwd, session) :: bucketLeaves projects) := by
  induction projects with
  | nil => exact .refl _
  | cons bucket rest inductionHypothesis =>
      rw [pushSession]
      split
      · exact .refl _
      · split
        · next same =>
            simp [bucketLeaves, ← same]
        · have pushed := inductionHypothesis.append_left
            (bucket.sessions.map fun session => (bucket.cwd, session))
          exact pushed.trans List.perm_middle

theorem cwd_of_mem_pushSession {session : LocalAgentSessionSummary}
    {projects : List LocalAgentProjectBucket} {bucket : LocalAgentProjectBucket}
    (member : bucket ∈ pushSession session projects) :
    bucket.cwd = session.cwd ∨ ∃ old ∈ projects, old.cwd = bucket.cwd := by
  induction projects with
  | nil =>
      rcases List.mem_singleton.mp member with rfl
      exact .inl rfl
  | cons first rest inductionHypothesis =>
      rw [pushSession] at member
      split at member
      · rcases List.mem_cons.mp member with rfl | old
        · exact .inl rfl
        · exact .inr ⟨bucket, old, rfl⟩
      · split at member
        · rcases List.mem_cons.mp member with rfl | old
          · exact .inr ⟨first, List.mem_cons_self, rfl⟩
          · exact .inr ⟨bucket, List.mem_cons_of_mem first old, rfl⟩
        · rcases List.mem_cons.mp member with rfl | later
          · exact .inr ⟨bucket, List.mem_cons_self, rfl⟩
          · rcases inductionHypothesis later with new | ⟨old, isOld, same⟩
            · exact .inl new
            · exact .inr ⟨old, List.mem_cons_of_mem first isOld, same⟩

theorem Sorted.pushSession {projects : List LocalAgentProjectBucket} (sorted : Sorted projects)
    (session : LocalAgentSessionSummary) : Sorted (pushSession session projects) := by
  induction projects with
  | nil =>
      refine ⟨List.pairwise_singleton _ _, ?_, ?_⟩ <;> simp [CwdTree.pushSession]
  | cons first rest inductionHypothesis =>
      obtain ⟨above, restIncreasing⟩ := List.pairwise_cons.mp sorted.increasing
      obtain ⟨firstOwn, restOwn⟩ := List.forall_mem_cons.mp sorted.own
      obtain ⟨firstInhabited, restInhabited⟩ := List.forall_mem_cons.mp sorted.inhabited
      rw [CwdTree.pushSession]
      split
      · next before =>
          refine ⟨List.pairwise_cons.mpr ⟨?_, sorted.increasing⟩,
            List.forall_mem_cons.mpr ⟨by simp, sorted.own⟩,
            List.forall_mem_cons.mpr ⟨by simp, sorted.inhabited⟩⟩
          intro bucket member
          rcases List.mem_cons.mp member with rfl | later
          · exact before
          · exact before.trans (above bucket later)
      · next notBefore =>
          split
          · next same =>
              refine ⟨List.pairwise_cons.mpr ⟨above, restIncreasing⟩,
                List.forall_mem_cons.mpr ⟨?_, restOwn⟩,
                List.forall_mem_cons.mpr ⟨by simp, restInhabited⟩⟩
              intro other member
              rcases List.mem_append.mp member with old | new
              · exact firstOwn other old
              · rw [List.mem_singleton.mp new, same]
          · next different =>
              have pushed := inductionHypothesis ⟨restIncreasing, restOwn, restInhabited⟩
              refine ⟨List.pairwise_cons.mpr ⟨?_, pushed.increasing⟩,
                List.forall_mem_cons.mpr ⟨firstOwn, pushed.own⟩,
                List.forall_mem_cons.mpr ⟨firstInhabited, pushed.inhabited⟩⟩
              intro bucket member
              rcases cwd_of_mem_pushSession member with new | ⟨old, isOld, same⟩
              · rw [new]
                exact lt_of_le_of_ne (not_lt.mp notBefore) different
              · rw [← same]
                exact above old isOld

/-- The buckets before their sessions are ordered. -/
def pushAll (sessions : List LocalAgentSessionSummary) : List LocalAgentProjectBucket :=
  sessions.foldl (fun projects session => pushSession session projects) []

theorem sorted_pushAll (sessions : List LocalAgentSessionSummary) : Sorted (pushAll sessions) := by
  rw [pushAll]
  apply List.foldlRecOn (motive := Sorted)
  · exact ⟨List.Pairwise.nil, nofun, nofun⟩
  · intro projects sorted session _
    exact sorted.pushSession session

theorem perm_pushAll (sessions : List LocalAgentSessionSummary) :
    (bucketLeaves (pushAll sessions)).Perm (sessions.map fun session =>
        (session.cwd, session)) := by
  induction sessions using List.reverseRec with
  | nil => exact .refl _
  | append_singleton earlier session inductionHypothesis =>
      have last : pushAll (earlier ++ [session]) = pushSession session (pushAll earlier) := by
        rw [pushAll, List.foldl_append]
        rfl
      rw [last, List.map_append, List.map_singleton]
      apply (perm_pushSession session _).trans
      exact (inductionHypothesis.cons _).trans (List.perm_append_singleton _ _).symm

theorem sorted_buckets (sessions : List LocalAgentSessionSummary) : Sorted (buckets sessions) := by
  have sorted := sorted_pushAll sessions
  refine ⟨List.pairwise_map.mpr sorted.increasing, ?_, ?_⟩
  · intro bucket member session isSession
    obtain ⟨pushed, isPushed, rfl⟩ := List.mem_map.mp member
    exact sorted.own pushed isPushed session (List.mem_mergeSort.mp isSession)
  · intro bucket member isNil
    obtain ⟨pushed, isPushed, rfl⟩ := List.mem_map.mp member
    have same := (List.mergeSort_perm pushed.sessions recentFirst).length_eq
    rw [show pushed.sessions.mergeSort recentFirst = [] from isNil] at same
    exact sorted.inhabited pushed isPushed (List.length_eq_zero_iff.mp same.symm)

/-- Putting the sessions into buckets loses none. -/
theorem perm_buckets (sessions : List LocalAgentSessionSummary) :
    (bucketLeaves (buckets sessions)).Perm (sessions.map fun session =>
        (session.cwd, session)) := by
  apply List.Perm.trans _ (perm_pushAll sessions)
  rw [bucketLeaves, buckets, List.flatMap_map]
  apply List.Perm.flatMap_left
  intro bucket _
  exact (List.mergeSort_perm bucket.sessions recentFirst).map _

/-! ## Segments -/

theorem browserTreeSegments_ne_nil (cwd : List Char) : browserTreeSegments cwd ≠ [] := by
  rw [browserTreeSegments]
  split
  · nofun
  · split
    · nofun
    · split <;> nofun

variable (durable : List StartpageDurableRow) (documents : List WorkspaceDocumentSummary)
  (groups : List WorkspaceGroup)

def documentSegments (document : WorkspaceDocumentSummary) : List (List Char) :=
  browserTreeSegments document.virtualPath

def groupSegments (group : WorkspaceGroup) : List (List Char) :=
  browserTreeSegments group.virtualPath

def bucketSegments (bucket : LocalAgentProjectBucket) : List (List Char) :=
  browserTreeSegments bucket.cwd

/-- The path of the node at a path of segments. -/
def browserPath (segments : List (List Char)) : List Char :=
  segments.foldl browserTreeChildPath "local".toList

def documentsTree : CodexBrowserTree :=
  Trie.writeAll freshNode
    (fun document node =>
      { node with explicitTitle := some document.title, document := some document })
    documentSegments documents treeRoot

def groupsTree : CodexBrowserTree :=
  Trie.writeAll freshNode
    (fun group node =>
      { node with explicitTitle := some group.title, groupKind := some group.kind })
    groupSegments groups (documentsTree documents)

theorem assembledTree_eq :
    assembledTree durable documents groups =
      Trie.writeAll freshNode (fun bucket node => { node with project := some bucket })
        bucketSegments (buckets (durable.map summary)) (groupsTree documents groups) := rfl

theorem sorted_treeRoot : treeRoot.children.Sorted := trivial

theorem fieldAt_treeRoot {Value : Type} (field : NodeData → Option Value)
    {path : List (List Char)} (nonempty : path ≠ []) : treeRoot.fieldAt field path = none := by
  cases path with
  | nil => exact absurd rfl nonempty
  | cons segment rest => rfl

theorem sorted_documentsTree : (documentsTree documents).children.Sorted :=
  Trie.sorted_writeAll sorted_treeRoot documents

theorem sorted_groupsTree : (groupsTree documents groups).children.Sorted :=
  Trie.sorted_writeAll (sorted_documentsTree documents) groups

theorem sorted_assembledTree : (assembledTree durable documents groups).children.Sorted := by
  rw [assembledTree_eq]
  exact Trie.sorted_writeAll (sorted_groupsTree documents groups) _

theorem data_assembledTree : (assembledTree durable documents groups).data = treeRoot.data := by
  rw [assembledTree_eq, Trie.data_writeAll fun bucket _ => browserTreeSegments_ne_nil bucket.cwd,
    groupsTree, Trie.data_writeAll fun group _ => browserTreeSegments_ne_nil group.virtualPath,
    documentsTree, Trie.data_writeAll fun document _ =>
      browserTreeSegments_ne_nil document.virtualPath]

section Fields

variable {Value : Type} {field : NodeData → Option Value} {path : List (List Char)}

/-- The buckets change no field but their own. -/
theorem fieldAt_assembledTree (blank : ∀ node segment, field (freshNode node segment) = none)
    (keeps : ∀ (bucket : LocalAgentProjectBucket) (node : NodeData),
      field { node with project := some bucket } = field node) :
    (assembledTree durable documents groups).fieldAt field path =
      (groupsTree documents groups).fieldAt field path :=
  Trie.fieldAt_writeAll_of_untouched blank keeps (sorted_groupsTree documents groups) _ path

/-- The groups change titles and kinds alone. -/
theorem fieldAt_groupsTree (blank : ∀ node segment, field (freshNode node segment) = none)
    (keeps : ∀ (group : WorkspaceGroup) (node : NodeData),
      field { node with explicitTitle := some group.title, groupKind := some group.kind } =
        field node) :
    (groupsTree documents groups).fieldAt field path =
        (documentsTree documents).fieldAt field path :=
  Trie.fieldAt_writeAll_of_untouched blank keeps (sorted_documentsTree documents) _ path

theorem fieldAt_documentsTree (blank : ∀ node segment, field (freshNode node segment) = none)
    (keeps : ∀ (document : WorkspaceDocumentSummary) (node : NodeData),
      field { node with explicitTitle := some document.title, document := some document } =
        field node) (nonempty : path ≠ []) :
    (documentsTree documents).fieldAt field path = none :=
  (Trie.fieldAt_writeAll_of_untouched blank keeps sorted_treeRoot _ path).trans
    (fieldAt_treeRoot field nonempty)

theorem blank_document (node : NodeData) (segment : List Char) :
    (freshNode node segment).document = none := rfl

theorem blank_project (node : NodeData) (segment : List Char) :
    (freshNode node segment).project = none := rfl

theorem blank_groupKind (node : NodeData) (segment : List Char) :
    (freshNode node segment).groupKind = none := rfl

theorem blank_explicitTitle (node : NodeData) (segment : List Char) :
    (freshNode node segment).explicitTitle = none := rfl

theorem documentAt_assembledTree (nonempty : path ≠ []) :
    (assembledTree durable documents groups).fieldAt NodeData.document path =
      Trie.lastAt documentSegments documents path := by
  have sets : ∀ (document : WorkspaceDocumentSummary) (node : NodeData), NodeData.document
      { node with explicitTitle := some document.title, document := some document } =
        some document := fun _ _ => rfl
  rw [fieldAt_assembledTree _ _ _ blank_document (fun _ _ => rfl),
    fieldAt_groupsTree _ _ blank_document (fun _ _ => rfl), documentsTree,
    Trie.fieldAt_writeAll blank_document sets sorted_treeRoot, fieldAt_treeRoot _ nonempty]
  cases Trie.lastAt documentSegments documents path <;> rfl

theorem projectAt_assembledTree (nonempty : path ≠ []) :
    (assembledTree durable documents groups).fieldAt NodeData.project path =
      Trie.lastAt bucketSegments (buckets (durable.map summary)) path := by
  have sets : ∀ (bucket : LocalAgentProjectBucket) (node : NodeData),
      NodeData.project { node with project := some bucket } = some bucket := fun _ _ => rfl
  rw [assembledTree_eq,
    Trie.fieldAt_writeAll blank_project sets (sorted_groupsTree documents groups),
    fieldAt_groupsTree _ _ blank_project (fun _ _ => rfl),
    fieldAt_documentsTree _ (fun _ _ => rfl) (fun _ _ => rfl) nonempty]
  cases Trie.lastAt bucketSegments (buckets (durable.map summary)) path <;> rfl

theorem groupKindAt_assembledTree (nonempty : path ≠ []) :
    (assembledTree durable documents groups).fieldAt NodeData.groupKind path =
      (Trie.lastAt groupSegments groups path).map WorkspaceGroup.kind := by
  have sets : ∀ (group : WorkspaceGroup) (node : NodeData), NodeData.groupKind
      { node with explicitTitle := some group.title, groupKind := some group.kind } =
        some group.kind := fun _ _ => rfl
  rw [fieldAt_assembledTree _ _ _ blank_groupKind (fun _ _ => rfl), groupsTree,
    Trie.fieldAt_writeAll blank_groupKind sets (sorted_documentsTree documents),
    fieldAt_documentsTree _ (fun _ _ => rfl) (fun _ _ => rfl) nonempty]
  cases Trie.lastAt groupSegments groups path <;> rfl

theorem titleAt_assembledTree {group : WorkspaceGroup}
    (isLast : Trie.lastAt groupSegments groups path = some group) :
    (assembledTree durable documents groups).fieldAt NodeData.explicitTitle path =
      some group.title := by
  have sets : ∀ (group : WorkspaceGroup) (node : NodeData), NodeData.explicitTitle
      { node with explicitTitle := some group.title, groupKind := some group.kind } =
        some group.title := fun _ _ => rfl
  rw [fieldAt_assembledTree _ _ _ blank_explicitTitle (fun _ _ => rfl), groupsTree,
    Trie.fieldAt_writeAll blank_explicitTitle sets (sorted_documentsTree documents), isLast]

end Fields

/-- Every node's path is made of its segments. -/
theorem placed_assembledTree :
    (assembledTree durable documents groups).Placed NodeData.fullPath browserTreeChildPath := by
  have rootPlaced : treeRoot.Placed NodeData.fullPath browserTreeChildPath := by
    intro path node isNode
    cases path with
    | nil =>
        cases isNode
        rfl
    | cons segment rest => cases isNode
  have extended : ∀ (node : NodeData) (segment : List Char),
      (freshNode node segment).fullPath = browserTreeChildPath node.fullPath segment :=
    fun _ _ => rfl
  have documentsPlaced : (documentsTree documents).Placed NodeData.fullPath browserTreeChildPath :=
    rootPlaced.writeAll extended (by intros; rfl) sorted_treeRoot documents
  have groupsPlaced : (groupsTree documents groups).Placed NodeData.fullPath browserTreeChildPath :=
    documentsPlaced.writeAll extended (by intros; rfl) (sorted_documentsTree documents) groups
  exact groupsPlaced.writeAll extended (by intros; rfl) (sorted_groupsTree documents groups) _

end Yggterm.CwdTree
