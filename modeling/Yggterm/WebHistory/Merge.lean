import Yggterm.WebHistory.Journal

/-!
# Importing into the journal

What an import keeps: the order of the visits, the visits themselves, the lines that are
no visits, and the file when the same batch comes again.  The rewrite keeps all of it; the
append writes right behind the last character of the file, so it joins its first line to
what follows the last newline.
-/

namespace Yggterm.WebHistory

open Text

/-! ## What an import should keep -/

def InVisitOrder (visits : List WebHistoryEntry) : Prop :=
  visits.Pairwise fun first second => first.tsMs ≤ second.tsMs

instance (visits : List WebHistoryEntry) : Decidable (InVisitOrder visits) :=
  inferInstanceAs (Decidable (visits.Pairwise _))

/-- A line less the carriage returns that end it. -/
def bare (line : List Char) : List Char := line.rdropWhile (· = '\r')

section Codec

variable (codec : VisitCodec)

/-- The fresh visits of a batch for a journal. -/
def freshFor (text : List Char) (visits : List WebHistoryEntry) : List WebHistoryEntry :=
  freshVisits ((readWebVisits codec text).map WebHistoryEntry.key) visits

/-- What the import of a batch should keep of a journal. -/
structure Preserves (text : List Char) (visits : List WebHistoryEntry) : Prop where
  ordered : InVisitOrder (readWebVisits codec (mergeWebVisits codec text visits).1)
  complete : (readWebVisits codec (mergeWebVisits codec text visits).1).Perm
    (readWebVisits codec text ++ freshFor codec text visits)
  kept : ∀ line ∈ lines text, trim line ≠ [] → fromJsonlLine codec line = none →
    ∃ same ∈ lines (mergeWebVisits codec text visits).1, bare same = bare line
  stable : (mergeWebVisits codec (mergeWebVisits codec text visits).1 visits).1 =
    (mergeWebVisits codec text visits).1

/-- Nothing is fresh, or something fresh is older than a visit of the file, or only blanks
follow the last newline of the file. -/
def Mergeable (text : List Char) (visits : List WebHistoryEntry) : Prop :=
  freshFor codec text visits = [] ∨
    (∃ fresh ∈ freshFor codec text visits, ∃ old ∈ readWebVisits codec text,
      fresh.tsMs < old.tsMs) ∨
    trim (lastPiece text) = []

end Codec

variable {codec : VisitCodec}

/-! ## Lines and their visits -/

def visitsOf (codec : VisitCodec) (written : List (List Char)) : List WebHistoryEntry :=
  written.filterMap (fromJsonlLine codec)

theorem visitsOf_append (first second : List (List Char)) :
    visitsOf codec (first ++ second) = visitsOf codec first ++ visitsOf codec second :=
  List.filterMap_append

theorem fromJsonlLine_of_blank {line : List Char} (blank : trim line = []) :
    fromJsonlLine codec line = none := by
  rw [fromJsonlLine, blank]
  exact codec.fromJson_nil

theorem readWebVisits_eq (text : List Char) :
    readWebVisits codec text = visitsOf codec (lines text) := by
  rw [readWebVisits, visitsOf, List.filterMap_filter]
  apply List.filterMap_congr
  intro line _
  by_cases blank : trim line = []
  · simp [blank, fromJsonlLine_of_blank blank]
  · simp [blank]

theorem fromJsonlLine_toJson (visit : WebHistoryEntry) :
    fromJsonlLine codec (codec.toJson visit) = some visit := by
  rw [fromJsonlLine, codec.trim_toJson]
  exact codec.fromJson_toJson visit

theorem visitsOf_toJson (visits : List WebHistoryEntry) :
    visitsOf codec (visits.map codec.toJson) = visits := by
  rw [visitsOf, List.filterMap_map]
  simp [fromJsonlLine_toJson]

theorem visitsOf_dropReturn (written : List (List Char)) :
    visitsOf codec (written.map dropReturn) = visitsOf codec written := by
  rw [visitsOf, List.filterMap_map]
  apply List.filterMap_congr
  intro line _
  simp [fromJsonlLine, trim_dropReturn]

theorem bare_dropReturn (line : List Char) : bare (dropReturn line) = bare line := by
  rw [dropReturn]
  split
  · next ends =>
      conv_rhs => rw [eq_append_of_getLast ends, bare, List.rdropWhile_concat_pos _ _ _ (by decide)]
      rfl
  · rfl

/-- The visits of a file whose lines all end. -/
theorem readWebVisits_flatMap {written : List (List Char)}
    (clean : ∀ line ∈ written, '\n' ∉ line) :
    readWebVisits codec (written.flatMap (· ++ ['\n'])) = visitsOf codec written := by
  rw [readWebVisits_eq, ← List.append_nil (List.flatMap _ _),
    lines_flatMap_newline clean, lines_nil,
    List.append_nil, visitsOf_dropReturn]

/-! ## The planner -/

theorem foldl_visit_fresh (visits : List WebHistoryEntry) (plan : Plan) :
    (visits.foldl Plan.visit plan).fresh = plan.fresh ++ freshVisits plan.seen visits := by
  induction visits generalizing plan with
  | nil => simp [freshVisits]
  | cons visit rest inductionHypothesis =>
      rw [List.foldl_cons, inductionHypothesis, freshVisits, Plan.visit]
      by_cases page : webHistoryUrlIsPage visit.url = true
      · by_cases isSeen : visit.key ∈ plan.seen
        · simp [page, isSeen]
        · simp [page, isSeen]
      · simp [page]

theorem planWrite_perm (codec : VisitCodec) (text : List Char)
    (visits : List WebHistoryEntry) :
    (planWrite codec text visits).1.Perm (freshFor codec text visits) := by
  rw [planWrite, foldl_visit_fresh, List.nil_append]
  exact List.mergeSort_perm _ _

theorem WebHistoryEntry.le_transitive (first second third : WebHistoryEntry) :
    first.le second = true → second.le third = true → first.le third = true := by
  simp only [WebHistoryEntry.le, decide_eq_true_eq]
  exact fun firstLe secondLe => firstLe.trans secondLe

theorem WebHistoryEntry.le_or_le (first second : WebHistoryEntry) :
    (first.le second || second.le first) = true := by
  simp only [WebHistoryEntry.le, Bool.or_eq_true, decide_eq_true_eq]
  exact le_total _ _

theorem WebHistoryEntry.tsMs_le {first second : WebHistoryEntry} (le : first.le second = true) :
    first.tsMs ≤ second.tsMs := by
  simp only [WebHistoryEntry.le, decide_eq_true_eq, Prod.Lex.toLex_le_toLex] at le
  rcases le with earlier | ⟨same, _⟩
  · exact le_of_lt earlier
  · exact le_of_eq same

theorem planWrite_ordered (codec : VisitCodec) (text : List Char)
    (visits : List WebHistoryEntry) : InVisitOrder (planWrite codec text visits).1 :=
  List.Pairwise.imp WebHistoryEntry.tsMs_le
    (List.pairwise_mergeSort WebHistoryEntry.le_transitive WebHistoryEntry.le_or_le _)

theorem key_mem_of_page {seen : List (List Char × Millis)} {visits : List WebHistoryEntry}
    {visit : WebHistoryEntry} (member : visit ∈ visits)
    (page : webHistoryUrlIsPage visit.url = true) :
    visit.key ∈ seen ∨ visit.key ∈ (freshVisits seen visits).map WebHistoryEntry.key := by
  induction visits generalizing seen with
  | nil => cases member
  | cons first rest inductionHypothesis =>
      rw [freshVisits]
      rcases List.mem_cons.mp member with rfl | later
      · by_cases isSeen : visit.key ∈ seen
        · exact .inl isSeen
        · rw [if_pos ⟨page, isSeen⟩]
          exact .inr (by simp)
      · split
        · rcases @inductionHypothesis (first.key :: seen) later with inSeen | isFresh
          · rcases List.mem_cons.mp inSeen with isFirst | before
            · exact .inr (by simp [isFirst])
            · exact .inl before
          · exact .inr (by simp [isFresh])
        · exact inductionHypothesis later

theorem freshVisits_eq_nil {seen : List (List Char × Millis)} {visits : List WebHistoryEntry}
    (known : ∀ visit ∈ visits, webHistoryUrlIsPage visit.url = true → visit.key ∈ seen) :
    freshVisits seen visits = [] := by
  induction visits with
  | nil => rfl
  | cons first rest inductionHypothesis =>
      obtain ⟨firstKnown, restKnown⟩ := List.forall_mem_cons.mp known
      rw [freshVisits, if_neg fun fresh => fresh.2 (firstKnown fresh.1)]
      exact inductionHypothesis restKnown

/-! ## The import in its three cases -/

theorem planWrite_eq_nil {text : List Char} {visits : List WebHistoryEntry}
    (nothing : freshFor codec text visits = []) : (planWrite codec text visits).1 = [] := by
  have same := planWrite_perm codec text visits
  rw [nothing] at same
  exact same.eq_nil

theorem mergeWebVisits_of_nil {text : List Char} {visits : List WebHistoryEntry}
    (nothing : freshFor codec text visits = []) : (mergeWebVisits codec text visits).1 = text := by
  have noFresh := planWrite_eq_nil nothing
  unfold mergeWebVisits
  generalize planWrite codec text visits = planned at noFresh ⊢
  obtain ⟨fresh, report⟩ := planned
  obtain rfl : fresh = [] := noFresh
  rfl

theorem all_max_le_iff {times : List Millis} {bound : Millis} :
    times.max?.all (fun newest => newest ≤ bound) = true ↔ ∀ time ∈ times, time ≤ bound := by
  cases isMax : times.max? with
  | none =>
      rw [List.max?_eq_none_iff.mp isMax]
      simp
  | some newest =>
      rw [Option.all_some, decide_eq_true_eq]
      exact List.max?_le_iff isMax

/-- With something fresh, the import appends when no visit of the file is newer than the
oldest fresh one, and else rewrites. -/
theorem mergeWebVisits_of_cons {text : List Char} {visits fresh : List WebHistoryEntry}
    (isFresh : (planWrite codec text visits).1 = fresh) (nonempty : fresh ≠ []) :
    ((∀ new ∈ fresh, ∀ old ∈ readWebVisits codec text, old.tsMs ≤ new.tsMs) ∧
      (mergeWebVisits codec text visits).1 = appendLines codec text fresh) ∨
    ((∃ new ∈ fresh, ∃ old ∈ readWebVisits codec text, new.tsMs < old.tsMs) ∧
      (mergeWebVisits codec text visits).1 =
        (rewriteLines codec (lines text) fresh 0).flatMap (· ++ ['\n'])) := by
  have ordered := planWrite_ordered codec text visits
  rw [isFresh] at ordered
  obtain ⟨oldest, rest, rfl⟩ := List.exists_cons_of_ne_nil nonempty
  have isOldest : ∀ new ∈ oldest :: rest, oldest.tsMs ≤ new.tsMs :=
    List.forall_mem_cons.mpr ⟨le_refl _, (List.pairwise_cons.mp ordered).1⟩
  unfold mergeWebVisits
  generalize planWrite codec text visits = planned at isFresh ⊢
  obtain ⟨_, report⟩ := planned
  subst isFresh
  simp only [all_max_le_iff]
  have isVisits : (lines text).filterMap (fromJsonlLine codec) = readWebVisits codec text :=
    (readWebVisits_eq text).symm
  rw [isVisits]
  by_cases newer : ∀ time ∈ (readWebVisits codec text).map WebHistoryEntry.tsMs,
      time ≤ oldest.tsMs
  · rw [if_pos newer]
    refine .inl ⟨fun new isNew old isOld => ?_, rfl⟩
    exact le_trans (newer old.tsMs (List.mem_map_of_mem isOld)) (isOldest new isNew)
  · rw [if_neg newer]
    refine .inr ⟨?_, rfl⟩
    simp only [List.mem_map, forall_exists_index, and_imp, forall_apply_eq_imp_iff₂, not_forall,
      not_le] at newer
    obtain ⟨old, isOld, older⟩ := newer
    exact ⟨oldest, List.mem_cons_self, old, isOld, older⟩

/-- A batch that came in whole has nothing fresh left. -/
theorem mergeWebVisits_stable {text merged : List Char} {visits : List WebHistoryEntry}
    (complete : (readWebVisits codec merged).Perm
      (readWebVisits codec text ++ freshFor codec text visits)) :
    (mergeWebVisits codec merged visits).1 = merged := by
  apply mergeWebVisits_of_nil
  apply freshVisits_eq_nil
  intro visit member page
  apply ((complete.map WebHistoryEntry.key).mem_iff).mpr
  rw [List.map_append, List.mem_append]
  exact key_mem_of_page member page

/-! ## The rewrite -/

theorem visitsOf_cons (line : List Char) (rest : List (List Char)) :
    visitsOf codec (line :: rest) = (fromJsonlLine codec line).toList ++ visitsOf codec rest := by
  rw [visitsOf, List.filterMap_cons]
  cases fromJsonlLine codec line with
  | none => rfl
  | some visit => rfl

theorem visitsOf_rewriteLines_of_blank {line : List Char} (blank : trim line = [])
    (rest : List (List Char)) (pending : List WebHistoryEntry) (carriedTs : Millis) :
    visitsOf codec (rewriteLines codec (line :: rest) pending carriedTs) =
      visitsOf codec (rewriteLines codec rest pending carriedTs) := by
  rw [rewriteLines, if_pos blank, visitsOf_cons, fromJsonlLine_of_blank (by decide)]
  rfl

theorem visitsOf_rewriteLines_of_solid {line : List Char} (solid : trim line ≠ [])
    (rest : List (List Char)) (pending : List WebHistoryEntry) (carriedTs : Millis) :
    let nextTs := ((fromJsonlLine codec line).map WebHistoryEntry.tsMs).getD carriedTs
    visitsOf codec (rewriteLines codec (line :: rest) pending carriedTs) =
      pending.takeWhile (fun next => next.tsMs ≤ nextTs) ++ ((fromJsonlLine codec line).toList ++
        visitsOf codec (rewriteLines codec rest
          (pending.dropWhile (fun next => next.tsMs ≤ nextTs)) nextTs)) := by
  rw [rewriteLines, if_neg solid, visitsOf_append, visitsOf_toJson, visitsOf_cons]

theorem visitsOf_rewriteLines_perm (written : List (List Char)) (pending : List WebHistoryEntry)
    (carriedTs : Millis) :
    (visitsOf codec (rewriteLines codec written pending carriedTs)).Perm
      (visitsOf codec written ++ pending) := by
  induction written generalizing pending carriedTs with
  | nil =>
      rw [rewriteLines, visitsOf_toJson]
      rfl
  | cons line rest inductionHypothesis =>
      rw [visitsOf_cons]
      by_cases blank : trim line = []
      · rw [visitsOf_rewriteLines_of_blank blank, fromJsonlLine_of_blank blank]
        exact inductionHypothesis pending carriedTs
      · rw [visitsOf_rewriteLines_of_solid blank]
        let nextTs := ((fromJsonlLine codec line).map WebHistoryEntry.tsMs).getD carriedTs
        let before := pending.takeWhile (fun next => decide (next.tsMs ≤ nextTs))
        let after := pending.dropWhile (fun next => decide (next.tsMs ≤ nextTs))
        have isPending : before ++ after = pending := List.takeWhile_append_dropWhile
        have moved : (before ++ (((fromJsonlLine codec line).toList ++ visitsOf codec rest) ++
            after)).Perm (((fromJsonlLine codec line).toList ++ visitsOf codec rest) ++
              (before ++ after)) := List.perm_append_comm_assoc _ _ _
        rw [isPending, List.append_assoc] at moved
        exact (((inductionHypothesis after nextTs).append_left _).append_left _).trans moved

/-- The visits not yet written are later than those written because they were not later. -/
theorem lt_of_mem_dropWhile {pending : List WebHistoryEntry} (ordered : InVisitOrder pending)
    {bound : Millis} {visit : WebHistoryEntry}
    (member : visit ∈ pending.dropWhile (fun next => next.tsMs ≤ bound)) : bound < visit.tsMs := by
  induction pending with
  | nil => cases member
  | cons first rest inductionHypothesis =>
      obtain ⟨isFirst, restOrdered⟩ := List.pairwise_cons.mp ordered
      by_cases early : first.tsMs ≤ bound
      · rw [List.dropWhile_cons_of_pos (by simpa using early)] at member
        exact inductionHypothesis restOrdered member
      · rw [List.dropWhile_cons_of_neg (by simpa using early)] at member
        have late : bound < first.tsMs := not_le.mp early
        rcases List.mem_cons.mp member with rfl | later
        · exact late
        · exact lt_of_lt_of_le late (isFirst visit later)

theorem le_of_mem_takeWhile {pending : List WebHistoryEntry} {bound : Millis}
    {visit : WebHistoryEntry}
    (member : visit ∈ pending.takeWhile (fun next => next.tsMs ≤ bound)) : visit.tsMs ≤ bound := by
  simpa using List.mem_takeWhile_imp member

theorem visitsOf_rewriteLines_ordered {written : List (List Char)}
    {pending : List WebHistoryEntry} {carriedTs : Millis}
    (writtenOrdered : InVisitOrder (visitsOf codec written)) (pendingOrdered : InVisitOrder pending)
    (carried : ∀ visit ∈ visitsOf codec written, carriedTs ≤ visit.tsMs) :
    InVisitOrder (visitsOf codec (rewriteLines codec written pending carriedTs)) := by
  induction written generalizing pending carriedTs with
  | nil =>
      rw [rewriteLines, visitsOf_toJson]
      exact pendingOrdered
  | cons line rest inductionHypothesis =>
      rw [visitsOf_cons] at writtenOrdered carried
      obtain ⟨_, restOrdered, lineFirst⟩ := List.pairwise_append.mp writtenOrdered
      by_cases blank : trim line = []
      · rw [visitsOf_rewriteLines_of_blank blank]
        exact inductionHypothesis restOrdered pendingOrdered
          fun visit member => carried visit (List.mem_append_right _ member)
      · rw [visitsOf_rewriteLines_of_solid blank]
        -- the time carried past the line bounds everything that is still to be written
        generalize isNext :
          ((fromJsonlLine codec line).map WebHistoryEntry.tsMs).getD carriedTs = nextTs
        have restLater : ∀ visit ∈ visitsOf codec rest, nextTs ≤ visit.tsMs := by
          intro visit member
          cases found : fromJsonlLine codec line with
          | none =>
              rw [found] at isNext
              exact isNext ▸ carried visit (List.mem_append_right _ member)
          | some here =>
              rw [found] at isNext lineFirst
              exact isNext ▸ lineFirst here (by simp) visit member
        have lineTime : ∀ visit ∈ (fromJsonlLine codec line).toList, visit.tsMs = nextTs := by
          intro visit member
          rw [Option.mem_toList] at member
          simp [← isNext, Option.mem_def.mp member]
        have laterThan : ∀ visit ∈ visitsOf codec (rewriteLines codec rest
            (pending.dropWhile (fun next => next.tsMs ≤ nextTs)) nextTs), nextTs ≤ visit.tsMs := by
          intro visit member
          rcases List.mem_append.mp
            ((visitsOf_rewriteLines_perm _ _ _).mem_iff.mp member) with inRest | dropped
          · exact restLater visit inRest
          · exact le_of_lt (lt_of_mem_dropWhile pendingOrdered dropped)
        apply List.pairwise_append.mpr
        refine ⟨pendingOrdered.sublist (List.takeWhile_sublist _), ?_, ?_⟩
        · apply List.pairwise_append.mpr
          refine ⟨?_, ?_, ?_⟩
          · cases fromJsonlLine codec line with
            | none => exact List.Pairwise.nil
            | some here => exact List.pairwise_singleton _ _
          · exact inductionHypothesis restOrdered
              (pendingOrdered.sublist (List.dropWhile_sublist _)) restLater
          · intro here isHere visit member
            rw [lineTime here isHere]
            exact laterThan visit member
        · intro early isEarly visit member
          apply le_trans (le_of_mem_takeWhile isEarly)
          rcases List.mem_append.mp member with isHere | later
          · exact le_of_eq (lineTime visit isHere).symm
          · exact laterThan visit later

theorem newline_not_mem_rewriteLines {written : List (List Char)}
    (clean : ∀ line ∈ written, '\n' ∉ line) (pending : List WebHistoryEntry) (carriedTs : Millis) :
    ∀ line ∈ rewriteLines codec written pending carriedTs, '\n' ∉ line := by
  induction written generalizing pending carriedTs with
  | nil =>
      intro line member
      obtain ⟨visit, _, rfl⟩ := List.mem_map.mp member
      exact codec.newline_not_mem_toJson visit
  | cons first rest inductionHypothesis =>
      obtain ⟨firstClean, restClean⟩ := List.forall_mem_cons.mp clean
      intro line member
      rw [rewriteLines] at member
      split at member
      · rcases List.mem_cons.mp member with rfl | later
        · exact List.not_mem_nil
        · exact inductionHypothesis restClean _ _ line later
      · rcases List.mem_append.mp member with isVisit | others
        · obtain ⟨visit, _, rfl⟩ := List.mem_map.mp isVisit
          exact codec.newline_not_mem_toJson visit
        · rcases List.mem_cons.mp others with rfl | later
          · exact firstClean
          · exact inductionHypothesis restClean _ _ line later

theorem mem_rewriteLines {written : List (List Char)} {line : List Char} (member : line ∈ written)
    (solid : trim line ≠ []) (pending : List WebHistoryEntry) (carriedTs : Millis) :
    line ∈ rewriteLines codec written pending carriedTs := by
  induction written generalizing pending carriedTs with
  | nil => cases member
  | cons first rest inductionHypothesis =>
      rw [rewriteLines]
      rcases List.mem_cons.mp member with rfl | later
      · rw [if_neg solid]
        exact List.mem_append_right _ List.mem_cons_self
      · split
        · exact List.mem_cons_of_mem _ (inductionHypothesis later _ _)
        · exact List.mem_append_right _ (List.mem_cons_of_mem _ (inductionHypothesis later _ _))

/-- The rewrite keeps everything. -/
theorem preserves_of_rewrite {text : List Char} {visits : List WebHistoryEntry}
    (ordered : InVisitOrder (readWebVisits codec text))
    (rewrites : (mergeWebVisits codec text visits).1 =
      (rewriteLines codec (lines text) (planWrite codec text visits).1 0).flatMap (· ++ ['\n'])) :
    Preserves codec text visits := by
  have clean : ∀ line ∈ rewriteLines codec (lines text) (planWrite codec text visits).1 0,
      '\n' ∉ line := newline_not_mem_rewriteLines (fun line => newline_not_mem_lines) _ _
  have isRead : readWebVisits codec (mergeWebVisits codec text visits).1 =
      visitsOf codec (rewriteLines codec (lines text) (planWrite codec text visits).1 0) := by
    rw [rewrites]
    exact readWebVisits_flatMap clean
  have complete : (readWebVisits codec (mergeWebVisits codec text visits).1).Perm
      (readWebVisits codec text ++ freshFor codec text visits) := by
    rw [isRead, readWebVisits_eq]
    exact (visitsOf_rewriteLines_perm _ _ _).trans
      ((planWrite_perm codec text visits).append_left _)
  refine ⟨?_, complete, ?_, mergeWebVisits_stable complete⟩
  · rw [isRead]
    apply visitsOf_rewriteLines_ordered _ (planWrite_ordered codec text visits)
    · intro visit _
      exact Fin.zero_le _
    · rw [← readWebVisits_eq]
      exact ordered
  · intro line member solid _
    refine ⟨dropReturn line, ?_, bare_dropReturn line⟩
    rw [rewrites, ← List.append_nil (List.flatMap _ _), lines_flatMap_newline clean]
    exact List.mem_append_left _ (List.mem_map_of_mem (mem_rewriteLines member solid _ _))

/-! ## The append -/

/-- The first fresh line is joined to what follows the last newline. -/
theorem appendLines_eq {text : List Char} {ended : List (List Char)}
    (isText : text = ended.flatMap (· ++ ['\n']) ++ lastPiece text) (first : WebHistoryEntry)
    (others : List WebHistoryEntry) :
    appendLines codec text (first :: others) =
      (ended ++ (lastPiece text ++ codec.toJson first) :: others.map codec.toJson).flatMap
        (· ++ ['\n']) := by
  rw [appendLines]
  conv_lhs => rw [isText]
  simp [List.flatMap_append, List.flatMap_map]

theorem readWebVisits_appendLines (codec : VisitCodec) {text : List Char}
    {ended : List (List Char)} (isText : text = ended.flatMap (· ++ ['\n']) ++ lastPiece text)
    (clean : ∀ line ∈ ended, '\n' ∉ line) (lastClean : '\n' ∉ lastPiece text)
    (first : WebHistoryEntry) (others : List WebHistoryEntry) :
    readWebVisits codec (appendLines codec text (first :: others)) = visitsOf codec ended ++
      ((fromJsonlLine codec (lastPiece text ++ codec.toJson first)).toList ++ others) ∧
    readWebVisits codec text = visitsOf codec ended ++
      (fromJsonlLine codec (lastPiece text)).toList := by
  constructor
  · rw [appendLines_eq isText, readWebVisits_flatMap, visitsOf_append, visitsOf_cons,
      visitsOf_toJson]
    intro line member
    rcases List.mem_append.mp member with inEnded | added
    · exact clean line inEnded
    · rcases List.mem_cons.mp added with rfl | later
      · rw [List.mem_append, not_or]
        exact ⟨lastClean, codec.newline_not_mem_toJson first⟩
      · obtain ⟨visit, _, rfl⟩ := List.mem_map.mp later
        exact codec.newline_not_mem_toJson visit
  · conv_lhs => rw [isText]
    rw [readWebVisits_eq, lines_eq_of_ended clean lastClean, visitsOf_append, visitsOf_dropReturn]
    congr 1
    split
    · next empty =>
        rw [empty, fromJsonlLine_of_blank (by decide)]
        rfl
    · rw [visitsOf_cons]
      simp [visitsOf]

/-- After blanks only, the append keeps everything. -/
theorem preserves_of_append {text : List Char} {visits fresh : List WebHistoryEntry}
    (isFresh : (planWrite codec text visits).1 = fresh) (nonempty : fresh ≠ [])
    (ordered : InVisitOrder (readWebVisits codec text))
    (newer : ∀ new ∈ fresh, ∀ old ∈ readWebVisits codec text, old.tsMs ≤ new.tsMs)
    (appends : (mergeWebVisits codec text visits).1 = appendLines codec text fresh)
    (blank : trim (lastPiece text) = []) : Preserves codec text visits := by
  obtain ⟨first, others, rfl⟩ := List.exists_cons_of_ne_nil nonempty
  obtain ⟨ended, isText, clean, lastClean⟩ := exists_ended text
  obtain ⟨isRead, isOld⟩ :=
    readWebVisits_appendLines codec isText clean lastClean first others
  have joined : fromJsonlLine codec (lastPiece text ++ codec.toJson first) = some first := by
    rw [fromJsonlLine, trim_append_of_trim_eq_nil blank]
    exact fromJsonlLine_toJson first
  rw [joined] at isRead
  rw [fromJsonlLine_of_blank blank, Option.toList_none, List.append_nil] at isOld
  have isMerged : readWebVisits codec (mergeWebVisits codec text visits).1 =
      readWebVisits codec text ++ first :: others := by
    rw [appends, isRead, isOld]
    rfl
  have complete : (readWebVisits codec (mergeWebVisits codec text visits).1).Perm
      (readWebVisits codec text ++ freshFor codec text visits) := by
    rw [isMerged, ← isFresh]
    exact (planWrite_perm codec text visits).append_left _
  refine ⟨?_, complete, ?_, mergeWebVisits_stable complete⟩
  · rw [isMerged]
    apply List.pairwise_append.mpr
    refine ⟨ordered, isFresh ▸ planWrite_ordered codec text visits, ?_⟩
    intro old isOld new isNew
    exact newer new isNew old isOld
  · intro line member solid _
    rw [isText, lines_eq_of_ended clean lastClean] at member
    rcases List.mem_append.mp member with inEnded | isLast
    · refine ⟨line, ?_, rfl⟩
      rw [appends, appendLines_eq isText, List.flatMap_append, lines_flatMap_newline clean]
      exact List.mem_append_left _ inEnded
    · split at isLast
      · cases isLast
      · rw [List.mem_singleton.mp isLast] at solid
        exact absurd blank solid

/-- After anything else, the append loses the first fresh visit. -/
theorem not_preserves_of_append {text : List Char} {visits fresh : List WebHistoryEntry}
    (isFresh : (planWrite codec text visits).1 = fresh) (nonempty : fresh ≠ [])
    (appends : (mergeWebVisits codec text visits).1 = appendLines codec text fresh)
    (solid : trim (lastPiece text) ≠ []) : ¬ Preserves codec text visits := by
  obtain ⟨first, others, rfl⟩ := List.exists_cons_of_ne_nil nonempty
  obtain ⟨ended, isText, clean, lastClean⟩ := exists_ended text
  obtain ⟨isRead, isOld⟩ :=
    readWebVisits_appendLines codec isText clean lastClean first others
  have joined : fromJsonlLine codec (lastPiece text ++ codec.toJson first) = none :=
    codec.fromJson_append_toJson _ first solid
  rw [joined] at isRead
  intro preserves
  have sameLength := preserves.complete.length_eq
  have freshLength := (planWrite_perm codec text visits).length_eq
  rw [appends, isRead, isOld] at sameLength
  rw [isFresh] at freshLength
  simp only [Option.toList_none, List.nil_append, List.length_append, List.length_cons]
    at sameLength freshLength
  omega

theorem preserves_of_nil {text : List Char} {visits : List WebHistoryEntry}
    (ordered : InVisitOrder (readWebVisits codec text))
    (nothing : freshFor codec text visits = []) : Preserves codec text visits := by
  have same := mergeWebVisits_of_nil nothing
  refine ⟨?_, ?_, ?_, ?_⟩
  · rw [same]
    exact ordered
  · rw [same, nothing, List.append_nil]
  · intro line member _ _
    rw [same]
    exact ⟨line, member, rfl⟩
  · rw [same, same]

/-- A journal in visit order comes out of an import as it should exactly when nothing is
fresh, something fresh is older than a visit of the file, or only blanks follow the last
newline. -/
theorem preserves_iff_mergeable (codec : VisitCodec) (text : List Char)
    (visits : List WebHistoryEntry) (ordered : InVisitOrder (readWebVisits codec text)) :
    Preserves codec text visits ↔ Mergeable codec text visits := by
  by_cases nothing : freshFor codec text visits = []
  · exact iff_of_true (preserves_of_nil ordered nothing) (.inl nothing)
  · have same := planWrite_perm codec text visits
    have nonempty : (planWrite codec text visits).1 ≠ [] := by
      intro empty
      rw [empty] at same
      exact nothing same.symm.eq_nil
    rcases mergeWebVisits_of_cons rfl nonempty with ⟨newer, appends⟩ |
      ⟨⟨new, isNew, old, isOld, older⟩, rewrites⟩
    · constructor
      · intro preserves
        apply Classical.byContradiction
        intro missed
        apply not_preserves_of_append rfl nonempty appends _ preserves
        intro blank
        exact missed (.inr (.inr blank))
      · rintro (empty | ⟨new, isNew, old, isOld, older⟩ | blank)
        · exact absurd empty nothing
        · exact absurd (newer new (same.mem_iff.mpr isNew) old isOld) (not_le.mpr older)
        · exact preserves_of_append rfl nonempty ordered newer appends blank
    · apply iff_of_true (preserves_of_rewrite ordered rewrites)
      exact .inr (.inl ⟨new, same.mem_iff.mp isNew, old, isOld, older⟩)

/-- A journal whose last line has no newline. -/
def unterminated : List Char :=
  "\x7b\"title\":\"News\",\"ts_ms\":10,\"url\":\"https://news.test/\"\x7d".toList

def laterVisit : WebHistoryEntry := ⟨20, "https://wiki.test/".toList, "Wiki".toList⟩

/-- With its newline the journal takes a later visit. -/
theorem preserves_of_newline : InVisitOrder (readWebVisits visitCodec (unterminated ++ ['\n'])) ∧
    Preserves visitCodec (unterminated ++ ['\n']) [laterVisit] := by
  have ordered : InVisitOrder (readWebVisits visitCodec (unterminated ++ ['\n'])) := by
    decide
  refine ⟨ordered, ?_⟩
  exact (preserves_iff_mergeable visitCodec _ _ ordered).mpr (.inr (.inr (by decide)))

/-- Without it, the later visit and the one of the file are both lost. -/
theorem not_preserves_of_unterminated : InVisitOrder (readWebVisits visitCodec unterminated) ∧
    ¬ Preserves visitCodec unterminated [laterVisit] := by
  refine ⟨by decide, ?_⟩
  have appends : (mergeWebVisits visitCodec unterminated [laterVisit]).1 =
      appendLines visitCodec unterminated [laterVisit] := by
    decide +kernel
  exact not_preserves_of_append (by decide +kernel) (by decide) appends (by decide +kernel)

end Yggterm.WebHistory
