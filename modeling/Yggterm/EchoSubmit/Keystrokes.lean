import Yggterm.EchoSubmit.Arrival

/-!
# What the submit does to keystrokes

A client's draft is seen before every probe and before every Ctrl+U that follows a probe without
an echo.  As long as no client types between such a look and the write behind it, nothing that the
submit takes off the line is a visible character of a client.
-/

namespace Yggterm.EchoSubmit

open InputLine Runs

/-! ## The draft flag -/

/-- Spaces, tabs, and the line breaks inside of a paste. -/
def isBlank (byte : UInt8) : Bool := byte = 0x20 || byte = 0x09 || byte = 0x0d || byte = 0x0a

def draftAfter (draft : Bool) (data : List UInt8) : Bool := (inputLineAfter draft [] data).draft

theorem type_draft_congr (first second : List UInt8) (draft : Bool) (pasteDepth : Nat)
    (byte : UInt8) :
    (Composer.type id id { line := first, draft } pasteDepth byte).draft =
      (Composer.type id id { line := second, draft } pasteDepth byte).draft := by
  unfold Composer.type
  repeat' split
  all_goals rfl

theorem walkBytes_draft_congr (grammar : Grammar) (first second : List UInt8) (draft : Bool)
    (data : List UInt8) :
    (walkBytes id id (grammar, { line := first, draft }) data).2.draft =
      (walkBytes id id (grammar, { line := second, draft }) data).2.draft := by
  induction data generalizing grammar first second draft with
  | nil => rfl
  | cons byte rest inductionHypothesis =>
      rw [walkBytes_cons, walkBytes_cons]
      unfold walkByte
      dsimp only
      split_ifs
      · have sameDraft := type_draft_congr first second draft grammar.pasteDepth byte
        have walked := inductionHypothesis (grammar.step byte)
          (Composer.type id id { line := first, draft } grammar.pasteDepth byte).line
          (Composer.type id id { line := second, draft } grammar.pasteDepth byte).line
          (Composer.type id id { line := first, draft } grammar.pasteDepth byte).draft
        refine walked.trans ?_
        rw [sameDraft]
      · exact inductionHypothesis _ _ _ _

/-- What is on the line already is no matter to the flag. -/
theorem draft_inputLineAfter (draft : Bool) (line data : List UInt8) :
    (inputLineAfter draft line data).draft = draftAfter draft data :=
  walkBytes_draft_congr Grammar.ground line [] draft data

theorem type_draft_mono {first second : List UInt8} {less more : Bool}
    (mono : less = true → more = true) (pasteDepth : Nat) (byte : UInt8) :
    (Composer.type id id { line := first, draft := less } pasteDepth byte).draft = true →
      (Composer.type id id { line := second, draft := more } pasteDepth byte).draft = true := by
  unfold Composer.type
  split_ifs <;> first | exact mono | exact id

theorem walkBytes_draft_mono {grammar : Grammar} {first second : List UInt8} {less more : Bool}
    (mono : less = true → more = true) (data : List UInt8) :
    (walkBytes id id (grammar, { line := first, draft := less }) data).2.draft = true →
      (walkBytes id id (grammar, { line := second, draft := more }) data).2.draft = true := by
  induction data generalizing grammar first second less more with
  | nil => exact mono
  | cons byte rest inductionHypothesis =>
      rw [walkBytes_cons, walkBytes_cons]
      unfold walkByte
      dsimp only
      split_ifs
      · exact inductionHypothesis (type_draft_mono mono grammar.pasteDepth byte)
      · exact inductionHypothesis mono

theorem draftAfter_mono {less more : Bool} (mono : less = true → more = true)
    (data : List UInt8) : draftAfter less data = true → draftAfter more data = true :=
  walkBytes_draft_mono mono data

/-! ## Visible cells -/

/-- A visible character of a client stands on the line only under the flag. -/
def Marked (line : List Cell) (visible : Bool) : Prop :=
  ∀ cell ∈ line, cell.2 = .client → isBlank cell.1 = false → visible = true

theorem Marked.append_blank {line : List Cell} {visible : Bool} (marked : Marked line visible)
    {byte : UInt8} (blank : isBlank byte = true) (author : Author) :
    Marked (line ++ [(byte, author)]) visible := by
  intro cell member isClient isVisible
  rcases List.mem_append.mp member with old | new
  · exact marked cell old isClient isVisible
  · rw [List.mem_singleton.mp new, blank] at isVisible
    cases isVisible

/-- The flag is walked along with the line. -/
theorem marked_type {composer : Composer Cell} {other : List UInt8} {visible : Bool}
    (marked : Marked composer.line visible) (pasteDepth : Nat) (byte : UInt8) :
    Marked (composer.type (fun byte => (byte, .client)) Prod.fst pasteDepth byte).line
      (Composer.type id id { line := other, draft := visible } pasteDepth byte).draft := by
  unfold Composer.type
  split_ifs with enter _ clears _ erases printable space
  · exact List.forall_mem_nil _
  · refine marked.append_blank ?_ _
    rcases enter with rfl | rfl <;> rfl
  · exact List.forall_mem_nil _
  · exact marked
  · exact fun cell member => marked cell ((popScalar_isPrefix composer.line).subset member)
  · exact fun _ _ _ _ => rfl
  · refine marked.append_blank ?_ _
    rcases space with rfl | rfl <;> rfl
  · exact marked

theorem marked_walkBytes {grammar : Grammar} {composer : Composer Cell} {other : List UInt8}
    {visible : Bool} (marked : Marked composer.line visible) (data : List UInt8) :
    Marked (walkBytes (fun byte => (byte, .client)) Prod.fst (grammar, composer) data).2.line
      (walkBytes id id (grammar, { line := other, draft := visible }) data).2.draft := by
  induction data generalizing grammar composer other visible with
  | nil => exact marked
  | cons byte rest inductionHypothesis =>
      rw [walkBytes_cons, walkBytes_cons]
      unfold walkByte
      dsimp only
      split_ifs
      · exact inductionHypothesis (marked_type marked grammar.pasteDepth byte)
      · exact inductionHypothesis marked

namespace Program

/-- Nothing visible of a client was taken off the line. -/
def Spared (program : Program) : Prop :=
  ∀ cell ∈ program.taken, cell.2 = .client → isBlank cell.1 = true

@[simp]
theorem feedAll_reading (program : Program) (writes : List (Author × List UInt8)) :
    (program.feedAll writes).reading = program.reading := by
  induction writes generalizing program with
  | nil => rfl
  | cons write rest inductionHypothesis =>
      exact (inductionHypothesis (program.feed write.1 write.2)).trans (feed_reading _ _ _)

@[simp]
theorem feedAll_waiting (program : Program) (writes : List (Author × List UInt8)) :
    (program.feedAll writes).waiting = program.waiting := by
  induction writes generalizing program with
  | nil => rfl
  | cons write rest inductionHypothesis =>
      exact (inductionHypothesis (program.feed write.1 write.2)).trans (feed_waiting _ _ _)

variable {program : Program} {author : Author}

theorem taken_readByte_client (byte : UInt8) :
    (readByte .client program byte).taken = program.taken := rfl

theorem taken_feed_client (data : List UInt8) :
    (program.feed .client data).taken = program.taken := by
  induction data generalizing program with
  | nil => rfl
  | cons byte rest inductionHypothesis =>
      rw [feed_cons, inductionHypothesis, taken_readByte_client]

/-- A byte of the submit takes nothing visible off a line without visible cells. -/
theorem readByte_spared (own : author ≠ .client) (byte : UInt8)
    (marked : Marked program.walk.2.line false) (spared : program.Spared) :
    Marked (readByte author program byte).walk.2.line false ∧
      (readByte author program byte).Spared := by
  constructor
  · intro cell member isClient isVisible
    rcases mem_walkByte member with old | rfl
    · exact marked cell old isClient isVisible
    · exact absurd isClient own
  · intro cell member isClient
    unfold readByte at member
    dsimp only at member
    rw [if_neg own] at member
    rcases List.mem_append.mp member with before | now
    · exact spared cell before isClient
    · cases blank : isBlank cell.1 with
      | true => rfl
      | false => exact absurd (marked cell (List.mem_of_mem_drop now) isClient blank) (by decide)

theorem feed_spared (own : author ≠ .client) (data : List UInt8)
    (marked : Marked program.walk.2.line false) (spared : program.Spared) :
    Marked (program.feed author data).walk.2.line false ∧ (program.feed author data).Spared := by
  induction data generalizing program with
  | nil => exact ⟨marked, spared⟩
  | cons byte rest inductionHypothesis =>
      obtain ⟨stillMarked, stillSpared⟩ := readByte_spared own byte marked spared
      exact inductionHypothesis stillMarked stillSpared

end Program

/-! ## What a reader of the terminal may see -/

/-- Whether the program is between whole writes, and whether a visible cell may be on the line. -/
structure Sight where
  settled : Bool
  visible : Bool

namespace Sight

def clear : Sight where
  settled := true
  visible := false

def after (sight : Sight) (write : Author × List UInt8) : Sight :=
  match write.1 with
  | .client =>
      { settled := sight.settled && decide (Settled write.2)
        visible := !sight.settled || draftAfter sight.visible write.2 }
  | .marker => sight
  | .prompt => { sight with settled := false }

def afterAll (sight : Sight) (writes : List (Author × List UInt8)) : Sight :=
  writes.foldl after sight

/-- The submit writes to a line without visible cells, and its markers are whole. -/
def Allows (sight : Sight) (write : Author × List UInt8) : Prop :=
  write.1 ≠ .client → sight.visible = false ∧ (write.1 = .marker → Settled write.2)

def AllowsAll (sight : Sight) : List (Author × List UInt8) → Prop
  | [] => True
  | write :: rest => sight.Allows write ∧ (sight.after write).AllowsAll rest

/-- Less may be on the line, and more is known of the program. -/
structure Under (less more : Sight) : Prop where
  settled : more.settled = true → less.settled = true
  visible : less.visible = true → more.visible = true

variable {less more sight : Sight}

theorem Under.refl (sight : Sight) : sight.Under sight := ⟨id, id⟩

theorem clear_under (sight : Sight) : clear.Under sight :=
  ⟨fun _ => rfl, (fun visible => by cases visible)⟩

theorem Under.after (under : less.Under more) (write : Author × List UInt8) :
    (less.after write).Under (more.after write) := by
  obtain ⟨author, data⟩ := write
  cases author with
  | client =>
      constructor
      · intro both
        obtain ⟨settled, whole⟩ := Bool.and_eq_true_iff.mp both
        exact Bool.and_eq_true_iff.mpr ⟨under.settled settled, whole⟩
      · intro seen
        rcases Bool.or_eq_true_iff.mp seen with unsettled | drafted
        · refine Bool.or_eq_true_iff.mpr (.inl ?_)
          rw [Bool.not_eq_true', Bool.eq_false_iff] at unsettled ⊢
          exact fun settled => unsettled (under.settled settled)
        · exact Bool.or_eq_true_iff.mpr (.inr (draftAfter_mono under.visible data drafted))
  | marker => exact under
  | prompt => exact ⟨(fun settled => by cases settled), under.visible⟩

theorem Under.afterAll (under : less.Under more) (writes : List (Author × List UInt8)) :
    (less.afterAll writes).Under (more.afterAll writes) := by
  induction writes generalizing less more with
  | nil => exact under
  | cons write rest inductionHypothesis => exact inductionHypothesis (under.after write)

theorem Under.allows (under : less.Under more) {write : Author × List UInt8}
    (allows : more.Allows write) : less.Allows write := by
  intro own
  obtain ⟨hidden, whole⟩ := allows own
  refine ⟨Bool.eq_false_iff.mpr fun visible => ?_, whole⟩
  rw [under.visible visible] at hidden
  cases hidden

theorem Under.allowsAll (under : less.Under more) {writes : List (Author × List UInt8)}
    (allows : more.AllowsAll writes) : less.AllowsAll writes := by
  induction writes generalizing less more with
  | nil => trivial
  | cons write rest inductionHypothesis =>
      exact ⟨under.allows allows.1, inductionHypothesis (under.after write) allows.2⟩

theorem allowsAll_append (first second : List (Author × List UInt8)) :
    sight.AllowsAll (first ++ second) ↔
      sight.AllowsAll first ∧ (sight.afterAll first).AllowsAll second := by
  induction first generalizing sight with
  | nil => exact (and_iff_right trivial).symm
  | cons write rest inductionHypothesis =>
      rw [List.cons_append, AllowsAll, AllowsAll, inductionHypothesis, and_assoc]
      rfl

end Sight

/-! ## The program under watch -/

/-- What is known of the program and what it has read. -/
structure Sees (sight : Sight) (program : Program) : Prop where
  ground : sight.settled = true → program.walk.1 = Grammar.ground
  marked : Marked program.walk.2.line sight.visible
  spared : program.Spared

theorem marked_feed_client {program : Program} {visible : Bool}
    (ground : program.walk.1 = Grammar.ground) (marked : Marked program.walk.2.line visible)
    (data : List UInt8) :
    Marked (program.feed .client data).walk.2.line (draftAfter visible data) := by
  rw [Program.feed_walk]
  generalize program.walk = walk at ground marked
  obtain ⟨grammar, composer⟩ := walk
  obtain rfl : grammar = Grammar.ground := ground
  exact marked_walkBytes marked data

theorem Sees.feed_own {sight : Sight} {program : Program} {author : Author}
    (sees : Sees sight program) (own : author ≠ .client) (hidden : sight.visible = false)
    (data : List UInt8) :
    Marked (program.feed author data).walk.2.line sight.visible ∧
      (program.feed author data).Spared := by
  have marked := sees.marked
  rw [hidden] at marked ⊢
  exact Program.feed_spared own data marked sees.spared

theorem Sees.feed {sight : Sight} {program : Program} {author : Author} {data : List UInt8}
    (sees : Sees sight program) (allows : sight.Allows (author, data)) :
    Sees (sight.after (author, data)) (program.feed author data) := by
  cases author with
  | client =>
      refine ⟨?_, ?_, ?_⟩
      · intro both
        obtain ⟨settled, whole⟩ := Bool.and_eq_true_iff.mp both
        exact Program.feed_ground _ _ (of_decide_eq_true whole) (sees.ground settled)
      · by_cases settled : sight.settled = true
        · have walked := marked_feed_client (sees.ground settled) sees.marked data
          simpa [Sight.after, settled] using walked
        · simp [Sight.after, settled, Marked]
      · intro cell member
        rw [Program.taken_feed_client] at member
        exact sees.spared cell member
  | marker =>
      have own : Author.marker ≠ .client := by decide
      obtain ⟨marked, spared⟩ := sees.feed_own own (allows own).1 data
      exact ⟨(fun settled =>
        Program.feed_ground _ _ ((allows own).2 rfl) (sees.ground settled)), marked, spared⟩
  | prompt =>
      have own : Author.prompt ≠ .client := by decide
      obtain ⟨marked, spared⟩ := sees.feed_own own (allows own).1 data
      exact ⟨(fun settled => by cases settled), marked, spared⟩

theorem Sees.feedAll {sight : Sight} {program : Program} {writes : List (Author × List UInt8)}
    (sees : Sees sight program) (allows : sight.AllowsAll writes) :
    Sees (sight.afterAll writes) (program.feedAll writes) := by
  induction writes generalizing sight program with
  | nil => exact sees
  | cons write rest inductionHypothesis => exact inductionHypothesis (sees.feed allows.1) allows.2

/-- `final` is what will be known once the program has read what waits. -/
structure Watched (final : Sight) (program : Program) : Prop where
  awake : program.reading = true → Sees final program ∧ program.waiting = []
  asleep : program.reading = false → Sees .clear program ∧
    Sight.clear.AllowsAll program.waiting ∧ final = Sight.clear.afterAll program.waiting

theorem Watched.receive {final : Sight} {program : Program} {author : Author} {data : List UInt8}
    (watched : Watched final program) (allows : final.Allows (author, data)) :
    Watched (final.after (author, data)) (program.receive author data) := by
  cases reading : program.reading with
  | true =>
      obtain ⟨sees, nothing⟩ := watched.awake reading
      rw [Program.receive_of_reading _ _ reading]
      refine ⟨fun _ => ⟨sees.feed allows, by rw [Program.feed_waiting]; exact nothing⟩, ?_⟩
      intro asleep
      rw [Program.feed_reading, reading] at asleep
      cases asleep
  | false =>
      obtain ⟨sees, allowed, isFinal⟩ := watched.asleep reading
      rw [Program.receive_of_not_reading _ _ reading]
      refine ⟨fun awake => ?_, fun _ => ⟨⟨sees.ground, sees.marked, sees.spared⟩, ?_, ?_⟩⟩
      · rw [reading] at awake
        cases awake
      · rw [Sight.allowsAll_append, ← isFinal]
        exact ⟨allowed, allows, trivial⟩
      · rw [isFinal, Sight.afterAll, Sight.afterAll, List.foldl_append]
        rfl

theorem Sight.allowsAll_drop {sight : Sight} {writes : List (Author × List UInt8)}
    (allows : sight.AllowsAll writes) (lost : Nat) :
    Sight.clear.AllowsAll (writes.drop lost) ∧
      (Sight.clear.afterAll (writes.drop lost)).Under (sight.afterAll writes) := by
  have split := List.take_append_drop lost writes
  rw [← split, Sight.allowsAll_append] at allows
  refine ⟨(Sight.clear_under _).allowsAll allows.2, ?_⟩
  have later := (Sight.clear_under (sight.afterAll (writes.take lost))).afterAll (writes.drop lost)
  rwa [Sight.afterAll, Sight.afterAll, Sight.afterAll, ← List.foldl_append, split] at later

theorem Watched.startReading {final : Sight} {program : Program} (watched : Watched final program)
    (lost : Nat) : ∃ less : Sight, less.Under final ∧ Watched less (program.startReading lost) := by
  cases reading : program.reading with
  | true => exact ⟨final, .refl final, by rwa [Program.startReading_of_reading reading]⟩
  | false =>
      obtain ⟨sees, allowed, isFinal⟩ := watched.asleep reading
      obtain ⟨stillAllowed, under⟩ := Sight.allowsAll_drop allowed lost
      refine ⟨_, isFinal ▸ under, ?_⟩
      unfold Program.startReading
      rw [reading]
      refine ⟨fun _ => ⟨?_, Program.feedAll_waiting _ _⟩, fun asleep => ?_⟩
      · exact Sees.feedAll ⟨sees.ground, sees.marked, sees.spared⟩ stillAllowed
      · rw [if_neg (by decide), Program.feedAll_reading] at asleep
        cases asleep

/-! ## The submit -/

/-- The places between a look at the draft and the writes behind it. -/
def Place.exposed : Place → Bool
  | .probing | .settling _ | .clearing | .typing _ | .entering _ | .clearingRetry => true
  | _ => false

/-- The places from which no marker is written any more. -/
def Place.prompted : Place → Bool
  | .entering _ | .finished _ => true
  | _ => false

/-- What a step of the submit does. -/
inductive Does (state next : State) : Prop
  | looks (runtime : next.runtime = state.runtime) (program : next.program = state.program)
      (exposed : next.place.exposed = true →
        state.place.exposed = true ∨
          state.place.prompted = false ∧ state.runtime.pendingInputDraft = false)
      (prompted : next.place.prompted = false → state.place.prompted = false)
  | writes (author : Author) (data : List UInt8) (own : author ≠ .client)
      (whole : author = .marker → Settled data) (exposed : state.place.exposed = true)
      (runtime : next.runtime = state.runtime)
      (program : next.program = state.program.receive author data)
      (last : author = .prompt → next.place.prompted = true)
      (prompted : next.place.prompted = false → state.place.prompted = false)

namespace State

variable {request : Request} {state : State}

theorem does_finish (outcome : PromptSubmitOutcome) : Does state (state.finish outcome) :=
  .looks rfl rfl (fun exposed => by cases exposed) (fun prompted => by cases prompted)

theorem does_writeThen (request : Request) (state : State) {author : Author} {data : List UInt8}
    {next : Place} (own : author ≠ .client) (whole : author = .marker → Settled data)
    (exposed : state.place.exposed = true) (last : author = .prompt → next.prompted = true)
    (prompted : next.prompted = false → state.place.prompted = false) (outcome : EnqueueOutcome) :
    Does state (state.writeThen request author data outcome next) := by
  unfold writeThen write
  split_ifs with alive
  · have passedOn : author = .marker →
        Settled (writeDaemonOriginated request.key data outcome).2 :=
      fun isMarker => settled_writeDaemonOriginated (whole isMarker) request.key outcome
    cases answer : (writeDaemonOriginated request.key data outcome).1 with
    | error error =>
        exact .writes author _ own passedOn exposed rfl rfl (fun _ => rfl)
          (fun prompted => by cases prompted)
    | ok => exact .writes author _ own passedOn exposed rfl rfl last prompted
  · exact .looks rfl rfl (fun exposed => by cases exposed) (fun prompted => by cases prompted)

theorem draft_of_not_humanIsTyping (calm : ¬ state.humanIsTyping = true) :
    state.runtime.pendingInputDraft = false := by
  unfold humanIsTyping at calm
  rw [Bool.or_eq_true, not_or] at calm
  exact Bool.eq_false_iff.mpr calm.2

theorem does_submitStep (request : Request) (state : State) (outcome : EnqueueOutcome) :
    Does state (state.submitStep request outcome) := by
  have still : Does state state := .looks rfl rfl .inl id
  unfold submitStep
  cases place : state.place with
  | opening =>
      dsimp only
      split_ifs
      · exact .looks rfl rfl (fun exposed => by cases exposed) (fun _ => by rw [place]; rfl)
      · exact does_finish _
  | asking =>
      dsimp only
      split_ifs
      · exact does_finish _
      · exact .looks rfl rfl (fun exposed => by cases exposed) (fun _ => by rw [place]; rfl)
  | checking =>
      dsimp only
      split_ifs with typing
      · exact does_finish _
      · have calm := draft_of_not_humanIsTyping typing
        exact .looks rfl rfl (fun _ => .inr ⟨(by rw [place]; rfl), calm⟩)
          (fun _ => by rw [place]; rfl)
  | probing =>
      have does : Does _ (State.writeThen request _ .marker probe outcome
          (.settling (state.clock + probeSettle))) :=
        does_writeThen request { state with place := .probing, probes := state.probes + 1 }
          (by decide) (fun _ => settled_probe) rfl (fun isPrompt => by cases isPrompt)
          (fun _ => rfl) outcome
      dsimp only
      cases does with
      | looks runtime program exposed prompted =>
          refine .looks runtime program ?_ ?_ <;> rwa [place]
      | writes author data own whole exposed runtime program last prompted =>
          refine .writes author data own whole ?_ runtime program last ?_ <;> rwa [place]
  | settling wake =>
      dsimp only
      split_ifs
      · exact still
      · exact .looks rfl rfl (fun _ => .inl (by rw [place]; rfl)) (fun _ => by rw [place]; rfl)
      · exact .looks rfl rfl (fun exposed => by cases exposed) (fun _ => by rw [place]; rfl)
  | clearing =>
      exact does_writeThen request state (by decide) (fun _ => settled_clearLine)
        (by rw [place]; rfl) (fun isPrompt => by cases isPrompt) (fun _ => by rw [place]; rfl)
        outcome
  | typing wake =>
      dsimp only
      split_ifs
      · exact still
      · exact does_writeThen request state (by decide) (fun isMarker => by cases isMarker)
          (by rw [place]; rfl) (fun _ => rfl) (fun prompted => by cases prompted) outcome
  | entering wake =>
      dsimp only
      split_ifs
      · exact still
      · exact does_writeThen request state (by decide) (fun isMarker => by cases isMarker)
          (by rw [place]; rfl) (fun _ => rfl) (fun prompted => by cases prompted) outcome
  | rechecking =>
      dsimp only
      split_ifs with typing
      · exact does_finish _
      · have calm := draft_of_not_humanIsTyping typing
        exact .looks rfl rfl (fun _ => .inr ⟨(by rw [place]; rfl), calm⟩)
          (fun _ => by rw [place]; rfl)
  | clearingRetry =>
      unfold write
      dsimp only
      split_ifs
      · exact .writes .marker (writeDaemonOriginated request.key clearLine outcome).2 (by decide)
          (fun _ => settled_writeDaemonOriginated settled_clearLine request.key outcome)
          (by rw [place]; rfl) rfl rfl (fun isPrompt => by cases isPrompt)
          (fun _ => by rw [place]; rfl)
      · exact .looks rfl rfl (fun exposed => by cases exposed) (fun _ => by rw [place]; rfl)
  | judging =>
      dsimp only
      split_ifs
      · exact does_finish _
      · exact .looks rfl rfl (fun exposed => by cases exposed) (fun _ => by rw [place]; rfl)
  | backingOff wake =>
      dsimp only
      split_ifs
      · exact still
      · exact .looks rfl rfl (fun exposed => by cases exposed) (fun _ => by rw [place]; rfl)
  | finished result => exact still

end State

/-- Clients type whole pieces that reach the queue, and not between a look and its writes. -/
def Courteous (state : State) : Action → Prop
  | .client data _ outcome =>
      state.place.exposed = false ∧
        (state.place.isFinished = false → Settled data ∧ outcome.sent = true)
  | _ => True

instance (state : State) : (action : Action) → Decidable (Courteous state action)
  | .client _ _ _ => inferInstanceAs (Decidable (_ ∧ _))
  | .submit _ | .startReading _ | .repaint _ | .exit | .pass _ => .isTrue trivial

/-- The flag of the runtime covers what may be visible, and nothing is visible behind a look. -/
structure Covered (final : Sight) (state : State) : Prop where
  watched : Watched final state.program
  settled : state.place.prompted = false → final.settled = true
  shown : state.place.prompted = false → final.visible = true →
    state.runtime.pendingInputDraft = true
  hidden : state.place.exposed = true → final.visible = false

namespace Covered

variable {request : Request} {state : State} {final : Sight}

theorem spared (covered : Covered final state) : state.program.Spared := by
  cases reading : state.program.reading with
  | true => exact (covered.watched.awake reading).1.spared
  | false => exact (covered.watched.asleep reading).1.spared

/-- A client's write that is sent reaches the terminal as it was recorded. -/
theorem writeWithProvenance_of_sent (runtime : Runtime) (key : String) (data : List UInt8)
    (programmatic : Bool) {outcome : EnqueueOutcome} (sent : outcome.sent = true) :
    (runtime.writeWithProvenance key data programmatic outcome).1.2 = data ∧
      (runtime.writeWithProvenance key data programmatic outcome).2.pendingInputDraft =
        draftAfter runtime.pendingInputDraft data := by
  unfold Runtime.writeWithProvenance
  split_ifs with empty
  · exact ⟨empty.symm, by rw [empty]; rfl⟩
  · refine ⟨by rw [writeDaemonOriginated, if_neg empty, if_pos sent], ?_⟩
    exact draft_inputLineAfter runtime.pendingInputDraft runtime.pendingInputLine data

theorem submitStep (covered : Covered final state) (outcome : EnqueueOutcome) :
    ∃ final, Covered final (state.submitStep request outcome) := by
  cases State.does_submitStep request state outcome with
  | looks runtime program exposed prompted =>
      refine ⟨final, program ▸ covered.watched, fun now => covered.settled (prompted now), ?_, ?_⟩
      · intro now visible
        rw [runtime]
        exact covered.shown (prompted now) visible
      · intro now
        rcases exposed now with before | noDraft
        · exact covered.hidden before
        · refine Bool.eq_false_iff.mpr fun visible => ?_
          have draft := covered.shown noDraft.1 visible
          rw [noDraft.2] at draft
          cases draft
  | writes author data own whole exposed runtime program last prompted =>
      have hidden := covered.hidden exposed
      have allows : final.Allows (author, data) := fun _ => ⟨hidden, whole⟩
      have watched := covered.watched.receive allows
      rw [← program] at watched
      cases author with
      | client => exact absurd rfl own
      | marker =>
          refine ⟨final, watched, fun now => covered.settled (prompted now), ?_, fun _ => hidden⟩
          intro _ visible
          rw [hidden] at visible
          cases visible
      | prompt =>
          have isLast := last rfl
          refine ⟨_, watched, ?_, ?_, fun _ => hidden⟩
          · intro now
            rw [isLast] at now
            cases now
          · intro now
            rw [isLast] at now
            cases now

theorem client (covered : Covered final state) {data : List UInt8} {programmatic : Bool}
    {outcome : EnqueueOutcome} (courteous : Courteous state (.client data programmatic outcome)) :
    ∃ final, Covered final (state.step request (.client data programmatic outcome)) := by
  obtain ⟨notExposed, orderly⟩ := courteous
  have unfinished : state.place.prompted = false → state.place.isFinished = false := by
    cases place : state.place with
    | finished => exact id
    | _ => exact fun _ => rfl
  unfold State.step
  dsimp only
  split_ifs
  · have allows : ∀ data, final.Allows (.client, data) := fun _ own => absurd rfl own
    refine ⟨_, covered.watched.receive (allows _), ?_, ?_, ?_⟩
    · intro notPrompted
      obtain ⟨whole, sent⟩ := orderly (unfinished notPrompted)
      rw [(writeWithProvenance_of_sent state.runtime request.key data programmatic sent).1]
      simp [Sight.after, covered.settled notPrompted, whole]
    · intro notPrompted visible
      obtain ⟨_, sent⟩ := orderly (unfinished notPrompted)
      obtain ⟨passedOn, draft⟩ :=
        writeWithProvenance_of_sent state.runtime request.key data programmatic sent
      rw [draft]
      rw [passedOn] at visible
      simp only [Sight.after, covered.settled notPrompted, Bool.not_true, Bool.false_or] at visible
      exact draftAfter_mono (covered.shown notPrompted) data visible
    · intro exposed
      rw [notExposed] at exposed
      cases exposed
  · exact ⟨final, covered⟩

theorem step (covered : Covered final state) (action : Action)
    (courteous : Courteous state action) : ∃ final, Covered final (state.step request action) := by
  cases action with
  | submit outcome => exact covered.submitStep outcome
  | client data programmatic outcome => exact covered.client courteous
  | startReading lost =>
      obtain ⟨less, under, watched⟩ := covered.watched.startReading lost
      refine ⟨less, watched, fun now => under.settled (covered.settled now), ?_, ?_⟩
      · exact fun now visible => covered.shown now (under.visible visible)
      · intro exposed
        refine Bool.eq_false_iff.mpr fun visible => ?_
        have shown := covered.hidden exposed
        rw [under.visible visible] at shown
        cases shown
  | repaint | exit | pass =>
      exact ⟨final, covered.watched, covered.settled, covered.shown, covered.hidden⟩

end Covered

/-- A client begins to type while the submit backs off. -/
def lateClient : List Action :=
  List.flatten [
    List.replicate 4 (.submit .flushed), [.pass 180], List.replicate 4 (.submit .flushed),
    [.client [0x68, 0x69] false .flushed, .pass 120, .submit .flushed, .submit .flushed,
      .startReading 0]]

end Yggterm.EchoSubmit
