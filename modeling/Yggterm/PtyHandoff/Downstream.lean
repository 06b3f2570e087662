import Yggterm.PtyHandoff.Exchange

/-!
# What reaches the sender

What the sender has read of a line and what is in flight to it begin the lines it has not
heard, so long as no wait for the verdict ends in the middle of a line.  Then what it reports
is what the successor answered.
-/

namespace Yggterm.PtyHandoff

open LineStreams Text Runs

variable {setting : Setting} {state after : State}

/-! ## What was said -/

theorem Opening.isVerdict {accepted : Bool} {said : List Message} (opening : Opening accepted said)
    {message : Message} (isSaid : message ∈ said) : message.isVerdict = true := by
  rcases opening with rfl | ⟨conflict, _, rfl⟩
  · cases isSaid
  · rw [List.mem_singleton.mp isSaid]
    rfl

/-- An opening, and behind it at most the ack of what was served. -/
theorem Spoken.shape (spoken : Spoken setting state) :
    ∃ accepted opening, Opening accepted opening ∧ (state.said = opening ∨
      ∃ served : HandoffServed, state.said = opening ++ [.ack (served.ack setting)] ∧
        served.adopted = accepted ∧ accepted = state.adopted.isSome) := by
  unfold Spoken at spoken
  split at spoken
  · exact ⟨true, [], .inl rfl, .inl spoken.1⟩
  · exact ⟨true, [], .inl rfl, .inl spoken.1⟩
  · exact ⟨true, _, spoken.1, .inl rfl⟩
  · exact ⟨true, _, spoken.1, .inl rfl⟩
  · exact ⟨_, _, spoken.1, .inl rfl⟩
  · next served _ =>
      obtain ⟨opening | ⟨opening, opens, same⟩, answer⟩ := spoken
      · exact ⟨_, _, opening, .inl rfl⟩
      · exact ⟨_, opening, opens, .inr ⟨served, same, rfl, answer⟩⟩
  · next served _ =>
      obtain ⟨opening | ⟨opening, opens, same⟩, answer⟩ := spoken
      · exact ⟨_, _, opening, .inl rfl⟩
      · exact ⟨_, opening, opens, .inr ⟨served, same, rfl, answer⟩⟩

/-- An ack is the last thing said. -/
theorem Spoken.ack (spoken : Spoken setting state) {ack : HandoffAck}
    (isSaid : .ack ack ∈ state.said) :
    ∃ opening, Opening ack.adopted opening ∧ state.said = opening ++ [.ack ack] ∧
      ack.adopted = state.adopted.isSome ∧
      (ack.adopted = true → ack = ackAdoptedHere setting.pid setting.startTime) := by
  obtain ⟨accepted, opening, opens, same | ⟨served, same, rfl, answer⟩⟩ := spoken.shape
  · exact absurd (opens.isVerdict (same ▸ isSaid)) (by simp [Message.isVerdict])
  · rw [same, List.mem_append] at isSaid
    rcases isSaid with inOpening | isAck
    · exact absurd (opens.isVerdict inOpening) (by simp [Message.isVerdict])
    · obtain rfl : ack = served.ack setting := by simpa using isAck
      refine ⟨opening, ?_, same, ?_, ?_⟩
      · rwa [adopted_ack]
      · rw [adopted_ack, answer]
      · intro adopted
        rw [adopted_ack] at adopted
        rw [HandoffServed.ack, if_pos adopted]

/-- Where the session was adopted, no line is too long to be read. -/
theorem Spoken.length_le (spoken : Spoken setting state) {ack : HandoffAck}
    (isSaid : .ack ack ∈ state.said) (adopted : ack.adopted = true) {message : Message}
    (member : message ∈ state.said) :
    (setting.codec.line message).length ≤ maxHandoffMetadataBytes := by
  obtain ⟨opening, opens, same, _, isAck⟩ := spoken.ack isSaid
  rw [same, List.mem_append] at member
  rcases member with inOpening | isLast
  · rcases opens with rfl | ⟨conflict, goesAhead, rfl⟩
    · cases inOpening
    · rw [List.mem_singleton.mp inOpening, goesAhead adopted]
      exact setting.codec.length_line_proceed
  · rw [List.mem_singleton.mp isLast, isAck adopted]
    exact setting.codec.length_line_adopted _ _

theorem Spoken.precommit (spoken : Spoken setting state) {verdict : HandoffVerdict}
    (isSaid : .verdict verdict ∈ state.said) : verdict.precommit = true := by
  obtain ⟨accepted, opening, opens, same⟩ := spoken.shape
  have inOpening : .verdict verdict ∈ opening := by
    rcases same with same | ⟨served, same, _⟩
    · exact same ▸ isSaid
    · simpa [same] using isSaid
  rcases opens with rfl | ⟨conflict, _, rfl⟩
  · cases inOpening
  · obtain rfl : verdict = verdictOf conflict := by simpa using inOpening
    exact precommit_verdictOf conflict

/-- A verdict is the first thing said. -/
theorem Spoken.verdict_first (spoken : Spoken setting state) {before behind : List Message}
    {message : Message} (same : state.said = before ++ message :: behind)
    (verdicts : ∀ earlier ∈ before, earlier.isVerdict = true)
    (isVerdict : message.isVerdict = true) :
    before = [] := by
  obtain ⟨accepted, opening, opens, isSaid⟩ := spoken.shape
  have few : (state.said.filter Message.isVerdict).length ≤ 1 := by
    rcases isSaid with isSaid | ⟨served, isSaid, _⟩
    · rw [isSaid]
      rcases opens with rfl | ⟨conflict, _, rfl⟩
      · simp
      · exact List.length_filter_le _ _
    · rw [isSaid]
      rcases opens with rfl | ⟨conflict, _, rfl⟩
      · exact Nat.zero_le 1
      · exact Nat.le_refl 1
  rw [same, List.filter_append, List.filter_eq_self.mpr verdicts, List.filter_cons_of_pos isVerdict,
    List.length_append, List.length_cons] at few
  exact List.length_eq_zero_iff.mp (by omega)

/-- Before the commit point nothing was adopted, so every ack refuses. -/
theorem refused_of_uncommitted (spoken : Spoken setting state) (placed : Placed state)
    (uncommitted : state.sender.committed = false) {ack : HandoffAck}
    (isSaid : .ack ack ∈ state.said) : ack.adopted = false := by
  obtain ⟨_, _, _, answer, _⟩ := spoken.ack isSaid
  cases isAdopted : state.adopted.isSome with
  | false => rw [answer, isAdopted]
  | true =>
      have committed := placed.sent (.inl (placed.taken (.inr isAdopted)))
      rw [uncommitted] at committed
      cases committed

/-! ## Where the sender reads -/

/-- With so many lines heard, all verdicts, and a part of the next one read, the rest of what
was said is in flight; nothing of it is missing while nothing was lost. -/
def Follows (setting : Setting) (state : State) (part : Bytes) (heard : Nat) : Prop :=
  ∃ before left, state.said = before ++ left ∧ before.length = heard ∧
    (∀ message ∈ before, message.isVerdict = true) ∧ newline ∉ part ∧
    part ++ state.toSender <+: wire newline (left.map setting.codec.line) ∧
    (state.lost = false → part ++ state.toSender = wire newline (left.map setting.codec.line)) ∧
    (state.broken = false → state.lost = false)

/-- Reading on in a line. -/
theorem Follows.more {part rest : Bytes} {heard : Nat} (follows : Follows setting state part heard)
    {byte : UInt8} (notNewline : byte ≠ newline) (isNext : state.toSender = byte :: rest) :
    Follows setting { state with toSender := rest } (part ++ [byte]) heard := by
  obtain ⟨before, left, said, isHeard, verdicts, clean, begins, whole, unbroken⟩ := follows
  have moved : (part ++ [byte]) ++ rest = part ++ state.toSender := by simp [isNext]
  refine ⟨before, left, said, isHeard, verdicts, ?_, moved ▸ begins, ?_, unbroken⟩
  · simp [clean, Ne.symm notNewline]
  · exact fun unlost => moved.trans (whole unlost)

/-- A newline ends the line of something that was said. -/
theorem Follows.line {part rest : Bytes} {heard : Nat} (follows : Follows setting state part heard)
    (isNext : state.toSender = newline :: rest) :
    ∃ before behind message, state.said = before ++ message :: behind ∧ before.length = heard ∧
      (∀ earlier ∈ before, earlier.isVerdict = true) ∧ part = setting.codec.line message ∧
      (message.isVerdict = true →
        Follows setting { state with toSender := rest } [] (heard + 1)) := by
  obtain ⟨before, left, said, isHeard, verdicts, clean, begins, whole, unbroken⟩ := follows
  rw [isNext] at begins whole
  have lineClean : ∀ line ∈ left.map setting.codec.line, newline ∉ line := by
    intro line member
    obtain ⟨message, _, rfl⟩ := List.mem_map.mp member
    exact setting.codec.newline_not_mem_line message
  obtain ⟨more, isLines, restBegins⟩ := line_of_separator lineClean clean begins
  obtain ⟨message, behind, rfl, rfl, rfl⟩ := List.map_eq_cons_iff.mp isLines
  refine ⟨before, behind, message, said, isHeard, verdicts, rfl, fun isVerdict => ?_⟩
  refine ⟨before ++ [message], behind, ?_, ?_, ?_, List.not_mem_nil, restBegins, ?_, unbroken⟩
  · simp [said]
  · simp [isHeard]
  · intro other member
    rcases List.mem_append.mp member with inBefore | isLast
    · exact verdicts other inBefore
    · rwa [List.mem_singleton.mp isLast]
  · intro unlost
    have isWhole := whole unlost
    rw [List.map_cons, wire_cons] at isWhole
    exact (List.cons_eq_cons.mp (List.append_cancel_left isWhole)).2

/-- What was read of a line begins something that was said. -/
theorem Follows.part {part : Bytes} {heard : Nat} (follows : Follows setting state part heard) :
    part = [] ∨ ∃ message ∈ state.said, part <+: setting.codec.line message := by
  obtain ⟨before, left, said, _, _, clean, begins, _⟩ := follows
  rcases prefix_of_taken clean ((List.prefix_append part _).trans begins) with
    empty | ⟨line, more, isLines, begun⟩
  · exact .inl empty
  · obtain ⟨message, behind, rfl, rfl, rfl⟩ := List.map_eq_cons_iff.mp isLines
    exact .inr ⟨message, by simp [said], begun⟩

/-- Where nothing is in flight and nothing was lost, all was heard. -/
theorem Follows.all_heard {part : Bytes} {heard : Nat} (follows : Follows setting state part heard)
    (nothing : state.toSender = []) (unlost : state.lost = false) {message : Message}
    (isSaid : message ∈ state.said) : message.isVerdict = true := by
  obtain ⟨before, left, said, _, verdicts, clean, _, whole, _⟩ := follows
  have isWhole := whole unlost
  rw [nothing, List.append_nil] at isWhole
  obtain rfl : left = [] := List.map_eq_nil_iff.mp (eq_nil_of_taken clean isWhole)
  rw [said, List.append_nil] at isSaid
  exact verdicts message isSaid

/-- A stream that ends where a line was whole ends it as a newline does. -/
theorem Follows.ended {part : Bytes} {heard : Nat} (follows : Follows setting state part heard)
    (nothing : state.toSender = []) (nonempty : part ≠ []) :
    ∃ before behind message, state.said = before ++ message :: behind ∧ before.length = heard ∧
      (∀ earlier ∈ before, earlier.isVerdict = true) ∧ part <+: setting.codec.line message ∧
      (message.isVerdict = true → Follows setting state [] (heard + 1)) := by
  obtain ⟨before, left, said, isHeard, verdicts, clean, begins, whole, unbroken⟩ := follows
  rw [nothing, List.append_nil] at begins whole
  have lost : state.lost = true := by
    cases isLost : state.lost with
    | true => rfl
    | false =>
        obtain rfl : left = [] := List.map_eq_nil_iff.mp (eq_nil_of_taken clean (whole isLost))
        exact absurd (List.prefix_nil.mp begins) nonempty
  rcases prefix_of_taken clean begins with empty | ⟨line, more, isLines, begun⟩
  · exact absurd empty nonempty
  · obtain ⟨message, behind, rfl, rfl, rfl⟩ := List.map_eq_cons_iff.mp isLines
    refine ⟨before, behind, message, said, isHeard, verdicts, begun, fun isVerdict => ?_⟩
    refine ⟨before ++ [message], behind, by simp [said], by simp [isHeard], ?_, List.not_mem_nil,
      ?_, ?_, unbroken⟩
    · intro other member
      rcases List.mem_append.mp member with inBefore | isLast
      · exact verdicts other inBefore
      · rwa [List.mem_singleton.mp isLast]
    · rw [nothing]
      exact List.nil_prefix
    · intro unlost
      rw [lost] at unlost
      cases unlost

/-! ## What the sender reports -/

/-- Where the sender is in what was said; once it has returned, that it is right: an error
means that something went missing, or that the successor refused. -/
def Downstream (setting : Setting) (state : State) : Prop :=
  match state.sender with
  | .done (.ok _) => state.adopted.isSome = true
  | .done (.error _) => state.ackTimedOut = true ∨ state.lost = true ∨
      ∀ ack, .ack ack ∈ state.said → ack.adopted = false
  | .awaitingAck left line => ∃ heard, 2 ≤ left + heard ∧ Follows setting state line heard
  | .awaitingVerdict line => ∃ heard, Follows setting state line heard
  | _ => ∃ heard, Follows setting state [] heard

/-- The verdict is awaited, and a part of a line was read. -/
def Sender.isMidLine : Sender → Bool
  | .awaitingVerdict line => line ≠ []
  | _ => false

/-- No wait for the verdict ends in the middle of a line. -/
def NoCut (state : State) : Action → Bool
  | .timesOut => !state.sender.isMidLine
  | _ => true

theorem Downstream.hearsVerdict
    (refused : ∀ ack, .ack ack ∈ state.said → ack.adopted = false) {line : Bytes}
    (follows : ∀ verdict, setting.codec.readVerdict line = some verdict →
      ∃ heard, Follows setting state [] heard) :
    Downstream setting (state.hearsVerdict setting line) := by
  obtain ⟨support, sender, same, ⟨verdict, isRead, rfl⟩ | ⟨_, rfl⟩⟩ :=
    hearsVerdict_spec setting state line
  · rw [same]
    exact follows verdict isRead
  · rw [same]
    exact .inr (.inr refused)

/-- A whole line is a verdict to step over, or the ack. -/
theorem Downstream.hearsAck (spoken : Spoken setting state) {before behind : List Message}
    {message : Message} (same : state.said = before ++ message :: behind)
    (verdicts : ∀ earlier ∈ before, earlier.isVerdict = true) {left : Nat}
    (budget : 2 ≤ left + before.length)
    (follows : message.isVerdict = true → Follows setting state [] (before.length + 1)) :
    Downstream setting (state.hearsAck setting left (setting.codec.line message)) := by
  have isSaid : message ∈ state.said := by simp [same]
  have solid := setting.codec.isBlank_line message
  obtain ⟨sender, becomes, cases⟩ :=
    hearsAck_spec setting state left (setting.codec.line message)
  rw [becomes]
  cases message with
  | verdict verdict =>
      have isVerdict := setting.codec.isPrecommitVerdict_verdict verdict
      rw [spoken.precommit isSaid] at isVerdict
      have first := spoken.verdict_first same verdicts rfl
      rw [first] at budget
      rcases cases with ⟨_, rfl⟩ | ⟨notVerdict, _⟩ | ⟨_, rfl, blank | last | notVerdict⟩
      · refine ⟨before.length + 1, ?_, follows rfl⟩
        rw [first]
        simp only [List.length_nil] at budget ⊢
        omega
      · rw [isVerdict] at notVerdict
        cases notVerdict
      · rw [solid] at blank
        cases blank
      · simp only [List.length_nil] at budget
        omega
      · rw [isVerdict] at notVerdict
        cases notVerdict.1
  | ack ack =>
      have notVerdict := setting.codec.isPrecommitVerdict_ack ack
      have isRead := setting.codec.readAck_ack ack
      obtain ⟨_, _, _, answer, _⟩ := spoken.ack isSaid
      rcases cases with ⟨isVerdict, _⟩ | ⟨_, other, isOther, adopted, rfl⟩ |
        ⟨_, rfl, blank | last | refuses⟩
      · rw [notVerdict] at isVerdict
        cases isVerdict
      · rw [isRead] at isOther
        cases isOther
        exact answer.symm.trans adopted
      · rw [solid] at blank
        cases blank
      · rw [notVerdict] at last
        cases last.1
      · refine .inr (.inr fun other isOther => ?_)
        obtain ⟨_, _, _, otherAnswer, _⟩ := spoken.ack isOther
        rw [otherAnswer, ← answer]
        exact refuses.2 ack isRead

theorem Downstream.senderTakes (spoken : Spoken setting state) (placed : Placed state)
    (downstream : Downstream setting state) {byte : UInt8} {rest : Bytes}
    (isNext : state.toSender = byte :: rest) (isReading : state.sender.isReading = true) :
    Downstream setting ({ state with toSender := rest }.senderTakes setting byte) := by
  unfold Downstream at downstream
  unfold State.senderTakes readByte
  split
  · next line isSender =>
      rw [isSender] at downstream
      obtain ⟨heard, follows⟩ := downstream
      have refused : ∀ ack, .ack ack ∈ state.said → ack.adopted = false := fun ack =>
        refused_of_uncommitted spoken placed (by rw [isSender]; rfl)
      by_cases isNewline : byte = newline
      · subst isNewline
        simp only [if_true]
        refine @Downstream.hearsVerdict setting { state with toSender := rest } refused _ ?_
        intro verdict isRead
        obtain ⟨before, behind, message, _, _, _, rfl, next⟩ := follows.line isNext
        cases message with
        | verdict verdict => exact ⟨_, next rfl⟩
        | ack ack =>
            rw [setting.codec.readVerdict_ack] at isRead
            cases isRead
      · simp only [if_neg isNewline]
        split
        · next more isMore =>
            split at isMore
            · cases isMore
            · cases isMore
              exact ⟨heard, follows.more isNewline isNext⟩
        · next isLine =>
            split at isLine
            · cases isLine
            · cases isLine
        · exact .inr (.inr refused)
  · next left line isSender =>
      rw [isSender] at downstream
      obtain ⟨heard, budget, follows⟩ := downstream
      by_cases isNewline : byte = newline
      · subst isNewline
        simp only [if_true]
        obtain ⟨before, behind, message, same, rfl, verdicts, rfl, next⟩ := follows.line isNext
        exact @Downstream.hearsAck setting { state with
          toSender := rest } spoken _ _ _ same verdicts
          _ budget next
      · simp only [if_neg isNewline]
        have next := follows.more isNewline isNext
        split
        · next more isMore =>
            split at isMore
            · cases isMore
            · cases isMore
              exact ⟨heard, budget, next⟩
        · next isLine =>
            split at isLine
            · cases isLine
            · cases isLine
        · next isLong =>
            refine .inr (.inr fun ack isSaid => ?_)
            by_contra adopted
            rw [Bool.not_eq_false] at adopted
            rcases next.part with empty | ⟨message, member, begun⟩
            · simp at empty
            · have short := spoken.length_le isSaid adopted member
              split at isLong
              · next long => exact absurd (begun.length_le.trans short) (Nat.not_le.mpr long)
              · cases isLong
  · next notVerdict notAck =>
      exfalso
      revert isReading
      cases isSender : state.sender with
      | awaitingVerdict line => exact absurd isSender (notVerdict line)
      | awaitingAck left line => exact absurd isSender (notAck left line)
      | _ => exact fun isReading => nomatch isReading

/-- An error at the end of the stream: something was lost, or no ack is left to hear. -/
theorem Follows.excused {part : Bytes} {heard : Nat} (follows : Follows setting state part heard)
    (nothing : state.toSender = []) :
    state.lost = true ∨ ∀ ack, .ack ack ∈ state.said → ack.adopted = false := by
  cases isLost : state.lost with
  | true => exact .inl rfl
  | false =>
      refine .inr fun ack isSaid => ?_
      cases follows.all_heard nothing isLost isSaid

/-- What was read of a line where the stream ends is cut short, or whole. -/
theorem Follows.cut_or_whole {part : Bytes} {heard : Nat}
    (follows : Follows setting state part heard)
    (nothing : state.toSender = []) :
    (∃ message, part <+: setting.codec.line message ∧ part ≠ setting.codec.line message) ∨
      ∃ before behind message, state.said = before ++ message :: behind ∧ before.length = heard ∧
        (∀ earlier ∈ before, earlier.isVerdict = true) ∧ part = setting.codec.line message ∧
        (message.isVerdict = true → Follows setting state [] (heard + 1)) := by
  by_cases empty : part = []
  · subst empty
    have notNil := setting.codec.line_ne_nil (.ack (ackRefused []))
    exact .inl ⟨_, List.nil_prefix, notNil.symm⟩
  · obtain ⟨before, behind, message, same, isHeard, verdicts, begun, next⟩ :=
      follows.ended nothing empty
    by_cases whole : part = setting.codec.line message
    · exact .inr ⟨before, behind, message, same, isHeard, verdicts, whole, next⟩
    · exact .inl ⟨message, begun, whole⟩

theorem Downstream.senderEnds (spoken : Spoken setting state) (placed : Placed state)
    (downstream : Downstream setting state) (nothing : state.toSender = []) :
    Downstream setting (state.senderEnds setting) := by
  have stated := downstream
  unfold Downstream at stated
  unfold State.senderEnds
  split
  · next line isSender =>
      rw [isSender] at stated
      obtain ⟨heard, follows⟩ := stated
      have refused : ∀ ack, .ack ack ∈ state.said → ack.adopted = false := fun ack =>
        refused_of_uncommitted spoken placed (by rw [isSender]; rfl)
      refine Downstream.hearsVerdict refused fun verdict isRead => ?_
      rcases follows.cut_or_whole nothing with
        ⟨message, begun, cut⟩ | ⟨before, behind, message, _, _, _, rfl, next⟩
      · rw [setting.codec.readVerdict_of_cut message line begun cut] at isRead
        cases isRead
      · cases message with
        | verdict verdict => exact ⟨_, next rfl⟩
        | ack ack =>
            rw [setting.codec.readVerdict_ack] at isRead
            cases isRead
  · next left line isSender =>
      rw [isSender] at stated
      obtain ⟨heard, budget, follows⟩ := stated
      rcases follows.cut_or_whole nothing with
        ⟨message, begun, cut⟩ | ⟨before, behind, message, same, rfl, verdicts, rfl, next⟩
      · obtain ⟨sender, becomes, cases⟩ := hearsAck_spec setting state left line
        rw [becomes]
        rcases cases with ⟨isVerdict, _⟩ | ⟨_, ack, isRead, _⟩ | ⟨_, rfl, _⟩
        · rw [setting.codec.isPrecommitVerdict_of_cut message line begun cut] at isVerdict
          cases isVerdict
        · rw [setting.codec.readAck_of_cut message line begun cut] at isRead
          cases isRead
        · exact .inr (follows.excused nothing)
      · exact Downstream.hearsAck spoken same verdicts budget next
  · exact downstream

theorem Downstream.senderReads (spoken : Spoken setting state) (placed : Placed state)
    (downstream : Downstream setting state) : Downstream setting (state.senderReads setting) := by
  unfold State.senderReads
  split
  · exact downstream
  · next isReading =>
      rw [Bool.not_eq_false] at isReading
      split
      · next byte rest isNext =>
          exact Downstream.senderTakes spoken placed downstream isNext isReading
      · next nothing =>
          split
          · exact Downstream.senderEnds spoken placed downstream nothing
          · exact downstream

theorem Downstream.senderReadFails (spoken : Spoken setting state) (placed : Placed state)
    (downstream : Downstream setting state) : Downstream setting state.senderReadFails := by
  have stated := downstream
  unfold Downstream at stated
  unfold State.senderReadFails
  split
  · next isOver =>
      have nothing : state.toSender = [] := by
        unfold State.streamOver at isOver
        simp only [Bool.and_eq_true, decide_eq_true_eq] at isOver
        exact isOver.1
      split
      · next isSender =>
          exact .inr (.inr fun ack => refused_of_uncommitted spoken placed (by rw [isSender]; rfl))
      · next isSender =>
          rw [isSender] at stated
          obtain ⟨heard, _, follows⟩ := stated
          exact .inr (follows.excused nothing)
      · exact downstream
  · exact downstream

theorem Downstream.timesOut (downstream : Downstream setting state)
    (uncut : NoCut state .timesOut = true) : Downstream setting state.timesOut := by
  have stated := downstream
  unfold Downstream at stated
  unfold State.timesOut
  split
  · next line isSender =>
      rw [isSender] at stated
      obtain rfl : line = [] := by simpa [NoCut, isSender, Sender.isMidLine] using uncut
      exact stated
  · exact .inl rfl
  · exact downstream

/-- Giving up before the commit point is right. -/
theorem Downstream.fails (spoken : Spoken setting state) (placed : Placed state)
    (uncommitted : state.sender.committed = false) (refused : Bool) :
    Downstream setting (state.fails false refused) :=
  .inr (.inr fun _ => refused_of_uncommitted spoken placed uncommitted)

theorem Downstream.connects (spoken : Spoken setting state) (placed : Placed state)
    (downstream : Downstream setting state) (reached : Bool) :
    Downstream setting (state.connects reached) := by
  have stated := downstream
  unfold Downstream at stated
  unfold State.connects
  split
  · next isSender =>
      rw [isSender] at stated
      split
      · exact stated
      · exact Downstream.fails spoken placed (by rw [isSender]; rfl) false
  · exact downstream

theorem Downstream.writesMetadata (spoken : Spoken setting state) (placed : Placed state)
    (downstream : Downstream setting state) (failsAfter : Option Nat) :
    Downstream setting (state.writesMetadata setting failsAfter) := by
  have stated := downstream
  unfold Downstream at stated
  unfold State.writesMetadata
  split
  · next isSender =>
      rw [isSender] at stated
      have uncommitted : state.sender.committed = false := by rw [isSender]; rfl
      split
      · exact Downstream.fails spoken placed uncommitted false
      · split
        · exact Downstream.fails spoken placed uncommitted false
        · unfold Downstream
          dsimp only
          split_ifs
          · exact stated
          · exact stated
  · exact downstream

theorem Downstream.sendsFd (spoken : Spoken setting state) (placed : Placed state)
    (downstream : Downstream setting state) (succeeds : Bool) :
    Downstream setting (state.sendsFd setting succeeds) := by
  have stated := downstream
  unfold Downstream at stated
  unfold State.sendsFd
  split
  · next isSender =>
      rw [isSender] at stated
      obtain ⟨heard, follows⟩ := stated
      split
      · exact ⟨heard, Nat.le_add_right 2 heard, follows⟩
      · exact Downstream.fails spoken placed (by rw [isSender]; rfl) false
  · exact downstream

/-! ## Steps of the successor -/

/-- A step that leaves the sender and its stream alone. -/
theorem Downstream.carries (downstream : Downstream setting state)
    (sender : after.sender = state.sender) (ackTimedOut : after.ackTimedOut = state.ackTimedOut)
    (adopted : state.adopted.isSome = true → after.adopted.isSome = true)
    (excused : state.sender.isDone = true →
      after.lost = true ∨ after.lost = state.lost ∧ after.said = state.said)
    (follows : state.sender.isDone = false → ∀ part heard, Follows setting state part heard →
      Follows setting after part heard) : Downstream setting after := by
  revert excused follows
  unfold Downstream at downstream ⊢
  rw [sender]
  revert downstream
  cases state.sender with
  | done result =>
      cases result with
      | ok ack => exact fun was _ _ => adopted was
      | error error =>
          intro was excused _
          rcases excused rfl with lost | ⟨sameLost, sameSaid⟩
          · exact .inr (.inl lost)
          · rwa [ackTimedOut, sameLost, sameSaid]
  | awaitingAck left line =>
      rintro ⟨heard, budget, was⟩ _ follows
      exact ⟨heard, budget, follows rfl _ _ was⟩
  | awaitingVerdict line => exact fun ⟨heard, was⟩ _ follows => ⟨heard, follows rfl _ _ was⟩
  | connecting => exact fun ⟨heard, was⟩ _ follows => ⟨heard, follows rfl _ _ was⟩
  | writing => exact fun ⟨heard, was⟩ _ follows => ⟨heard, follows rfl _ _ was⟩
  | sending => exact fun ⟨heard, was⟩ _ follows => ⟨heard, follows rfl _ _ was⟩

/-- What is said goes behind what is in flight. -/
theorem Follows.writes {part : Bytes} {heard : Nat} (follows : Follows setting state part heard)
    (reading : state.sender.isDone = false) (message : Message) :
    Follows setting (state.writes setting message) part heard := by
  obtain ⟨before, left, said, isHeard, verdicts, clean, begins, whole, unbroken⟩ := follows
  rcases writes_spec setting state message with ⟨gone, same⟩ | ⟨here, same⟩
  · rw [reading, Bool.or_false] at gone
    rw [same]
    refine ⟨before, left, said, isHeard, verdicts, clean, begins, ?_, ?_⟩
    · exact fun unlost => nomatch unlost
    · intro notBroken
      rw [gone] at notBroken
      cases notBroken
  · rw [reading, Bool.or_false] at here
    rw [same]
    have appended : part ++ (state.toSender ++ (setting.codec.line message ++ [newline])) =
        wire newline ((left ++ [message]).map setting.codec.line) := by
      rw [← List.append_assoc, whole (unbroken here), List.map_append, wire_append]
      simp [wire]
    refine ⟨before, left ++ [message], by simp [said], isHeard, verdicts, clean, ?_,
      fun _ => appended, unbroken⟩
    rw [← appended]

theorem Downstream.writes (downstream : Downstream setting state) (message : Message) :
    Downstream setting (state.writes setting message) := by
  have keeps : (state.writes setting message).sender = state.sender ∧
      (state.writes setting message).ackTimedOut = state.ackTimedOut ∧
      (state.writes setting message).adopted = state.adopted ∧
      (state.sender.isDone = true → (state.writes setting message).lost = true) := by
    rcases writes_spec setting state message with ⟨_, same⟩ | ⟨here, same⟩
    · rw [same]
      exact ⟨rfl, rfl, rfl, fun _ => rfl⟩
    · rw [same]
      refine ⟨rfl, rfl, rfl, fun isDone => ?_⟩
      rw [isDone, Bool.or_true] at here
      cases here
  obtain ⟨sender, ackTimedOut, adopted, lost⟩ := keeps
  refine downstream.carries sender ackTimedOut (by rw [adopted]; exact id) ?_ ?_
  · exact fun isDone => .inl (lost isDone)
  · exact fun reading _ _ follows => follows.writes reading message

/-- A step of the successor that says nothing. -/
theorem Downstream.of_same (downstream : Downstream setting state)
    (sender : after.sender = state.sender) (ackTimedOut : after.ackTimedOut = state.ackTimedOut)
    (toSender : after.toSender = state.toSender) (broken : after.broken = state.broken)
    (said : after.said = state.said) (lost : after.lost = state.lost)
    (adopted : state.adopted.isSome = true → after.adopted.isSome = true) :
    Downstream setting after := by
  refine downstream.carries sender ackTimedOut adopted (fun _ => .inr ⟨lost, said⟩) ?_
  rintro _ part heard ⟨before, left, isSaid, follows⟩
  refine ⟨before, left, said.trans isSaid, ?_⟩
  rwa [toSender, broken, lost]

theorem Downstream.seats (downstream : Downstream setting state) (conflict : Option (List Char)) :
    Downstream setting (state.seats setting conflict) := by
  unfold State.seats
  split
  · split
    · have spoken := downstream.writes (.verdict (verdictOf conflict))
      dsimp only
      split
      · exact spoken.of_same rfl rfl rfl rfl rfl rfl id
      · exact spoken.of_same rfl rfl rfl rfl rfl rfl id
    · exact downstream.of_same rfl rfl rfl rfl rfl rfl id
  · exact downstream

theorem Downstream.answers (downstream : Downstream setting state) :
    Downstream setting (state.answers setting) := by
  unfold State.answers
  split
  · next served _ =>
      exact (downstream.writes (.ack (served.ack setting))).of_same rfl rfl rfl rfl rfl rfl id
  · exact downstream

theorem Downstream.adopts (downstream : Downstream setting state)
    (outcome : Except (List Char) Unit) : Downstream setting (state.adopts outcome) := by
  unfold State.adopts
  split
  · split
    · exact downstream.of_same rfl rfl rfl rfl rfl rfl fun _ => rfl
    · exact downstream.of_same rfl rfl rfl rfl rfl rfl id
  · exact downstream

theorem Downstream.closes (downstream : Downstream setting state) :
    Downstream setting state.closes := by
  unfold State.closes
  split
  · exact downstream.of_same rfl rfl rfl rfl rfl rfl id
  · exact downstream

theorem Downstream.receives (downstream : Downstream setting state) :
    Downstream setting state.receives := by
  rcases receives_spec state with same | ⟨metadata, served, _, _, same⟩ |
    ⟨metadata, token, rest, successor, _, _, same, _⟩
  · rwa [same]
  · rw [same]
    exact downstream.of_same rfl rfl rfl rfl rfl rfl id
  · rw [same]
    exact downstream.of_same rfl rfl rfl rfl rfl rfl id

theorem Downstream.successorReads (downstream : Downstream setting state) :
    Downstream setting (state.successorReads setting) := by
  rcases successorReads_spec setting state with same | ⟨_, _, _, _, same, _, _⟩
  · rwa [same]
  · rw [same]
    exact downstream.of_same rfl rfl rfl rfl rfl rfl id

theorem Downstream.successorReadFails (downstream : Downstream setting state) :
    Downstream setting state.successorReadFails := by
  unfold State.successorReadFails
  split
  · split
    · exact downstream.of_same rfl rfl rfl rfl rfl rfl id
    · exact downstream
  · exact downstream

theorem Downstream.breaks (downstream : Downstream setting state) (toSuccessor toSender : Nat) :
    Downstream setting (state.breaks toSuccessor toSender) := by
  refine downstream.carries rfl rfl id ?_ ?_
  · intro _
    cases isLost : decide (toSender < state.toSender.length) with
    | true => exact .inl (by simp [State.breaks, isLost])
    | false => exact .inr ⟨by simp [State.breaks, isLost], rfl⟩
  · rintro _ part heard ⟨before, left, said, isHeard, verdicts, clean, begins, whole, _⟩
    refine ⟨before, left, said, isHeard, verdicts, clean, ?_, ?_, fun notBroken =>
      nomatch notBroken⟩
    · exact ((List.prefix_append_right_inj part).mpr (List.take_prefix _ _)).trans begins
    · intro unlost
      simp only [State.breaks, Bool.or_eq_false_iff, decide_eq_false_iff_not, Nat.not_lt] at unlost
      change part ++ state.toSender.take toSender = _
      rw [List.take_of_length_le unlost.2]
      exact whole unlost.1

theorem Downstream.step (spoken : Spoken setting state) (placed : Placed state)
    (downstream : Downstream setting state) (action : Action) (uncut : NoCut state action = true) :
    Downstream setting (step setting state action) := by
  cases action with
  | connects reached => exact downstream.connects spoken placed reached
  | writesMetadata failsAfter => exact downstream.writesMetadata spoken placed failsAfter
  | senderReads => exact downstream.senderReads spoken placed
  | senderReadFails => exact downstream.senderReadFails spoken placed
  | timesOut => exact downstream.timesOut uncut
  | sendsFd succeeds => exact downstream.sendsFd spoken placed succeeds
  | breaks toSuccessor toSender => exact downstream.breaks toSuccessor toSender
  | successorReads => exact downstream.successorReads
  | successorReadFails => exact downstream.successorReadFails
  | seats conflict => exact downstream.seats conflict
  | receives => exact downstream.receives
  | adopts outcome => exact downstream.adopts outcome
  | answers => exact downstream.answers
  | closes => exact downstream.closes

theorem downstream_initial (support : PrecommitSupport) : Downstream setting (initial support) :=
  ⟨0, [], [], rfl, rfl, fun _ member => (List.not_mem_nil member).elim, List.not_mem_nil,
    List.prefix_refl _, fun _ => rfl, fun _ => rfl⟩

end Yggterm.PtyHandoff
