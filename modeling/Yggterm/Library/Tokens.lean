import Mathlib.Data.List.Induction

/-!
# Tokenizers that are fed in pieces

A tokenizer takes a token from the front of its input or waits for more.  If a
token never depends on what follows it, taking tokens piece by piece gives the
tokens of the whole input.
-/

universe u v

/-! ## The first token of a text -/

/-- The first place of a text at which a token stands: the token and what follows it. -/
def firstToken {Symbol : Type u} {Token : Type v}
    (tokenAt : List Symbol → Option (Token × List Symbol)) :
    List Symbol → Option (Token × List Symbol)
  | [] => none
  | symbol :: rest =>
      match tokenAt (symbol :: rest) with
      | some found => some found
      | none => firstToken tokenAt rest

section FirstToken

variable {Symbol : Type u} {Token : Type v} {tokenAt : List Symbol → Option (Token × List Symbol)}

theorem firstToken_of_some {symbol : Symbol} {rest : List Symbol} {found : Token × List Symbol}
    (here : tokenAt (symbol :: rest) = some found) :
    firstToken tokenAt (symbol :: rest) = some found := by
  rw [firstToken, here]

theorem firstToken_of_none {symbol : Symbol} {rest : List Symbol}
    (notHere : tokenAt (symbol :: rest) = none) :
    firstToken tokenAt (symbol :: rest) = firstToken tokenAt rest := by
  rw [firstToken, notHere]

theorem exists_of_firstToken {text : List Symbol} {found : Token × List Symbol}
    (isFirst : firstToken tokenAt text = some found) :
    ∃ before later, text = before ++ later ∧ tokenAt later = some found := by
  induction text with
  | nil => cases isFirst
  | cons symbol rest inductionHypothesis =>
      cases here : tokenAt (symbol :: rest) with
      | some other =>
          rw [firstToken_of_some here] at isFirst
          exact ⟨[], symbol :: rest, rfl, here.trans isFirst⟩
      | none =>
          rw [firstToken_of_none here] at isFirst
          obtain ⟨before, later, isRest, isToken⟩ := inductionHypothesis isFirst
          exact ⟨symbol :: before, later, by rw [isRest, List.cons_append], isToken⟩

/-- A beginning in which no token starts may be dropped. -/
theorem firstToken_append_of_skip {skipped text : List Symbol}
    (nothing : ∀ first second, skipped = first ++ second → second ≠ [] →
      tokenAt (second ++ text) = none) :
    firstToken tokenAt (skipped ++ text) = firstToken tokenAt text := by
  induction skipped with
  | nil => rfl
  | cons symbol rest inductionHypothesis =>
      have notHere : tokenAt (symbol :: (rest ++ text)) = none :=
        nothing [] (symbol :: rest) rfl (List.cons_ne_nil symbol rest)
      rw [List.cons_append, firstToken_of_none notHere]
      apply inductionHypothesis
      intro first second isRest nonempty
      exact nothing (symbol :: first) second (by rw [isRest, List.cons_append]) nonempty

/-- Where no token is found, none stands at any place. -/
theorem tokenAt_of_firstToken_eq_none {text before later : List Symbol}
    (absent : firstToken tokenAt text = none) (isText : text = before ++ later)
    (nonempty : later ≠ []) : tokenAt later = none := by
  induction before generalizing text with
  | nil =>
      obtain ⟨symbol, rest, rfl⟩ := List.exists_cons_of_ne_nil nonempty
      rw [isText, List.nil_append, firstToken] at absent
      cases here : tokenAt (symbol :: rest) with
      | none => rfl
      | some found => simp [here] at absent
  | cons symbol before inductionHypothesis =>
      subst isText
      rw [List.cons_append] at absent
      cases here : tokenAt (symbol :: (before ++ later)) with
      | none =>
          rw [firstToken_of_none here] at absent
          exact inductionHypothesis absent rfl
      | some found =>
          rw [firstToken_of_some here] at absent
          cases absent

end FirstToken

/-! ## Tokenizers -/

/-- `next` answers the first token and what is left behind it. -/
structure Tokenizer (Symbol : Type u) (Token : Type v) where
  next : List Symbol → Option (Token × List Symbol)
  shrinks : ∀ input token rest, next input = some (token, rest) → rest.length < input.length
  stable : ∀ input token rest, next input = some (token, rest) →
    ∀ more, next (input ++ more) = some (token, rest ++ more)

namespace Tokenizer

variable {Symbol : Type u} {Token : Type v} (tokenizer : Tokenizer Symbol Token)

/-- All tokens of the input, and the end that waits for more. -/
def drain (input : List Symbol) : List Token × List Symbol :=
  match _taken : tokenizer.next input with
  | none => ([], input)
  | some (token, rest) => (token :: (drain rest).1, (drain rest).2)
termination_by input.length
decreasing_by all_goals exact tokenizer.shrinks input token rest _taken

/-- Feed the pieces one after another; each is put behind what waited before it. -/
def drainPieces (pieces : List (List Symbol)) : List Token × List Symbol :=
  pieces.foldl (fun drained piece =>
    (drained.1 ++ (tokenizer.drain (drained.2 ++ piece)).1,
      (tokenizer.drain (drained.2 ++ piece)).2)) ([], [])

variable {tokenizer}

theorem drain_of_none {input : List Symbol} (waits : tokenizer.next input = none) :
    tokenizer.drain input = ([], input) := by
  rw [drain]
  split
  · rfl
  · next taken => simp [waits] at taken

theorem drain_of_some {input rest : List Symbol} {token : Token}
    (takes : tokenizer.next input = some (token, rest)) :
    tokenizer.drain input = (token :: (tokenizer.drain rest).1, (tokenizer.drain rest).2) := by
  rw [drain]
  split
  · next taken => simp [takes] at taken
  · next taken =>
      rw [takes] at taken
      cases taken
      rfl

theorem next_nil : tokenizer.next [] = none := by
  by_contra takes
  obtain ⟨⟨token, rest⟩, takes⟩ := Option.ne_none_iff_exists'.mp takes
  have shorter := tokenizer.shrinks [] token rest takes
  simp at shorter

@[simp]
theorem drain_nil : tokenizer.drain [] = ([], []) :=
  drain_of_none next_nil

/-- An input without tokens waits whole. -/
theorem drain_snd_of_nil {input : List Symbol} (noToken : (tokenizer.drain input).1 = []) :
    (tokenizer.drain input).2 = input := by
  cases takes : tokenizer.next input with
  | none => rw [drain_of_none takes]
  | some taken =>
      rw [drain_of_some takes] at noToken
      cases noToken

/-- Inputs with the same first token and rest have the same tokens, and the same end if
there is a token. -/
theorem drain_congr {first second : List Symbol}
    (same : tokenizer.next first = tokenizer.next second) :
    (tokenizer.drain first).1 = (tokenizer.drain second).1 ∧
      ((tokenizer.drain second).1 ≠ [] →
        (tokenizer.drain first).2 = (tokenizer.drain second).2) := by
  cases takes : tokenizer.next second with
  | none =>
      rw [drain_of_none takes, drain_of_none (same.trans takes)]
      exact ⟨rfl, fun nonempty => absurd rfl nonempty⟩
  | some taken =>
      rw [drain_of_some takes, drain_of_some (same.trans takes)]
      exact ⟨rfl, fun _ => rfl⟩

/-- The end of a drained input yields no token. -/
theorem next_drain (input : List Symbol) : tokenizer.next (tokenizer.drain input).2 = none := by
  cases takes : tokenizer.next input with
  | none => rwa [drain_of_none takes]
  | some taken =>
      obtain ⟨token, rest⟩ := taken
      have shorter := tokenizer.shrinks input token rest takes
      rw [drain_of_some takes]
      exact next_drain rest
termination_by input.length

/-- Draining on: the tokens taken stay, and what waited is drained with the rest. -/
theorem drain_append (first second : List Symbol) :
    tokenizer.drain (first ++ second) =
      ((tokenizer.drain first).1 ++ (tokenizer.drain ((tokenizer.drain first).2 ++ second)).1,
        (tokenizer.drain ((tokenizer.drain first).2 ++ second)).2) := by
  cases takes : tokenizer.next first with
  | none => rw [drain_of_none takes, List.nil_append]
  | some taken =>
      obtain ⟨token, rest⟩ := taken
      have shorter := tokenizer.shrinks first token rest takes
      rw [drain_of_some (tokenizer.stable first token rest takes second), drain_of_some takes,
        drain_append rest second]
      rfl
termination_by first.length

/-- Where an input is cut makes no difference. -/
theorem drainPieces_eq (pieces : List (List Symbol)) :
    tokenizer.drainPieces pieces = tokenizer.drain pieces.flatten := by
  induction pieces using List.reverseRecOn with
  | nil => simp [drainPieces]
  | append_singleton pieces piece inductionHypothesis =>
      have fed : tokenizer.drainPieces (pieces ++ [piece]) =
          ((tokenizer.drainPieces pieces).1 ++
              (tokenizer.drain ((tokenizer.drainPieces pieces).2 ++ piece)).1,
            (tokenizer.drain ((tokenizer.drainPieces pieces).2 ++ piece)).2) := by
        simp [drainPieces]
      rw [fed, inductionHypothesis, List.flatten_concat]
      exact (drain_append pieces.flatten piece).symm

/-! ## Keeping less than what waits -/

variable (tokenizer) in
/-- The tokenizer goes on from what is kept as it would from the rest itself. -/
def Resumes (kept rest : List Symbol) : Prop :=
  ∀ more, tokenizer.next (kept ++ more) = tokenizer.next (rest ++ more)

theorem Resumes.refl (rest : List Symbol) : tokenizer.Resumes rest rest :=
  fun _ => rfl

theorem Resumes.trans {first second third : List Symbol} (toSecond : tokenizer.Resumes first second)
    (toThird : tokenizer.Resumes second third) : tokenizer.Resumes first third :=
  fun more => (toSecond more).trans (toThird more)

theorem Resumes.append {kept rest : List Symbol} (resumes : tokenizer.Resumes kept rest)
    (more : List Symbol) : tokenizer.Resumes (kept ++ more) (rest ++ more) := by
  intro later
  rw [List.append_assoc, List.append_assoc]
  exact resumes (more ++ later)

/-- The tokens that come next are the same, and so are those after them. -/
theorem Resumes.drain {kept rest : List Symbol} (resumes : tokenizer.Resumes kept rest)
    (more : List Symbol) :
    (tokenizer.drain (kept ++ more)).1 = (tokenizer.drain (rest ++ more)).1 ∧
      tokenizer.Resumes (tokenizer.drain (kept ++ more)).2 (tokenizer.drain (rest ++ more)).2 := by
  have same := resumes more
  cases takes : tokenizer.next (rest ++ more) with
  | none =>
      rw [takes] at same
      rw [drain_of_none same, drain_of_none takes]
      exact ⟨rfl, resumes.append more⟩
  | some taken =>
      rw [takes] at same
      rw [drain_of_some same, drain_of_some takes]
      exact ⟨rfl, Resumes.refl _⟩

/-- What waits in the end is the end of the input, if tokens are taken off the
front. -/
theorem drain_suffix
    (front : ∀ input token rest, tokenizer.next input = some (token, rest) → rest <:+ input)
    (input : List Symbol) : (tokenizer.drain input).2 <:+ input := by
  cases takes : tokenizer.next input with
  | none =>
      have whole : (tokenizer.drain input).2 = input := by rw [drain_of_none takes]
      exact ⟨[], whole⟩
  | some taken =>
      obtain ⟨token, rest⟩ := taken
      have shorter := tokenizer.shrinks input token rest takes
      rw [drain_of_some takes]
      exact (drain_suffix front rest).trans (front input token rest takes)
termination_by input.length

end Tokenizer
