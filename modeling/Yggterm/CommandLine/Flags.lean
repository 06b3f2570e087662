import Mathlib.Data.List.Basic
import Mathlib.Data.List.Infix

/-!
# Flags and positional arguments

`cli_args.rs` reads one command line twice: `cli_flag_value` looks for the first spelling of a
flag, and `cli_positional_args` skips every flag together with what follows it.
-/

namespace Yggterm.CommandLine

abbrev Token := List Char

/-- `starts_with("--")` -/
def isFlag (token : Token) : Bool := "--".toList <+: token

/-- How a flag was written: its value may stand at the next place, or behind an `=`. -/
inductive Spelling where
  | spaced (next : Nat)
  | inline (value : List Char)

/-- The first spelling of a flag among the tokens from a place on. -/
def findFlag (flag : Token) (index : Nat) : List Token → Option Spelling
  | [] => none
  | value :: rest =>
      if value = flag then some (.spaced (index + 1))
      else
        match value.dropPrefix? (flag ++ ['=']) with
        | some inline => some (.inline inline)
        | none => findFlag flag (index + 1) rest

/-- The value of `flag`, written either `--flag value` or `--flag=value`. -/
def cliFlagValue (args : List Token) (flag : Token) : Option (List Char) :=
  match findFlag flag 0 args with
  | some (.spaced next) => args[next]?.filter fun value => !isFlag value
  | some (.inline value) => some value
  | none => none

/-- The walk of `cli_positional_args`, which keeps the places too. -/
def positionals (index : Nat) : List Token → List (Nat × Token)
  | [] => []
  | [value] => if isFlag value then [] else [(index, value)]
  | value :: next :: rest =>
      if isFlag value then
        if isFlag next then positionals (index + 1) (next :: rest)
        else positionals (index + 2) rest
      else (index, value) :: positionals (index + 1) (next :: rest)

/-- The positional arguments from `start` onward. -/
def cliPositionalArgs (args : List Token) (start : Nat) : List Token :=
  (positionals start (args.drop start)).map Prod.snd

inductive PayloadError where
  | flagShaped (value what : List Char)
  | missing (what : List Char)

def refuseFlagShapedPayload (value what : List Char) : Except PayloadError Token :=
  if isFlag value then .error (.flagShaped value what) else .ok value

/-- The reader for the free-form payload of a verb. -/
def cliPayloadArg (args : List Token) (start : Nat) (what : List Char) :
    Except PayloadError Token :=
  match (cliPositionalArgs args start).head? with
  | some value => refuseFlagShapedPayload value what
  | none =>
      match args[start]? with
      | some flagged =>
          if isFlag flagged then refuseFlagShapedPayload flagged what else .error (.missing what)
      | none => .error (.missing what)

/-! ## The positional arguments -/

/-- The token before a place is no flag. -/
def FollowsNoFlag (args : List Token) : Nat → Prop
  | 0 => True
  | index + 1 => ∀ last ∈ args[index]?, isFlag last = false

theorem followsNoFlag_cons_iff {value : Token} (notFlag : isFlag value = false)
    {args : List Token} {index : Nat} :
    FollowsNoFlag (value :: args) (index + 1) ↔ FollowsNoFlag args index := by
  cases index with
  | zero => simp [FollowsNoFlag, notFlag]
  | succ index => rfl

theorem start_le_of_mem_positionals {args : List Token} {start : Nat} {entry : Nat × Token}
    (member : entry ∈ positionals start args) : start ≤ entry.1 := by
  induction start, args using positionals.induct with
  | case1 => cases member
  | case2 index value isValue =>
      rw [positionals, if_pos isValue] at member
      cases member
  | case3 index value notFlag =>
      rw [positionals, if_neg notFlag] at member
      rw [List.mem_singleton.mp member]
  | case4 index value next rest isValue isNext inductionHypothesis =>
      rw [positionals, if_pos isValue, if_pos isNext] at member
      exact Nat.le_of_succ_le (inductionHypothesis member)
  | case5 index value next rest isValue notNext inductionHypothesis =>
      rw [positionals, if_pos isValue, if_neg notNext] at member
      exact Nat.le_of_succ_le (Nat.le_of_succ_le (inductionHypothesis member))
  | case6 index value next rest notValue inductionHypothesis =>
      rw [positionals, if_neg notValue] at member
      rcases List.mem_cons.mp member with rfl | later
      · exact Nat.le_refl _
      · exact Nat.le_of_succ_le (inductionHypothesis later)

theorem not_mem_positionals_of_lt {args : List Token} {start index : Nat} {token : Token}
    (earlier : index < start) : (index, token) ∉ positionals start args := fun member =>
  absurd (start_le_of_mem_positionals member) (Nat.not_le.mpr earlier)

/-- A flag at the front is no positional argument. -/
theorem not_positional_of_isFlag {value token : Token} {rest : List Token} {follows : Prop}
    (isValue : isFlag value = true) :
    ¬((value :: rest)[0]? = some token ∧ isFlag token = false ∧ follows) := by
  rintro ⟨stands, notFlag, _⟩
  obtain rfl := Option.some.inj stands
  exact absurd isValue (by simp [notFlag])

theorem here_iff {value token : Token} {rest : List Token} {index : Nat}
    (notFlag : isFlag value = false) :
    (index, token) = (index, value) ↔
      (value :: rest)[0]? = some token ∧ isFlag token = false ∧
          FollowsNoFlag (value :: rest) 0 := by
  constructor
  · intro same
    cases same
    exact ⟨rfl, notFlag, trivial⟩
  · rintro ⟨stands, _, _⟩
    rw [Option.some.inj stands]

/-- A token that is no flag is skipped just where it follows one. -/
theorem mem_positionals_iff {args : List Token} {start offset : Nat} {token : Token} :
    (start + offset, token) ∈ positionals start args ↔
      args[offset]? = some token ∧ isFlag token = false ∧ FollowsNoFlag args offset := by
  induction start, args using positionals.induct generalizing offset with
  | case1 => simp [positionals]
  | case2 index value isValue =>
      rw [positionals, if_pos isValue]
      refine iff_of_false List.not_mem_nil ?_
      rintro ⟨stands, notFlag, _⟩
      obtain rfl := List.mem_singleton.mp (List.mem_of_getElem? stands)
      exact absurd isValue (by simp [notFlag])
  | case3 index value notFlag =>
      rw [positionals, if_neg notFlag, List.mem_singleton]
      cases offset with
      | zero => exact here_iff (by simpa using notFlag)
      | succ offset => simp
  | case4 index value next rest isValue isNext inductionHypothesis =>
      rw [positionals, if_pos isValue, if_pos isNext]
      cases offset with
      | zero =>
          exact iff_of_false (not_mem_positionals_of_lt (by omega))
            (not_positional_of_isFlag isValue)
      | succ offset =>
          rw [Nat.add_comm offset, ← Nat.add_assoc, inductionHypothesis, Nat.add_comm 1]
          cases offset with
          | zero =>
              exact iff_of_false (not_positional_of_isFlag isNext)
                (@not_positional_of_isFlag _ _ rest _ isNext)
          | succ offset => rfl
  | case5 index value next rest isValue notNext inductionHypothesis =>
      rw [positionals, if_pos isValue, if_neg notNext]
      cases offset with
      | zero =>
          exact iff_of_false (not_mem_positionals_of_lt (by omega))
            (not_positional_of_isFlag isValue)
      | succ offset =>
          cases offset with
          | zero =>
              refine iff_of_false (not_mem_positionals_of_lt (by omega)) ?_
              rintro ⟨_, _, follows⟩
              exact absurd isValue (by simp [follows value rfl])
          | succ offset =>
              have isPlace : index + (offset + 1 + 1) = index + 2 + offset := by omega
              rw [isPlace, inductionHypothesis, ← followsNoFlag_cons_iff (by simpa using notNext)]
              rfl
  | case6 index value next rest notValue inductionHypothesis =>
      rw [positionals, if_neg notValue, List.mem_cons]
      cases offset with
      | zero =>
          rw [Nat.add_zero, or_iff_left (not_mem_positionals_of_lt (Nat.lt_succ_self index))]
          exact here_iff (by simpa using notValue)
      | succ offset =>
          have isPlace : index + (offset + 1) = index + 1 + offset := by omega
          have notHere : (index + (offset + 1), token) ≠ (index, value) := by simp
          rw [or_iff_right notHere, isPlace, inductionHypothesis,
            ← followsNoFlag_cons_iff (by simpa using notValue)]
          rfl

/-- The same, by the places of the whole command line. -/
theorem mem_positionals_drop_iff {args : List Token} {start index : Nat} {token : Token}
    (behind : start ≤ index) (stands : args[index]? = some token) (notFlag : isFlag token = false) :
    (index, token) ∈ positionals start (args.drop start) ↔
      ∀ last, start < index → args[index - 1]? = some last → isFlag last = false := by
  obtain ⟨offset, rfl⟩ := Nat.exists_eq_add_of_le behind
  rw [mem_positionals_iff, List.getElem?_drop, and_iff_right stands, and_iff_right notFlag]
  cases offset with
  | zero => simp [FollowsNoFlag]
  | succ offset => simp [FollowsNoFlag, List.getElem?_drop]

/-! ## The values of flags -/

/-- No token spells the flag. -/
def Unspelled (flag : Token) (tokens : List Token) : Prop :=
  ∀ token ∈ tokens, token ≠ flag ∧ ¬ flag ++ ['='] <+: token

instance (flag : Token) (tokens : List Token) : Decidable (Unspelled flag tokens) :=
  inferInstanceAs (Decidable (∀ token ∈ tokens, _))

theorem findFlag_eq_spaced_iff {flag : Token} {index next : Nat} {args : List Token} :
    findFlag flag index args = some (.spaced next) ↔
      ∃ before rest, args = before ++ flag :: rest ∧ next = index + before.length + 1 ∧
        Unspelled flag before := by
  induction args generalizing index with
  | nil => simp [findFlag]
  | cons value others inductionHypothesis =>
      rw [findFlag]
      by_cases here : value = flag
      · rw [if_pos here, Option.some.injEq, Spelling.spaced.injEq]
        constructor
        · rintro rfl
          exact ⟨[], others, by rw [here, List.nil_append], by simp, by simp [Unspelled]⟩
        · rintro ⟨before, rest, isArgs, rfl, unspelled⟩
          cases before with
          | nil => simp
          | cons first before =>
              rw [List.cons_append, List.cons.injEq] at isArgs
              exact absurd (isArgs.1.symm.trans here) (unspelled first List.mem_cons_self).1
      · rw [if_neg here]
        have ahead : ∀ rest : List Token, value :: others ≠ [] ++ flag :: rest := by
          intro rest same
          exact here (List.cons.inj same).1
        cases isInline : value.dropPrefix? (flag ++ ['=']) with
        | some inline =>
            have spells : flag ++ ['='] <+: value := by
              obtain ⟨word, isValue, isWord⟩ := List.dropPrefix?_eq_some_iff.mp isInline
              exact ⟨inline, by rw [isValue, eq_of_beq isWord]⟩
            refine iff_of_false (by simp) ?_
            rintro ⟨before, rest, isArgs, _, unspelled⟩
            cases before with
            | nil => exact ahead rest isArgs
            | cons first before =>
                rw [List.cons_append, List.cons.injEq] at isArgs
                exact (unspelled first List.mem_cons_self).2 (isArgs.1 ▸ spells)
        | none =>
            have noPrefix : ¬ flag ++ ['='] <+: value := by
              rintro ⟨inline, isValue⟩
              rw [← isValue, List.dropPrefix?_append_of_beq _ BEq.rfl] at isInline
              cases isInline
            dsimp only
            rw [inductionHypothesis]
            constructor
            · rintro ⟨before, rest, isArgs, rfl, unspelled⟩
              refine ⟨value :: before, rest, by rw [isArgs, List.cons_append], ?_, ?_⟩
              · rw [List.length_cons]
                omega
              · exact List.forall_mem_cons.mpr ⟨⟨here, noPrefix⟩, unspelled⟩
            · rintro ⟨before, rest, isArgs, rfl, unspelled⟩
              cases before with
              | nil => exact absurd isArgs (ahead rest)
              | cons first before =>
                  rw [List.cons_append, List.cons.injEq] at isArgs
                  refine ⟨before, rest, isArgs.2, ?_, (List.forall_mem_cons.mp unspelled).2⟩
                  rw [List.length_cons]
                  omega

/-- The token at a place is what is read for a flag that stands in front of it as a token. -/
def ReadAsValue (args : List Token) (index : Nat) (flag : Token) : Prop :=
  findFlag flag 0 args = some (.spaced index) ∧ cliFlagValue args flag = args[index]?

/-- A name that a flag can be looked up by. -/
def IsFlagName (flag : Token) : Prop := isFlag flag = true ∧ '=' ∉ flag

/-- The two readers agree on every token from `start` on that is no flag. -/
def Agree (args : List Token) (start : Nat) : Prop :=
  ∀ index token, start ≤ index → args[index]? = some token → isFlag token = false →
    ((index, token) ∈ positionals start (args.drop start) ↔
      ¬ ∃ flag, IsFlagName flag ∧ ReadAsValue args index flag)

/-- The flag at a place is spelled there first, and with no `=`. -/
def FirstSpelling (args : List Token) (index : Nat) (flag : Token) : Prop :=
  args[index]? = some flag ∧ IsFlagName flag ∧ Unspelled flag (args.take index)

structure Unambiguous (args : List Token) (start : Nat) : Prop where
  spelled_first : ∀ index flag value, start ≤ index → args[index]? = some flag →
    isFlag flag = true → args[index + 1]? = some value → isFlag value = false →
    FirstSpelling args index flag
  not_before_start : ∀ index flag value, index + 1 = start → args[start]? = some value →
    isFlag value = false → ¬ FirstSpelling args index flag

theorem findFlag_start_iff {flag : Token} {index : Nat} {args : List Token} :
    findFlag flag 0 args = some (.spaced (index + 1)) ↔
      args[index]? = some flag ∧ Unspelled flag (args.take index) := by
  rw [findFlag_eq_spaced_iff]
  constructor
  · rintro ⟨before, rest, rfl, isNext, unspelled⟩
    obtain rfl : index = before.length := by omega
    rw [List.take_left]
    exact ⟨by simp, unspelled⟩
  · rintro ⟨stands, unspelled⟩
    obtain ⟨inside, isFlag⟩ := List.getElem?_eq_some_iff.mp stands
    refine ⟨args.take index, args.drop (index + 1), ?_, ?_, unspelled⟩
    · rw [← isFlag, ← List.drop_eq_getElem_cons inside, List.take_append_drop]
    · rw [List.length_take]
      omega

theorem readAsValue_iff {args : List Token} {index : Nat} {flag token : Token}
    (stands : args[index + 1]? = some token) (notFlag : isFlag token = false) :
    ReadAsValue args (index + 1) flag ↔
      args[index]? = some flag ∧ Unspelled flag (args.take index) := by
  rw [ReadAsValue, findFlag_start_iff]
  apply and_iff_left_of_imp
  intro spelled
  rw [cliFlagValue, findFlag_start_iff.mpr spelled]
  dsimp only
  rw [stands, Option.filter_some, if_pos (by simp [notFlag])]

theorem not_readAsValue_zero {args : List Token} {flag : Token} : ¬ ReadAsValue args 0 flag := by
  rintro ⟨found, _⟩
  obtain ⟨before, _, _, isNext, _⟩ := findFlag_eq_spaced_iff.mp found
  omega

theorem exists_readAsValue_iff {args : List Token} {index : Nat} {token : Token}
    (stands : args[index + 1]? = some token) (notFlag : isFlag token = false) :
    (∃ flag, IsFlagName flag ∧ ReadAsValue args (index + 1) flag) ↔
      ∃ flag, FirstSpelling args index flag := by
  apply exists_congr
  intro flag
  rw [readAsValue_iff stands notFlag, FirstSpelling]
  exact and_left_comm

/-! ## Where the readers agree -/

theorem agree_iff (args : List Token) (start : Nat) :
    Agree args start ↔ Unambiguous args start := by
  constructor
  · intro agree
    refine ⟨?_, ?_⟩
    · intro index flag value behind stands isFlag' follows notFlag
      have skipped : ¬ (index + 1, value) ∈ positionals start (args.drop start) := by
        rw [mem_positionals_drop_iff (Nat.le_succ_of_le behind) follows notFlag]
        intro noFlag
        have notFlag := noFlag flag (Nat.lt_succ_of_le behind) stands
        exact absurd isFlag' (by simp [notFlag])
      have isRead := not_not.mp (mt (agree (index + 1) value (Nat.le_succ_of_le behind) follows
        notFlag).mpr skipped)
      obtain ⟨name, first⟩ := (exists_readAsValue_iff follows notFlag).mp isRead
      obtain rfl : name = flag := Option.some.inj (first.1.symm.trans stands)
      exact first
    · rintro index flag value rfl stands notFlag first
      have kept : (index + 1, value) ∈ positionals (index + 1) (args.drop (index + 1)) := by
        rw [mem_positionals_drop_iff (Nat.le_refl _) stands notFlag]
        intro last behind
        exact absurd behind (Nat.lt_irrefl _)
      apply (agree (index + 1) value (Nat.le_refl _) stands notFlag).mp kept
      exact (exists_readAsValue_iff stands notFlag).mpr ⟨flag, first⟩
  · intro unambiguous index token behind stands notFlag
    rw [mem_positionals_drop_iff behind stands notFlag]
    cases index with
    | zero =>
        refine iff_of_true (fun _ ahead => absurd ahead (Nat.not_lt_zero start)) ?_
        rintro ⟨flag, _, isRead⟩
        exact not_readAsValue_zero isRead
    | succ index =>
        rw [exists_readAsValue_iff stands notFlag, Nat.add_sub_cancel]
        rcases Nat.lt_or_eq_of_le behind with inside | isStart
        · constructor
          · rintro noFlag ⟨flag, first⟩
            have notName := noFlag flag inside first.1
            exact absurd first.2.1.1 (by simp [notName])
          · intro noFirst last _ isLast
            apply Bool.eq_false_iff.mpr
            intro isFlag'
            exact noFirst ⟨last, unambiguous.spelled_first index last token
              (Nat.le_of_lt_succ inside) isLast isFlag' stands notFlag⟩
        · refine iff_of_true (fun _ ahead => absurd ahead (by omega)) ?_
          rintro ⟨flag, first⟩
          exact unambiguous.not_before_start index flag token isStart.symm (isStart ▸ stands)
            notFlag first

/-- `server app web capture-element --selector=x out.png` -/
def captureElement : List Token :=
  ["server", "app", "web", "capture-element", "--selector=x", "out.png"].map String.toList

theorem not_agree_captureElement : ¬ Agree captureElement 4 := by
  intro agree
  have notKept : (5, "out.png".toList) ∉ positionals 4 (captureElement.drop 4) := by decide
  apply notKept
  apply (agree 5 "out.png".toList (by decide) rfl (by decide)).mpr
  intro isRead
  obtain ⟨flag, stands, ⟨_, noEquals⟩, _⟩ := (exists_readAsValue_iff rfl (by decide)).mp isRead
  cases stands
  exact absurd noEquals (by decide)

/-! ## The payload -/

/-- The payload is the first positional argument. -/
theorem cliPayloadArg_eq_ok_iff {args : List Token} {start : Nat} {what value : List Char} :
    cliPayloadArg args start what = .ok value ↔
        (cliPositionalArgs args start).head? = some value := by
  have noFlag : ∀ token ∈ cliPositionalArgs args start, isFlag token = false := by
    intro token member
    obtain ⟨⟨index, _⟩, kept, rfl⟩ := List.mem_map.mp member
    obtain ⟨offset, rfl⟩ := Nat.exists_eq_add_of_le (start_le_of_mem_positionals kept)
    exact (mem_positionals_iff.mp kept).2.1
  rw [cliPayloadArg]
  cases isFirst : (cliPositionalArgs args start).head? with
  | some first =>
      have notFlag := noFlag first (List.mem_of_mem_head? isFirst)
      simp [refuseFlagShapedPayload, notFlag]
  | none =>
      dsimp only
      refine iff_of_false ?_ (by simp)
      split
      · split
        · next flagged _ isFlag' => simp [refuseFlagShapedPayload, isFlag']
        · intro same
          cases same
      · intro same
        cases same

end Yggterm.CommandLine
