import TexFormula.Proofs.Arithmetic.Units
import TexFormula.Proofs.ExpressionEnds
import TexFormula.Proofs.Places
import TexFormula.Proofs.SideBySide

/-!
# A parse with and without its letters

Letters that the options leave out are skipped where an operand is read. `Sifted s s'`: the second
state is at the same place as the first one, and of its tokens the letters are missing. `Sifts`: what
the first of two programs reads in a state with letters the second one reads in the one without.

Skipping comes late: whether an operand goes on with an operator, and how far a numeral goes, has been
decided by the letter. `Token.lettersApart` says of a list of tokens that none of its letters decides
anything.
-/

namespace TexFormula

namespace Token

/-! ### Tokens between which a letter decides nothing -/

def isLetter (t : Token) : Bool :=
  match t.kind with
  | .letter _ => true
  | _ => false

/-- The tokens that are no letters. -/
def sift (tokens : List Token) : List Token :=
  tokens.filter (!·.isLetter)

/-- Behind an operand the token is an operator. -/
def operates (t : Token) : Bool :=
  t.trigger?.any Dictionary.standard.hasOperator

/-- An operand is read behind the token, whatever stands before it. -/
def awaitsOperand (t : Token) : Bool :=
  t.kind == .groupOpen || t.kind == .optionalOpen || t.isPunct '(' || t.isPunct '&' ||
    (t.operates && !t.isPunct '!')

/-- The second token belongs to the first one if they stand side by side: it is part of one numeral with
it, gets its sign or is its script. -/
def joins (t u : Token) : Bool :=
  u.digits?.isSome && ['.', '+', '-', '^', '_'].any t.isPunct ||
    u.isPunct '.' && (t.digits?.isSome || ['+', '-'].any t.isPunct)

def isBrace (t : Token) : Bool :=
  t.kind == .groupOpen || t.kind == .groupClose

/-- The last of the tokens, of which the latest is the first, may end a group with nothing in it. -/
def endsGap : List Token → Bool
  | t :: u :: _ => t.kind == .groupClose && u.isBrace
  | _ => false

/-- Letters decide nothing behind the tokens `before`, of which the latest is the first, and in front of
the token `behind`, if there is one. -/
def parts (before : List Token) (behind : Option Token) : Bool :=
  !endsGap before &&
    before.head?.all fun t => behind.all fun u => !t.joins u && (!u.operates || t.awaitsOperand)

/-- No letter among the tokens decides anything, when those `before` stand in front of them. -/
def lettersApart (before : List Token) : List Token → Bool
  | [] => true
  | t :: rest =>
    if t.isLetter then
      parts before (sift rest).head? && lettersApart before rest
    else
      lettersApart (t :: before) rest

variable {t u : Token} {before rest : List Token}

@[simp] theorem sift_nil : sift [] = [] := rfl

theorem sift_cons_of_isLetter (h : t.isLetter = true) (rest : List Token) :
    sift (t :: rest) = sift rest := by
  simp [sift, h]

theorem sift_cons_of_not_isLetter (h : t.isLetter = false) (rest : List Token) :
    sift (t :: rest) = t :: sift rest := by
  simp [sift, h]

theorem lettersApart_of_not_isLetter (h : t.isLetter = false) :
    lettersApart before (t :: rest) = lettersApart (t :: before) rest := by
  rw [lettersApart, h]
  rfl

theorem parts_of_lettersApart (h : lettersApart before (t :: rest) = true) (ht : t.isLetter = true) :
    parts before (sift rest).head? = true ∧ lettersApart before rest = true := by
  rw [lettersApart, if_pos ht] at h
  exact Bool.and_eq_true_iff.mp h

theorem not_joins_of_parts (h : parts (t :: before) (some u) = true) : t.joins u = false := by
  simp only [parts, List.head?_cons, Option.all_some, Bool.and_eq_true, Bool.not_eq_true'] at h
  exact h.2.1

theorem awaitsOperand_of_parts (h : parts (t :: before) (some u) = true) (hu : u.operates = true) :
    t.awaitsOperand = true := by
  simp only [parts, List.head?_cons, Option.all_some, hu, Bool.and_eq_true, Bool.not_true,
    Bool.false_or] at h
  exact h.2.2

theorem not_endsGap_of_parts {behind : Option Token} (h : parts before behind = true) :
    endsGap before = false := by
  simp only [parts, Bool.and_eq_true, Bool.not_eq_true'] at h
  exact h.1

theorem isLetter_of_kind {c : Char} (h : t.kind = .letter c) : t.isLetter = true := by
  rw [isLetter, h]

theorem exists_kind_of_isLetter (h : t.isLetter = true) : ∃ c, t.kind = .letter c := by
  unfold isLetter at h
  split at h
  · next c hkind => exact ⟨c, hkind⟩
  · cases h

/-! ### Runs of digits -/

theorem exists_kind_of_digits? (h : t.digits?.isSome) : ∃ run, t.kind = .digits run := by
  unfold digits? at h
  split at h
  · next run hkind => exact ⟨run, hkind⟩
  · cases h

theorem not_isLetter_of_digits? (h : t.digits?.isSome) : t.isLetter = false := by
  obtain ⟨run, hkind⟩ := exists_kind_of_digits? h
  rw [isLetter, hkind]

theorem isBrace_of_digits? (h : t.digits?.isSome) : t.isBrace = false := by
  obtain ⟨run, hkind⟩ := exists_kind_of_digits? h
  rw [isBrace, hkind]
  rfl

theorem endsGap_of_digits? (h : t.digits?.isSome) : endsGap (t :: before) = false := by
  obtain ⟨run, hkind⟩ := exists_kind_of_digits? h
  cases before with
  | nil => rfl
  | cons u before =>
    rw [endsGap, hkind]
    rfl

theorem joins_of_digits? (h : t.digits?.isSome) : t.joins u = u.isPunct '.' := by
  obtain ⟨run, hkind⟩ := exists_kind_of_digits? h
  have hmarks : ['.', '+', '-', '^', '_'].any t.isPunct = false := by
    rw [List.any_eq_false]
    intro c _
    rw [isPunct, hkind]
    exact Bool.false_ne_true
  rw [joins, hmarks, h, Bool.and_false, Bool.false_or, Bool.true_or, Bool.and_true]

theorem awaitsOperand_of_digits? (h : t.digits?.isSome) : t.awaitsOperand = false := by
  obtain ⟨run, hkind⟩ := exists_kind_of_digits? h
  simp only [awaitsOperand, operates, trigger?, isPunct, hkind]
  rfl

/-- A run of digits may be cut. -/
theorem lettersApart_congr {t' : Token} (ht : t.digits?.isSome) (ht' : t'.digits?.isSome)
    (front : List Token) :
    lettersApart (front ++ t' :: before) rest = lettersApart (front ++ t :: before) rest := by
  have hparts (front : List Token) (behind : Option Token) :
      parts (front ++ t' :: before) behind = parts (front ++ t :: before) behind := by
    rcases front with - | ⟨u, - | ⟨v, front⟩⟩
    · simp only [parts, List.nil_append, List.head?_cons, Option.all_some, endsGap_of_digits? ht,
        endsGap_of_digits? ht', joins_of_digits? ht, joins_of_digits? ht', awaitsOperand_of_digits? ht,
        awaitsOperand_of_digits? ht']
    · simp only [parts, List.cons_append, List.nil_append, List.head?_cons, endsGap,
        isBrace_of_digits? ht, isBrace_of_digits? ht']
    · rfl
  induction rest generalizing front with
  | nil => rfl
  | cons u rest ih =>
    rw [lettersApart, lettersApart, hparts, ih]
    exact congrArg _ (ih (u :: front))

/-- The token is no command, and if it is a letter it covers some text. -/
structure Simple (t : Token) : Prop where
  trigger {trigger : String} : t.trigger? = some trigger → trigger.toList.head? ≠ some '\\'
  letter {c : Char} : t.kind = .letter c → Text.isLetter c = true
  covers : t.isLetter = true → t.start < t.stop

theorem Simple.not_command (h : t.Simple) (name : String) : t.kind ≠ .command name := by
  intro hkind
  refine h.trigger (by rw [trigger?, hkind]; rfl) ?_
  rw [String.toList_append]
  rfl

theorem Simple.isSpacing (h : t.Simple) : Parser.State.isSpacing t = false := by
  unfold Parser.State.isSpacing
  split
  · next name hkind => exact absurd hkind (h.not_command name)
  · rfl

theorem Simple.isCommand (h : t.Simple) (name : String) : t.isCommand name = false :=
  beq_false_of_ne (h.not_command name)

end Token

namespace Parser

variable {α β : Type} {env : Env} {s s' t t' : State} {token : Token} {rest : List Token}

open Token (sift sift_cons_of_isLetter sift_cons_of_not_isLetter)

/-! ### States without their letters -/

namespace State

/-- A letter is next. -/
def atLetter (s : State) : Bool :=
  s.rest.head?.any Token.isLetter

/-- If a letter is next, the token read last awaits no operand, letters aside. -/
def Sated (s : State) : Prop :=
  s.atLetter = true → ∃ t ∈ (sift s.seen).head?, t.awaitsOperand = false

/-- The token read last is a brace, letters aside. -/
def BehindBrace (s : State) : Prop :=
  ∃ t ∈ (sift s.seen).head?, t.isBrace = true

theorem Sated.of_not (h : s.atLetter = false) : s.Sated := by
  intro hletter
  rw [h] at hletter
  cases hletter

theorem sift_seen_forward_one (hs : s.rest = token :: rest) (ht : token.isLetter = false) :
    sift (s.forward 1).seen = token :: sift s.seen := by
  rw [seen_forward_one hs, sift_cons_of_not_isLetter ht]

theorem atLetter_of_rest (hs : s.rest = token :: rest) : s.atLetter = token.isLetter := by
  rw [atLetter, hs]
  rfl

theorem exists_of_atLetter (h : s.atLetter = true) :
    ∃ token rest, s.rest = token :: rest ∧ token.isLetter = true := by
  cases hs : s.rest with
  | nil =>
    rw [atLetter, hs] at h
    cases h
  | cons token rest => exact ⟨token, rest, rfl, (atLetter_of_rest hs).symm.trans h⟩

/-- Behind a token that awaits no operand. -/
theorem Sated.forward_one (hs : s.rest = token :: rest) (ht : token.isLetter = false)
    (hawaits : token.awaitsOperand = false) : (s.forward 1).Sated :=
  fun _ => ⟨token, by rw [sift_seen_forward_one hs ht]; rfl, hawaits⟩

end State

/-- The second state is the first one without the letters among its tokens. None of them decides
anything, none is waited for, the tokens stand in order, and no unknown command was found. -/
structure Sifted (s s' : State) : Prop where
  seen : s'.seen = sift s.seen
  rest : s'.rest = sift s.rest
  closers : s'.closers = s.closers
  problems : s'.diagnostics.map (·.problem) = s.diagnostics.map (·.problem)
  clear : ∀ d ∈ s.diagnostics, d.problem.cause ≠ .unknownCommand
  marks : ∀ close ∈ s.closers, close ∈ [")", "\x7d", "]", "|"]
  simple : ∀ t ∈ s.tokens, t.Simple
  ordered : s.tokens.Pairwise fun t u => t.stop ≤ u.start
  apart : Token.lettersApart (sift s.seen) s.rest = true

theorem not_mark_letter {c : Char} (hc : Text.isLetter c = true) :
    String.singleton c ∉ [")", "\x7d", "]", "|"] := by
  have hmarks : ∀ mark ∈ [")", "\x7d", "]", "|"], mark.toList.all Text.isLetter = false := by decide
  intro hmem
  have hmark := hmarks _ hmem
  rw [String.toList_singleton, List.all_cons, hc] at hmark
  cases hmark

namespace Sifted

theorem simple_of_mem (h : Sifted s s') (ht : token ∈ s.rest) : token.Simple :=
  h.simple token (List.mem_append_right _ ht)

theorem rest_nil (h : Sifted s s') (hs : s.rest = []) : s'.rest = [] := by
  rw [h.rest, hs]
  rfl

theorem rest_cons (h : Sifted s s') (hs : s.rest = token :: rest) (ht : token.isLetter = false) :
    s'.rest = token :: sift rest := by
  rw [h.rest, hs, sift_cons_of_not_isLetter ht]

theorem length_rest_le (h : Sifted s s') : s'.rest.length ≤ s.rest.length := by
  rw [h.rest]
  exact List.length_filter_le _ _

theorem pastSpacing (h : Sifted s s') : s.pastSpacing = s ∧ s'.pastSpacing = s' := by
  have hnone {tokens : List Token} (htokens : ∀ t ∈ tokens, t.Simple) :
      tokens.takeWhile State.isSpacing = [] := by
    cases tokens with
    | nil => rfl
    | cons t tokens =>
      have ht := (htokens t (.head _)).isSpacing
      rw [List.takeWhile_cons_of_neg (by rw [ht]; exact Bool.false_ne_true)]
  have hrest : ∀ t ∈ s.rest, t.Simple := fun t => h.simple_of_mem
  have hrest' : ∀ t ∈ s'.rest, t.Simple := fun t ht => hrest t (by
    rw [h.rest] at ht
    exact List.mem_of_mem_filter ht)
  exact ⟨by rw [State.pastSpacing, hnone hrest]; rfl, by rw [State.pastSpacing, hnone hrest']; rfl⟩

section

variable (h : Sifted s s')

include h

theorem current (hs : s.atLetter = false) : s'.current env = s.current env := by
  cases hrest : s.rest with
  | nil => rw [State.current_of_rest_nil hrest, State.current_of_rest_nil (h.rest_nil hrest)]
  | cons t rest =>
    rw [State.atLetter_of_rest hrest] at hs
    rw [State.current_of_rest hrest, State.current_of_rest (h.rest_cons hrest hs)]

theorem forward_one (hs : s.atLetter = false) : Sifted (s.forward 1) (s'.forward 1) := by
  cases hrest : s.rest with
  | nil =>
    rw [State.forward_of_rest_nil hrest, State.forward_of_rest_nil (h.rest_nil hrest)]
    exact h
  | cons t rest =>
    rw [State.atLetter_of_rest hrest] at hs
    have hrest' := h.rest_cons hrest hs
    have hapart := h.apart
    rw [hrest, Token.lettersApart_of_not_isLetter hs] at hapart
    refine ⟨?_, ?_, ?_, ?_, ?_, ?_, ?_, ?_, ?_⟩
    · rw [State.seen_forward_one hrest', State.sift_seen_forward_one hrest hs, h.seen]
    · rw [State.rest_forward, State.rest_forward, hrest, hrest']
      rfl
    · rw [State.closers_forward, State.closers_forward, h.closers]
    · rw [State.diagnostics_forward, State.diagnostics_forward, h.problems]
    · rw [State.diagnostics_forward]
      exact h.clear
    · rw [State.closers_forward]
      exact h.marks
    · rw [State.tokens_forward]
      exact h.simple
    · rw [State.tokens_forward]
      exact h.ordered
    · rw [State.sift_seen_forward_one hrest hs, State.rest_forward, hrest]
      exact hapart

/-- A letter that is read is missing on the other side. -/
theorem forward_letter (hs : s.atLetter = true) : Sifted (s.forward 1) s' := by
  obtain ⟨t, rest, hrest, ht⟩ := State.exists_of_atLetter hs
  have hseen : sift (s.forward 1).seen = sift s.seen := by
    rw [State.seen_forward_one hrest, sift_cons_of_isLetter ht]
  have hbehind : (s.forward 1).rest = rest := by
    rw [State.rest_forward, hrest]
    rfl
  have hapart := h.apart
  rw [hrest] at hapart
  refine ⟨?_, ?_, ?_, ?_, ?_, ?_, ?_, ?_, ?_⟩
  · rw [hseen, h.seen]
  · rw [hbehind, h.rest, hrest, sift_cons_of_isLetter ht]
  · rw [State.closers_forward, h.closers]
  · rw [State.diagnostics_forward, h.problems]
  · rw [State.diagnostics_forward]
    exact h.clear
  · rw [State.closers_forward]
    exact h.marks
  · rw [State.tokens_forward]
    exact h.simple
  · rw [State.tokens_forward]
    exact h.ordered
  · rw [hseen, hbehind]
    exact (Token.parts_of_lettersApart hapart ht).2

/-- The letters that are next can be read. -/
theorem exists_forward_letters : ∃ n, (∀ t ∈ s.rest.take n, t.isLetter = true) ∧
    Sifted (s.forward n) s' ∧ (s.forward n).atLetter = false := by
  induction hlength : s.rest.length generalizing s with
  | zero =>
    have hnil := List.length_eq_zero_iff.mp hlength
    refine ⟨0, nofun, by rwa [State.forward_zero], ?_⟩
    rw [State.forward_zero, State.atLetter, hnil]
    rfl
  | succ length ih =>
    cases hs : s.atLetter with
    | false => exact ⟨0, nofun, by rwa [State.forward_zero], by rwa [State.forward_zero]⟩
    | true =>
      obtain ⟨t, rest, hrest, ht⟩ := State.exists_of_atLetter hs
      have hbehind : (s.forward 1).rest = rest := by
        rw [State.rest_forward, hrest]
        rfl
      have hshort : (s.forward 1).rest.length = length := by
        rw [hbehind]
        rw [hrest, List.length_cons] at hlength
        exact Nat.succ_inj.mp hlength
      obtain ⟨n, hletters, hsifted, hoff⟩ := ih (h.forward_letter hs) hshort
      rw [State.forward_forward, Nat.add_comm] at hsifted hoff
      refine ⟨n + 1, ?_, hsifted, hoff⟩
      rw [hrest, List.take_succ_cons, List.forall_mem_cons]
      exact ⟨ht, hbehind ▸ hletters⟩

/-- Behind an operand, the token behind the letters is no operator. -/
theorem not_operates (hsated : s.Sated) (hs : s.atLetter = true) (ht : token ∈ s'.rest.head?) :
    token.operates = false := by
  obtain ⟨last, hlast, hawaits⟩ := hsated hs
  obtain ⟨before, hseen⟩ := List.head?_eq_some_iff.mp hlast
  obtain ⟨l, rest, hrest, hl⟩ := State.exists_of_atLetter hs
  have hapart := h.apart
  rw [hrest, hseen] at hapart
  have hparts := (Token.parts_of_lettersApart hapart hl).1
  rw [h.rest, hrest, sift_cons_of_isLetter hl] at ht
  rw [Option.mem_def.mp ht] at hparts
  by_contra hoperates
  rw [Token.awaitsOperand_of_parts hparts (Bool.eq_true_of_not_eq_false hoperates)] at hawaits
  cases hawaits

/-- Behind a group that may be empty there is no letter. -/
theorem not_atLetter_of_endsGap (hgap : Token.endsGap (sift s.seen) = true) : s.atLetter = false := by
  by_contra hs
  obtain ⟨l, rest, hrest, hl⟩ := State.exists_of_atLetter (Bool.eq_true_of_not_eq_false hs)
  have hapart := h.apart
  rw [hrest] at hapart
  rw [Token.not_endsGap_of_parts (Token.parts_of_lettersApart hapart hl).1] at hgap
  cases hgap

theorem atTerminator (hs : s.atLetter = false) : s'.atTerminator env = s.atTerminator env := by
  rw [State.atTerminator, State.atTerminator, h.current hs, h.closers]

/-- An expression goes on with a letter. -/
theorem not_atTerminator (hs : s.atLetter = true) : s.atTerminator env = false := by
  obtain ⟨l, rest, hrest, hl⟩ := State.exists_of_atLetter hs
  obtain ⟨c, hkind⟩ := Token.exists_kind_of_isLetter hl
  have hc := (h.simple_of_mem (by rw [hrest]; exact .head _)).letter hkind
  rw [State.atTerminator, State.current_of_rest hrest, Token.trigger?, hkind]
  show (false || _) = false
  cases hcloser : s.closers.head? with
  | none => rfl
  | some close =>
    have hclose := h.marks close (List.mem_of_mem_head? hcloser)
    have hne : close ≠ String.singleton c := by
      rintro rfl
      exact not_mark_letter hc hclose
    exact beq_false_of_ne hne

theorem record {problem : Problem} (hcause : problem.cause ≠ .unknownCommand)
    (start stop start' stop' : Nat) :
    Sifted (s.record problem start stop) (s'.record problem start' stop') :=
  ⟨h.seen, h.rest, h.closers, congrArg (problem :: ·) h.problems,
    List.forall_mem_cons.mpr ⟨hcause, h.clear⟩, h.marks, h.simple, h.ordered, h.apart⟩

theorem await {close : String} (hclose : close ∈ [")", "\x7d", "]", "|"]) :
    Sifted { s with closers := close :: s.closers } { s' with closers := close :: s'.closers } :=
  ⟨h.seen, h.rest, congrArg (close :: ·) h.closers, h.problems, h.clear,
    List.forall_mem_cons.mpr ⟨hclose, h.marks⟩, h.simple, h.ordered, h.apart⟩

theorem dismiss :
    Sifted { s with closers := s.closers.tail } { s' with closers := s'.closers.tail } :=
  ⟨h.seen, h.rest, congrArg List.tail h.closers, h.problems, h.clear,
    fun close hclose => h.marks close (List.mem_of_mem_tail hclose), h.simple, h.ordered, h.apart⟩

/-- A digit is taken off the same run on both sides. -/
theorem cutDigit {run : String} (hrest : s.rest = token :: rest) (hrun : token.digits? = some run) :
    Sifted s.cutDigit s'.cutDigit := by
  have hdigits : token.digits?.isSome := Option.isSome_of_eq_some hrun
  have hletter := Token.not_isLetter_of_digits? hdigits
  have hrest' := h.rest_cons hrest hletter
  have hcut {u : State} {after : List Token} (hu : u.rest = token :: after) : u.cutDigit =
      { u with
        rest := SideBySide.leftover token run :: after
        cuts := (u.position, token) :: u.cuts } :=
    SideBySide.cutDigit_of_rest hu hrun
  have htokens : s.tokens = s.seen.reverse ++ token :: rest := by rw [State.tokens, hrest]
  have hsimple := h.simple
  have hordered := h.ordered
  rw [htokens] at hsimple hordered
  obtain ⟨hseen, hbehind, hacross⟩ := List.pairwise_append.mp hordered
  obtain ⟨hstop, hbehind⟩ := List.pairwise_cons.mp hbehind
  rw [hcut hrest, hcut hrest']
  refine ⟨h.seen, ?_, h.closers, h.problems, h.clear, h.marks, fun t ht => ?_, ?_, ?_⟩
  · exact (sift_cons_of_not_isLetter rfl rest).symm
  · rcases List.mem_append.mp ht with ht | ht
    · exact hsimple t (List.mem_append_left _ ht)
    · rcases List.mem_cons.mp ht with rfl | ht
      · exact ⟨by rintro _ ⟨⟩, by rintro _ ⟨⟩, by rintro ⟨⟩⟩
      · exact hsimple t (List.mem_append_right _ (.tail _ ht))
  · refine List.pairwise_append.mpr ⟨hseen, List.pairwise_cons.mpr ⟨hstop, hbehind⟩, ?_⟩
    intro t ht u hu
    rcases List.mem_cons.mp hu with rfl | hu
    · exact Nat.le_succ_of_le (hacross t ht token (.head _))
    · exact hacross t ht u (.tail _ hu)
  · have hapart := h.apart
    rw [hrest, Token.lettersApart_of_not_isLetter hletter] at hapart
    show Token.lettersApart (sift s.seen) (SideBySide.leftover token run :: rest) = true
    rw [Token.lettersApart_of_not_isLetter rfl]
    exact (Token.lettersApart_congr hdigits rfl []).trans hapart

end

end Sifted

/-! ### Programs in both states -/

/-- What the first program reads from its state the second one reads from its own: the value is the same,
and the states are again the same but for letters. -/
def Sifts (Q : α → State → Prop) (s s' : State) (m m' : Parser α) : Prop :=
  ∀ a t, Runs m s a t → ∃ t', Runs m' s' a t' ∧ Sifted t t' ∧ Q a t

namespace Sifts

variable {Q R : α → State → Prop} {P : β → State → Prop} {m m' : Parser α}

theorem pure {a : α} (h : Sifted s s') (hQ : Q a s) : Sifts Q s s' (Pure.pure a) (Pure.pure a) := by
  intro b t hb
  obtain ⟨rfl, rfl⟩ := runs_pure.mp hb
  exact ⟨s', .pure b s', h, hQ⟩

theorem throw {fault : Fault} {m' : Parser α} : Sifts Q s s' (throw fault) m' :=
  fun _ _ h => absurd h not_runs_throw

theorem mono (h : Sifts Q s s' m m') (hQ : ∀ a t, Q a t → R a t) : Sifts R s s' m m' := by
  intro a t ha
  obtain ⟨t', ha', ht, hq⟩ := h a t ha
  exact ⟨t', ha', ht, hQ a t hq⟩

/-- Programs that do the same as others do, perhaps from elsewhere. -/
theorem of_eq {n n' : Parser α} {u u' : State} (heq : m s = n u) (heq' : m' s' = n' u')
    (h : Sifts Q u u' n n') : Sifts Q s s' m m' := by
  intro a t ha
  obtain ⟨t', ha', hall⟩ := h a t (heq.symm.trans ha)
  exact ⟨t', heq'.trans ha', hall⟩

/-- What is known of the first program alone. -/
theorem and (h : Sifts Q s s' m m') (hm : Ensures R s m) :
    Sifts (fun a t => Q a t ∧ R a t) s s' m m' := by
  intro a t ha
  obtain ⟨t', ha', ht, hq⟩ := h a t ha
  exact ⟨t', ha', ht, hq, hm a t ha⟩

/-- The runs of both first parts are known to what follows. -/
theorem bind_of_runs {f f' : α → Parser β} (h : Sifts Q s s' m m')
    (hf : ∀ a t t', Runs m s a t → Runs m' s' a t' → Sifted t t' → Q a t →
      Sifts P t t' (f a) (f' a)) : Sifts P s s' (m >>= f) (m' >>= f') := by
  intro b u hb
  obtain ⟨a, t, ha, hb⟩ := runs_bind.mp hb
  obtain ⟨t', ha', ht, hq⟩ := h a t ha
  obtain ⟨u', hb', hu, hp⟩ := hf a t t' ha ha' ht hq b u hb
  exact ⟨u', ha'.bind hb', hu, hp⟩

theorem bind {f f' : α → Parser β} (h : Sifts Q s s' m m')
    (hf : ∀ a t t', Sifted t t' → Q a t → Sifts P t t' (f a) (f' a)) :
    Sifts P s s' (m >>= f) (m' >>= f') :=
  h.bind_of_runs fun a t t' _ _ => hf a t t'

theorem map {f : α → β} (h : Sifts Q s s' m m') (hP : ∀ a t, Q a t → P (f a) t) :
    Sifts P s s' (f <$> m) (f <$> m') := by
  intro b t hb
  obtain ⟨a, ha, rfl⟩ := runs_map.mp hb
  obtain ⟨t', ha', ht, hq⟩ := h a t ha
  exact ⟨t', runs_map.mpr ⟨a, ha', rfl⟩, ht, hP a t hq⟩

theorem get {f f' : State → Parser β} (h : Sifts P s s' (f s) (f' s')) :
    Sifts P s s' (MonadState.get >>= f) (MonadState.get >>= f') := h

/-- The tokens that are next may differ. -/
theorem currents {f f' : Token → Parser β} (h : Sifts P s s' (f (s.current env)) (f' (s'.current env))) :
    Sifts P s s' (Parser.current env >>= f) (Parser.current env >>= f') := h

theorem skip {count : Nat} {f f' : Unit → Parser β}
    (hf : Sifts P (s.forward count) (s'.forward count) (f ()) (f' ())) :
    Sifts P s s' (Parser.skip count >>= f) (Parser.skip count >>= f') := hf

theorem ite {c : Prop} [Decidable c] {n n' : Parser α} (h : c → Sifts Q s s' m m')
    (h' : ¬c → Sifts Q s s' n n') : Sifts Q s s' (if c then m else n) (if c then m' else n') := by
  split
  · exact h ‹_›
  · exact h' ‹_›

section

variable (h : Sifted s s')

include h

theorem current {f f' : Token → Parser β} (hs : s.atLetter = false)
    (hf : Sifts P s s' (f (s.current env)) (f' (s.current env))) :
    Sifts P s s' (Parser.current env >>= f) (Parser.current env >>= f') := by
  intro b t hb
  obtain ⟨t', hb', ht⟩ := hf b t (runs_current.mp hb)
  refine ⟨t', runs_current.mpr ?_, ht⟩
  rwa [h.current hs]

theorem advance {f f' : Unit → Parser β} (hs : s.atLetter = false)
    (hf : Sifted (s.forward 1) (s'.forward 1) →
      Sifts P (s.forward 1) (s'.forward 1) (f ()) (f' ())) :
    Sifts P s s' (Parser.advance >>= f) (Parser.advance >>= f') :=
  hf (h.forward_one hs)

theorem skipSpacing {f f' : Unit → Parser β} (hf : Sifts P s s' (f ()) (f' ())) :
    Sifts P s s' (Parser.skipSpacing >>= f) (Parser.skipSpacing >>= f') := by
  obtain ⟨hs, hs'⟩ := h.pastSpacing
  intro b t hb
  have hb : Runs (f ()) s.pastSpacing b t := runs_skipSpacing.mp hb
  rw [hs] at hb
  obtain ⟨t', hb', ht⟩ := hf b t hb
  refine ⟨t', runs_skipSpacing.mpr ?_, ht⟩
  change Runs (f' ()) s'.pastSpacing b t'
  rwa [hs']

theorem atTerminator {f f' : Bool → Parser β} (hs : s.atLetter = false)
    (hf : Sifts P s s' (f (s.atTerminator env)) (f' (s.atTerminator env))) :
    Sifts P s s' (Parser.atTerminator env >>= f) (Parser.atTerminator env >>= f') := by
  intro b t hb
  obtain ⟨t', hb', ht⟩ := hf b t (runs_atTerminator.mp hb)
  refine ⟨t', runs_atTerminator.mpr ?_, ht⟩
  rwa [h.atTerminator hs]

theorem atOperator {f f' : Bool → Parser β} (hs : s.atLetter = false)
    (hf : Sifts P s s' (f ((s.current env).trigger?.any env.dictionary.hasOperator))
      (f' ((s.current env).trigger?.any env.dictionary.hasOperator))) :
    Sifts P s s' (Parser.atOperator env >>= f) (Parser.atOperator env >>= f') := by
  intro b t hb
  obtain ⟨t', hb', ht⟩ := hf b t hb
  refine ⟨t', ?_, ht⟩
  change Runs (f' ((s'.current env).trigger?.any env.dictionary.hasOperator)) s' b t'
  rwa [h.current hs]

theorem recordHere {cause : Problem.Cause} {text : String} {f f' : Unit → Parser β}
    (hcause : cause ≠ .unknownCommand)
    (hf : ∀ t t', Sifted t t' → t.seen = s.seen → t.rest = s.rest → Sifts P t t' (f ()) (f' ())) :
    Sifts P s s' (Parser.recordHere env cause text >>= f) (Parser.recordHere env cause text >>= f') :=
  hf _ _ (h.record hcause _ _ _ _) rfl rfl

theorem record {cause : Problem.Cause} {text : String} {start stop start' stop' : Nat}
    {f f' : Unit → Parser β} (hcause : cause ≠ .unknownCommand)
    (hf : ∀ t t', Sifted t t' → t.seen = s.seen → t.rest = s.rest → Sifts P t t' (f ()) (f' ())) :
    Sifts P s s' (Parser.record cause text start stop >>= f)
      (Parser.record cause text start' stop' >>= f') :=
  hf _ _ (h.record hcause start stop start' stop') rfl rfl

theorem awaiting {close : String} (hclose : close ∈ [")", "\x7d", "]", "|"])
    (hm : ∀ t t', Sifted t t' → t.seen = s.seen → t.rest = s.rest → Sifts Q t t' m m')
    (hQ : ∀ a t u, Q a t → u.seen = t.seen → u.rest = t.rest → R a u) :
    Sifts R s s' (Parser.awaiting close m) (Parser.awaiting close m') := by
  intro a u hu
  obtain ⟨t, ht, rfl⟩ := runs_awaiting.mp hu
  obtain ⟨t', ht', hsifted, hq⟩ := hm _ _ (h.await hclose) rfl rfl a t ht
  exact ⟨_, runs_awaiting.mpr ⟨t', ht', rfl⟩, hsifted.dismiss, hQ a t _ hq rfl rfl⟩

theorem attempt {m m' : Parser (Option α)} {Q R : Option α → State → Prop} (hm : Sifts Q s s' m m')
    (hs : R none s) (hQ : ∀ a t, Q (some a) t → R (some a) t) :
    Sifts R s s' (Parser.attempt m) (Parser.attempt m') := by
  intro a t ha
  rcases runs_attempt.mp ha with ⟨rfl, rfl, u, hu⟩ | ⟨hsome, ha⟩
  · obtain ⟨u', hu', -, -⟩ := hm none u hu
    exact ⟨s', runs_attempt.mpr (.inl ⟨rfl, rfl, u', hu'⟩), h, hs⟩
  · obtain ⟨a, rfl⟩ := Option.isSome_iff_exists.mp hsome
    obtain ⟨t', ha', ht, hq⟩ := hm (some a) t ha
    exact ⟨t', runs_attempt.mpr (.inr ⟨rfl, ha'⟩), ht, hQ a t hq⟩

end

theorem orElse {m m' m₂ m₂' : Parser (Option α)} {Q R : Option α → State → Prop}
    (h : Sifts Q s s' m m') (hQ : ∀ a t, Q (some a) t → R (some a) t)
    (h₂ : ∀ t t', Sifted t t' → Q none t → Sifts R t t' m₂ m₂') :
    Sifts R s s' (Parser.orElse m m₂) (Parser.orElse m' m₂') := by
  intro a u hu
  rcases runs_orElse.mp hu with ⟨hsome, hu⟩ | ⟨t, ht, hu⟩
  · obtain ⟨a, rfl⟩ := Option.isSome_iff_exists.mp hsome
    obtain ⟨u', hu', hsifted, hq⟩ := h (some a) u hu
    exact ⟨u', runs_orElse.mpr (.inl ⟨rfl, hu'⟩), hsifted, hQ a u hq⟩
  · obtain ⟨t', ht', hsifted, hq⟩ := h none t ht
    obtain ⟨u', hu', hall⟩ := h₂ t t' hsifted hq a u hu
    exact ⟨u', runs_orElse.mpr (.inr ⟨t', ht', hu'⟩), hall⟩

end Sifts

end Parser

end TexFormula
