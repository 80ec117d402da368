import TexFormula.Proofs.Excerpt.Numeral
import TexFormula.Proofs.SkippedLetters

/-!
# Numerals between letters

A numeral goes on only with tokens that touch it. A letter between two tokens keeps them from touching,
also where it is missing; all that remains is a point behind digits and a digit behind a point.
-/

namespace TexFormula.Parser

open Token (sift sift_cons_of_isLetter sift_cons_of_not_isLetter lettersApart)

variable {env : Env} {s s' t t' : State} {token : Token} {rest : List Token}

/-! ### Groups behind commas -/

theorem digitGroups_eq_nil_of_group {isMark : Token → Bool} {mark group : Token} {stop : Nat}
    (h : group.digits?.isSome → group.start ≠ mark.stop) :
    digitGroups isMark stop (mark :: group :: rest) = [] := by
  rw [digitGroups.eq_1, if_neg]
  simp only [Bool.and_eq_true, beq_iff_eq]
  rintro ⟨⟨-, htouch⟩, hdigits⟩
  exact h hdigits htouch

/-- The groups behind commas, from byte `stop` on. -/
def commaGroupsFrom (stop : Nat) (tokens : List Token) : List Token :=
  digitGroups (·.isPunct ',') stop tokens

/-- The same groups go on without the letters. They end with digits, and no letter is among them. -/
structure GroupsSifted (stop : Nat) (rest : List Token) : Prop where
  eq : commaGroupsFrom stop (sift rest) = commaGroupsFrom stop rest
  not_isLetter : ∀ t ∈ rest.take (2 * (commaGroupsFrom stop rest).length), t.isLetter = false
  digits : ∀ t ∈ (rest.take (2 * (commaGroupsFrom stop rest).length)).getLast?, t.digits?.isSome

namespace GroupsSifted

variable {stop : Nat} {mark group : Token}

theorem none (h : commaGroupsFrom stop rest = []) (h' : commaGroupsFrom stop (sift rest) = []) :
    GroupsSifted stop rest := by
  refine ⟨h'.trans h.symm, ?_, ?_⟩ <;> rw [h] <;> nofun

/-- A comma is an operator, so no letter stands between digits and a comma. -/
theorem letter {last : Token} {before : List Token} (hlast : last.digits?.isSome)
    (hmark : mark.isLetter = true) (hapart : lettersApart (last :: before) (mark :: rest) = true) :
    GroupsSifted stop (mark :: rest) := by
  refine none (digitGroups_eq_nil ?_) (digitGroups_eq_nil fun t ht => ?_)
  · rintro t ⟨rfl⟩
    obtain ⟨c, hkind⟩ := Token.exists_kind_of_isLetter hmark
    rw [Token.isPunct, hkind]
    rfl
  · rw [sift_cons_of_isLetter hmark] at ht
    have hparts := (Token.parts_of_lettersApart hapart hmark).1
    rw [Option.mem_def.mp ht] at hparts
    by_contra hcomma
    have hkind : t.kind = .punct ',' := by simpa [Token.isPunct] using hcomma
    have hoperates : t.operates = true := by
      rw [Token.operates, Token.trigger?, hkind]
      decide +kernel
    have hawaits := Token.awaitsOperand_of_parts hparts hoperates
    rw [Token.awaitsOperand_of_digits? hlast] at hawaits
    cases hawaits

/-- Digits that a letter keeps from a comma do not touch it. -/
theorem behindMark (hmark : mark.isLetter = false) (hgroup : group.isLetter = true)
    (hcovers : group.start < group.stop)
    (hordered : (mark :: group :: rest).Pairwise fun t u => t.stop ≤ u.start) :
    GroupsSifted stop (mark :: group :: rest) := by
  obtain ⟨hbefore, hordered⟩ := List.pairwise_cons.mp hordered
  refine none (digitGroups_eq_nil_of_group fun hdigits => ?_) ?_
  · rw [Token.not_isLetter_of_digits? hdigits] at hgroup
    cases hgroup
  · rw [sift_cons_of_not_isLetter hmark, sift_cons_of_isLetter hgroup]
    cases hbehind : sift rest with
    | nil => rfl
    | cons next behind =>
      refine digitGroups_eq_nil_of_group fun _ htouch => ?_
      have hnext : next ∈ rest := List.mem_of_mem_filter (hbehind ▸ List.mem_cons_self)
      have hstart := hbefore group (.head _)
      have hafter := (List.pairwise_cons.mp hordered).1 next hnext
      omega

theorem cons (hmark : mark.isLetter = false) (hgroup : group.digits?.isSome)
    (hgoes : (mark.isPunct ',' && mark.start == stop && group.start == mark.stop &&
      group.digits?.isSome) = true) (h : GroupsSifted group.stop rest) :
    GroupsSifted stop (mark :: group :: rest) := by
  have hletter := Token.not_isLetter_of_digits? hgroup
  have hgroups (tokens : List Token) : commaGroupsFrom stop (mark :: group :: tokens) =
      group :: commaGroupsFrom group.stop tokens := by
    rw [commaGroupsFrom, digitGroups.eq_1, if_pos hgoes]
    rfl
  refine ⟨?_, ?_, ?_⟩
  · rw [sift_cons_of_not_isLetter hmark, sift_cons_of_not_isLetter hletter, hgroups, hgroups, h.eq]
  · rw [hgroups, List.length_cons, Nat.mul_succ, List.take_succ_cons, List.take_succ_cons]
    exact List.forall_mem_cons.mpr ⟨hmark, List.forall_mem_cons.mpr ⟨hletter, h.not_isLetter⟩⟩
  · rw [hgroups, List.length_cons, Nat.mul_succ, List.take_succ_cons, List.take_succ_cons]
    intro t ht
    rw [List.getLast?_cons_cons, List.getLast?_cons] at ht
    cases hmore : (rest.take (2 * (commaGroupsFrom group.stop rest).length)).getLast? with
    | none =>
      rw [hmore] at ht
      cases ht
      exact hgroup
    | some u =>
      rw [hmore] at ht
      cases ht
      exact h.digits u hmore

end GroupsSifted

/-- By recursion on the tokens, of which a comma and a group are taken at a time. -/
theorem groupsSifted {last : Token} {before tokens : List Token} {stop : Nat}
    (hlast : last.digits?.isSome) (hapart : lettersApart (last :: before) tokens = true)
    (hsimple : ∀ t ∈ tokens, t.Simple) (hordered : tokens.Pairwise fun t u => t.stop ≤ u.start) :
    GroupsSifted stop tokens := by
  match tokens with
  | [] => exact .none rfl rfl
  | mark :: tokens =>
    cases hmark : mark.isLetter with
    | true => exact .letter hlast hmark hapart
    | false =>
      match tokens with
      | [] => exact .none rfl (by rw [sift_cons_of_not_isLetter hmark]; rfl)
      | group :: tokens =>
        cases hgroup : group.isLetter with
        | true =>
          exact .behindMark hmark hgroup ((hsimple group (.tail _ (.head _))).covers hgroup) hordered
        | false =>
          rw [Token.lettersApart_of_not_isLetter hmark, Token.lettersApart_of_not_isLetter hgroup]
            at hapart
          by_cases hgoes : (mark.isPunct ',' && mark.start == stop && group.start == mark.stop &&
              group.digits?.isSome) = true
          · have hdigits : group.digits?.isSome := (Bool.and_eq_true_iff.mp hgoes).2
            refine .cons hmark hdigits hgoes (groupsSifted hdigits hapart ?_ ?_)
            · exact fun t ht => hsimple t (.tail _ (.tail _ ht))
            · exact (List.pairwise_cons.mp (List.pairwise_cons.mp hordered).2).2
          · refine .none (by rw [commaGroupsFrom, digitGroups.eq_1, if_neg hgoes]) ?_
            rw [sift_cons_of_not_isLetter hmark, sift_cons_of_not_isLetter hgroup, commaGroupsFrom,
              digitGroups.eq_1, if_neg hgoes]

/-- What is read before a run of digits, the latest first. A letter keeps tokens from touching. -/
theorem continuesChain_sift {tokens : List Token} (hfirst : ∀ t ∈ tokens.head?, t.isLetter = false)
    (hsimple : ∀ t ∈ tokens, t.Simple) (hordered : tokens.Pairwise fun t u => u.stop ≤ t.start) :
    continuesChain (sift tokens) = continuesChain tokens := by
  rcases tokens with - | ⟨group, tokens⟩
  · rfl
  rw [sift_cons_of_not_isLetter (hfirst group rfl)]
  rcases tokens with - | ⟨comma, tokens⟩
  · rfl
  obtain ⟨hbefore, hordered⟩ := List.pairwise_cons.mp hordered
  cases hcomma : comma.isLetter with
  | true =>
    have hnot : continuesChain (group :: comma :: tokens) = false := by
      obtain ⟨c, hkind⟩ := Token.exists_kind_of_isLetter hcomma
      cases tokens <;> simp [continuesChain, Token.isPunct, hkind]
    rw [hnot, sift_cons_of_isLetter hcomma]
    rcases hsift : sift tokens with - | ⟨next, - | ⟨digits, behind⟩⟩
    · rfl
    · rfl
    · have hnext : next ∈ tokens := List.mem_of_mem_filter (hsift ▸ List.mem_cons_self)
      have hcovers := (hsimple comma (.tail _ (.head _))).covers hcomma
      have hstop := hbefore comma (.head _)
      have hafter := (List.pairwise_cons.mp hordered).1 next hnext
      have htouch : next.stop ≠ group.start := by omega
      simp [continuesChain, htouch]
  | false =>
    rw [sift_cons_of_not_isLetter hcomma]
    rcases tokens with - | ⟨digits, tokens⟩
    · rfl
    obtain ⟨hbefore, hordered⟩ := List.pairwise_cons.mp hordered
    cases hdigits : digits.isLetter with
    | true =>
      have hnot : continuesChain (group :: comma :: digits :: tokens) = false := by
        obtain ⟨c, hkind⟩ := Token.exists_kind_of_isLetter hdigits
        simp [continuesChain, Token.digits?, hkind]
      rw [hnot, sift_cons_of_isLetter hdigits]
      cases hsift : sift tokens with
      | nil => rfl
      | cons next behind =>
        have hnext : next ∈ tokens := List.mem_of_mem_filter (hsift ▸ List.mem_cons_self)
        have hcovers := (hsimple digits (.tail _ (.tail _ (.head _)))).covers hdigits
        have hstop := hbefore digits (.head _)
        have hafter := (List.pairwise_cons.mp hordered).1 next hnext
        have htouch : next.stop ≠ comma.start := by omega
        simp [continuesChain, htouch]
    | false => rw [sift_cons_of_not_isLetter hdigits]; rfl

/-! ### The parts of a numeral -/

namespace State

/-- A run of digits has been read last. -/
def BehindDigits (s : State) : Prop :=
  ∃ t ∈ s.seen.head?, t.digits?.isSome

/-- The last token of a numeral has been read last. -/
def BehindNumeral (s : State) : Prop :=
  ∃ t ∈ s.seen.head?, t.digits?.isSome ∨ t.isPunct '.'

theorem BehindDigits.behindNumeral (h : s.BehindDigits) : s.BehindNumeral :=
  h.imp fun _ ht => ⟨ht.1, .inl ht.2⟩

theorem BehindNumeral.sated (h : s.BehindNumeral) : s.Sated := by
  obtain ⟨t, hseen, ht⟩ := h
  obtain ⟨before, hseen⟩ := List.head?_eq_some_iff.mp hseen
  have hplain : t.isLetter = false ∧ t.awaitsOperand = false := by
    rcases ht with hdigits | hpoint
    · exact ⟨Token.not_isLetter_of_digits? hdigits, Token.awaitsOperand_of_digits? hdigits⟩
    · have hkind : t.kind = .punct '.' := by simpa [Token.isPunct] using hpoint
      rw [Token.isLetter, Token.awaitsOperand, Token.operates, Token.isPunct, Token.isPunct,
        Token.isPunct, Token.trigger?, hkind]
      decide +kernel
  refine fun _ => ⟨t, ?_, hplain.2⟩
  rw [hseen, sift_cons_of_not_isLetter hplain.1]
  rfl

theorem BehindDigits.forward_one (hs : s.rest = token :: rest) (ht : token.digits?.isSome) :
    (s.forward 1).BehindDigits :=
  ⟨token, by rw [seen_forward_one hs]; rfl, ht⟩

end State

namespace Sifted

variable (h : Sifted s s')

include h

theorem forward {n : Nat} (hn : ∀ t ∈ s.rest.take n, t.isLetter = false) :
    Sifted (s.forward n) (s'.forward n) := by
  induction n generalizing s s' with
  | zero => rwa [State.forward_zero, State.forward_zero]
  | succ n ih =>
    cases hrest : s.rest with
    | nil =>
      rwa [State.forward_of_rest_nil hrest, State.forward_of_rest_nil (h.rest_nil hrest)]
    | cons t rest =>
      rw [hrest, List.take_succ_cons, List.forall_mem_cons] at hn
      have hs : s.atLetter = false := (State.atLetter_of_rest hrest).trans hn.1
      have hnext := ih (h.forward_one hs) (by
        rw [State.rest_forward, hrest]
        exact hn.2)
      rwa [State.forward_forward, State.forward_forward, Nat.add_comm] at hnext

theorem previous (hs : s.BehindDigits) : s'.previous env = s.previous env := by
  obtain ⟨t, hseen, ht⟩ := hs
  obtain ⟨before, hseen⟩ := List.head?_eq_some_iff.mp hseen
  rw [State.previous, State.previous, h.seen, hseen,
    sift_cons_of_not_isLetter (Token.not_isLetter_of_digits? ht)]
  rfl

theorem continuesChain (hs : s.BehindDigits) : continuesChain s'.seen = continuesChain s.seen := by
  obtain ⟨t, hseen, ht⟩ := hs
  rw [h.seen]
  refine continuesChain_sift (fun u hu => ?_) (fun u hu => ?_) ?_
  · rw [Option.mem_def.mp hseen] at hu
    cases hu
    exact Token.not_isLetter_of_digits? ht
  · exact h.simple u (List.mem_append_left _ (List.mem_reverse.mpr hu))
  · exact List.pairwise_reverse.mp (List.pairwise_append.mp h.ordered).1

/-- Behind digits there is a point on both sides or on none. -/
theorem isPoint (hs : s.BehindDigits) :
    s'.rest.head?.any (·.isPunct '.') = s.rest.head?.any (·.isPunct '.') := by
  cases hrest : s.rest with
  | nil => rw [h.rest_nil hrest]
  | cons t rest =>
    cases ht : t.isLetter with
    | false => rw [h.rest_cons hrest ht]; rfl
    | true =>
      obtain ⟨c, hkind⟩ := Token.exists_kind_of_isLetter ht
      obtain ⟨last, hseen, hlast⟩ := hs
      obtain ⟨before, hseen⟩ := List.head?_eq_some_iff.mp hseen
      have hapart := h.apart
      rw [hrest, hseen, sift_cons_of_not_isLetter (Token.not_isLetter_of_digits? hlast)] at hapart
      have hparts := (Token.parts_of_lettersApart hapart ht).1
      have hleft : (t :: rest).head?.any (·.isPunct '.') = false := by
        rw [List.head?_cons, Option.any_some, Token.isPunct, hkind]
        rfl
      rw [hleft, h.rest, hrest, sift_cons_of_isLetter ht]
      cases hnext : (sift rest).head? with
      | none => rfl
      | some next =>
        rw [hnext] at hparts
        exact (Token.joins_of_digits? hlast).symm.trans (Token.not_joins_of_parts hparts)

theorem groupsSifted (hs : s.BehindDigits) : GroupsSifted (s.previous env).stop s.rest := by
  obtain ⟨last, hseen, hlast⟩ := hs
  obtain ⟨before, hseen⟩ := List.head?_eq_some_iff.mp hseen
  have hapart := h.apart
  rw [hseen, sift_cons_of_not_isLetter (Token.not_isLetter_of_digits? hlast)] at hapart
  exact Parser.groupsSifted hlast hapart (fun t => h.simple_of_mem)
    (List.pairwise_append.mp h.ordered).2.1

/-- No group stands behind a thin space, which is a command. -/
theorem digitGroups_command (stop : Nat) :
    digitGroups (·.isCommand ",") stop s.rest = [] ∧
      digitGroups (·.isCommand ",") stop s'.rest = [] := by
  constructor
  · exact digitGroups_eq_nil fun t ht => (h.simple_of_mem (List.mem_of_mem_head? ht)).isCommand ","
  · refine digitGroups_eq_nil fun t ht => ?_
    have hmem := List.mem_of_mem_head? ht
    rw [h.rest] at hmem
    exact (h.simple_of_mem (List.mem_of_mem_filter hmem)).isCommand ","

end Sifted

theorem State.BehindDigits.forward {n : Nat} (hs : s.BehindDigits)
    (hn : ∀ t ∈ (s.rest.take n).getLast?, t.digits?.isSome) : (s.forward n).BehindDigits := by
  unfold State.BehindDigits
  rw [State.seen_forward, List.head?_append, List.head?_reverse]
  cases hlast : (s.rest.take n).getLast? with
  | none => exact hs
  | some t => exact ⟨t, rfl, hn t hlast⟩

theorem sifts_thinSpaceGroups (run : String) (h : Sifted s s') {Q : String → State → Prop}
    (hQ : Q run s) : Sifts Q s s' (thinSpaceGroups env run) (thinSpaceGroups env run) := by
  refine .get ?_
  dsimp only
  rw [(h.digitGroups_command _).1, (h.digitGroups_command _).2]
  exact .pure h hQ

theorem sifts_commaGroups (run : String) (h : Sifted s s') (hs : s.BehindDigits) :
    Sifts (fun _ t => t.BehindDigits) s s' (commaGroups env run) (commaGroups env run) := by
  have hgroups : GroupsSifted (s.previous env).stop s.rest := h.groupsSifted hs
  have heq := hgroups.eq
  have hforward := h.forward hgroups.not_isLetter
  have hbehind := hs.forward hgroups.digits
  have hpoint := hforward.isPoint hbehind
  rw [State.rest_forward, State.rest_forward] at hpoint
  rw [← h.rest] at heq
  unfold commaGroupsFrom at heq hforward hbehind hpoint
  unfold commaGroups
  refine .get ?_
  dsimp only
  rw [h.previous hs, heq, hpoint, h.continuesChain hs]
  split
  · exact .pure h hs
  · refine .ite (fun _ => ?_) fun _ => ?_
    · exact .skip (.pure hforward hbehind)
    · refine .ite (fun _ => .record h nofun fun t t' ht hseen _ => .pure ht ?_) fun _ => .pure h hs
      rwa [State.BehindDigits, hseen]

/-- Digits have been read, or there are none and nothing has been read. -/
def ReadsWhole (s : State) (whole : String) (t : State) : Prop :=
  t.BehindDigits ∨ whole = "" ∧ t.rest = s.rest ∧ ∀ u ∈ s.rest.head?, u.digits? = none

theorem sifts_wholeDigits (h : Sifted s s') (hs : s.atLetter = false) :
    Sifts (ReadsWhole s) s s' (wholeDigits env) (wholeDigits env) := by
  refine .current h hs ?_
  cases hdigits : (s.current env).digits? with
  | none =>
    refine .pure h (.inr ⟨rfl, rfl, fun u hu => ?_⟩)
    obtain ⟨rest, hrest⟩ := List.head?_eq_some_iff.mp hu
    rwa [State.current_of_rest hrest] at hdigits
  | some run =>
    have hsome := Option.isSome_of_eq_some hdigits
    obtain ⟨t, rest, hrest⟩ := List.exists_cons_of_ne_nil (rest_ne_nil_of_digits? hsome)
    rw [State.current_of_rest hrest] at hsome
    have hbehind := State.BehindDigits.forward_one hrest hsome
    refine .advance h hs fun hnext => .get ?_
    rw [(hnext.digitGroups_command _).1, (hnext.digitGroups_command _).2]
    exact (sifts_commaGroups run hnext hbehind).mono fun _ _ => .inl

theorem barred?_of_simple {tokens : List Token} (hsimple : ∀ t ∈ tokens, t.Simple) :
    barred? tokens = none := by
  rcases tokens with - | ⟨bar, - | ⟨opening, - | ⟨digits, - | ⟨closing, tokens⟩⟩⟩⟩
  all_goals try rfl
  rw [barred?, (hsimple bar (.head _)).isCommand]
  rfl

theorem powerOfTen?_of_simple {tokens : List Token} (hsimple : ∀ t ∈ tokens, t.Simple) :
    powerOfTen? tokens = none := by
  rcases tokens with - | ⟨times, - | ⟨ten, - | ⟨caret, tokens⟩⟩⟩
  all_goals try rfl
  rw [powerOfTen?, (hsimple times (.head _)).isCommand, (hsimple times (.head _)).isCommand]
  rfl

section

variable (h : Sifted s s')

include h

theorem Sifted.simple_right : ∀ t ∈ s'.rest, t.Simple := by
  rw [h.rest]
  exact fun t ht => h.simple_of_mem (List.mem_of_mem_filter ht)

theorem sifts_barredDigits {Q : String → State → Prop} (hQ : Q "" s) :
    Sifts Q s s' barredDigits barredDigits := by
  rw [barredDigits_eq]
  refine .get ?_
  rw [barred?_of_simple fun t => h.simple_of_mem, barred?_of_simple h.simple_right]
  exact .pure h hQ

theorem sifts_exponent {Q : Option String → State → Prop} (hQ : Q none s) :
    Sifts Q s s' exponent exponent := by
  refine .get ?_
  rw [powerOfTen?_of_simple fun t => h.simple_of_mem, powerOfTen?_of_simple h.simple_right]
  exact .pure h hQ

/-- Behind a point there are digits on both sides or on none. -/
theorem Sifted.digits?_behind (hs : s.rest = token :: rest) (ht : token.isLetter = false)
    (hjoins : ∀ u : Token, u.digits?.isSome → token.joins u = true) :
    (sift rest).head?.any (fun t => t.digits?.isSome) = rest.head?.any fun t => t.digits?.isSome := by
  cases rest with
  | nil => rfl
  | cons l rest =>
    cases hl : l.isLetter with
    | false => rw [sift_cons_of_not_isLetter hl]; rfl
    | true =>
      obtain ⟨c, hkind⟩ := Token.exists_kind_of_isLetter hl
      have hapart := h.apart
      rw [hs, Token.lettersApart_of_not_isLetter ht] at hapart
      have hparts := (Token.parts_of_lettersApart hapart hl).1
      have hleft : (l :: rest).head?.any (fun t => t.digits?.isSome) = false := by
        rw [List.head?_cons, Option.any_some, Token.digits?, hkind]
        rfl
      rw [hleft, sift_cons_of_isLetter hl]
      cases hnext : (sift rest).head? with
      | none => rfl
      | some next =>
        rw [hnext] at hparts
        rw [Option.any_some]
        by_contra hdigits
        have hjoin := hjoins next (Bool.eq_true_of_not_eq_false hdigits)
        rw [Token.not_joins_of_parts hparts] at hjoin
        cases hjoin

end

theorem isPunct_current (s : State) (c : Char) :
    (s.current env).isPunct c = s.rest.head?.any (·.isPunct c) := by
  cases hrest : s.rest with
  | nil =>
    rw [State.current_of_rest_nil hrest]
    rfl
  | cons t rest => rw [State.current_of_rest hrest]; rfl

theorem digits?_following (s : State) : (s.following env).digits?.isSome =
    (s.rest.drop 1).head?.any fun t => t.digits?.isSome := by
  unfold State.following
  cases (s.rest.drop 1) with
  | nil => rfl
  | cons t rest => rfl

theorem isCommand_following (hsimple : ∀ t ∈ s.rest, t.Simple) (name : String) :
    (s.following env).isCommand name = false := by
  unfold State.following
  cases hrest : s.rest.drop 1 with
  | nil => rfl
  | cons t rest =>
    exact (hsimple t (List.mem_of_mem_drop (hrest ▸ List.mem_cons_self))).isCommand name

/-- A point with digits behind it is next. -/
def State.AtFraction (s : State) : Prop :=
  ∃ point digits rest, s.rest = point :: digits :: rest ∧ point.isPunct '.' ∧ digits.digits?.isSome

theorem not_isLetter_of_isPunct {c : Char} (h : token.isPunct c) : token.isLetter = false := by
  have hkind : token.kind = .punct c := by simpa [Token.isPunct] using h
  rw [Token.isLetter, hkind]

theorem joins_of_isPunct_point (h : token.isPunct '.') (u : Token) (hu : u.digits?.isSome) :
    token.joins u = true := by
  rw [Token.joins, hu, List.any_cons, h]
  rfl

/-- The digits behind a point that has been read. -/
theorem sifts_fraction (h : Sifted s s') (hs : s.BehindNumeral) (hletter : s.atLetter = false) :
    Sifts (fun _ t => t.BehindNumeral) s s'
      (do
        let fraction ← match (← current env).digits? with
          | some run => do
            advance
            thinSpaceGroups env run
          | none => pure ""
        return (fraction, ← barredDigits))
      (do
        let fraction ← match (← current env).digits? with
          | some run => do
            advance
            thinSpaceGroups env run
          | none => pure ""
        return (fraction, ← barredDigits)) := by
  have hbarred {t t' : State} (ht : Sifted t t') (hbehind : t.BehindNumeral) (fraction : String) :
      Sifts (fun _ t => t.BehindNumeral) t t' (do return (fraction, ← barredDigits))
        (do return (fraction, ← barredDigits)) :=
    .bind (sifts_barredDigits ht hbehind) fun _ _ _ hu hq => .pure hu hq
  refine .current h hletter ?_
  cases hdigits : (s.current env).digits? with
  | none => exact hbarred h hs ""
  | some run =>
    have hsome := Option.isSome_of_eq_some hdigits
    obtain ⟨t, rest, hrest⟩ := List.exists_cons_of_ne_nil (rest_ne_nil_of_digits? hsome)
    rw [State.current_of_rest hrest] at hsome
    have hbehind := (State.BehindDigits.forward_one hrest hsome).behindNumeral
    refine .advance h hletter fun hnext => ?_
    exact .bind (sifts_thinSpaceGroups run hnext hbehind) fun _ _ _ ht hq => hbarred ht hq _

theorem sifts_fractionDigits (whole : String) (h : Sifted s s')
    (hs : s.BehindDigits ∨ whole = "" ∧ s.AtFraction) :
    Sifts (fun _ t => t.BehindNumeral) s s' (fractionDigits env whole) (fractionDigits env whole) := by
  have hpoint : (s'.current env).isPunct '.' = (s.current env).isPunct '.' := by
    rw [isPunct_current, isPunct_current]
    rcases hs with hs | ⟨-, point, digits, rest, hrest, hpoint, -⟩
    · exact h.isPoint hs
    · rw [h.rest_cons hrest (not_isLetter_of_isPunct hpoint), hrest]
      rfl
  unfold fractionDigits
  refine .get ?_
  dsimp only
  rw [hpoint]
  by_cases hat : (s.current env).isPunct '.'
  · obtain ⟨t, rest, hrest⟩ := List.exists_cons_of_ne_nil (rest_ne_nil_of_isPunct hat)
    rw [State.current_of_rest hrest] at hat
    have ht := not_isLetter_of_isPunct hat
    have hletter : s.atLetter = false := (State.atLetter_of_rest hrest).trans ht
    have hbehind : (s.forward 1).BehindNumeral :=
      ⟨t, by rw [State.seen_forward_one hrest]; rfl, .inr hat⟩
    have hdigits : (s'.following env).digits?.isSome = (s.following env).digits?.isSome := by
      rw [digits?_following, digits?_following, h.rest_cons hrest ht, hrest]
      exact h.digits?_behind hrest ht (joins_of_isPunct_point hat)
    have htouch : (whole != "" && (s'.current env).start == (s'.previous env).stop) =
        (whole != "" && (s.current env).start == (s.previous env).stop) := by
      rcases hs with hs | ⟨rfl, -⟩
      · rw [h.current hletter, h.previous hs]
      · rfl
    rw [hdigits, isCommand_following fun t => h.simple_of_mem, isCommand_following h.simple_right,
      htouch, Bool.or_false, State.current_of_rest hrest, hat]
    refine .ite nofun fun _ => .ite (fun hgoes => ?_) fun hgoes => ?_
    · refine .advance h hletter fun hnext => sifts_fraction hnext hbehind ?_
      rw [digits?_following, hrest] at hgoes
      rw [State.atLetter, State.rest_forward, hrest]
      cases hmore : rest with
      | nil => rfl
      | cons u more =>
        rw [hmore] at hgoes
        exact Token.not_isLetter_of_digits? hgoes
    · refine .ite (fun _ => .advance h hletter fun hnext => .pure hnext hbehind) fun _ => .pure h ?_
      rcases hs with hs | ⟨-, point, digits, more, hrest', -, hsome⟩
      · exact hs.behindNumeral
      · rw [digits?_following, hrest'] at hgoes
        exact absurd hsome hgoes
  · have hnot : (!(s.current env).isPunct '.') = true := by rw [Bool.eq_false_of_not_eq_true hat]; rfl
    rw [if_pos hnot, if_pos hnot]
    refine .pure h ?_
    rcases hs with hs | ⟨-, point, digits, rest, hrest, hpoint, -⟩
    · exact hs.behindNumeral
    · rw [State.current_of_rest hrest] at hat
      exact absurd hpoint hat

/-! ### Numerals -/

theorem sifts_number (negative : Bool) (h : Sifted s s') (hs : s.atLetter = false)
    (hstarts : startsNumber s.rest = true) :
    Sifts (fun e t => e.isMissing = false ∧ t.BehindNumeral) s s' (number env negative)
      (number env negative) := by
  unfold number
  refine .current h hs (.bind (sifts_wholeDigits h hs) fun whole t t' ht hwhole => ?_)
  have hfraction : t.BehindDigits ∨ whole = "" ∧ t.AtFraction := by
    refine hwhole.imp_right fun ⟨hempty, hrest, hnone⟩ => ⟨hempty, ?_⟩
    unfold State.AtFraction
    rw [hrest]
    rcases hs : s.rest with - | ⟨point, rest⟩
    · rw [hs] at hstarts
      cases hstarts
    · rw [hs] at hstarts hnone
      rw [startsNumber, hnone point rfl] at hstarts
      obtain ⟨hpoint, hdigits⟩ := Bool.and_eq_true_iff.mp hstarts
      cases rest with
      | nil => cases hdigits
      | cons digits rest => exact ⟨point, digits, rest, rfl, hpoint, hdigits⟩
  refine .bind (sifts_fractionDigits whole ht hfraction) fun fraction u u' hu hbehind => ?_
  refine .bind (sifts_exponent hu (Q := fun power v => power = none ∧ v.BehindNumeral) ⟨rfl, hbehind⟩)
    fun power v v' hv hend => ?_
  dsimp only
  split
  · exact .pure hv ⟨rfl, hend.2⟩
  · refine .get (.record hv (by decide) fun x x' hx hseen _ => .pure hx ⟨rfl, ?_⟩)
    rw [State.BehindNumeral, hseen]
    exact hend.2

end TexFormula.Parser
