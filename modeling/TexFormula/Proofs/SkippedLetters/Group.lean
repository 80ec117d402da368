import TexFormula.Proofs.SkippedLetters.Numeral

/-!
# Groups between letters

Groups and arguments with and without the letters in front of them and in them, from what is known of the
readers of the next level (`SiftsLevel`). How a value ends says whether a letter behind it decides
anything: it awaits no operand, and if it is missing no letter follows.
-/

namespace TexFormula.Parser

open Token (sift sift_cons_of_isLetter sift_cons_of_not_isLetter lettersApart)

variable {env : Env} {inner : Inner} {s s' t t' : State} {token : Token} {rest : List Token}

/-- How an expression ends. With operators as loose as products it takes the letters that follow it. -/
structure ExpressionEnds (loosest : Precedence) (s : State) (e : Expression) (t : State) : Prop where
  sated : t.Sated
  passes : loosest ≤ Precedence.multiplication → t.atLetter = false
  missing : e.isMissing → t.atLetter = false ∧ (s.BehindBrace → t.BehindBrace)

/-- What the readers of the next level read with the letters they also read without. In front of a group
in braces one level less is taken where the letters are missing. -/
structure SiftsLevel (env : Env) (inner : Inner) : Prop where
  expression (loosest : Precedence) {s s' : State} (h : Sifted s s') :
    Sifts (ExpressionEnds loosest s) s s' (inner.expression loosest) (inner.expression loosest)
  operand {s s' : State} (h : Sifted s s') :
    Sifts (fun _ t => t.Sated) s s' inner.operand inner.operand
  group {s s' : State} (h : Sifted s s') (hopen : (s'.current env).kind = .groupOpen) :
    Sifts (fun o t => o.isSome ∧ t.Sated) s s' inner.operand (braceGroup env inner)

/-! ### Groups -/

theorem State.BehindBrace.congr (h : s.BehindBrace) (hseen : t.seen = s.seen) : t.BehindBrace := by
  unfold BehindBrace
  rwa [hseen]

theorem State.atLetter_congr (hrest : t.rest = s.rest) : t.atLetter = s.atLetter := by
  rw [atLetter, atLetter, hrest]

theorem State.Sated.congr (h : s.Sated) (hseen : t.seen = s.seen) (hrest : t.rest = s.rest) :
    t.Sated := by
  unfold Sated
  rwa [hseen, atLetter_congr hrest]

/-- Groups that no letter closes, and behind whose closing token no operand is awaited. -/
structure ClosesGroup (close : String) (closing : Token.Kind) : Prop where
  mark : close ∈ [")", "\x7d", "]", "|"]
  not_isLetter (t : Token) : t.kind = closing → t.isLetter = false
  awaitsOperand (t : Token) : t.kind = closing → t.awaitsOperand = false

theorem closesGroup_parenthesis : ClosesGroup ")" (.punct ')') where
  mark := by decide
  not_isLetter t ht := by rw [Token.isLetter, ht]
  awaitsOperand t ht := by
    rw [Token.awaitsOperand, Token.operates, Token.isPunct, Token.isPunct, Token.isPunct,
      Token.trigger?, ht]
    decide +kernel

theorem closesGroup_brace : ClosesGroup "\x7d" .groupClose where
  mark := by decide
  not_isLetter t ht := by rw [Token.isLetter, ht]
  awaitsOperand t ht := by
    rw [Token.awaitsOperand, Token.operates, Token.isPunct, Token.isPunct, Token.isPunct,
      Token.trigger?, ht]
    decide +kernel

/-- How a value ends. Behind one that is missing no letter follows. -/
structure ValueEnds (e : Expression) (t : State) : Prop where
  sated : t.Sated
  missing : e.isMissing → t.atLetter = false ∧ t.BehindBrace

/-- How a group ends if its opening token has been read. -/
structure GroupEnds (closing : Token.Kind) (s : State) (body : Expression) (t : State) : Prop where
  sated : t.Sated
  missing : closing = .groupClose → body.isMissing → s.BehindBrace →
    t.atLetter = false ∧ t.BehindBrace

section

variable (hlevel : SiftsLevel env inner)

include hlevel

/-- An expression up to a delimiter that is waited for. -/
theorem sifts_awaiting {close : String} (hclose : close ∈ [")", "\x7d", "]", "|"]) (h : Sifted s s') :
    Sifts (ExpressionEnds .loosest s) s s' (awaiting close (inner.expression .loosest))
      (awaiting close (inner.expression .loosest)) := by
  refine .awaiting (Q := ExpressionEnds .loosest s) h hclose (fun t t' ht hseen _ => ?_)
    fun e t u ht hseen hrest => ?_
  · exact (hlevel.expression .loosest ht).mono fun e u hu => ⟨hu.sated, hu.passes, fun he =>
      ⟨(hu.missing he).1, fun hs => (hu.missing he).2 (hs.congr hseen)⟩⟩
  · have hletter := State.atLetter_congr hrest
    exact ⟨ht.sated.congr hseen hrest, fun hloose => hletter.trans (ht.passes hloose), fun he =>
      ⟨hletter.trans (ht.missing he).1, fun hs => ((ht.missing he).2 hs).congr hseen⟩⟩

theorem sifts_groupBody {close : String} {closing : Token.Kind} (hclose : ClosesGroup close closing)
    (h : Sifted s s') :
    Sifts (GroupEnds closing s) s s' (groupBody env inner close closing)
      (groupBody env inner close closing) := by
  refine .bind (sifts_awaiting hlevel hclose.mark h) fun body t t' ht hends => ?_
  have hpasses := hends.passes (Nat.zero_le _)
  refine .current ht hpasses (.ite (fun hkind => ?_) fun _ => ?_)
  · have hkind : (t.current env).kind = closing := eq_of_beq hkind
    cases hrest : t.rest with
    | nil =>
      refine .advance ht hpasses fun hnext => .pure hnext ?_
      rw [State.forward_of_rest_nil hrest]
      exact ⟨hends.sated, fun _ hmissing hs =>
        ⟨hpasses, (hends.missing hmissing).2 hs⟩⟩
    | cons last rest =>
      rw [State.current_of_rest hrest] at hkind
      have hlast := hclose.not_isLetter last hkind
      refine .advance ht hpasses fun hnext => .pure hnext ⟨?_, ?_⟩
      · exact .forward_one hrest hlast (hclose.awaitsOperand last hkind)
      · rintro rfl hmissing hs
        obtain ⟨brace, hseen, hbrace⟩ := (hends.missing hmissing).2 hs
        obtain ⟨before, hseen⟩ := List.head?_eq_some_iff.mp hseen
        have hbehind : sift (t.forward 1).seen = last :: brace :: before := by
          rw [State.sift_seen_forward_one hrest hlast, hseen]
        refine ⟨hnext.not_atLetter_of_endsGap ?_, last, by rw [hbehind]; rfl, ?_⟩
        · rw [hbehind, Token.endsGap, hkind, hbrace]
          rfl
        · rw [Token.isBrace, hkind]
          rfl
  · refine .recordHere ht (by decide) fun u u' hu hseen hrest =>
      .pure hu ⟨hends.sated.congr hseen hrest, ?_⟩
    exact fun _ hmissing hs =>
      ⟨(State.atLetter_congr hrest).trans hpasses, ((hends.missing hmissing).2 hs).congr hseen⟩

/-- Behind a brace that opens a group. -/
theorem sifts_group (h : Sifted s s') (hs : s.atLetter = false)
    (hopen : (s.current env).kind = .groupOpen) :
    Sifts ValueEnds s s'
      (do
        advance
        groupBody env inner "\x7d" .groupClose)
      (do
        advance
        groupBody env inner "\x7d" .groupClose) := by
  refine .advance h hs fun hnext => (sifts_groupBody hlevel closesGroup_brace hnext).mono ?_
  obtain ⟨t, rest, hrest⟩ := List.exists_cons_of_ne_nil
    (State.rest_ne_nil_of_current (s := s) (by rw [hopen]; nofun))
  rw [State.current_of_rest hrest] at hopen
  have hbrace : (s.forward 1).BehindBrace := by
    refine ⟨t, ?_, by rw [Token.isBrace, hopen]; rfl⟩
    rw [State.sift_seen_forward_one hrest (by rw [Token.isLetter, hopen])]
    rfl
  exact fun body t ht => ⟨ht.sated, fun hmissing => ht.missing rfl hmissing hbrace⟩

/-! ### Arguments -/

theorem sifts_braceGroup (h : Sifted s s') (hs : s.atLetter = false) :
    Sifts (fun o t => t.Sated ∧ (o = none → t.atLetter = false)) s s' (braceGroup env inner)
      (braceGroup env inner) := by
  refine .skipSpacing h (.current h hs (.ite (fun hopen => ?_) fun _ => ?_))
  · exact .map (sifts_group hlevel h hs (eq_of_beq hopen)) fun body t ht => ⟨ht.sated, nofun⟩
  · exact .pure h ⟨.of_not hs, fun _ => hs⟩

/-- The argument that is no group and no digit. -/
def argumentHere (env : Env) (inner : Inner) (command : String) : Parser Expression := do
  match ← inner.operand with
  | some operand => return operand
  | none =>
    recordHere env .expectedArgument command
    return .missing

omit hlevel in
theorem argument_eq_argumentHere (command : String) (hspaced : s.pastSpacing = s)
    (hopen : (s.current env).kind ≠ .groupOpen) (hdigits : (s.current env).digits? = none) :
    argument env inner command s = argumentHere env inner command s := by
  have hgroup : braceGroup env inner s = .ok none s := by
    have hnone : Runs (braceGroup env inner) s none s := by
      rw [braceGroup, runs_skipSpacing]
      show Runs _ s.pastSpacing none s
      rw [hspaced, runs_current, if_neg (by simpa using hopen)]
      exact .pure none s
    exact hnone
  have hcurrent : current env s = .ok (s.current env) s := rfl
  unfold argument
  rw [bind_eq_of_ok hgroup]
  dsimp only
  rw [bind_eq_of_ok hcurrent, hdigits]
  rfl

theorem sifts_argumentHere (command : String) (h : Sifted s s') :
    Sifts (fun _ t => t.Sated) s s' (argumentHere env inner command)
      (argumentHere env inner command) := by
  refine .bind (hlevel.operand h) fun o t t' ht hsated => ?_
  cases o with
  | some e => exact .pure ht hsated
  | none =>
    exact .recordHere ht nofun fun u u' hu hseen hrest => .pure hu (hsated.congr hseen hrest)

omit hlevel in
theorem sifts_firstDigit {run : String} (h : Sifted s s') (hs : s.rest = token :: rest)
    (hrun : token.digits? = some run) :
    Sifts (fun _ t => t.Sated) s s' (firstDigit run) (firstDigit run) := by
  have hdigits := Option.isSome_of_eq_some hrun
  have hletter : s.atLetter = false :=
    (State.atLetter_of_rest hs).trans (Token.not_isLetter_of_digits? hdigits)
  unfold firstDigit
  split
  · exact .pure h (.of_not hletter)
  · exact .advance h hletter fun hnext =>
      .pure hnext (State.BehindDigits.forward_one hs hdigits).behindNumeral.sated
  · have hcut : s.cutDigit.atLetter = false := by
      rw [SideBySide.cutDigit_of_rest hs hrun]
      rfl
    exact Sifts.pure (h.cutDigit hs hrun) (State.Sated.of_not hcut)

/-- An argument behind a token that takes digits for its own. -/
theorem sifts_argument (command : String) (h : Sifted s s')
    (hjoins : ∃ t ∈ (sift s.seen).head?, ∀ u : Token, u.digits?.isSome → t.joins u = true) :
    Sifts (fun _ t => t.Sated) s s' (argument env inner command) (argument env inner command) := by
  cases hs : s.atLetter with
  | false =>
    refine .bind (sifts_braceGroup hlevel h hs) fun group t t' ht hends => ?_
    cases group with
    | some e => exact .pure ht hends.1
    | none =>
      have hletter := hends.2 rfl
      refine .current ht hletter ?_
      cases hdigits : (t.current env).digits? with
      | none => exact sifts_argumentHere hlevel command ht
      | some run =>
        obtain ⟨u, rest, hrest⟩ :=
          List.exists_cons_of_ne_nil (rest_ne_nil_of_digits? (Option.isSome_of_eq_some hdigits))
        rw [State.current_of_rest hrest] at hdigits
        exact sifts_firstDigit ht hrest hdigits
  | true =>
    obtain ⟨l, rest, hrest, hl⟩ := State.exists_of_atLetter hs
    obtain ⟨c, hkind⟩ := Token.exists_kind_of_isLetter hl
    have hcurrent : (s.current env).kind = .letter c := by rw [State.current_of_rest hrest, hkind]
    have hleft : argument env inner command s = argumentHere env inner command s :=
      argument_eq_argumentHere command h.pastSpacing.1 (by rw [hcurrent]; nofun)
        (by rw [Token.digits?, hcurrent])
    by_cases hopen : (s'.current env).kind = .groupOpen
    · -- where the letters are missing the group is the argument itself
      refine .of_eq hleft (Eq.refl (argument env inner command s'))
        (.bind (hlevel.group h hopen) fun o t t' ht hends => ?_)
      cases o with
      | some e => exact .pure ht hends.2
      | none => cases hends.1
    · refine .of_eq hleft (argument_eq_argumentHere command h.pastSpacing.2 hopen ?_)
        (sifts_argumentHere hlevel command h)
      -- digits would be the script of what is read before the letters
      cases hdigits : (s'.current env).digits? with
      | none => rfl
      | some run =>
        have hsome := Option.isSome_of_eq_some hdigits
        obtain ⟨u, behind, hbehind⟩ := List.exists_cons_of_ne_nil (rest_ne_nil_of_digits? hsome)
        rw [State.current_of_rest hbehind] at hsome
        obtain ⟨last, hlast, hjoins⟩ := hjoins
        obtain ⟨before, hseen⟩ := List.head?_eq_some_iff.mp hlast
        have hapart := h.apart
        rw [hrest, hseen] at hapart
        have hparts := (Token.parts_of_lettersApart hapart hl).1
        rw [← sift_cons_of_isLetter hl, ← hrest, ← h.rest, hbehind] at hparts
        have hnot := Token.not_joins_of_parts hparts
        rw [hjoins u hsome] at hnot
        cases hnot

end

end TexFormula.Parser
