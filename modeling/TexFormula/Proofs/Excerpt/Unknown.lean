import TexFormula.Proofs.Excerpt.Operand

/-!
# Unknown letters and commands of a piece

The groups behind an unknown command end at one place of the piece, whether they are read in it or in the
whole source, so the source text of the command is the same.
-/

namespace TexFormula.Parser

/-- What is answered for an unknown command, given the groups behind it and where they end. -/
def disposed (env : Env) (t : Token) (name : String) (found : List Expression × Nat) :
    Parser (Option Operand) :=
  match env.options.unknownTokens.disposition ("\\" ++ name) with
  | .skip => return none
  | .error => do
    record .unknownCommand ("\\" ++ name) t.start found.2
    return some
      { expression := .error Problem.Cause.unknownCommand.code (env.slice t.start found.2) }
  | kind => do
    record .unknownSymbol ("\\" ++ name) t.start found.2
    if found.1.isEmpty then
      return some { expression := .symbol ("\\" ++ name), callable := kind == .function }
    else
      return some { expression := .function ("\\" ++ name) found.1 }

theorem unknownCommand_eq (env : Env) (inner : Inner) (t : Token) (name : String) :
    unknownCommand env inner t name = (do
      advance
      if env.options.argumentsOfUnknownCommands then
        disposed env t name (← unknownArguments env inner (← get).rest.length t.stop)
      else
        disposed env t name ([], t.stop)) :=
  rfl

/-- What is done behind the body of a group behind an unknown command. -/
def closeGroup (env : Env) (inner : Inner) (fuel stop : Nat) (close : String) (closing : Token.Kind)
    (body : Expression) : Parser (List Expression × Nat) := do
  let t ← current env
  if t.kind == closing then
    advance
    let (others, stop) ← unknownArguments env inner fuel t.stop
    return (body :: others, stop)
  else
    recordHere env .expectedClosing close
    return ([body], stop)

theorem unknownArguments_succ (env : Env) (inner : Inner) (fuel stop : Nat) :
    unknownArguments env inner (fuel + 1) stop = (do
      match groupClosing? (← current env).kind with
      | none => return ([], stop)
      | some (close, closing) =>
        advance
        let body ← awaiting close (inner.expression .loosest)
        closeGroup env inner fuel stop close closing body) :=
  rfl

namespace Excerpt

variable {w : Excerpt} {α : Type} {levels : Nat} {s s' t t' : State}

theorem mirrored_unknownLetter {bad : Option Operand → State → Prop} (x : Token) (c : Char)
    (hs : w.Beside s s') (hclose : ¬ Closes (s'.current w.part)) :
    w.Mirrored bad s s' (unknownLetter w.whole (w.place x) c) (unknownLetter w.part x c) := by
  unfold unknownLetter
  rw [w.options]
  refine .advance hs hclose fun ht => ?_
  split
  · exact .pure ht _
  · exact .pure ht _
  · exact .pure ht none
  · exact .recordAt ht fun u u' hu _ => .pure hu _

theorem keeps_unknownArguments (w : Excerpt) (levels fuel stop : Nat) :
    Keeps w.whole.options.maxDepth (unknownArguments w.whole (nested w.whole levels) fuel stop) :=
  show (keeps _).rel (unknownArguments w.whole (nested w.whole levels) fuel stop)
      (unknownArguments (w.whole.allowing 0) (nested w.whole levels) fuel stop) from
    (w.keeps_inner levels).unknownArguments fuel stop

theorem groupClosing?_cases {kind closing : Token.Kind} {close : String}
    (h : groupClosing? kind = some (close, closing)) :
    (kind = .optionalOpen ∧ close = "]" ∧ closing = .optionalClose) ∨
      kind = .groupOpen ∧ close = "\x7d" ∧ closing = .groupClose := by
  cases kind with
  | optionalOpen => cases h; exact .inl ⟨rfl, rfl, rfl⟩
  | groupOpen => cases h; exact .inr ⟨rfl, rfl, rfl⟩
  | _ => cases h

/-- In the piece the second program finds the same groups, which end at the same place, or the piece has
been left. -/
def SameGroups (w : Excerpt) (s' : State) (m' : Parser (List Expression × Nat))
    (found : List Expression × Nat) (t : State) : Prop :=
  (∃ stop t', Runs m' s' (found.1, stop) t' ∧ w.Beside t t' ∧ found.2 = stop + w.offset ∧
    stop ≤ w.part.source.utf8ByteSize) ∨ w.Past t

theorem ensures_closeGroup_of_past {u : State} (hpast : w.Past u) (fuel stop : Nat) (close : String)
    (closing : Token.Kind) (body : Expression) :
    Ensures (fun _ => w.Past) u
      (closeGroup w.whole (nested w.whole levels) fuel stop close closing body) := by
  refine .current ?_
  split
  · have hbehind := past_forward hpast 1
    exact .advance
      ((ensures_past (keeps_unknownArguments w levels _ _) hbehind).bind fun _ _ h => .pure h)
  · exact .recordHere (.pure hpast)

/-- Behind a body that does not leave the piece, given that the other groups are the same. -/
theorem ensures_closeGroup {fuel fuel' stop' : Nat} {u u' : State} (hu : w.Beside u u')
    (hstop : stop' ≤ w.part.source.utf8ByteSize) (close : String) (closing : Token.Kind)
    (body : Expression)
    (hothers : w.Beside (u.forward 1) (u'.forward 1) → ∀ stop ≤ w.part.source.utf8ByteSize,
      Ensures (w.SameGroups (u'.forward 1)
          (Parser.unknownArguments w.part (nested w.part levels) fuel' stop))
        (u.forward 1) (Parser.unknownArguments w.whole (nested w.whole levels) fuel (stop + w.offset))) :
    Ensures (w.SameGroups u' (closeGroup w.part (nested w.part levels) fuel' stop' close closing body)) u
      (closeGroup w.whole (nested w.whole levels) fuel (stop' + w.offset) close closing body) := by
  refine .current ?_
  rw [hu.current, kind_place, stop_place]
  by_cases hclosing : (u'.current w.part).kind == closing
  · rw [if_pos hclosing]
    refine .advance ?_
    rcases hu.forward_or_past 1 with hnext | hpast
    · have hinside := (hu.inside _ hu.current_mem).stop_le
      refine (hothers hnext _ hinside).bind fun found v hfound => .pure (hfound.imp_left ?_)
      rintro ⟨stop, v', hruns, hv, hend, hle⟩
      refine ⟨stop, v', ?_, hv, hend, hle⟩
      rw [closeGroup, runs_current, if_pos hclosing, runs_advance]
      exact hruns.bind (.pure _ _)
    · exact (ensures_past (keeps_unknownArguments w levels _ _) hpast).bind fun _ _ h => .pure (.inr h)
  · rw [if_neg hclosing]
    refine .recordHere (.pure (.inl ⟨stop', u'.record ⟨.expectedClosing, close⟩
      (u'.current w.part).start (u'.current w.part).stop, ?_, hu.noting _ _, rfl, hstop⟩))
    rw [closeGroup, runs_current, if_neg hclosing, runs_recordHere]
    exact .pure _ _

/-- The groups behind an unknown command end at the same place, or they leave the piece. -/
theorem Level.unknownArguments (hl : w.Level levels) {fuel fuel' stop' : Nat} (hs : w.Beside s s')
    (hfuel : s.rest.length ≤ fuel) (hfuel' : s'.rest.length ≤ fuel')
    (hstop : stop' ≤ w.part.source.utf8ByteSize) :
    Ensures (w.SameGroups s' (Parser.unknownArguments w.part (nested w.part levels) fuel' stop')) s
      (Parser.unknownArguments w.whole (nested w.whole levels) fuel (stop' + w.offset)) := by
  -- every group reads a token on both sides, so neither runs out of fuel
  induction fuel generalizing s s' fuel' stop' with
  | zero =>
    obtain ⟨x, xs, -, hrest⟩ := hs.exists_rest
    rw [hrest] at hfuel
    cases hfuel
  | succ fuel ih =>
    obtain ⟨x, xs, hrest', hrest⟩ := hs.exists_rest
    obtain ⟨fuel', rfl⟩ : ∃ more, fuel' = more + 1 := by
      rw [hrest', List.length_cons] at hfuel'
      exact Nat.exists_eq_add_of_le' (Nat.le_of_add_left_le hfuel')
    rw [unknownArguments_succ, unknownArguments_succ]
    refine .current ?_
    rw [hs.current, kind_place]
    cases hgroup : groupClosing? (s'.current w.part).kind with
    | none =>
      refine .pure (.inl ⟨stop', s', ?_, hs, rfl, hstop⟩)
      rw [runs_current, hgroup]
      exact .pure _ _
    | some delimiters =>
      obtain ⟨close, closing⟩ := delimiters
      have hclose : close ∉ ["+", "-", "."] := by
        rcases groupClosing?_cases hgroup with ⟨-, rfl, -⟩ | ⟨-, rfl, -⟩ <;> decide
      have hopens : ¬ Closes (s'.current w.part) := by
        rintro (h | h) <;> · rw [h] at hgroup; cases hgroup
      have hnext := hs.forward_one hopens
      have hlengths := hs.length_rest
      have hless := State.length_rest_forward_one_lt (hrest ▸ List.cons_ne_nil _ _)
      refine .advance fun found v hruns => ?_
      obtain ⟨body, u, hbody, hruns⟩ := runs_bind.mp hruns
      rcases hl.awaiting hclose hnext body u hbody with ⟨u', hbody', hu⟩ | hgone
      · have hkeeps : Keeps _ _ := Keeps.awaiting close ((w.keeps_inner levels).expression .loosest)
        have hread := (hkeeps.follows hbody).length_rest_le
        have hlengths' := hu.length_rest
        have hbehind := State.length_rest_forward_le u 1
        have hbehind' := State.length_rest_forward_le u' 1
        have hfewer : (u'.forward 1).rest.length ≤ fuel' := by omega
        refine (ensures_closeGroup hu hstop close closing body (fun hv stop hle =>
          ih hv (by omega) hfewer hle) found v hruns).imp_left ?_
        rintro ⟨stop, v', hruns', hv⟩
        refine ⟨stop, v', ?_, hv⟩
        rw [runs_current, hgroup]
        dsimp only
        rw [runs_advance]
        exact hbody'.bind hruns'
      · exact .inr (ensures_closeGroup_of_past hgone _ _ _ _ _ found v hruns)

theorem mirrored_disposed {bad : Option Operand → State → Prop} {x : Token} {stop : Nat}
    (hs : w.Beside s s') (hx : x.start ≤ w.part.source.utf8ByteSize)
    (hstop : stop ≤ w.part.source.utf8ByteSize) (name : String) (arguments : List Expression) :
    w.Mirrored bad s s' (disposed w.whole (w.place x) name (arguments, stop + w.offset))
      (disposed w.part x name (arguments, stop)) := by
  unfold disposed
  rw [w.options, start_place, w.slice hx hstop]
  split
  · exact .pure hs none
  · exact .record hs fun t t' ht _ => .pure ht _
  · exact .record hs fun t t' ht _ => .ite (fun _ => .pure ht _) fun _ => .pure ht _

theorem ensures_disposed_of_past (hpast : w.Past s) (x : Token) (name : String)
    (found : List Expression × Nat) : Ensures w.StrayGroup s (disposed w.whole x name found) := by
  unfold disposed
  split
  · next hskip => exact absurd hskip (w.leavesNothingOut _)
  · exact .record (.pure ⟨rfl, hpast⟩)
  · refine .record ?_
    split
    · exact .pure ⟨rfl, hpast⟩
    · exact .pure ⟨rfl, hpast⟩

theorem Level.unknownCommand (hl : w.Level levels) (hs : w.Beside s s') {name : String}
    (hkind : (s'.current w.part).kind = .command name) :
    w.Mirrored w.StrayGroup s s'
      (Parser.unknownCommand w.whole (nested w.whole levels) (w.place (s'.current w.part)) name)
      (Parser.unknownCommand w.part (nested w.part levels) (s'.current w.part) name) := by
  have hclose : ¬ Closes (s'.current w.part) := by
    rintro (h | h) <;> · rw [hkind] at h; cases h
  have hinside := hs.inside _ hs.current_mem
  have hstart := hinside.start_le (by simp only [Token.digits?, hkind])
  rw [unknownCommand_eq, unknownCommand_eq, w.options]
  refine .advance hs hclose fun ht => .ite (fun _ => .get ?_) fun _ =>
    mirrored_disposed ht hstart hinside.stop_le name []
  intro o u hu
  obtain ⟨found, v, hfound, hu⟩ := runs_bind.mp hu
  rcases hl.unknownArguments ht (Nat.le_refl _) (Nat.le_refl _) hinside.stop_le _ _ hfound with
    ⟨stop, v', hfound', hv, hend, hle⟩ | hpast
  · have hdisposed := @mirrored_disposed w v v' w.StrayGroup _ _ hv hstart hle name found.1
    rw [← hend] at hdisposed
    rcases hdisposed o u hu with ⟨u', hu', hbeside⟩ | hstray
    · exact .inl ⟨u', .bind hfound' hu', hbeside⟩
    · exact .inr hstray
  · exact .inr (ensures_disposed_of_past hpast _ _ _ o u hu)

/-- What the dictionary does not know is there, so it strays only out of the piece. -/
theorem Level.unknown (hl : w.Level levels) (hs : w.Beside s s')
    (hclose : ¬ Closes (s'.current w.part)) (hdigits : (s'.current w.part).digits? = none) :
    w.Mirrored w.StrayGroup s s' (Parser.unknown w.whole (nested w.whole levels))
      (Parser.unknown w.part (nested w.part levels)) := by
  refine .current ?_
  rw [hs.current, kind_place]
  cases hkind : (s'.current w.part).kind with
  | letter c => exact mirrored_unknownLetter _ c hs hclose
  | command name => exact hl.unknownCommand hs hkind
  | _ =>
    refine .bind (?_ : w.Mirrored (fun _ _ => False) s s' _ _) nofun fun x t t' ht => .pure ht (some x)
    rw [← hs.current]
    exact mirrored_unexpected hs hclose hdigits

end Excerpt

end TexFormula.Parser
