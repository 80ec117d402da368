import TexFormula.Proofs.Excerpt.Expression
import TexFormula.Proofs.SourcePieces
import TexFormula.Proofs.Yields

/-!
# The groups behind an unknown command

`Groups`: closed groups stand one behind the other. An unknown command ends with the last one of them,
whether or not another group is begun behind it (`exists_groups_of_unknownArguments`), and in the piece
of the source that ends there they are the same (`Groups.mirror`).
-/

namespace TexFormula.Parser

variable {env : Env} {inner : Inner} {levels fuel stop stop' : Nat} {s t u : State}
  {bodies : List Expression}

/-- Closed groups with the given bodies stand between the states. Where no group is, they end at the
first stop, else the closing token of the last group does at the second one. -/
inductive Groups (env : Env) (inner : Inner) :
    State → (stop : Nat) → List Expression → State → (stop' : Nat) → Prop
  | nil (s : State) (stop : Nat) : Groups env inner s stop [] s stop
  | cons {s t u : State} {stop stop' : Nat} {close : String} {closing : Token.Kind} {body : Expression}
      {bodies : List Expression} (hopens : groupClosing? (s.current env).kind = some (close, closing))
      (hbody : Runs (awaiting close (inner.expression .loosest)) (s.forward 1) body t)
      (hcloses : (t.current env).kind = closing)
      (hothers : Groups env inner (t.forward 1) (t.current env).stop bodies u stop') :
      Groups env inner s stop (body :: bodies) u stop'

/-- What stands behind the last closed group does not count. -/
theorem exists_groups_of_unknownArguments {found : List Expression × Nat}
    (h : Runs (unknownArguments env inner fuel stop) s found t) :
    ∃ bodies u, Groups env inner s stop bodies u found.2 := by
  induction fuel generalizing s stop found with
  | zero =>
    obtain ⟨rfl, -⟩ := runs_pure.mp h
    exact ⟨[], s, .nil s stop⟩
  | succ fuel ih =>
    rw [unknownArguments, runs_current] at h
    cases hgroup : groupClosing? (s.current env).kind with
    | none =>
      rw [hgroup] at h
      obtain ⟨rfl, -⟩ := runs_pure.mp h
      exact ⟨[], s, .nil s stop⟩
    | some delimiters =>
      obtain ⟨close, closing⟩ := delimiters
      rw [hgroup] at h
      dsimp only at h
      rw [runs_advance] at h
      obtain ⟨body, v, hbody, h⟩ := runs_bind.mp h
      rw [runs_current] at h
      by_cases hcloses : (v.current env).kind == closing
      · rw [if_pos hcloses, runs_advance] at h
        obtain ⟨⟨others, stop'⟩, x, hothers, h⟩ := runs_bind.mp h
        obtain ⟨rfl, rfl⟩ := runs_pure.mp h
        obtain ⟨bodies, u, hgroups⟩ := ih hothers
        exact ⟨body :: bodies, u, .cons hgroup hbody (eq_of_beq hcloses) hgroups⟩
      · rw [if_neg hcloses, runs_recordHere] at h
        obtain ⟨rfl, -⟩ := runs_pure.mp h
        exact ⟨[], s, .nil s stop⟩

namespace Groups

theorem closes_of_groupClosing? {kind closing : Token.Kind} {close : String}
    (h : groupClosing? kind = some (close, closing)) {x : Token} (hx : x.kind = closing) : Closes x := by
  rcases Excerpt.groupClosing?_cases h with ⟨-, -, rfl⟩ | ⟨-, -, rfl⟩
  · exact .inr hx
  · exact .inl hx

/-- With more levels left the groups are read in the same way. -/
theorem of_le (hd : env.dictionary.HasStandardHooks) {more : Nat} (hle : levels ≤ more)
    (h : Groups env (nested env levels) s stop bodies u stop') :
    Groups env (nested env more) s stop bodies u stop' := by
  induction h with
  | nil s stop => exact .nil s stop
  | cons hopens hbody hcloses _ ih =>
    obtain ⟨t, ht, rfl⟩ := runs_awaiting.mp hbody
    exact .cons hopens (runs_awaiting.mpr ⟨t, runs_expression_of_le hd hle ht, rfl⟩) hcloses ih

theorem follows_body (hd : env.dictionary.HasStandardHooks) {close : String} {body : Expression}
    (hbody : Runs (awaiting close ((nested env levels).expression .loosest)) (s.forward 1) body t) :
    Follows (s.forward 1) t :=
  (Keeps.awaiting close ((keeps_nested hd levels).expression .loosest)).follows hbody

theorem rest_ne_nil (hopens : groupClosing? (s.current env).kind ≠ none) : s.rest ≠ [] := by
  refine @State.rest_ne_nil_of_current env s fun hending => hopens ?_
  rw [hending]
  rfl

theorem follows (hd : env.dictionary.HasStandardHooks)
    (h : Groups env (nested env levels) s stop bodies u stop') : Follows s u := by
  induction h with
  | nil s stop => exact .refl s
  | @cons s t u stop stop' close closing body bodies hopens hbody hcloses _ ih =>
    exact ((Follows.forward s 1).trans (follows_body hd hbody)).trans ((Follows.forward t 1).trans ih)

/-- At the end of the source the groups are all the arguments of an unknown command. -/
theorem runs_unknownArguments (hd : env.dictionary.HasStandardHooks)
    (h : Groups env (nested env levels) s stop bodies u stop') (hend : u.rest = [])
    (hfuel : s.rest.length ≤ fuel) :
    Runs (unknownArguments env (nested env levels) fuel stop) s (bodies, stop') u := by
  induction h generalizing fuel with
  | nil s stop =>
    cases fuel with
    | zero => exact .pure _ _
    | succ fuel =>
      rw [unknownArguments, runs_current, State.current_of_rest_nil hend]
      exact .pure _ _
  | @cons s t u stop stop' close closing body bodies hopens hbody hcloses _ ih =>
    have hne : s.rest ≠ [] := @rest_ne_nil env s (by rw [hopens]; exact nofun)
    have hbehind := (follows_body hd hbody).length_rest_le
    have hless := State.length_rest_forward_one_lt hne
    have hlast := State.length_rest_forward_le t 1
    obtain ⟨fuel, rfl⟩ : ∃ fewer, fuel = fewer + 1 := Nat.exists_eq_add_of_le' (by omega)
    rw [unknownArguments, runs_current, hopens]
    dsimp only
    rw [runs_advance]
    refine .bind hbody ?_
    rw [runs_current, if_pos (beq_iff_eq.mpr hcloses), runs_advance]
    exact .bind (ih hend (by omega)) (.pure _ _)

theorem ofSource_body (hs : s.OfSource env) {close : String} {body : Expression}
    (hbody : Runs (awaiting close ((nested env levels).expression .loosest)) (s.forward 1) body t) :
    t.OfSource env := by
  have hforward : (s.forward 1).OfSource env := by
    rw [State.OfSource, State.rest_forward]
    exact LeftOf.drop hs 1
  have hadvances : Advances env (awaiting close ((nested env levels).expression .loosest)) :=
    (advancing env).awaiting close
      (((advancing env).inners_nested (fun _ => trivial) env levels).expression .loosest)
  exact (hadvances _ hforward body t hbody).1

/-- The groups are a piece of the tokens of the source that ends with a closing token. -/
theorem exists_tokens (hd : env.dictionary.HasStandardHooks)
    (h : Groups env (nested env levels) s stop bodies u stop')
    (hs : s.rest <:+ Token.meaningful env.source) : ∃ own, s.rest = own ++ u.rest ∧
      (own = [] ∧ stop' = stop ∨ ∃ init x, own = init ++ [x] ∧ Closes x ∧ x.stop = stop') := by
  induction h with
  | nil s stop => exact ⟨[], rfl, .inl ⟨rfl, rfl⟩⟩
  | @cons s t u stop stop' close closing body bodies hopens hbody hcloses _ ih =>
    obtain ⟨x, rest, hrest⟩ : ∃ x rest, t.rest = x :: rest := by
      refine List.exists_cons_of_ne_nil (@State.rest_ne_nil_of_current env t fun hending => ?_)
      rcases closes_of_groupClosing? hopens hcloses with hx | hx <;> · rw [hending] at hx; cases hx
    have hcurrent : t.current env = x := State.current_of_rest hrest
    have hx : Closes x := hcurrent ▸ closes_of_groupClosing? hopens hcloses
    have hleft : t.OfSource env := ofSource_body (.suffix hs) hbody
    rw [State.OfSource, hrest] at hleft
    have hsuffix := hleft.cons_suffix hx.digits?
    obtain ⟨front, hfront⟩ : x :: rest <:+ s.rest := by
      refine List.suffix_of_suffix_length_le hsuffix hs ?_
      rw [← hrest]
      exact Nat.le_trans (follows_body hd hbody).length_rest_le (State.length_rest_forward_le s 1)
    have hnext : (t.forward 1).rest = rest := by
      rw [State.rest_forward, hrest]
      rfl
    obtain ⟨own, hown, hlast⟩ := ih (by
      rw [hnext]
      exact hleft.tail_suffix)
    refine ⟨front ++ x :: own, ?_, .inr ?_⟩
    · rw [← hfront, ← hnext, hown, List.append_assoc, List.cons_append]
    · rcases hlast with ⟨rfl, hstop⟩ | ⟨init, y, rfl, hy, hstop⟩
      · exact ⟨front, x, rfl, hx, by rw [hstop, hcurrent]⟩
      · exact ⟨front ++ x :: init, y, by simp, hy, hstop⟩

/-- A group that starts at the outermost level of the piece and does not leave it. -/
theorem exists_body {w : Excerpt} {s' : State} {close : String} {closing : Token.Kind}
    {body : Expression} (hs : w.Along s s') (hclosers : s'.closers = []) (hclosed : Closed s'.rest)
    (hopens : groupClosing? (s'.current w.part).kind = some (close, closing))
    (hbody : Runs (awaiting close ((nested w.whole levels).expression .loosest)) (s.forward 1) body t)
    (hstays : ¬ w.Past t) :
    ∃ t', Runs (awaiting close ((nested w.part levels).expression .loosest)) (s'.forward 1) body t' ∧
      w.Along t t' ∧ t'.closers = [] ∧ Closed t'.rest := by
  obtain ⟨x, xs, hrest⟩ := List.exists_cons_of_ne_nil hclosed.ne_nil
  rw [State.current_of_rest hrest] at hopens
  have hplain : close ∉ ["+", "-", "."] ∧ ¬ Closes x := by
    rcases Excerpt.groupClosing?_cases hopens with ⟨hx, rfl, -⟩ | ⟨hx, rfl, -⟩
    · exact ⟨by decide, by rintro (h | h) <;> · rw [hx] at h; cases h⟩
    · exact ⟨by decide, by rintro (h | h) <;> · rw [hx] at h; cases h⟩
  have hforward := hs.forward (n := 1) (List.length_pos_iff.mpr hclosed.ne_nil)
  have hinside : w.Beside { s.forward 1 with closers := close :: (s.forward 1).closers }
      { s'.forward 1 with closers := close :: (s'.forward 1).closers } :=
    { hforward with
      closers := congrArg (close :: ·) hforward.closers
      closed := by
        show Closed (s'.forward 1).rest
        rw [State.rest_forward, hrest]
        rw [hrest] at hclosed
        exact hclosed.tail_of_not hplain.2
      waits := List.cons_ne_nil _ _
      plain := by
        rw [State.closers_forward, hclosers]
        exact List.forall_mem_singleton.mpr hplain.1 }
  obtain ⟨v, hv, rfl⟩ := runs_awaiting.mp hbody
  have hfollows := ((keeps_nested w.hasStandardHooks levels).expression .loosest).follows hv
  rcases (w.level levels).expression .loosest hinside body v hv with ⟨v', hv', hbeside⟩ | hstray
  · have hwaits : v'.closers = [close] := by
      have heq := hbeside.closers
      rw [hfollows.closers] at heq
      simp only [State.closers_forward, hs.closers, hclosers, List.nil_append] at heq
      change [close] ++ w.outside = v'.closers ++ w.outside at heq
      exact (List.append_cancel_right heq).symm
    refine ⟨_, runs_awaiting.mpr ⟨v', hv', rfl⟩, { hbeside with closers := ?_ }, ?_, hbeside.closed⟩
    · show v.closers.tail = v'.closers.tail ++ w.outside
      rw [hbeside.closers, hwaits]
      rfl
    · show v'.closers.tail = []
      rw [hwaits]
      rfl
  · exact absurd (hstray.past (Nat.zero_le _)) hstays

/-- The groups of the whole source are those of the piece that ends with them. -/
theorem mirror {w : Excerpt} {s' : State} {stop₀ : Nat}
    (h : Groups w.whole (nested w.whole levels) s stop bodies u stop') (hs : w.Along s s')
    (hclosers : s'.closers = []) (hclosed : s'.rest ≠ [] → Closed s'.rest)
    (hend : u.rest.length = w.after.length) (hstop : stop = stop₀ + w.offset) :
    ∃ u' stop₁, Groups w.part (nested w.part levels) s' stop₀ bodies u' stop₁ ∧ u'.rest = [] ∧
      stop' = stop₁ + w.offset := by
  induction h generalizing s' stop₀ with
  | nil s stop =>
    refine ⟨s', stop₀, .nil s' stop₀, ?_, hstop⟩
    rw [hs.rest, List.length_append, List.length_map] at hend
    exact List.length_eq_zero_iff.mp (by omega)
  | @cons s t u stop stop' close closing body bodies hopens hbody hcloses hothers ih =>
    have hbehind := (follows_body w.hasStandardHooks hbody).length_rest_le
    have hlater := (hothers.follows w.hasStandardHooks).length_rest_le
    have hfirst := State.length_rest_forward_one_lt
      (@rest_ne_nil w.whole s (by rw [hopens]; exact nofun))
    have hlast := State.length_rest_forward_one_lt (s := t)
      (@State.rest_ne_nil_of_current w.whole t fun hending => by
        rcases closes_of_groupClosing? hopens hcloses with h | h <;> · rw [hending] at h; cases h)
    have hlength := congrArg List.length hs.rest
    rw [List.length_append, List.length_map] at hlength
    obtain ⟨x, xs, hrest⟩ : ∃ x xs, s'.rest = x :: xs :=
      List.exists_cons_of_ne_nil (List.length_pos_iff.mp (by omega))
    have hcurrent : s.current w.whole = w.place (s'.current w.part) := by
      rw [State.current_of_rest hrest, State.current_of_rest (s := s) (by rw [hs.rest, hrest]; rfl)]
    rw [hcurrent, Excerpt.kind_place] at hopens
    obtain ⟨t', hbody', ht, hnone, hclosed'⟩ := exists_body hs hclosers
      (hclosed (hrest ▸ List.cons_ne_nil x xs)) hopens hbody (by
        rw [Excerpt.Past]
        omega)
    obtain ⟨y, ys, hrest'⟩ := List.exists_cons_of_ne_nil hclosed'.ne_nil
    have hcurrent' : t.current w.whole = w.place (t'.current w.part) := by
      rw [State.current_of_rest hrest', State.current_of_rest (s := t) (by rw [ht.rest, hrest']; rfl)]
    rw [hcurrent', Excerpt.kind_place] at hcloses
    have hnext := ht.forward (n := 1) (List.length_pos_iff.mpr hclosed'.ne_nil)
    obtain ⟨u', stop₁, hgroups, hend', hstop'⟩ := ih hnext ((State.closers_forward t' 1).trans hnone)
      (fun hne => by
        rw [State.rest_forward] at hne ⊢
        have hmore := List.length_pos_iff.mpr hne
        rw [List.length_drop] at hmore
        exact hclosed'.drop (Nat.lt_of_sub_pos hmore))
      hend (congrArg Token.stop hcurrent')
    exact ⟨u', stop₁, .cons hopens hbody' hcloses hgroups, hend', hstop'⟩

end Groups

end TexFormula.Parser
