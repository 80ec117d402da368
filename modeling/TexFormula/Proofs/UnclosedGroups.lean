import TexFormula.Proofs.UnknownCommands

/-!
# What the error of an unknown command keeps

The error node of an unknown command holds the text of the tokens read up to its last closed group, and
the tokens of this text are just these (`text_of_unknownCommand`). A group that is begun behind them
and never closed has been read as well. It is reported, but what stands in it is neither in the text of
the node nor anywhere else in the tree. In the tree of a source such a node holds the text of tokens
that stand side by side in the source (`exists_tokens_of_nodeOf`).
-/

namespace TexFormula.Parser

variable {env : Env} {inner : Inner} {levels fuel stop stop' : Nat} {s t u : State}
  {bodies : List Expression}

/-! ### Tokens between two states -/

/-- The tokens that are read from one state to another. -/
def State.readUpTo (s t : State) : List Token :=
  s.rest.take (t.position - s.position)

/-- The source text from the start of the first one of some tokens to the end of the last one. -/
def Env.textOf (env : Env) : List Token → String
  | [] => ""
  | t :: ts => env.slice t.start ((t :: ts).getLast (List.cons_ne_nil t ts)).stop

theorem Follows.readUpTo_eq {own : List Token} (h : Follows s t) (hrest : s.rest = own ++ t.rest) :
    s.readUpTo t = own := by
  have htotal := h.position_add_length_rest
  have hlength := congrArg List.length hrest
  rw [List.length_append] at hlength
  rw [State.readUpTo, hrest]
  exact List.take_left' (by omega)

theorem Follows.readUpTo_append {own : List Token} (h : Follows s t) (h' : Follows t u)
    (hrest : s.rest = own ++ t.rest) : s.readUpTo u = own ++ t.readUpTo u := by
  have htotal := h.position_add_length_rest
  have hplace := h'.position
  have hlength := congrArg List.length hrest
  rw [List.length_append] at hlength
  have hcount : u.position - s.position = own.length + (u.position - t.position) := by omega
  rw [State.readUpTo, State.readUpTo, hrest, hcount, List.take_length_add_append]

/-- The text of some tokens of a source that stand side by side has the same tokens. -/
theorem map_meaningful_textOf {source : String} {before own after : List Token} {x : Token}
    (h : Token.meaningful source = before ++ (x :: own ++ after)) :
    (Token.meaningful ((Env.standard source).textOf (x :: own))).map (Token.shift x.start) =
      x :: own := by
  have hlast := (List.dropLast_append_getLast (List.cons_ne_nil x own)).symm
  obtain ⟨front, text, back, hsource, hstart, hstop, htokens⟩ := Token.exists_piece h hlast
  rw [Env.textOf, slice_standard hsource hstart hstop]
  exact htokens

/-- With more tokens the text is another one. -/
theorem textOf_append_ne {source : String} {before own more after : List Token} {x : Token}
    (h : Token.meaningful source = before ++ (x :: own ++ (more ++ after))) (hmore : more ≠ []) :
    (Env.standard source).textOf (x :: own) ≠ (Env.standard source).textOf (x :: own ++ more) := by
  intro heq
  have hall : Token.meaningful source = before ++ (x :: (own ++ more) ++ after) := by
    rw [h, List.cons_append, List.cons_append, List.append_assoc]
  have htokens := map_meaningful_textOf hall
  rw [← List.cons_append, ← heq, map_meaningful_textOf h] at htokens
  exact hmore (List.self_eq_append_right.mp htokens)

/-! ### The group left open -/

/-- A group is begun in the first state. Where its body ends it is not closed, and this is reported in
the second state. -/
def LeavesOpen (env : Env) (inner : Inner) (s t : State) : Prop :=
  ∃ close closing body u, groupClosing? (s.current env).kind = some (close, closing) ∧
    Runs (awaiting close (inner.expression .loosest)) (s.forward 1) body u ∧
    (u.current env).kind ≠ closing ∧
    t = u.record ⟨.expectedClosing, close⟩ (u.current env).start (u.current env).stop

theorem LeavesOpen.opens (h : LeavesOpen env inner s t) :
    groupClosing? (s.current env).kind ≠ none := by
  obtain ⟨close, closing, body, u, hopens, -⟩ := h
  rw [hopens]
  exact Option.some_ne_none _

theorem LeavesOpen.follows (hd : env.dictionary.HasStandardHooks)
    (h : LeavesOpen env (nested env levels) s t) : Follows s t ∧ s.position < t.position := by
  have hne : s.rest ≠ [] := Groups.rest_ne_nil h.opens
  obtain ⟨close, closing, body, u, hopens, hbody, hmissing, rfl⟩ := h
  have hbehind := (Groups.follows_body hd hbody).trans
    (.record u ⟨.expectedClosing, close⟩ (u.current env).start (u.current env).stop)
  have hplace : (s.forward 1).position = s.position + 1 :=
    State.position_forward (List.length_pos_iff.mpr hne)
  have hlater := hbehind.position
  exact ⟨(Follows.forward s 1).trans hbehind, by omega⟩

/-- The opening token of the group is read at least. -/
theorem LeavesOpen.readUpTo_ne_nil (hd : env.dictionary.HasStandardHooks)
    (h : LeavesOpen env (nested env levels) s t) : s.readUpTo t ≠ [] := by
  intro hnil
  obtain ⟨hbehind, hplace⟩ := h.follows hd
  have hcount := hbehind.position_add_length_rest
  have hlength := congrArg List.length hnil
  rw [State.readUpTo, List.length_take, List.length_nil] at hlength
  omega

/-- Behind an unknown command are the groups that are closed, and at most one that is left open. -/
theorem exists_groups_and_open_of_unknownArguments (hd : env.dictionary.HasStandardHooks)
    {found : List Expression × Nat} (hfuel : s.rest.length ≤ fuel)
    (h : Runs (unknownArguments env (nested env levels) fuel stop) s found t) :
    ∃ bodies u, Groups env (nested env levels) s stop bodies u found.2 ∧
      (groupClosing? (u.current env).kind = none ∧ t = u ∨
        LeavesOpen env (nested env levels) u t) := by
  induction fuel generalizing s stop found with
  | zero =>
    obtain ⟨rfl, rfl⟩ := runs_pure.mp h
    refine ⟨[], t, .nil t stop, .inl ⟨?_, rfl⟩⟩
    rw [State.current_of_rest_nil (List.length_eq_zero_iff.mp (Nat.le_zero.mp hfuel))]
    rfl
  | succ fuel ih =>
    rw [unknownArguments, runs_current] at h
    cases hopens : groupClosing? (s.current env).kind with
    | none =>
      rw [hopens] at h
      obtain ⟨rfl, rfl⟩ := runs_pure.mp h
      exact ⟨[], t, .nil t stop, .inl ⟨hopens, rfl⟩⟩
    | some delimiters =>
      obtain ⟨close, closing⟩ := delimiters
      rw [hopens] at h
      dsimp only at h
      rw [runs_advance] at h
      obtain ⟨body, v, hbody, h⟩ := runs_bind.mp h
      rw [runs_current] at h
      by_cases hcloses : (v.current env).kind == closing
      · rw [if_pos hcloses, runs_advance] at h
        obtain ⟨⟨others, stop'⟩, x, hothers, h⟩ := runs_bind.mp h
        obtain ⟨rfl, rfl⟩ := runs_pure.mp h
        have hopening : groupClosing? (s.current env).kind ≠ none := by
          rw [hopens]
          exact Option.some_ne_none _
        have hne : s.rest ≠ [] := Groups.rest_ne_nil hopening
        have hless := State.length_rest_forward_one_lt hne
        have hbehind := (Groups.follows_body hd hbody).length_rest_le
        have hlast := State.length_rest_forward_le v 1
        obtain ⟨bodies, u, hgroups, hend⟩ := ih (by omega) hothers
        exact ⟨body :: bodies, u, .cons hopens hbody (eq_of_beq hcloses) hgroups, hend⟩
      · rw [if_neg hcloses, runs_recordHere] at h
        obtain ⟨rfl, rfl⟩ := runs_pure.mp h
        exact ⟨[], s, .nil s stop, .inr ⟨close, closing, body, v, hopens, hbody,
          fun heq => hcloses (beq_iff_eq.mpr heq), rfl⟩⟩

/-! ### At the depth of the state -/

/-- Bodies are read in the same way where the levels are counted in the state. -/
theorem runs_body_within (hdepth : s.depth + levels = env.options.maxDepth) {close : String}
    {body : Expression} :
    Runs (awaiting close ((within env levels).expression .loosest)) (s.forward 1) body t ↔
      Runs (awaiting close ((nested env levels).expression .loosest)) (s.forward 1) body t := by
  have hsame : SameAtDepths env.options.maxDepth levels
      (awaiting close ((within env levels).expression .loosest))
      (awaiting close ((nested env levels).expression .loosest)) :=
    .awaiting close ((inners_within env levels).expression .loosest)
  rw [Runs, Runs, hsame.apply_eq (by rw [(Follows.forward s 1).depth, hdepth])]

theorem Groups.within (hd : env.dictionary.HasStandardHooks)
    (hdepth : s.depth + levels = env.options.maxDepth)
    (h : Groups env (nested env levels) s stop bodies u stop') :
    Groups env (Parser.within env levels) s stop bodies u stop' := by
  induction h with
  | nil s stop => exact .nil s stop
  | @cons s t u stop stop' close closing body bodies hopens hbody hcloses _ ih =>
    have hfollows := ((Follows.forward s 1).trans (follows_body hd hbody)).trans (.forward t 1)
    exact .cons hopens ((runs_body_within hdepth).mpr hbody) hcloses
      (ih (by rw [hfollows.depth, hdepth]))

theorem LeavesOpen.within (hdepth : s.depth + levels = env.options.maxDepth)
    (h : LeavesOpen env (nested env levels) s t) : LeavesOpen env (Parser.within env levels) s t := by
  obtain ⟨close, closing, body, u, hopens, hbody, hend⟩ := h
  exact ⟨close, closing, body, u, hopens, (runs_body_within hdepth).mpr hbody, hend⟩

/-! ### The text of the error -/

/-- A command and the closed groups behind it stand side by side in the source, and their text reaches
from the command to the end of the last group. -/
theorem exists_text_of_groups {source name : String} (hs : s.OfSource (.standard source))
    (hkind : (s.current (.standard source)).kind = .command name)
    (h : Groups (.standard source) (nested (.standard source) levels) (s.forward 1)
      (s.current (.standard source)).stop bodies u stop) :
    ∃ own before, s.rest = s.current (.standard source) :: (own ++ u.rest) ∧
      Token.meaningful source = before ++ (s.current (.standard source) :: own ++ u.rest) ∧
      (Env.standard source).textOf (s.current (.standard source) :: own) =
        (Env.standard source).slice (s.current (.standard source)).start stop := by
  obtain ⟨x, own, before, init, y, hrest, hbefore, hinit, hstop, -⟩ := exists_own_of_groups hs hkind h
  have hcurrent : s.current (.standard source) = x := State.current_of_rest hrest
  have hlast : (x :: own).getLast (List.cons_ne_nil x own) = y := by
    simp only [hinit, List.getLast_append_singleton]
  rw [hcurrent]
  exact ⟨own, before, hrest, hbefore, by rw [Env.textOf, hlast, hstop]⟩

/-- The text of the error node of an unknown command anywhere in the tree of a source is that of tokens
of the source that stand side by side, the first of which is the command, and they are the tokens of
this text. -/
theorem exists_tokens_of_nodeOf {source literal : String} {p : Parsed}
    (h : parse .standard {} source = .ok p) (hidentifies : ¬Identifies source "Error")
    (hn : (unknownError literal).expression.NodeOf p.expression) :
    ∃ name before x own after,
      Token.meaningful source = before ++ (x :: own ++ after) ∧ x.kind = .command name ∧
      literal = (Env.standard source).textOf (x :: own) ∧
      (Token.meaningful literal).map (Token.shift x.start) = x :: own := by
  have hreads : ReadsUnknown (.standard source) literal := readsUnknown_of_parse h hidentifies hn
  obtain ⟨levels, name, s, t, hat, hruns⟩ := hreads
  rw [runs_unknownCommand_within hat.depth] at hruns
  obtain ⟨found, v, harguments, hsame, -⟩ := runs_unknownCommand_standard.mp hruns
  cases hsame
  obtain ⟨bodies, u, hgroups⟩ := exists_groups_of_unknownArguments harguments
  obtain ⟨own, before, -, hbefore, htext⟩ := exists_text_of_groups hat.source hat.command hgroups
  refine ⟨name, before, _, own, u.rest, hbefore, hat.command, htext.symm, ?_⟩
  rw [← htext]
  exact map_meaningful_textOf hbefore

/-- Wherever an unknown command stands in a source, its error node holds the text of the tokens read up
to the last closed group, and they are the tokens of this text. This is the text of all the tokens that
are read with the command just if no other group begins there; one that does is read and left open. -/
theorem text_of_unknownCommand {source name : String} {o : Option Operand}
    (hs : s.OfSource (.standard source)) (hdepth : s.depth + levels = 64)
    (hkind : (s.current (.standard source)).kind = .command name)
    (h : Runs (unknownCommand (.standard source) (within (.standard source) levels)
      (s.current (.standard source)) name) s o t) :
    ∃ bodies u stop v,
      Groups (.standard source) (within (.standard source) levels) (s.forward 1)
        (s.current (.standard source)).stop bodies u stop ∧
      (groupClosing? (u.current (.standard source)).kind = none ∧ v = u ∨
        LeavesOpen (.standard source) (within (.standard source) levels) u v) ∧
      t = v.record ⟨.unknownCommand, "\\" ++ name⟩ (s.current (.standard source)).start stop ∧
      o = some (unknownError ((Env.standard source).textOf (s.readUpTo u))) ∧
      (Token.meaningful ((Env.standard source).textOf (s.readUpTo u))).map
        (Token.shift (s.current (.standard source)).start) = s.readUpTo u ∧
      ((Env.standard source).textOf (s.readUpTo u) = (Env.standard source).textOf (s.readUpTo t) ↔
        groupClosing? (u.current (.standard source)).kind = none) := by
  let env := Env.standard source
  have hd : env.dictionary.HasStandardHooks := Dictionary.hasStandardHooks_standard
  rw [runs_unknownCommand_within hdepth] at h
  obtain ⟨found, v, harguments, rfl, rfl⟩ := runs_unknownCommand_standard.mp h
  obtain ⟨bodies, u, hgroups, hend⟩ :=
    exists_groups_and_open_of_unknownArguments hd (Nat.le_refl _) harguments
  obtain ⟨own, before, hrest, hbefore, htext⟩ := exists_text_of_groups hs hkind hgroups
  have hfollows : Follows s u := (Follows.forward s 1).trans (hgroups.follows hd)
  have hown : s.readUpTo u = s.current env :: own := hfollows.readUpTo_eq hrest
  have hdepth' : (s.forward 1).depth + levels = 64 := by
    rw [(Follows.forward s 1).depth, hdepth]
  refine ⟨bodies, u, found.2, v, hgroups.within hd hdepth', ?_, rfl, ?_, ?_, ?_⟩
  · refine hend.imp_right fun hopen => hopen.within ?_
    rw [hfollows.depth]
    exact hdepth
  · rw [hown]
    exact congrArg (fun text => some (unknownError text)) htext.symm
  · rw [hown]
    exact map_meaningful_textOf hbefore
  · rcases hend with ⟨hnone, rfl⟩ | hopen
    · exact iff_of_true rfl hnone
    · have hread : s.readUpTo v = s.current env :: own ++ u.readUpTo v :=
        hfollows.readUpTo_append (hopen.follows hd).1 hrest
      have hsplit : u.rest = u.readUpTo v ++ u.rest.drop (v.position - u.position) :=
        (List.take_append_drop _ _).symm
      rw [hsplit] at hbefore
      refine iff_of_false ?_ hopen.opens
      show env.textOf (s.readUpTo u) ≠ env.textOf (s.readUpTo v)
      rw [hown, hread]
      exact textOf_append_ne hbefore (hopen.readUpTo_ne_nil hd)

/-- An unknown command with a group that is closed and one that is not. -/
def halfOpen : String :=
  "\\foo[a]\x7bx"

theorem text_of_unknownCommand_halfOpen : ∃ t o,
    (State.ofSource halfOpen).OfSource (.standard halfOpen) ∧ (State.ofSource halfOpen).depth + 64 = 64 ∧
    ((State.ofSource halfOpen).current (.standard halfOpen)).kind = .command "foo" ∧
    Runs (unknownCommand (.standard halfOpen) (within (.standard halfOpen) 64)
      ((State.ofSource halfOpen).current (.standard halfOpen)) "foo") (.ofSource halfOpen) o t ∧
    ∃ u, o = some (unknownError
        ((Env.standard halfOpen).textOf ((State.ofSource halfOpen).readUpTo u))) ∧
      ((Env.standard halfOpen).textOf ((State.ofSource halfOpen).readUpTo u) =
          (Env.standard halfOpen).textOf ((State.ofSource halfOpen).readUpTo t) ↔
        groupClosing? (u.current (.standard halfOpen)).kind = none) := by
  have hs : (State.ofSource halfOpen).OfSource (.standard halfOpen) := .suffix (List.suffix_refl _)
  have hkind : ((State.ofSource halfOpen).current (.standard halfOpen)).kind = .command "foo" := by
    decide +kernel
  have hread : ((unknownCommand (.standard halfOpen) (within (.standard halfOpen) 64)
      ((State.ofSource halfOpen).current (.standard halfOpen)) "foo").run'
        (.ofSource halfOpen)).isSome := by decide +kernel
  obtain ⟨o, ho⟩ := Option.isSome_iff_exists.mp hread
  obtain ⟨t, ht⟩ := exists_runs_of_eq_some ho
  obtain ⟨_, u, _, _, -, -, -, htext, -, hall⟩ := text_of_unknownCommand hs rfl hkind ht
  exact ⟨t, o, hs, rfl, hkind, ht, u, htext, hall⟩

/-- An unknown command with a group that is not closed. -/
def openGroup : String :=
  "\\foo\x7bx"

/-- The letter is read with the command, and its error node is the command alone. -/
theorem not_text_of_unknownCommand_open : ∃ t o,
    Runs (unknownCommand (.standard openGroup) (within (.standard openGroup) 64)
      ((State.ofSource openGroup).current (.standard openGroup)) "foo") (.ofSource openGroup) o t ∧
    (Env.standard openGroup).textOf ((State.ofSource openGroup).readUpTo t) = openGroup ∧
    o.map (fun x => (MathJson.encode x.expression).compact) =
      some "[\"Error\",[\"LatexString\",\"'\\\\foo'\"],\"'unknown-command'\"]" ∧
    o ≠ some (unknownError openGroup) := by
  have hread : (unknownCommand (.standard openGroup) (within (.standard openGroup) 64)
      ((State.ofSource openGroup).current (.standard openGroup)) "foo" >>= fun o => do
        return (o.map fun x => (MathJson.encode x.expression).compact,
          (Env.standard openGroup).textOf ((State.ofSource openGroup).readUpTo (← get)))).run'
      (.ofSource openGroup) =
      some (some "[\"Error\",[\"LatexString\",\"'\\\\foo'\"],\"'unknown-command'\"]", openGroup) := by
    decide +kernel
  obtain ⟨_, hruns⟩ := exists_runs_of_eq_some hread
  obtain ⟨o, t, h, hruns⟩ := runs_bind.mp hruns
  rw [runs_get, runs_pure] at hruns
  obtain ⟨hpair, -⟩ := hruns
  obtain ⟨hexpression, htext⟩ := Prod.mk.inj hpair
  refine ⟨t, o, h, htext.symm, hexpression.symm, ?_⟩
  rintro rfl
  exact absurd hexpression (by decide +kernel)

end TexFormula.Parser
