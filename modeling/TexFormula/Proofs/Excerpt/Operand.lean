import TexFormula.Proofs.Excerpt.Group

/-!
# Operands of a piece

An operand that is read inside of the piece is mirrored. Two things are taken back that look at what
stands behind the piece. A number with a sign is, if a power follows, and then the sign is read as an
operator before the same number, which leaves the piece (`ensures_notated_of_sign`). A plus sign before
something missing is, and then no operand is read (`StrayOperand`).
-/

namespace TexFormula.Parser

/-- What an expression between growing delimiters stands for. -/
def betweenDelimiters (d : Dictionary) (trigger : Option String) (body : Expression) : Operand :=
  match trigger.bind fun trigger => (d.operands trigger).find? (·.isMatchfix) with
  | some n => { expression := .function n.name body.sequenceItems }
  | none =>
    if trigger = some "(" && body.isMissing then
      { expression := .function "Sequence" [] }
    else
      { expression := body }

theorem leftRight_eq (env : Env) (inner : Inner) : leftRight env inner = do
    advance
    let trigger := (← current env).trigger?
    advance
    let body ← awaiting "\\right" (inner.expression .loosest)
    if (← current env).isCommand "right" then
      skip 2
    else
      recordHere env .expectedClosing "\\right"
    return betweenDelimiters env.dictionary trigger body := by
  have hmade (trigger : Option String) (body : Expression) :
      (match trigger.bind fun trigger =>
          (env.dictionary.operands trigger).find? (·.isMatchfix) with
        | some n => return { expression := .function n.name body.sequenceItems }
        | none =>
          if trigger = some "(" && body.isMissing then
            return { expression := .function "Sequence" [] }
          else
            return { expression := body } : Parser Operand) =
        return betweenDelimiters env.dictionary trigger body := by
    unfold betweenDelimiters
    split
    · rfl
    · split <;> rfl
  unfold leftRight
  refine bind_congr fun _ => bind_congr fun opening => bind_congr fun _ => ?_
  refine bind_congr fun body => bind_congr fun t => ?_
  dsimp only
  split
  · exact bind_congr fun _ => hmade opening.trigger? body
  · exact bind_congr fun _ => hmade opening.trigger? body

namespace Excerpt

variable {w : Excerpt} {α : Type} {levels : Nat} {s s' t t' : State}

/-! ### Built-in shapes -/

theorem mirrored_unexpected {bad : Operand → State → Prop} (hs : w.Beside s s')
    (hclose : ¬ Closes (s'.current w.part)) (hdigits : (s'.current w.part).digits? = none) :
    w.Mirrored bad s s' (unexpected w.whole (s.current w.whole))
      (unexpected w.part (s'.current w.part)) := by
  have hinside := hs.inside _ hs.current_mem
  unfold unexpected
  rw [hs.current, start_place, stop_place, w.slice (hinside.start_le hdigits) hinside.stop_le]
  exact .advance hs hclose fun ht => .recordAt ht fun u u' hu _ => .pure hu _

/-- Behind the sign at `s` a number leaves the piece. -/
def NumberPasses (w : Excerpt) (negative : Bool) (s : State) : Prop :=
  ∃ v u, Runs (number w.whole negative) (s.forward 1) v u ∧ w.Past u

/-- The runs of a number with a sign that are not mirrored. -/
def StraySign (w : Excerpt) (negative : Bool) (s : State) (o : Option Operand) (t : State) : Prop :=
  w.StrayGroup o t ∨ o = none ∧ t = s ∧ w.NumberPasses negative s

theorem mirrored_signedNumber (negative : Bool) (hs : w.Beside s s')
    (hclose : ¬ Closes (s'.current w.part)) :
    w.Mirrored (w.StraySign negative s) s s' (signedNumber w.whole negative)
      (signedNumber w.part negative) := by
  refine .attempt hs (?_ : w.Mirrored (fun _ t => w.Past t ∧ w.NumberPasses negative s) s s' _ _)
    (fun a t hbad => .inl ⟨rfl, hbad.1⟩) fun t _ hbad => .inr ⟨rfl, rfl, hbad.2⟩
  refine .advance hs hclose fun ht => ?_
  refine (mirrored_number negative ht).and_runs.bind (fun v u hbad => .current ?_)
    fun v u u' hu => .current ?_
  · have hpasses : w.NumberPasses negative s := ⟨v, u, hbad⟩
    split
    · exact .pure ⟨hbad.2, hpasses⟩
    · exact .pure ⟨hbad.2, hpasses⟩
  · rw [hu.current, isPunct_place]
    exact .ite (fun _ => .pure hu none) fun _ => .pure hu _

section

variable (hl : w.Level levels)

include hl

theorem Level.delimitedArguments (hs : w.Beside s s') (hclose : ¬ Closes (s'.current w.part)) :
    w.Mirrored w.Leaves s s' (Parser.delimitedArguments w.whole (nested w.whole levels))
      (Parser.delimitedArguments w.part (nested w.part levels)) :=
  .advance hs hclose fun ht => (hl.groupBody (by decide) _ ht).bind (fun _ _ hpast => .pure hpast)
    fun _ _ _ hu => .pure hu _

theorem Level.parenthesized (hs : w.Beside s s') (hclose : ¬ Closes (s'.current w.part)) :
    w.Mirrored w.Leaves s s' (Parser.parenthesized w.whole (nested w.whole levels))
      (Parser.parenthesized w.part (nested w.part levels)) :=
  .advance hs hclose fun ht => (hl.groupBody (by decide) _ ht).bind (fun _ _ hpast => .pure hpast)
    fun _ _ _ hu => .pure hu _

theorem Level.braced (hs : w.Beside s s') (hclose : ¬ Closes (s'.current w.part)) :
    w.Mirrored w.Leaves s s' (Parser.braced w.whole (nested w.whole levels))
      (Parser.braced w.part (nested w.part levels)) :=
  .advance hs hclose fun ht => (hl.groupBody (by decide) _ ht).bind (fun _ _ hpast => .pure hpast)
    fun _ _ _ hu => .pure hu _

theorem Level.leftRight (hs : w.Beside s s') (hclose : ¬ Closes (s'.current w.part)) :
    w.Mirrored w.Leaves s s' (Parser.leftRight w.whole (nested w.whole levels))
      (Parser.leftRight w.part (nested w.part levels)) := by
  have hend (trigger : Option String) (body : Expression) {u : State} (hu : w.Past u) :
      Ensures w.Leaves u (do
        if (← Parser.current w.whole).isCommand "right" then
          skip 2
        else
          recordHere w.whole .expectedClosing "\\right"
        return betweenDelimiters w.whole.dictionary trigger body : Parser Operand) := by
    refine .current ?_
    dsimp only
    split
    · exact .skip (.pure (past_forward hu 2))
    · exact .recordHere (.pure hu)
  rw [leftRight_eq, leftRight_eq]
  refine .advance hs hclose fun ht => .current ?_
  rw [ht.current, trigger?_place]
  refine .advance_any ht (fun hu => ?_) fun hpast => ?_
  · refine (hl.awaiting (by decide) hu).bind (fun body v hv => hend _ body hv)
      fun body v v' hv => .current ?_
    rw [hv.current, isCommand_place, w.dictionary, w.dictionary']
    refine .ite (fun _ => .skip hv (fun hx => .pure hx _) fun hpast => .pure hpast) fun _ => ?_
    exact .recordHere hv fun x x' hx _ => .pure hx _
  · have hkeeps : Keeps _ _ := Keeps.awaiting "\\right" ((w.keeps_inner levels).expression .loosest)
    exact (ensures_past hkeeps hpast).bind fun body v hv => hend _ body hv

end

/-- The runs of a built-in shape that are not mirrored. -/
def StrayShape (w : Excerpt) (s : State) (o : Option Operand) (t : State) : Prop :=
  w.StrayGroup o t ∨ o = none ∧ t = s ∧ ∃ c ∈ ['-', '+'], (s.current w.whole).isPunct c ∧
    startsNumber (s.rest.drop 1) ∧ w.NumberPasses (c == '-') s

theorem Level.builtin (hl : w.Level levels) (hs : w.Beside s s')
    (hclose : ¬ Closes (s'.current w.part)) :
    w.Mirrored (w.StrayShape s) s s' (Parser.builtin w.whole (nested w.whole levels))
      (Parser.builtin w.part (nested w.part levels)) := by
  have hnumber : w.Mirrored (w.StrayShape s) s s'
      (do return some { expression := ← number w.whole false : Operand })
      (do return some { expression := ← number w.part false : Operand }) :=
    (mirrored_number false hs).bind (fun _ _ hpast => .pure (.inl ⟨rfl, hpast⟩))
      fun _ _ _ ht => .pure ht _
  have hshape {m m' : Parser Operand} (h : w.Mirrored w.Leaves s s' m m') :
      w.Mirrored (w.StrayShape s) s s' (do return some (← m)) (do return some (← m')) :=
    h.bind (fun _ _ hpast => .pure (.inl ⟨rfl, hpast⟩)) fun _ _ _ ht => .pure ht _
  have hstarts : startsNumber s.rest = startsNumber s'.rest := by
    rw [hs.rest, startsNumber_place hs.closed]
  have hbehind : startsNumber (s.rest.drop 1) = startsNumber (s'.rest.drop 1) := by
    have hnext := hs.forward_one hclose
    rw [← State.rest_forward, ← State.rest_forward, hnext.rest, startsNumber_place hnext.closed]
  refine .get ?_
  dsimp only
  rw [hs.current, kind_place, hstarts, hbehind]
  cases hkind : (s'.current w.part).kind with
  | digits run => exact hnumber
  | punct c =>
    refine .ite (fun _ => hshape (hl.parenthesized hs hclose)) fun _ =>
      .ite (fun _ => hnumber) fun _ => ?_
    refine .ite (fun hsign => ?_) fun _ => .pure hs none
    refine (mirrored_signedNumber _ hs hclose).mono fun o t hstray => ?_
    refine hstray.imp_right fun ⟨hnone, ht, hpasses⟩ => ⟨hnone, ht, c, ?_, ?_, ?_, hpasses⟩
    · simp only [Bool.and_eq_true, Bool.or_eq_true, beq_iff_eq] at hsign
      simpa using hsign.1
    · rw [hs.current, isPunct_place, Token.isPunct, hkind]
      exact beq_self_eq_true _
    · rw [hbehind]
      exact (Bool.and_eq_true_iff.mp hsign).2
  | groupOpen => exact hshape (hl.braced hs hclose)
  | command name => exact .ite (fun _ => hshape (hl.leftRight hs hclose)) fun _ => .pure hs none
  | loneBackslash =>
    refine hshape ?_
    rw [← hs.current]
    exact mirrored_unexpected hs hclose (by simp only [Token.digits?, hkind])
  | _ => exact .pure hs none

/-! ### Notations -/

theorem Beside.signless_of_follows (hs : w.Beside s s') (h : Follows s t) : t.Signless := by
  unfold State.Signless
  rw [h.closers]
  exact hs.signless

theorem keeps_arguments (w : Excerpt) (levels : Nat) (command : String) (count : Nat) :
    Keeps w.whole.options.maxDepth (arguments w.whole (nested w.whole levels) command count) :=
  show (keeps _).rel (arguments w.whole (nested w.whole levels) command count)
      (arguments (w.whole.allowing 0) (nested w.whole levels) command count) from
    (w.keeps_inner levels).arguments command count

theorem ensures_arguments_of_astray {a : α} (h : w.Astray a t) (ht : t.Signless) (command : String)
    (count : Nat) : Ensures w.Astray t (arguments w.whole (nested w.whole levels) command count) := by
  rcases h with hpast | hstranded
  · exact (ensures_past (keeps_arguments w levels command count) hpast).mono fun _ _ h => .inl h
  · induction count generalizing t with
    | zero => exact .pure (.inr hstranded)
    | succ count ih =>
      exact (ensures_argument_of_stranded hstranded ht command).bind fun _ u hu =>
        (ih hu.2 hu.1).bind fun _ v hv => .pure hv

section

variable (hl : w.Level levels)

include hl

theorem Level.arguments (command : String) (count : Nat) (hs : w.Beside s s') :
    w.Mirrored w.Astray s s' (Parser.arguments w.whole (nested w.whole levels) command count)
      (Parser.arguments w.part (nested w.part levels) command count) := by
  induction count generalizing s s' with
  | zero => exact .pure hs []
  | succ count ih =>
    refine (hl.argument command hs).and_runs.bind (fun first t hstray => ?_) fun first t t' ht => ?_
    · have hsignless := hs.signless_of_follows ((keeps_argument w levels command).follows hstray.1)
      exact (ensures_arguments_of_astray hstray.2 hsignless command count).bind fun _ u hu => .pure hu
    · exact (ih ht).bind (fun _ u hu => .pure hu) fun _ u u' hu => .pure hu _

theorem Level.functionArguments (command : String) (hs : w.Beside s s') :
    w.Mirrored w.Astray s s' (Parser.functionArguments w.whole (nested w.whole levels) command)
      (Parser.functionArguments w.part (nested w.part levels) command) := by
  refine .skipSpacing hs fun ht => .current ?_
  rw [ht.current, isPunct_place]
  refine .ite (fun hopen => ?_) fun _ => ?_
  · exact (hl.delimitedArguments ht (Closes.not_of_isPunct hopen)).mono fun _ _ hpast => .inl hpast
  · refine (hl.expression .multiplication ht).bind (fun e u hstray => ?_) fun e u u' hu => ?_
    · dsimp only
      split
      · exact .recordHere (.pure (hstray.astray.record _ _ _ _))
      · exact .pure hstray.astray
    · exact .ite (fun _ => .recordHere hu fun v v' hv _ => .pure hv _) fun _ => .pure hu _

theorem Level.enclosed {close : String} (hclose : close ∉ ["+", "-", "."]) (hs : w.Beside s s') :
    w.Mirrored w.Leaves s s' (Parser.enclosed w.whole (nested w.whole levels) close)
      (Parser.enclosed w.part (nested w.part levels) close) := by
  refine (hl.awaiting hclose hs).bind (fun body t hpast => .current ?_) fun body t t' ht => .current ?_
  · dsimp only
    split
    · exact .advance (.pure (past_forward hpast 1))
    · exact .recordHere (.pure hpast)
  · rw [ht.current, trigger?_place]
    refine .ite (fun _ => ?_) fun _ => .recordHere ht fun u u' hu _ => .pure hu _
    exact .advance_any ht (fun hu => .pure hu _) fun hpast => .pure hpast

theorem Level.prefixed (n : Notation) (hs : w.Beside s s') :
    w.Mirrored w.Astray s s' (Parser.prefixed w.whole (nested w.whole levels) n)
      (Parser.prefixed w.part (nested w.part levels) n) := by
  refine (hl.expression n.precedence.tighter hs).bind (fun e t hstray => ?_) fun e t t' ht => ?_
  · dsimp only
    split
    · exact .recordHere (.pure (hstray.astray.record _ _ _ _))
    · exact .pure hstray.astray
  · exact .ite (fun _ => .recordHere ht fun u u' hu _ => .pure hu _) fun _ => .pure ht _

end

/-- No standard notation ends with a sign or a point. -/
theorem close_of_matchfix {n : Notation} (hn : n ∈ Dictionary.standardEntries) {close : String}
    (hkind : n.kind = .matchfix close) : close ∉ ["+", "-", "."] := by
  have hall : (["+", "-", "."].all fun close =>
      Dictionary.standardEntries.all fun n => n.kind != .matchfix close) = true := rfl
  intro hclose
  have hnone := List.all_eq_true.mp (List.all_eq_true.mp hall close hclose) n hn
  exact bne_iff_ne.mp hnone hkind

theorem Level.applyNotation (hl : w.Level levels) {n : Notation} {trigger : String}
    (hn : n ∈ Dictionary.standardEntries) (htrigger : n.trigger = some trigger) (hs : w.Beside s s') :
    w.Mirrored (fun o => w.StrayHook levels trigger s (o.map Operand.expression)) s s'
      (Parser.applyNotation w.whole (nested w.whole levels) n)
      (Parser.applyNotation w.part (nested w.part levels) n) := by
  have hofHook (e : Expression) : ofHook w.part e = ofHook w.whole e := by
    unfold ofHook
    rw [w.options]
  unfold Parser.applyNotation
  split
  · next hook hreader =>
    have hhook := Dictionary.standard_of_reader_eq hn htrigger hreader
    rw [funext hofHook]
    refine (hl.run none hhook hs).bind (fun o t hstray => .pure ?_) fun o t t' ht => .pure ht _
    rw [Option.map_map]
    rcases hstray with ⟨e, rfl, h⟩ | ⟨rfl, h⟩
    · exact .inl ⟨e, rfl, h⟩
    · exact .inr ⟨rfl, h⟩
  · cases hkind : n.kind with
    | symbol => exact .pure hs _
    | prefixOp =>
      exact (hl.prefixed n hs).bind (fun _ _ hstray => .pure (.built hstray rfl)) fun _ _ _ ht =>
        .pure ht _
    | matchfix close =>
      exact (hl.enclosed (close_of_matchfix hn hkind) hs).bind (fun _ _ hpast => .pure (.past hpast _))
        fun _ _ _ ht => .pure ht _
    | command count =>
      exact (hl.arguments n.glyph count hs).bind (fun _ _ hstray => .pure (.built hstray rfl))
        fun _ _ _ ht => .pure ht _
    | function =>
      exact (hl.functionArguments n.glyph hs).bind (fun _ _ hstray => .pure (.built hstray rfl))
        fun _ _ _ ht => .pure ht _
    | _ => exact .pure hs none

/-- The runs of the notations at a trigger that are not mirrored. None is answered only at a plus
sign. -/
def StrayNotation (w : Excerpt) (s : State) (o : Option Operand) (t : State) : Prop :=
  (∃ x, o = some x ∧ (w.Past t ∨ Stranded w.whole w.after.length t ∧ x.expression.isMissing = false ∧
    t.rest.length < s.rest.length)) ∨
  o = none ∧ t = s ∧ Stranded w.whole w.after.length s

theorem keeps_applied (w : Excerpt) (levels : Nat) {n : Notation} (hn : n ∈ Dictionary.standardEntries) :
    Keeps w.whole.options.maxDepth (applyNotation w.whole (nested w.whole levels) n) := by
  have hn' : n ∈ w.whole.dictionary.entries := w.dictionary ▸ hn
  have hsteady : n.Steady := fun hook hhook => by
    obtain ⟨m, hm, hreader⟩ := w.hasStandardHooks n hn' hook hhook
    exact Dictionary.steady_standardEntries m hm hook hreader
  exact show (keeps _).rel (applyNotation w.whole (nested w.whole levels) n)
      (applyNotation (w.whole.allowing 0) (nested w.whole levels) n) from
    (w.keeps_inner levels).applyNotation hsteady.abortsOnly

theorem Level.firstNotation (hl : w.Level levels) {trigger : String} {notations : List Notation}
    (hn : ∀ n ∈ notations, n ∈ Dictionary.standardEntries ∧ n.trigger = some trigger)
    (hone : trigger = "+" → notations.length ≤ 1) (hs : w.Beside s s')
    (hclose : ¬ Closes (s.current w.whole)) (htrigger : (s.current w.whole).trigger? = some trigger) :
    w.Mirrored (w.StrayNotation s) s s' (Parser.firstNotation w.whole (nested w.whole levels) notations)
      (Parser.firstNotation w.part (nested w.part levels) notations) := by
  induction notations generalizing s' with
  | nil => exact .pure hs none
  | cons n rest ih =>
    obtain ⟨⟨hmem, hfiled⟩, hrest⟩ := List.forall_mem_cons.mp hn
    have hplus (h : trigger = "+") : (s.current w.whole).isPunct '+' := by
      have hinside := (hs.inside _ hs.current_mem).plus
      rw [hs.current, trigger?_place] at htrigger
      rw [hs.current, isPunct_place]
      exact hinside (h ▸ htrigger)
    have happly : w.Mirrored _ s s'
        (Parser.advance >>= fun _ => Parser.applyNotation w.whole (nested w.whole levels) n)
        (Parser.advance >>= fun _ => Parser.applyNotation w.part (nested w.part levels) n) :=
      .advance hs (fun h => hclose (hs.closes_iff.mpr h)) fun ht => hl.applyNotation hmem hfiled ht
    refine .orElse (happly.and_runs.attempt hs ?_ ?_ : w.Mirrored (w.StrayNotation s) s s' _ _)
      (fun x t hstray => hstray) ?_ ?_
    · rintro x t ⟨hruns, ⟨e, he, hstray⟩ | ⟨hnone, -⟩⟩
      · cases he
        refine .inl ⟨x, rfl, hstray.imp_right fun hstranded => ⟨hstranded.1, hstranded.2, ?_⟩⟩
        rw [runs_advance] at hruns
        have hle := ((keeps_applied w levels hmem).follows hruns).length_rest_le
        obtain ⟨y, ys, -, hy⟩ := hs.exists_rest
        have hlt := State.length_rest_forward_one_lt (s := s) (hy ▸ List.cons_ne_nil _ _)
        omega
      · cases hnone
    · rintro t hnone ⟨-, ⟨e, he, -⟩ | ⟨-, rfl, e, hmissing, hstray, hruns⟩⟩
      · cases he
      · refine .inr ⟨rfl, rfl, ?_⟩
        rcases hstray with hpast | hstranded
        · exact .passes (hplus rfl) hruns hmissing hpast
        · exact .again (hplus rfl) hruns hmissing hstranded
    · rintro t (⟨x, hx, -⟩ | ⟨-, rfl, hstranded⟩)
      · cases hx
      · -- the plus sign has only one notation
        have hsign := trigger?_of_plus hstranded.plus
        rw [htrigger] at hsign
        cases hsign
        have hempty : rest.length = 0 := Nat.le_zero.mp (Nat.le_of_succ_le_succ (hone rfl))
        obtain rfl : rest = [] := List.length_eq_zero_iff.mp hempty
        exact .pure (.inr ⟨rfl, rfl, hstranded⟩)
    · intro t t' hnone ht
      rcases runs_attempt.mp hnone with ⟨-, rfl, -⟩ | ⟨hsome, -⟩
      · exact ih hrest (fun h => Nat.le_of_succ_le (hone h)) ht
      · cases hsome

theorem Level.notated (hl : w.Level levels) (hs : w.Beside s s')
    (hclose : ¬ Closes (s.current w.whole)) :
    w.Mirrored (w.StrayNotation s) s s' (Parser.notated w.whole (nested w.whole levels))
      (Parser.notated w.part (nested w.part levels)) := by
  refine .current ?_
  rw [← trigger?_place w (s'.current w.part), ← hs.current]
  cases htrigger : (s.current w.whole).trigger? with
  | none => exact .pure hs none
  | some trigger =>
    rw [w.dictionary, w.dictionary']
    refine hl.firstNotation (fun n hn => Dictionary.entry_of_mem_operands hn) ?_ hs hclose htrigger
    rintro rfl
    rw [← w.dictionary, operands_plus w.dictionary]
    exact Nat.le_refl 1

/-! ### Signs before numbers -/

theorem ensures_expression_of_numberPasses {negative : Bool} (hs : s.Signless)
    (hstarts : startsNumber (s.rest.drop 1)) (h : w.NumberPasses negative s) (loosest : Precedence) :
    Ensures (fun e t => e.isMissing = false ∧ w.Past t) (s.forward 1)
      ((nested w.whole levels).expression loosest) := by
  intro e t hruns
  rw [← State.rest_forward] at hstarts
  obtain ⟨hpresent, v, u, hv, hle⟩ :=
    runs_expression_of_startsNumber w.dictionary (hs.forward 1) hstarts hruns
  obtain ⟨v', u', hv', hpast⟩ := h
  refine ⟨hpresent, Nat.le_trans hle ?_⟩
  rw [rest_eq_of_number hv' hv]
  exact hpast

/-- A number with a sign that is taken back behind the piece is read as an operator and its operand. -/
theorem ensures_notated_of_sign {c : Char} (hc : c ∈ ['-', '+']) (hs : s.Signless)
    (hcurrent : (s.current w.whole).isPunct c) (hstarts : startsNumber (s.rest.drop 1))
    (h : w.NumberPasses (c == '-') s) :
    Ensures (fun o t => o.isSome ∧ w.Past t) s (Parser.notated w.whole (nested w.whole levels)) := by
  have hexpression : Ensures (fun e t => e.isMissing = false ∧ w.Past t) (s.forward 1)
      ((nested w.whole levels).expression Precedence.addition.tighter) :=
    ensures_expression_of_numberPasses hs hstarts h _
  have hkind : (s.current w.whole).kind = .punct c := eq_of_beq hcurrent
  have happlies {n : Notation} (happly : Ensures (fun o t => o.isSome ∧ w.Past t) (s.forward 1)
      (applyNotation w.whole (nested w.whole levels) n)) :
      Ensures (fun o t => o.isSome ∧ w.Past t) s
        (firstNotation w.whole (nested w.whole levels) [n]) := by
    intro o t ht
    rcases runs_orElse.mp ht with ⟨hsome, ht⟩ | ⟨u, hnone, -⟩
    · rcases runs_attempt.mp ht with ⟨rfl, -⟩ | ⟨-, ht⟩
      · cases hsome
      · exact happly o t ht
    · rcases runs_attempt.mp hnone with ⟨-, rfl, v, hv⟩ | ⟨hsome, -⟩
      · cases (happly none v hv).1
      · cases hsome
  refine .current ?_
  rw [Token.trigger?, hkind]
  simp only [List.mem_cons, List.not_mem_nil, or_false] at hc
  rcases hc with rfl | rfl
  · have hoperands : w.whole.dictionary.operands "-" = [.ofPrefix "Negate" "-" .addition] := by
      rw [w.dictionary]
      rfl
    show Ensures _ s (firstNotation _ _ (w.whole.dictionary.operands "-"))
    rw [hoperands]
    refine happlies (.bind (Q := fun _ t => w.Past t) (hexpression.bind fun e t ht => ?_) fun _ t ht =>
      .pure ⟨rfl, ht⟩)
    rw [ht.1]
    exact .pure ht.2
  · show Ensures _ s (firstNotation _ _ (w.whole.dictionary.operands "+"))
    rw [operands_plus w.dictionary]
    refine happlies (.map (Q := fun o t => o.isSome ∧ w.Past t) (hexpression.bind fun e t ht => ?_)
      fun o t ht => ⟨(Option.isSome_map).trans ht.1, ht.2⟩)
    refine .pure ?_
    rw [ht.1]
    exact ⟨rfl, ht.2⟩

/-- What is built in, or else what the notations make of the trigger. -/
theorem Level.known (hl : w.Level levels) (hs : w.Beside s s')
    (hclose : ¬ Closes (s'.current w.part)) :
    w.Mirrored (w.StrayNotation s) s s'
      (orElse (Parser.builtin w.whole (nested w.whole levels))
        (Parser.notated w.whole (nested w.whole levels)))
      (orElse (Parser.builtin w.part (nested w.part levels))
        (Parser.notated w.part (nested w.part levels))) := by
  refine .orElse (hl.builtin hs hclose) ?_ ?_ fun t t' hnone ht => ?_
  · rintro x t (⟨-, hpast⟩ | ⟨hnone, -⟩)
    · exact .inl ⟨x, rfl, .inl hpast⟩
    · cases hnone
  · rintro t (⟨hsome, -⟩ | ⟨-, rfl, c, hc, hcurrent, hstarts, hpasses⟩)
    · cases hsome
    · refine (ensures_notated_of_sign hc hs.signless hcurrent hstarts hpasses).mono fun o u ho => ?_
      obtain ⟨x, rfl⟩ := Option.isSome_iff_exists.mp ho.1
      exact .inl ⟨x, rfl, .inl ho.2⟩
  · obtain rfl := (begun_builtin s none t hnone).eq_of_none rfl
    exact hl.notated ht fun h => hclose (hs.closes_iff.mp h)

end Excerpt

end TexFormula.Parser
