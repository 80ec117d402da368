import TexFormula.Proofs.Enclosed.Group
import TexFormula.Proofs.UnknownCommands

/-!
# Operands between delimiters

An operand is echoed unless something is recorded. A plus sign in front of something missing is taken
back, with all that has been recorded behind it, but then no operand is read in front of an operator
(`Declined`).
-/

namespace TexFormula.Parser

/-- The triggers of the tokens that take the next one as their delimiter. -/
def growing : List String :=
  ["\\left", "\\right"]

theorem not_takesDelimiter_of_trigger? {token : Token} {trigger : String}
    (h : token.trigger? = some trigger) (htrigger : trigger ∉ growing) : ¬ TakesDelimiter token := by
  rintro (hkind | hkind)
  all_goals
    rw [Token.trigger?, hkind] at h
    rw [← Option.some.inj h] at htrigger
    exact htrigger (by decide)

theorem rest_ne_nil_of_trigger? {env : Env} {s : State} {trigger : String}
    (h : (s.current env).trigger? = some trigger) : s.rest ≠ [] := by
  intro hnil
  rw [State.current_of_rest_nil hnil] at h
  cases h

/-- No standard notation stands at a growing delimiter. -/
theorem not_mem_growing_of_trigger {n : Notation} {trigger : String}
    (hn : n ∈ Dictionary.standardEntries) (htrigger : n.trigger = some trigger) : trigger ∉ growing := by
  have hall : ∀ trigger ∈ growing, ∀ n ∈ Dictionary.standardEntries, n.trigger ≠ some trigger := by
    decide +kernel
  exact fun hmem => hall trigger hmem n hn htrigger

theorem not_mem_growing_of_matchfix {n : Notation} {close : String}
    (hn : n ∈ Dictionary.standardEntries) (hkind : n.kind = .matchfix close) : close ∉ growing := by
  have hall : ∀ close ∈ growing, ∀ n ∈ Dictionary.standardEntries, n.kind ≠ .matchfix close := by
    decide +kernel
  exact fun hmem => hall close hmem n hn hkind

namespace Enclosure

variable {w : Enclosure} {α : Type} {levels : Nat} {s s' t t' : State}

/-! ### Built-in shapes -/

theorem echoed_signedNumber {bad : Option Operand → State → Prop} (negative : Bool)
    (hs : w.Abreast s s') {c : Char} (hsign : (s'.current w.part).isPunct c) :
    w.Echoed bad s s' (signedNumber w.whole negative) (signedNumber w.part negative) := by
  refine .attempt hs (?_ : w.Echoed (fun _ _ => False) s s' _ _) nofun nofun
  refine .advance hs (rest_ne_nil_of_isPunct hsign) (not_takesDelimiter_of_isPunct hsign) fun ht => ?_
  refine (echoed_number negative ht : w.Echoed (fun _ _ => False) _ _ _ _).bind nofun
    fun v u u' hu => .current ?_
  rw [hu.isPunct_current (by decide)]
  exact .ite (fun _ => .pure hu none) fun _ => .pure hu _

section

variable (hl : w.Level levels)

include hl

theorem Level.delimitedArguments (hs : w.Abreast s s') (hopen : (s'.current w.part).isPunct '(') :
    w.Echoed Doomed s s' (Parser.delimitedArguments w.whole (nested w.whole levels))
      (Parser.delimitedArguments w.part (nested w.part levels)) :=
  .advance hs (rest_ne_nil_of_isPunct hopen) (not_takesDelimiter_of_isPunct hopen) fun ht =>
    (hl.groupBody _ rfl ht).built

theorem Level.parenthesized (hs : w.Abreast s s') (hopen : (s'.current w.part).isPunct '(') :
    w.Echoed Doomed s s' (Parser.parenthesized w.whole (nested w.whole levels))
      (Parser.parenthesized w.part (nested w.part levels)) :=
  .advance hs (rest_ne_nil_of_isPunct hopen) (not_takesDelimiter_of_isPunct hopen) fun ht =>
    (hl.groupBody _ rfl ht).built

theorem Level.braced (hs : w.Abreast s s') (hopen : (s'.current w.part).kind = .groupOpen) :
    w.Echoed Doomed s s' (Parser.braced w.whole (nested w.whole levels))
      (Parser.braced w.part (nested w.part levels)) := by
  have hne : s'.rest ≠ [] := @State.rest_ne_nil_of_current w.part s' (by rw [hopen]; nofun)
  refine .advance hs hne (not_takesDelimiter_of_kind hopen nofun nofun) fun ht => ?_
  exact (hl.groupBody _ rfl ht).built

omit hl in
/-- Behind the body of an expression between growing delimiters. No `\right` is the last token. -/
theorem echoed_closeRight (trigger : Option String) (body : Expression) (hs : w.Abreast s s') :
    w.Echoed Doomed s s'
      (do
        if (← current w.whole).isCommand "right" then
          skip 2
        else
          recordHere w.whole .expectedClosing "\\right"
        return betweenDelimiters .standard trigger body : Parser Operand)
      (do
        if (← current w.part).isCommand "right" then
          skip 2
        else
          recordHere w.part .expectedClosing "\\right"
        return betweenDelimiters .standard trigger body : Parser Operand) := by
  refine .current ?_
  rw [hs.isCommand_current]
  refine .ite (fun hright => ?_) fun _ => .of_ensures (.recordHere (.pure doomed_record))
  have hne : s'.rest ≠ [] := by
    refine @State.rest_ne_nil_of_current w.part _ ?_
    rw [eq_of_beq hright]
    nofun
  obtain ⟨x, xs, hrest, -⟩ := hs.exists_rest hne
  rw [State.current_of_rest hrest] at hright
  have hcontained := hs.contained
  rw [hrest] at hcontained
  cases xs with
  | nil =>
    rw [hcontained.ne_right] at hright
    cases hright
  | cons d xs =>
    refine .skip hs ?_ ?_ fun ht => .pure ht _
    · rw [hrest]
      exact Nat.le_add_left _ _
    · rw [hrest]
      exact hcontained.drop_two (.inr (eq_of_beq hright))

theorem Level.leftRight (hs : w.Abreast s s') (hleft : (s'.current w.part).isCommand "left") :
    w.Echoed Doomed s s' (Parser.leftRight w.whole (nested w.whole levels))
      (Parser.leftRight w.part (nested w.part levels)) := by
  have hkeeps : Keeps _ _ := Keeps.awaiting "\\right" ((w.keeps_part levels).expression .loosest)
  have hend (trigger : Option String) (body : Expression) {u : State}
      (hu : Doomed body u ∨ u.rest = []) : Ensures Doomed u (do
        if (← current w.part).isCommand "right" then
          skip 2
        else
          recordHere w.part .expectedClosing "\\right"
        return betweenDelimiters .standard trigger body : Parser Operand) := by
    refine .current ?_
    dsimp only
    split
    · next hright =>
      rcases hu with hdoomed | hnil
      · exact .skip (.pure (hdoomed.forward body 2))
      · rw [State.current_of_rest_nil hnil] at hright
        cases hright
    · exact .recordHere (.pure doomed_record)
  rw [leftRight_eq, leftRight_eq, w.dictionary, w.dictionary']
  refine .forward_one (.current (.forward_one ?_))
  have hne : s'.rest ≠ [] := by
    refine @State.rest_ne_nil_of_current w.part _ ?_
    rw [eq_of_beq hleft]
    nofun
  obtain ⟨x, xs, hrest', hrest⟩ := hs.exists_rest hne
  rw [State.current_of_rest hrest'] at hleft
  have hcontained := hs.contained
  rw [hrest'] at hcontained
  cases xs with
  | nil =>
    -- there is nothing behind it, and no `\right`
    refine .of_ensures ((hkeeps.ensures _).bind fun body u hu => hend _ body (.inr ?_))
    have hle := hu.length_rest_le
    rw [State.rest_forward, State.rest_forward, hrest'] at hle
    exact List.length_eq_zero_iff.mp (Nat.le_zero.mp hle)
  | cons d xs =>
    have hopening : ((s.forward 1).current w.whole).trigger? =
        ((s'.forward 1).current w.part).trigger? := by
      rw [State.current_of_rest (t := w.place d) (by rw [State.rest_forward, hrest]; rfl),
        State.current_of_rest (t := d) (by rw [State.rest_forward, hrest']; rfl), Excerpt.trigger?_place]
    have hbehind : w.Abreast ((s.forward 1).forward 1) ((s'.forward 1).forward 1) := by
      rw [State.forward_forward, State.forward_forward]
      refine hs.forward ?_ ?_
      · rw [hrest']
        exact Nat.le_add_left _ _
      · rw [hrest']
        exact hcontained.drop_two (.inl (eq_of_beq hleft))
    rw [hopening]
    exact (hl.awaiting "\\right" hbehind).bind (fun body u hdoomed => hend _ body (.inl hdoomed))
      fun body u u' hu => echoed_closeRight _ body hu

end

theorem ensures_doomed_unexpected (env : Env) (x : Token) (s : State) :
    Ensures Doomed s (unexpected env x) :=
  .advance (.recordAt (.pure doomed_record))

theorem Level.builtin (hl : w.Level levels) (hs : w.Abreast s s') (hne : s'.rest ≠ []) :
    w.Echoed DoomedGroup s s' (Parser.builtin w.whole (nested w.whole levels))
      (Parser.builtin w.part (nested w.part levels)) := by
  have hnumber : w.Echoed DoomedGroup s s'
      (do return some { expression := ← number w.whole false : Operand })
      (do return some { expression := ← number w.part false : Operand }) :=
    (echoed_number false hs : w.Echoed (fun _ _ => False) _ _ _ _).bind_pure nofun
  have hshape {m m' : Parser Operand} (h : w.Echoed Doomed s s' m m') :
      w.Echoed DoomedGroup s s' (do return some (← m)) (do return some (← m')) :=
    h.bind_pure fun _ _ hdoomed => ⟨rfl, hdoomed⟩
  have hstarts : startsNumber s.rest = startsNumber s'.rest := by
    rw [hs.rest, startsNumber_place]
  have hbehind : startsNumber (s.rest.drop 1) = startsNumber (s'.rest.drop 1) := by
    have hone : 1 ≤ (s'.rest.map w.place).length := by
      rw [List.length_map]
      exact List.length_pos_iff.mpr hne
    rw [hs.rest, List.drop_append_of_le_length hone, ← List.map_drop, startsNumber_place]
  refine .get ?_
  dsimp only
  rw [hs.current hne, Excerpt.kind_place, hstarts, hbehind]
  cases hkind : (s'.current w.part).kind with
  | digits run => exact hnumber
  | punct c =>
    have hpunct : (s'.current w.part).isPunct c := beq_iff_eq.mpr hkind
    refine .ite (fun hopen => ?_) fun _ => .ite (fun _ => hnumber) fun _ => ?_
    · rw [eq_of_beq hopen] at hpunct
      exact hshape (hl.parenthesized hs hpunct)
    · exact .ite (fun _ => echoed_signedNumber _ hs hpunct) fun _ => .pure hs none
  | groupOpen => exact hshape (hl.braced hs hkind)
  | command name =>
    refine .ite (fun hleft => hshape (hl.leftRight hs ?_)) fun _ => .pure hs none
    rw [Token.isCommand, hkind, eq_of_beq hleft]
    exact beq_self_eq_true _
  | loneBackslash =>
    exact hshape (.of_ensures (ensures_doomed_unexpected w.part _ s'))
  | _ => exact .pure hs none

/-! ### Notations -/

theorem keeps_arguments (w : Enclosure) (levels : Nat) (command : String) (count : Nat) :
    Keeps w.part.options.maxDepth (arguments w.part (nested w.part levels) command count) :=
  show (keeps _).rel (arguments w.part (nested w.part levels) command count)
      (arguments (w.part.allowing 0) (nested w.part levels) command count) from
    (w.keeps_part levels).arguments command count

section

variable (hl : w.Level levels)

include hl

theorem Level.arguments (command : String) (count : Nat) (hs : w.Abreast s s') :
    w.Echoed Doomed s s' (Parser.arguments w.whole (nested w.whole levels) command count)
      (Parser.arguments w.part (nested w.part levels) command count) := by
  induction count generalizing s s' with
  | zero => exact .pure hs []
  | succ count ih =>
    refine (hl.argument command hs).bind (fun first t hdoomed => ?_) fun first t t' ht => ?_
    · exact (ensures_doomed (keeps_arguments w levels command count) hdoomed).bind fun _ u hu => .pure hu
    · exact (ih ht).bind (fun _ u hu => .pure hu) fun _ u u' hu => .pure hu _

/-- What is read by an expression and reported if it is missing. -/
theorem Level.expected (loosest : Precedence) (cause : Problem.Cause) (text : String)
    (f : Expression → α) (hs : w.Abreast s s') :
    w.Echoed Doomed s s'
      (do
        let e ← (nested w.whole levels).expression loosest
        if e.isMissing then
          recordHere w.whole cause text
        return f e)
      (do
        let e ← (nested w.part levels).expression loosest
        if e.isMissing then
          recordHere w.part cause text
        return f e) := by
  refine (hl.expression loosest hs).bind (fun e t hdoomed => ?_) fun e t t' ht => ?_
  · dsimp only
    split
    · exact .recordHere (.pure doomed_record)
    · exact .pure hdoomed
  · refine .ite (fun _ => ?_) fun _ => .pure ht _
    exact .of_ensures (.recordHere (.pure doomed_record))

theorem Level.functionArguments (command : String) (hs : w.Abreast s s') :
    w.Echoed Doomed s s' (Parser.functionArguments w.whole (nested w.whole levels) command)
      (Parser.functionArguments w.part (nested w.part levels) command) := by
  refine .skipSpacing hs fun ht => .current ?_
  rw [ht.isPunct_current (by decide)]
  exact .ite (hl.delimitedArguments ht) fun _ => hl.expected _ _ _ (fun e => [e]) ht

theorem Level.enclosed {close : String} (hclose : close ∉ growing) (hs : w.Abreast s s') :
    w.Echoed Doomed s s' (Parser.enclosed w.whole (nested w.whole levels) close)
      (Parser.enclosed w.part (nested w.part levels) close) := by
  refine (hl.awaiting close hs).bind (fun body t hdoomed => .current ?_) fun body t t' ht => .current ?_
  · dsimp only
    split
    · exact .advance (.pure (hdoomed.forward body 1))
    · exact .recordHere (.pure doomed_record)
  · by_cases htrigger : (t'.current w.part).trigger? = some close
    · have hne := rest_ne_nil_of_trigger? htrigger
      rw [ht.current hne, Excerpt.trigger?_place, htrigger, beq_self_eq_true, if_pos rfl, if_pos rfl]
      exact .advance ht hne (not_takesDelimiter_of_trigger? htrigger hclose) fun hu => .pure hu _
    · refine .of_ensures ?_
      rw [beq_eq_false_iff_ne.mpr htrigger]
      exact .recordHere (.pure doomed_record)

theorem Level.prefixed (n : Notation) (hs : w.Abreast s s') :
    w.Echoed Doomed s s' (Parser.prefixed w.whole (nested w.whole levels) n)
      (Parser.prefixed w.part (nested w.part levels) n) :=
  hl.expected _ _ _ id hs

end

theorem Level.applyNotation (hl : w.Level levels) {n : Notation} {trigger : String}
    (hn : n ∈ Dictionary.standardEntries) (htrigger : n.trigger = some trigger) (hs : w.Abreast s s') :
    w.Echoed Doomed s s' (Parser.applyNotation w.whole (nested w.whole levels) n)
      (Parser.applyNotation w.part (nested w.part levels) n) := by
  have hofHook (e : Expression) : ofHook w.part e = ofHook w.whole e := by
    unfold ofHook
    rw [w.options]
  unfold Parser.applyNotation
  split
  · next hook hreader =>
    have hhook := Dictionary.standard_of_reader_eq hn htrigger hreader
    rw [funext hofHook]
    exact (hl.run none hhook hs).built
  · cases hkind : n.kind with
    | symbol => exact .pure hs _
    | prefixOp =>
      exact (hl.prefixed n hs).built
    | matchfix close =>
      exact (hl.enclosed (not_mem_growing_of_matchfix hn hkind) hs).built
    | command count =>
      exact (hl.arguments n.glyph count hs).built
    | function =>
      exact (hl.functionArguments n.glyph hs).built
    | _ => exact .pure hs none

/-- The runs of the notations at a trigger that are not echoed. Those that read nothing are at an
operator. -/
def Declined (w : Enclosure) (s : State) (o : Option α) (t : State) : Prop :=
  DoomedGroup o t ∨ o = none ∧ t = s ∧ s.AtOperator w.part

theorem Level.firstNotation (hl : w.Level levels) {trigger : String} {notations : List Notation}
    (hn : ∀ n ∈ notations, n ∈ Dictionary.standard.operands trigger)
    (hone : trigger = "+" → notations.length ≤ 1) (hs : w.Abreast s s')
    (htrigger : (s'.current w.part).trigger? = some trigger) :
    w.Echoed (w.Declined s') s s'
      (Parser.firstNotation w.whole (nested w.whole levels) notations)
      (Parser.firstNotation w.part (nested w.part levels) notations) := by
  induction notations generalizing s with
  | nil => exact .pure hs none
  | cons n rest ih =>
    obtain ⟨hmem, hrest⟩ := List.forall_mem_cons.mp hn
    obtain ⟨hentry, hfiled⟩ := Dictionary.entry_of_mem_operands hmem
    have hplain := not_takesDelimiter_of_trigger? htrigger (not_mem_growing_of_trigger hentry hfiled)
    have happly : w.Echoed Doomed s s'
        (Parser.advance >>= fun _ => Parser.applyNotation w.whole (nested w.whole levels) n)
        (Parser.advance >>= fun _ => Parser.applyNotation w.part (nested w.part levels) n) :=
      .advance hs (rest_ne_nil_of_trigger? htrigger) hplain fun ht => hl.applyNotation hentry hfiled ht
    -- only a plus sign is taken back after something has been read behind it
    have hplus {t : State} (hruns : Runs (Parser.advance >>= fun _ =>
        Parser.applyNotation w.part (nested w.part levels) n) s' none t) : trigger = "+" := by
      by_contra hplus
      rw [runs_advance] at hruns
      cases isSome_applyNotation hmem hplus _ none t hruns
    have hattempt : w.Echoed (fun o t => DoomedGroup o t ∨ o = none ∧ t = s' ∧ trigger = "+") s s'
        _ _ :=
      happly.attempt hs (fun a t hdoomed => .inl ⟨rfl, hdoomed⟩) fun t hruns _ =>
        .inr ⟨rfl, rfl, hplus hruns⟩
    refine .orElse hattempt ?_ ?_ ?_
    · rintro x t (hdoomed | ⟨hnone, -⟩)
      · exact .inl hdoomed
      · cases hnone
    · rintro t (⟨hsome, -⟩ | ⟨-, rfl, rfl⟩)
      · cases hsome
      · -- the plus sign has only one notation
        obtain rfl : rest = [] := List.eq_nil_of_length_eq_zero
          (Nat.le_zero.mp (Nat.le_of_succ_le_succ (hone rfl)))
        refine .pure (.inr ⟨rfl, rfl, ?_⟩)
        rw [State.AtOperator, htrigger, Option.filter_some, hasOperator_plus w.dictionary']
        rfl
    · intro t t' hnone ht
      rcases runs_attempt.mp hnone with ⟨-, rfl, -⟩ | ⟨hsome, -⟩
      · exact ih hrest (fun h => Nat.le_of_succ_le (hone h)) ht
      · cases hsome

theorem Level.notated (hl : w.Level levels) (hs : w.Abreast s s') (hne : s'.rest ≠ []) :
    w.Echoed (w.Declined s') s s' (Parser.notated w.whole (nested w.whole levels))
      (Parser.notated w.part (nested w.part levels)) := by
  refine .current ?_
  rw [hs.current hne, Excerpt.trigger?_place]
  cases htrigger : (s'.current w.part).trigger? with
  | none => exact .pure hs none
  | some trigger =>
    rw [w.dictionary, w.dictionary']
    refine hl.firstNotation (fun n hn => hn) ?_ hs htrigger
    rintro rfl
    rw [← w.dictionary', operands_plus w.dictionary']
    exact Nat.le_refl 1

/-- What is built in, or else what the notations make of the trigger. -/
theorem Level.known (hl : w.Level levels) (hs : w.Abreast s s') (hne : s'.rest ≠ []) :
    w.Echoed (w.Declined s') s s'
      (orElse (Parser.builtin w.whole (nested w.whole levels))
        (Parser.notated w.whole (nested w.whole levels)))
      (orElse (Parser.builtin w.part (nested w.part levels))
        (Parser.notated w.part (nested w.part levels))) := by
  refine .orElse (hl.builtin hs hne) (fun x t hdoomed => .inl hdoomed) ?_ fun t t' hnone ht => ?_
  · rintro t ⟨hsome, -⟩
    cases hsome
  · obtain rfl := (begun_builtin s' none t' hnone).eq_of_none rfl
    exact hl.notated ht hne

/-! ### Unknown letters and commands -/

theorem echoed_unknownLetter (x : Token) {c : Char} (hs : w.Abreast s s')
    (hkind : (s'.current w.part).kind = .letter c) :
    w.Echoed DoomedGroup s s' (unknownLetter w.whole (w.place x) c) (unknownLetter w.part x c) := by
  have hne : s'.rest ≠ [] := @State.rest_ne_nil_of_current w.part s' (by rw [hkind]; nofun)
  unfold unknownLetter
  rw [w.options]
  refine .advance hs hne (not_takesDelimiter_of_kind hkind nofun nofun) fun ht => ?_
  split
  · exact .pure ht _
  · exact .pure ht _
  · exact .pure ht none
  · exact .of_ensures (.recordAt (.pure ⟨rfl, doomed_record⟩))

theorem ensures_doomed_unknownCommand (w : Enclosure) (inner : Inner) (x : Token) (name : String)
    (s : State) : Ensures DoomedGroup s (unknownCommand w.part inner x name) := by
  have hdisposed (found : List Expression × Nat) (t : State) :
      Ensures DoomedGroup t (disposed w.part x name found) := by
    unfold disposed
    split
    · next hskip =>
      rw [w.options] at hskip
      exact absurd hskip (w.leavesNothingOut _)
    · exact .record (.pure ⟨rfl, doomed_record⟩)
    · refine .record ?_
      split
      · exact .pure ⟨rfl, doomed_record⟩
      · exact .pure ⟨rfl, doomed_record⟩
  rw [unknownCommand_eq]
  refine .advance ?_
  split
  · exact .get (.bind (Q := fun _ _ => True) (fun _ _ _ => trivial) fun found t _ => hdisposed found t)
  · exact hdisposed _ _

/-- An unknown letter is the same on both sides. All other tokens that are unknown are reported. -/
theorem echoed_unknown (hs : w.Abreast s s') (hne : s'.rest ≠ []) (inner inner' : Inner) :
    w.Echoed DoomedGroup s s' (unknown w.whole inner) (unknown w.part inner') := by
  refine .current ?_
  rw [hs.current hne, Excerpt.kind_place]
  cases hkind : (s'.current w.part).kind with
  | letter c => exact echoed_unknownLetter _ hs hkind
  | command name => exact .of_ensures (ensures_doomed_unknownCommand w _ _ _ s')
  | _ => exact .of_ensures ((ensures_doomed_unexpected w.part _ s').bind fun _ _ h => .pure ⟨rfl, h⟩)

end Enclosure

end TexFormula.Parser
