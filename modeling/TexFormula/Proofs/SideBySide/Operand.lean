import TexFormula.Parser.Operand
import TexFormula.Proofs.SideBySide.Group

/-!
# Operands side by side

An operand matches another one if its expression does and if it can be called as the other one can.
The one value that may show the layout is what an unknown command is read as, and it is reported
(`twin_unknownCommand`).
-/

namespace TexFormula.Parser

/-- What the parser finds out about an operand. -/
def Operand.look (o : Operand) : (Bool × Option String) × Bool :=
  (Parser.look o.expression, o.callable)

namespace SideBySide

variable {α β : Type} {w : SideBySide} {inner inner' : Inner} {s s' : State} {x x' : Token}

namespace Same

variable {t : State} {e e' : Expression} {o o' : Operand}

theorem operand (h : w.Same look t e e') (callable : Bool) :
    w.Same Operand.look t ⟨e, callable⟩ ⟨e', callable⟩ :=
  ⟨by simp [Operand.look, h.view], fun hc => by rw [h.eq hc]⟩

theorem expression (h : w.Same Operand.look t o o') : w.Same look t o.expression o'.expression :=
  ⟨congrArg Prod.fst h.view, fun hc => by rw [h.eq hc]⟩

theorem callable (h : w.Same Operand.look t o o') : o'.callable = o.callable :=
  congrArg Prod.snd h.view

end Same

/-- Values of which nothing decides how the parse goes on. -/
def Given (w : SideBySide) (t : State) (a a' : α) : Prop :=
  w.Clear t → a' = a

/-! ### Built-in shapes -/

theorem twin_unexpected (hs : w.Alike s s') (hx : w.Match x x') :
    w.Twin (w.Same Operand.look) s s' (unexpected w.left x) (unexpected w.right x') := by
  unfold unexpected
  rw [hx.slice]
  exact .advance hs fun ht => .recordAt ht hx fun u u' hu _ => .pure hu (.refl _ _)

theorem twin_signedNumber (negative : Bool) (hs : w.Alike s s') :
    w.Twin (w.Same (Option.map Operand.look)) s s' (signedNumber w.left negative)
      (signedNumber w.right negative) := by
  unfold signedNumber
  refine .attempt hs (.advance hs fun ht => ?_)
  refine (twin_number negative ht).bind fun e e' u u' hu _ he => .current ?_
  rw [hu.current.isPunct]
  exact .ite (fun _ => .pure hu (.refl _ _)) fun _ => .pure hu (he.operand false).some

/-- An application is read from arguments that match. -/
theorem twin_application (name : String) {m m' : Parser α} {f : α → List Expression}
    (h : w.Twin w.Given s s' m m') :
    w.Twin (w.Same (Option.map Operand.look)) s s'
      (do return some { expression := .function name (f (← m)) : Operand })
      (do return some { expression := .function name (f (← m')) }) :=
  h.bind fun a a' t t' ht _ ha =>
    .pure ht ((Same.function fun hc => by rw [ha hc]).operand false).some

theorem ofHook_same {t : State} {e e' : Expression} (h : w.Same look t e e') :
    w.Same Operand.look t (ofHook w.left e) (ofHook w.right e') := by
  refine ⟨?_, fun hc => ?_⟩
  · simp only [Operand.look, ofHook, h.view, h.symbol?, w.options]
  · rw [h.eq hc]
    simp only [ofHook, w.options]

/-- The delimiters that a token opens are the same on both sides. -/
theorem find?_isMatchfix (hx : w.Match x x') :
    (x'.trigger?.bind fun trigger =>
        (w.right.dictionary.operands trigger).find? (·.isMatchfix)) =
      x.trigger?.bind fun trigger => (w.left.dictionary.operands trigger).find? (·.isMatchfix) := by
  rw [hx.trigger?]
  cases htrigger : x.trigger? with
  | none => rfl
  | some trigger =>
    simp only [Option.bind_some, Dictionary.operands, (hx.known trigger htrigger).readAt]

section

variable (hi : w.Inners inner inner')

include hi

theorem twin_delimitedArguments (hs : w.Alike s s') :
    w.Twin w.Given s s' (delimitedArguments w.left inner) (delimitedArguments w.right inner') := by
  unfold delimitedArguments
  refine .advance hs fun ht => (twin_groupBody hi _ _ ht).bind fun body body' u u' hu _ hbody => ?_
  exact .pure hu fun hc => by rw [hbody.eq hc]

theorem twin_parenthesized (hs : w.Alike s s') :
    w.Twin (w.Same Operand.look) s s' (parenthesized w.left inner) (parenthesized w.right inner') := by
  unfold parenthesized
  refine .advance hs fun ht => (twin_groupBody hi _ _ ht).bind fun body body' u u' hu _ hbody => ?_
  refine .pure hu ?_
  rw [hbody.isMissing]
  split
  · exact .refl _ _
  · exact hbody.operand false

theorem twin_braced (hs : w.Alike s s') :
    w.Twin (w.Same Operand.look) s s' (braced w.left inner) (braced w.right inner') := by
  unfold braced
  refine .advance hs fun ht => (twin_groupBody hi _ _ ht).bind fun body body' u u' hu _ hbody => ?_
  exact .pure hu (hbody.operand false)

theorem twin_leftRight (hs : w.Alike s s') :
    w.Twin (w.Same Operand.look) s s' (leftRight w.left inner) (leftRight w.right inner') := by
  unfold leftRight
  refine .advance hs fun ht => .current (.advance ht fun hu => ?_)
  have hfind := find?_isMatchfix ht.current
  rw [ht.current.trigger?] at hfind ⊢
  rw [hfind]
  refine (hi.awaiting _ hu).bind fun body body' v v' hv _ hbody => .current ?_
  rw [hv.current.isCommand]
  refine .ite (fun _ => .skip hv fun hq => ?closed) fun _ =>
    .recordHere hv fun q q' hq hclear => ?reported
  case' closed => replace hbody := hbody.mono fun hc : w.Clear (v.forward 2) => hc.of_forward
  case' reported => replace hbody := hbody.mono hclear
  all_goals
    split
    · exact .pure hq ((Same.function fun hc => by rw [hbody.eq hc]).operand false)
    · rw [hbody.isMissing]
      exact .ite (fun _ => .pure hq (.refl _ _)) fun _ => .pure hq (hbody.operand false)

theorem twin_builtin (hs : w.Alike s s') :
    w.Twin (w.Same (Option.map Operand.look)) s s' (builtin w.left inner) (builtin w.right inner') := by
  have hnumber (negative : Bool) : w.Twin (w.Same (Option.map Operand.look)) s s'
      (do return some { expression := ← number w.left negative : Operand })
      (do return some { expression := ← number w.right negative }) :=
    (twin_number negative hs).bind fun e e' t t' ht _ he => .pure ht (he.operand false).some
  have hcurrent := hs.current
  have hnext : startsNumber (s'.rest.drop 1) = startsNumber (s.rest.drop 1) :=
    startsNumber_congr (by rw [List.map_drop, List.map_drop, hs.kinds])
  unfold builtin
  refine .get ?_
  dsimp only
  rw [hcurrent.kind, startsNumber_congr hs.kinds, hnext]
  cases (s.current w.left).kind with
  | digits _ => exact hnumber false
  | punct c =>
    refine .ite (fun _ => ?_) fun _ => .ite (fun _ => hnumber false) fun _ => .ite (fun _ => ?_) fun _ =>
      .pure hs (.refl _ _)
    · exact (twin_parenthesized hi hs).bind fun o o' t t' ht _ ho => .pure ht ho.some
    · exact twin_signedNumber _ hs
  | groupOpen => exact (twin_braced hi hs).bind fun o o' t t' ht _ ho => .pure ht ho.some
  | command name =>
    refine .ite (fun _ => ?_) fun _ => .pure hs (.refl _ _)
    exact (twin_leftRight hi hs).bind fun o o' t t' ht _ ho => .pure ht ho.some
  | loneBackslash =>
    exact (twin_unexpected hs hcurrent).bind fun o o' t t' ht _ ho => .pure ht ho.some
  | _ => exact .pure hs (.refl _ _)

/-! ### Notations -/

theorem twin_arguments (command : String) (count : Nat) (hs : w.Alike s s') :
    w.Twin w.Given s s' (arguments w.left inner command count)
      (arguments w.right inner' command count) := by
  induction count generalizing s s' with
  | zero => exact .pure hs fun _ => rfl
  | succ count ih =>
    refine (twin_argument hi command hs).bind fun first first' t t' ht _ hfirst => ?_
    refine (ih ht).bind fun rest rest' u u' hu hclear hrest => .pure hu fun hc => ?_
    rw [hfirst.eq (hclear hc), hrest hc]

theorem twin_functionArguments (command : String) (hs : w.Alike s s') :
    w.Twin w.Given s s' (functionArguments w.left inner command)
      (functionArguments w.right inner' command) := by
  unfold functionArguments
  refine .skipSpacing hs fun t t' ht _ => .current ?_
  rw [ht.current.isPunct]
  refine .ite (fun _ => twin_delimitedArguments hi ht) fun _ => ?_
  refine (hi.expression _ ht).bind fun e e' u u' hu _ he => ?_
  dsimp only
  rw [he.isMissing]
  refine .ite (fun _ => .recordHere hu fun v v' hv hclear => .pure hv fun hc => ?_) fun _ =>
    .pure hu fun hc => by rw [he.eq hc]
  rw [he.eq (hclear hc)]

theorem twin_enclosed (close : String) (hs : w.Alike s s') :
    w.Twin w.Given s s' (enclosed w.left inner close) (enclosed w.right inner' close) := by
  unfold enclosed
  refine (hi.awaiting close hs).bind fun body body' t t' ht _ hbody => .current ?_
  rw [ht.current.trigger?]
  refine .ite (fun _ => .advance ht fun hu => .pure hu fun hc => ?_) fun _ =>
    .recordHere ht fun u u' hu hclear => .pure hu fun hc => by rw [hbody.eq (hclear hc)]
  rw [hbody.eq hc.of_forward]

theorem twin_prefixed (n : Notation) (hs : w.Alike s s') :
    w.Twin w.Given s s' (prefixed w.left inner n) (prefixed w.right inner' n) := by
  unfold prefixed
  refine (hi.expression _ hs).bind fun e e' t t' ht _ he => ?_
  rw [he.isMissing]
  exact .ite (fun _ => .recordHere ht fun u u' hu hclear => .pure hu fun hc => he.eq (hclear hc))
    fun _ => .pure ht fun hc => he.eq hc

theorem twin_applyNotation {n : Notation} (hn : ∀ hook, n.reader = some hook → w.Admits hook)
    (hs : w.Alike s s') :
    w.Twin (w.Same (Option.map Operand.look)) s s' (applyNotation w.left inner n)
      (applyNotation w.right inner' n) := by
  unfold applyNotation
  split
  · next hook hreader =>
    refine (twin_run hi (hn hook hreader) (.refl _ none) hs).bind fun o o' t t' ht _ ho => .pure ht ?_
    rcases ho.none_or_some with ⟨rfl, rfl⟩ | ⟨e, e', rfl, rfl, he⟩
    · exact .refl _ _
    · exact (ofHook_same he).some
  · split
    · exact .pure hs (.refl _ _)
    · exact twin_application n.name (f := fun e => [e]) (twin_prefixed hi n hs)
    · exact twin_application n.name (f := id) (twin_enclosed hi _ hs)
    · exact twin_application n.name (f := id) (twin_arguments hi _ _ hs)
    · exact twin_application n.name (f := id) (twin_functionArguments hi _ hs)
    · exact .pure hs (.refl _ _)
    · exact .pure hs (.refl _ _)
    · exact .pure hs (.refl _ _)

theorem twin_firstNotation {notations : List Notation}
    (h : ∀ n ∈ notations, ∀ hook, n.reader = some hook → w.Admits hook) (hs : w.Alike s s') :
    w.Twin (w.Same (Option.map Operand.look)) s s' (firstNotation w.left inner notations)
      (firstNotation w.right inner' notations) := by
  induction notations generalizing s s' with
  | nil => exact .pure hs (.refl _ _)
  | cons n rest ih =>
    refine .orElse (.attempt hs (.advance hs fun ht => ?_)) fun t t' ht _ => ?_
    · exact twin_applyNotation hi (h n (.head _)) ht
    · exact ih (fun n hn => h n (.tail _ hn)) ht

theorem twin_notated (hs : w.Alike s s') :
    w.Twin (w.Same (Option.map Operand.look)) s s' (notated w.left inner) (notated w.right inner') := by
  have hcurrent := hs.current
  unfold notated
  refine .current ?_
  rw [hcurrent.trigger?]
  cases htrigger : (s.current w.left).trigger? with
  | none => exact .pure hs (.refl _ _)
  | some trigger =>
    have hknown := hcurrent.known trigger htrigger
    simp only [Dictionary.operands, hknown.readAt]
    exact twin_firstNotation hi (fun n hn => hknown.admits n (List.mem_filter.mp hn).1) hs

end

/-! ### Unknown letters and commands -/

theorem twin_unknownLetter (c : Char) (hs : w.Alike s s') (hx : w.Match x x') :
    w.Twin (w.Same (Option.map Operand.look)) s s' (unknownLetter w.left x c)
      (unknownLetter w.right x' c) := by
  unfold unknownLetter
  rw [w.options]
  refine .advance hs fun ht => ?_
  split
  · exact .pure ht (.refl _ _)
  · exact .pure ht (.refl _ _)
  · exact .pure ht (.refl _ _)
  · exact .recordAt ht hx fun u u' hu _ => .pure hu (.refl _ _)

/-- What an unknown command takes: groups, and the place where they end. -/
structure Groups (w : SideBySide) (t : State) (found found' : List Expression × Nat) : Prop where
  isEmpty : found'.1.isEmpty = found.1.isEmpty
  groups : w.Given t found.1 found'.1
  stop : w.exact → found'.2 = found.2

theorem Groups.none {t : State} {stop stop' : Nat} (h : w.exact → stop' = stop) :
    w.Groups t ([], stop) ([], stop') :=
  ⟨rfl, fun _ => rfl, h⟩

section

variable (hi : w.Inners inner inner')

include hi

theorem twin_unknownArguments (fuel : Nat) {stop stop' : Nat} (hstop : w.exact → stop' = stop)
    (hs : w.Alike s s') :
    w.Twin w.Groups s s' (unknownArguments w.left inner fuel stop)
      (unknownArguments w.right inner' fuel stop') := by
  induction fuel generalizing s s' stop stop' with
  | zero => exact .pure hs (.none hstop)
  | succ fuel ih =>
    refine .current ?_
    rw [hs.current.kind]
    dsimp only
    split
    · exact .pure hs (.none hstop)
    · refine .advance hs fun ht => (hi.awaiting _ ht).bind fun body body' u u' hu _ hbody => ?_
      refine .current ?_
      rw [hu.current.kind]
      refine .ite (fun _ => .advance hu fun hv => ?_) fun _ =>
        .recordHere hu fun v v' hv hclear =>
          .pure hv ⟨rfl, fun hc => by rw [hbody.eq (hclear hc)], hstop⟩
      have hend (hexact : w.exact) : (u'.current w.right).stop = (u.current w.left).stop := by
        rw [hu.current.same hexact]
      refine (ih hend hv).bind fun others others' q q' hq hclear hothers => .pure hq ?_
      refine ⟨rfl, fun hc => ?_, hothers.stop⟩
      rw [hbody.eq (hclear hc).of_forward, hothers.groups hc]

/-- The error node of an unknown command shows the source text of its groups. -/
theorem twin_unknownCommand (name : String) (hs : w.Alike s s') (hx : w.Match x x') :
    w.Twin (w.Same (Option.map Operand.look)) s s' (unknownCommand w.left inner x name)
      (unknownCommand w.right inner' x' name) := by
  have hstop (hexact : w.exact) : x'.stop = x.stop := by rw [hx.same hexact]
  have hstart (hexact : w.exact) : x'.start = x.start := by rw [hx.same hexact]
  unfold unknownCommand
  rw [w.options]
  -- the groups are read or not, and all else is the same
  refine .advance hs fun ht => .ite (fun _ => .get (.bind (R := w.Groups) ?_ ?_)) fun _ =>
    .bind (R := w.Groups) (.pure ht (.none hstop)) ?_
  · rw [ht.length_rest]
    exact twin_unknownArguments hi _ hstop ht
  all_goals
    intro found found' u u' hu _ hfound
    have hspan (hexact : w.exact) : x'.start = x.start ∧ found'.2 = found.2 :=
      ⟨hstart hexact, hfound.stop hexact⟩
    dsimp only
    split
    · exact .pure hu (.refl _ _)
    · refine .record hu hspan fun v v' hv _ hcause => .pure hv (Same.some ⟨rfl, fun hc => ?_⟩)
      by_cases hexact : w.exact
      · obtain ⟨hfirst, hlast⟩ := hspan hexact
        simp only [Env.slice, w.source hexact, hfirst, hlast]
      · exact absurd rfl (hcause hc hexact)
    · refine .record hu hspan fun v v' hv hclear _ => ?_
      rw [hfound.isEmpty]
      refine .ite (fun _ => .pure hv (.refl _ _)) fun _ => .pure hv (Same.some ?_)
      exact (Same.function fun hc => hfound.groups (hclear hc)).operand false

theorem twin_unknown (hs : w.Alike s s') :
    w.Twin (w.Same (Option.map Operand.look)) s s' (unknown w.left inner)
      (unknown w.right inner') := by
  have hcurrent := hs.current
  unfold unknown
  refine .current ?_
  simp only [hcurrent.kind]
  split
  · exact twin_unknownLetter _ hs hcurrent
  · exact twin_unknownCommand hi _ hs hcurrent
  · exact (twin_unexpected hs hcurrent).bind fun o o' t t' ht _ ho => .pure ht ho.some

end

/-! ### Operands -/

theorem hasOperator_congr (hx : w.Match x x') :
    x'.trigger?.filter w.right.dictionary.hasOperator =
      x.trigger?.filter w.left.dictionary.hasOperator := by
  rw [hx.trigger?]
  cases htrigger : x.trigger? with
  | none => rfl
  | some trigger =>
    have hoperator : w.right.dictionary.hasOperator trigger = w.left.dictionary.hasOperator trigger := by
      simp only [Dictionary.hasOperator, Dictionary.operators, (hx.known trigger htrigger).readAt]
    rw [Option.filter_some, Option.filter_some, hoperator]

theorem twin_atOperator (hs : w.Alike s s') :
    w.Twin Equal s s' (atOperator w.left) (atOperator w.right) := by
  have hany (o : Option String) (p : String → Bool) : o.any p = (o.filter p).isSome := by
    cases o with
    | none => rfl
    | some a => cases hp : p a <;> simp [Option.filter, hp]
  refine .current (.pure hs ?_)
  rw [Equal, hany, hany, hasOperator_congr hs.current]

theorem twin_operandWithin (hi : w.Inners inner inner') (fuel : Nat) (hs : w.Alike s s') :
    w.Twin (w.Same (Option.map Operand.look)) s s' (operandWithin w.left inner fuel)
      (operandWithin w.right inner' fuel) := by
  induction fuel generalizing s s' with
  | zero => exact .pure hs (.refl _ _)
  | succ fuel ih =>
    refine .skipSpacing hs fun t t' ht _ => .atTerminator ht ?_
    refine .ite (fun _ => .pure ht (.refl _ _)) fun _ => .orElse (.orElse (twin_builtin hi ht) ?_) ?_
    · exact fun u u' hu _ => twin_notated hi hu
    · intro u u' hu _
      refine (twin_atOperator hu).bind_equal fun operator v v' hv _ => ?_
      exact .ite (fun _ => .pure hv (.refl _ _)) fun _ =>
        .orElse (twin_unknown hi hv) fun q q' hq _ => ih hq

theorem twin_operand (hi : w.Inners inner inner') (hs : w.Alike s s') :
    w.Twin (w.Same (Option.map Operand.look)) s s' (operand w.left inner)
      (operand w.right inner') := by
  refine .get ?_
  rw [hs.length_rest]
  exact twin_operandWithin hi _ hs

end SideBySide

end TexFormula.Parser
