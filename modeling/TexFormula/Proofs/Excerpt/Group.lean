import TexFormula.Proofs.Excerpt.Numeral
import TexFormula.Proofs.RawGroups

/-!
# Groups and arguments of a piece

`Level`: the readers of one level are mirrored, but for runs that leave the piece or stop at a plus sign
that has been taken back (`StrayExpression`, `StrayOperand`). What is read up to a closing delimiter is
read by the loosest precedence, which takes up every plus sign, so groups only ever leave the piece.
-/

namespace TexFormula.Parser

/-- A plus sign is next, behind commands that only set space. -/
def State.FacesPlus (env : Env) (s : State) : Prop :=
  (s.pastSpacing.current env).isPunct '+'

namespace Excerpt

variable (w : Excerpt)

/-- A program has left the piece, or it stands at a plus sign that has been taken back. -/
def Astray {α : Type} (_ : α) (t : State) : Prop :=
  w.Past t ∨ Stranded w.whole w.after.length t

/-- The runs of an expression that are not mirrored. It stands at a plus sign only if its operators bind
more tightly, and then the sign is all it has seen, or it has read something. -/
def StrayExpression (loosest : Precedence) (s : State) (e : Expression) (t : State) : Prop :=
  w.Past t ∨ Precedence.addition < loosest ∧ Stranded w.whole w.after.length t ∧
    (s.FacesPlus w.whole ∨ e.isMissing = false ∧ t.rest.length < s.rest.length)

/-- The runs of an operand that are not mirrored. -/
def StrayOperand (s : State) (o : Option Expression) (t : State) : Prop :=
  w.Past t ∨ Stranded w.whole w.after.length t ∧
    (o = none ∧ s.FacesPlus w.whole ∨
      ∃ e, o = some e ∧ e.isMissing = false ∧ t.rest.length < s.rest.length)

/-- A group that has been read past the end of the piece. -/
def StrayGroup {α : Type} (o : Option α) (t : State) : Prop :=
  o.isSome ∧ w.Past t

/-- The readers with some levels left. -/
structure Level (levels : Nat) : Prop where
  expression (loosest : Precedence) {s s' : State} : w.Beside s s' →
    w.Mirrored (w.StrayExpression loosest s) s s' ((nested w.whole levels).expression loosest)
      ((nested w.part levels).expression loosest)
  operand {s s' : State} : w.Beside s s' →
    w.Mirrored (w.StrayOperand s) s s' (nested w.whole levels).operand (nested w.part levels).operand

variable {w} {α : Type} {levels : Nat} {s s' t t' : State}

theorem past_forward (h : w.Past s) (count : Nat) : w.Past (s.forward count) :=
  past_of_follows h (.forward s count)

theorem hasStandardHooks (w : Excerpt) : w.whole.dictionary.HasStandardHooks :=
  w.dictionary ▸ Dictionary.hasStandardHooks_standard

/-- The readers of the whole source keep the state. -/
theorem keeps_inner (w : Excerpt) (levels : Nat) :
    (keeps w.whole.options.maxDepth).Inners (nested w.whole levels) (nested w.whole levels) :=
  keeps_nested w.hasStandardHooks levels

theorem keeps_argument (w : Excerpt) (levels : Nat) (command : String) :
    Keeps w.whole.options.maxDepth (argument w.whole (nested w.whole levels) command) :=
  show (keeps _).rel (argument w.whole (nested w.whole levels) command)
      (argument (w.whole.allowing 0) (nested w.whole levels) command) from
    (w.keeps_inner levels).argument command

theorem StrayExpression.astray {loosest : Precedence} {e : Expression}
    (h : w.StrayExpression loosest s e t) : w.Astray e t :=
  h.imp_right fun h => h.2.1

/-- What reads on behind a plus sign does not stop at it. -/
theorem StrayExpression.past {loosest : Precedence} {e : Expression}
    (h : w.StrayExpression loosest s e t) (hloose : loosest ≤ .addition) : w.Past t :=
  h.resolve_right fun hstray => absurd hstray.1 (Nat.not_lt_of_le hloose)

theorem Astray.record {a : α} (h : w.Astray a s) {β : Type} (b : β) (problem : Problem)
    (start stop : Nat) : w.Astray b (s.record problem start stop) :=
  h.imp id fun hstranded => hstranded.noting _

/-! ### Groups -/

section

variable (hl : w.Level levels)

include hl

theorem Level.awaiting {close : String} (hclose : close ∉ ["+", "-", "."]) (hs : w.Beside s s') :
    w.Mirrored w.Leaves s s' (Parser.awaiting close ((nested w.whole levels).expression .loosest))
      (Parser.awaiting close ((nested w.part levels).expression .loosest)) :=
  .awaiting hs ((w.keeps_inner levels).expression _) hclose fun _ _ ht =>
    (hl.expression .loosest ht).mono fun _ _ hstray => hstray.past (Nat.zero_le _)

theorem Level.groupBody {close : String} (hclose : close ∉ ["+", "-", "."]) (closing : Token.Kind)
    (hs : w.Beside s s') :
    w.Mirrored w.Leaves s s' (Parser.groupBody w.whole (nested w.whole levels) close closing)
      (Parser.groupBody w.part (nested w.part levels) close closing) := by
  refine (hl.awaiting hclose hs).bind (fun body t hpast => .current ?_) fun body t t' ht => .current ?_
  · split
    · exact .advance (.pure (past_forward hpast 1))
    · exact .recordHere (.pure hpast)
  · rw [ht.current, kind_place]
    refine .ite (fun _ => ?_) fun _ => .recordHere ht fun u u' hu _ => .pure hu body
    exact .advance_any ht (fun hu => .pure hu body) fun hpast => .pure hpast

theorem Level.braceGroup (hs : w.Beside s s') :
    w.Mirrored w.StrayGroup s s' (Parser.braceGroup w.whole (nested w.whole levels))
      (Parser.braceGroup w.part (nested w.part levels)) := by
  refine .skipSpacing hs fun ht => .current ?_
  rw [ht.current, kind_place]
  refine .ite (fun hopen => .advance ht ?_ fun hu => ?_) fun _ => .pure ht none
  · exact Closes.not_of_groupOpen (eq_of_beq hopen)
  · exact (hl.groupBody (by decide) _ hu).bind (fun body v hpast => .pure ⟨rfl, hpast⟩)
      fun body v v' hv => .pure hv _

theorem Level.bracketGroup (hs : w.Beside s s') :
    w.Mirrored w.StrayGroup s s' (Parser.bracketGroup w.whole (nested w.whole levels))
      (Parser.bracketGroup w.part (nested w.part levels)) := by
  refine .skipSpacing hs fun ht => .current ?_
  rw [ht.current, kind_place]
  refine .ite (fun hopen => .advance ht ?_ fun hu => ?_) fun _ => .pure ht none
  · rintro (hclose | hclose) <;> rw [hclose] at hopen <;> cases hopen
  · exact (hl.groupBody (by decide) _ hu).bind (fun body v hpast => .pure ⟨rfl, hpast⟩)
      fun body v v' hv => .pure hv _

end

/-! ### Arguments -/

theorem Beside.cutDigit {run : String} (h : w.Beside s s')
    (hrun : (s'.current w.part).digits? = some run) : w.Beside s.cutDigit s'.cutDigit := by
  obtain ⟨x, xs, hrest', hrest⟩ := h.exists_rest
  rw [State.current_of_rest hrest'] at hrun
  have hclosed := h.closed
  have hinside := h.inside
  rw [hrest'] at hclosed hinside
  unfold State.cutDigit
  simp only [hrest, hrest', digits?_place, hrun]
  exact
    { seen := h.seen
      rest := by
        show _ :: _ = _ :: _
        simp only [place, Nat.add_right_comm]
        rfl
      closers := h.closers
      inside := by
        rw [List.forall_mem_cons]
        exact ⟨⟨nofun, (hinside x (.head _)).stop_le, nofun⟩, fun t ht => hinside t (.tail _ ht)⟩
      begun := h.begun
      closed := .cons _ (hclosed.tail_of_not (Closes.not_of_digits? hrun))
      waits := h.waits
      plain := h.plain }

theorem mirrored_firstDigit {bad : Expression → State → Prop} {run : String} (hs : w.Beside s s')
    (hrun : (s'.current w.part).digits? = some run) :
    w.Mirrored bad s s' (firstDigit run) (firstDigit run) := by
  unfold firstDigit
  split
  · exact .pure hs _
  · exact .advance hs (Closes.not_of_digits? hrun) fun ht => .pure ht _
  · exact (Mirrored.pure (hs.cutDigit hrun) _).of_step rfl rfl

theorem Level.argument (hl : w.Level levels) (command : String) (hs : w.Beside s s') :
    w.Mirrored w.Astray s s' (Parser.argument w.whole (nested w.whole levels) command)
      (Parser.argument w.part (nested w.part levels) command) := by
  refine (hl.braceGroup hs).bind (fun group t hstray => ?_) fun group t t' ht => ?_
  · obtain ⟨body, rfl⟩ := Option.isSome_iff_exists.mp hstray.1
    exact .pure (.inl hstray.2)
  · cases group with
    | some body => exact .pure ht body
    | none =>
      refine .current ?_
      rw [ht.current, digits?_place]
      cases hrun : (t'.current w.part).digits? with
      | some run => exact mirrored_firstDigit ht hrun
      | none =>
        refine (hl.operand ht).bind (fun o u hstray => ?_) fun o u u' hu => ?_
        · have hastray : w.Astray o u := hstray.imp_right And.left
          cases o with
          | some operand => exact .pure hastray
          | none => exact .recordHere (.pure (hastray.record _ _ _ _))
        · cases o with
          | some operand => exact .pure hu operand
          | none => exact .recordHere hu fun v v' hv _ => .pure hv _

/-- From a plus sign that has been taken back no argument is read. -/
theorem ensures_argument_of_stranded (h : Stranded w.whole w.after.length t) (ht : t.Signless)
    (command : String) : Ensures
      (fun _ u => Stranded w.whole w.after.length u ∧ u.Signless) t
      (argument w.whole (nested w.whole levels) command) := by
  obtain ⟨x, rest, hrest, hkind⟩ := exists_rest_of_isPunct h.plus
  have hgroup : Ensures (fun o u => o = none ∧ u = t) t
      (braceGroup w.whole (nested w.whole levels)) := by
    refine .skipSpacing ?_
    rw [forward_spacing_of_punct hrest hkind]
    refine .current ?_
    rw [State.current_of_rest hrest, hkind]
    exact .pure ⟨rfl, rfl⟩
  refine hgroup.bind ?_
  rintro _ u ⟨rfl, hu⟩
  rw [hu]
  refine .current ?_
  have hdigits : (t.current w.whole).digits? = none := by
    rw [State.current_of_rest hrest, Token.digits?, hkind]
  rw [hdigits]
  have hoperand : Ensures (fun o u => o = none ∧ u = t) t (nested w.whole levels).operand := by
    cases levels with
    | zero => exact .throw
    | succ levels =>
      refine .map (h.operand w.dictionary ht) ?_
      rintro _ u ⟨rfl, hu⟩
      exact ⟨rfl, hu⟩
  refine hoperand.bind ?_
  rintro _ u ⟨rfl, hu⟩
  rw [hu]
  exact .recordHere (.pure ⟨h.noting _, ht⟩)

/-! ### Raw groups -/

/-- What a token makes of the search for a closing brace. -/
theorem closing?_cons (kind : Token.Kind) (depth : Nat) :
    (∃ depth', ∀ (t : Token) (rest : List Token), t.kind = kind →
        closing? depth (t :: rest) = (closing? depth' rest).map (· + 1)) ∨
      ∀ (t : Token) (rest : List Token), t.kind = kind → closing? depth (t :: rest) = some 0 := by
  cases kind with
  | groupOpen => exact .inl ⟨depth + 1, fun t rest h => by simp only [closing?, h]⟩
  | groupClose =>
    cases depth with
    | zero => exact .inr fun t rest h => by simp only [closing?, h]
    | succ depth => exact .inl ⟨depth, fun t rest h => by simp only [closing?, h]⟩
  | _ => exact .inl ⟨depth, fun t rest h => by simp only [closing?, h]⟩

/-- The brace that closes a group is the same, or it is found behind the piece, if at all. -/
theorem closing?_place (depth : Nat) (own : List Token) :
    closing? depth (own.map w.place ++ w.after) = closing? depth own ∨
      closing? depth own = none ∧
        ∀ count, closing? depth (own.map w.place ++ w.after) = some count → own.length ≤ count := by
  induction own generalizing depth with
  | nil => exact .inr ⟨rfl, fun _ _ => Nat.zero_le _⟩
  | cons t own ih =>
    rw [List.map_cons, List.cons_append]
    rcases closing?_cons t.kind depth with ⟨depth', hmore⟩ | hfound
    · rw [hmore t own rfl, hmore (w.place t) _ rfl]
      rcases ih depth' with heq | ⟨hnone, hfar⟩
      · exact .inl (by rw [heq])
      · refine .inr ⟨by rw [hnone]; rfl, fun count hcount => ?_⟩
        obtain ⟨count', hcount', rfl⟩ := Option.map_eq_some_iff.mp hcount
        exact Nat.succ_le_succ (hfar count' hcount')
    · rw [hfound t own rfl, hfound (w.place t) _ rfl]
      exact .inl rfl

theorem mirrored_rawGroup (hs : w.Beside s s') :
    w.Mirrored w.StrayGroup s s' (rawGroup w.whole) (rawGroup w.part) := by
  refine .skipSpacing hs fun ht => .get ?_
  obtain ⟨opening, own, hrest', hrest⟩ := ht.exists_rest
  have hinside := ht.inside
  have hlength := ht.length_rest
  rw [hrest'] at hinside hlength
  rw [List.length_cons] at hlength
  -- a brace that is not found in the piece leads past its end
  have hfar {count : Nat} (hcount : own.length ≤ count) (f : Unit → Parser (Option String))
      (hf : ∀ u, w.Past u → Ensures w.StrayGroup u (f ())) :
      Ensures w.StrayGroup s.pastSpacing (skip (count + 1) >>= f) := by
    refine .skip (hf _ ?_)
    rw [Past, State.rest_forward, List.length_drop]
    omega
  rw [hrest, hrest']
  dsimp only
  rw [kind_place]
  refine .ite (fun _ => .pure ht none) fun hopen => ?_
  rcases closing?_place 0 own with heq | ⟨-, hbehind⟩
  · rw [heq]
    cases hcount : closing? 0 own with
    | none =>
      refine .of_ensures (hfar ?_ _ fun u hu => .recordHere (.pure ⟨rfl, hu⟩))
      rw [List.length_append, List.length_map]
      omega
    | some count =>
      refine .skip ht (fun hu => .get ?_) fun hpast => .get (.pure ⟨rfl, hpast⟩)
      obtain ⟨closing, hclosing, hkind⟩ := getElem?_of_closing? hcount
      have hprevious : (s'.pastSpacing.forward (count + 2)).previous w.part = closing :=
        State.previous_forward_succ (by rw [hrest']; exact hclosing)
      have hdigits : closing.digits? = none := by simp only [Token.digits?, hkind]
      rw [hu.previous, hprevious, start_place, stop_place,
        w.slice (hinside opening (.head _)).stop_le
          ((hinside closing (.tail _ (List.mem_of_getElem? hclosing))).start_le hdigits)]
      exact .pure hu _
  · refine .of_ensures ?_
    cases hcount : closing? 0 (own.map w.place ++ w.after) with
    | none =>
      refine hfar ?_ _ fun u hu => .recordHere (.pure ⟨rfl, hu⟩)
      rw [List.length_append, List.length_map]
      omega
    | some count =>
      exact hfar (Nat.le_succ_of_le (hbehind count hcount)) _ fun u hu => .get (.pure ⟨rfl, hu⟩)

/-! ### Hooks -/

/-- The runs of a hook that are not mirrored. A plus sign is taken back only if what stands behind it has
been read past the end, or up to another such sign. -/
def StrayHook (w : Excerpt) (levels : Nat) (trigger : String) (s : State) (o : Option Expression)
    (t : State) : Prop :=
  (∃ e, o = some e ∧ (w.Past t ∨ Stranded w.whole w.after.length t ∧ e.isMissing = false)) ∨
    o = none ∧ trigger = "+" ∧ ∃ e, e.isMissing ∧ w.Astray e t ∧
      Runs ((nested w.whole levels).expression Precedence.addition.tighter) s e t

variable {trigger : String}

theorem StrayHook.past (h : w.Past t) (e : Expression) : w.StrayHook levels trigger s (some e) t :=
  .inl ⟨e, rfl, .inl h⟩

theorem StrayHook.built {e : Expression} (h : w.Astray e t) (he : e.isMissing = false) :
    w.StrayHook levels trigger s (some e) t :=
  .inl ⟨e, rfl, h.imp_right fun hstranded => ⟨hstranded, he⟩⟩

theorem mirrored_missingArgument (command : String) (hs : w.Beside s s') (inner inner' : Inner)
    {bad : Option Expression → State → Prop} :
    w.Mirrored bad s s' (run w.whole inner (Readers.missingArgument command))
      (run w.part inner' (Readers.missingArgument command)) :=
  .recordHere hs fun _ _ ht _ => .pure ht _

theorem ensures_missingArgument (command : String) (ht : w.Past t) (inner : Inner) :
    Ensures (w.StrayHook levels trigger s) t (run w.whole inner (Readers.missingArgument command)) :=
  .recordHere (.pure (.inl ⟨_, rfl, .inl ht⟩))

section

variable (hl : w.Level levels) (lhs : Option Expression)

include hl

theorem Level.unaryPlus (hs : w.Beside s s') :
    w.Mirrored (w.StrayHook levels "+" s) s s'
      (run w.whole (nested w.whole levels) (Readers.unaryPlus lhs))
      (run w.part (nested w.part levels) (Readers.unaryPlus lhs)) := by
  refine (hl.expression Precedence.addition.tighter hs).and_runs.bind (fun e t hstray => ?_)
    fun e t t' ht => .pure ht _
  obtain ⟨hruns, hstray⟩ := hstray
  refine .pure ?_
  cases he : e.isMissing with
  | true => exact .inr ⟨rfl, rfl, e, he, hstray.astray, hruns⟩
  | false => exact .built hstray.astray he

theorem Level.script (name command : String) (hs : w.Beside s s') :
    w.Mirrored (w.StrayHook levels trigger s) s s'
      (run w.whole (nested w.whole levels) (Readers.script name command lhs))
      (run w.part (nested w.part levels) (Readers.script name command lhs)) :=
  (hl.argument command hs).bind (fun _ _ hstray => .pure (.built hstray rfl)) fun _ _ _ ht => .pure ht _

theorem Level.squareRoot (hs : w.Beside s s') :
    w.Mirrored (w.StrayHook levels trigger s) s s'
      (run w.whole (nested w.whole levels) (Readers.squareRoot lhs))
      (run w.part (nested w.part levels) (Readers.squareRoot lhs)) := by
  refine (hl.bracketGroup hs).bind (fun index t hstray => ?_) fun index t t' ht => ?_
  · have hargument := keeps_argument w levels "\\sqrt"
    exact (ensures_past hargument hstray.2).bind fun radicand u hu => .pure (.past hu _)
  · refine (hl.argument "\\sqrt" ht).bind (fun radicand u hstray => .pure ?_)
      fun radicand u u' hu => .pure hu _
    cases index with
    | none => exact .built hstray rfl
    | some index => exact .built hstray rfl

omit hl in
theorem mirrored_identifier (hs : w.Beside s s') :
    w.Mirrored (w.StrayHook levels trigger s) s s'
      (run w.whole (nested w.whole levels) (Readers.identifier lhs))
      (run w.part (nested w.part levels) (Readers.identifier lhs)) := by
  refine (mirrored_rawGroup hs).bind (fun raw t hstray => ?_) fun raw t t' ht => ?_
  · obtain ⟨text, rfl⟩ := Option.isSome_iff_exists.mp hstray.1
    simp only [Reading.bind]
    split
    · exact ensures_missingArgument _ hstray.2 _
    · exact .pure (.past hstray.2 _)
  · cases raw with
    | none => exact mirrored_missingArgument _ ht _ _
    | some text =>
      simp only [Reading.bind]
      split
      · exact mirrored_missingArgument _ ht _ _
      · exact .pure ht _

omit hl in
theorem mirrored_text (hs : w.Beside s s') :
    w.Mirrored (w.StrayHook levels trigger s) s s'
      (run w.whole (nested w.whole levels) (Readers.text lhs))
      (run w.part (nested w.part levels) (Readers.text lhs)) := by
  refine (mirrored_rawGroup hs).bind (fun raw t hstray => ?_) fun raw t t' ht => ?_
  · obtain ⟨text, rfl⟩ := Option.isSome_iff_exists.mp hstray.1
    exact .pure (.past hstray.2 _)
  · cases raw with
    | none => exact mirrored_missingArgument _ ht _ _
    | some text => exact .pure ht _

theorem Level.placeholder (hs : w.Beside s s') :
    w.Mirrored (w.StrayHook levels trigger s) s s'
      (run w.whole (nested w.whole levels) (Readers.placeholder lhs))
      (run w.part (nested w.part levels) (Readers.placeholder lhs)) := by
  refine (hl.bracketGroup hs).bind (fun _ t hstray => ?_) fun _ t t' ht => ?_
  · have hraw : Keeps 0 (rawGroup w.whole) := (keeps 0).rawGroup
    exact (ensures_past hraw hstray.2).bind fun _ u hu => .pure (.past hu _)
  · exact (mirrored_rawGroup ht).bind (fun _ u hstray => .pure (.past hstray.2 _))
      fun _ u u' hu => .pure hu _

/-- What the hooks of the standard notations read. -/
theorem Level.run {hook : ReadingHook} {follows : Bool} (hhook : Readers.Standard follows trigger hook)
    (hs : w.Beside s s') :
    w.Mirrored (w.StrayHook levels trigger s) s s'
      (Parser.run w.whole (nested w.whole levels) (hook lhs))
      (Parser.run w.part (nested w.part levels) (hook lhs)) := by
  cases hhook with
  | unaryPlus => exact hl.unaryPlus lhs hs
  | power => exact hl.script lhs "Power" "^" hs
  | subscript => exact hl.script lhs "Subscript" "_" hs
  | squareRoot => exact hl.squareRoot lhs hs
  | operatorname => exact mirrored_identifier lhs hs
  | mathrm => exact mirrored_identifier lhs hs
  | text => exact mirrored_text lhs hs
  | placeholder => exact hl.placeholder lhs hs
  | infinity => exact .pure hs _

end

end Excerpt

end TexFormula.Parser
