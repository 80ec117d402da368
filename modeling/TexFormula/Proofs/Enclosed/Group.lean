import TexFormula.Proofs.Enclosed.Numeral

/-!
# Groups and arguments between delimiters

`Level`: the readers of one level are echoed, but for runs that record something and for operands that
are not read in front of an operator (`Lost`). A group that is not closed in the source is reported, so
what a group is echoed for is closed in it.
-/

namespace TexFormula.Parser.Enclosure

variable (w : Enclosure)

/-- Something has been recorded, or nothing is read in front of an operator, and that will be
recorded. -/
def Lost {α : Type} (o : Option α) (t : State) : Prop :=
  Doomed o t ∨ o = none ∧ t.AtOperator w.part ∧ t.atTerminator w.part = false

/-- Something has been read and something recorded. -/
def DoomedGroup {α : Type} (o : Option α) (t : State) : Prop :=
  o.isSome ∧ Doomed o t

/-- The readers with some levels left. -/
structure Level (levels : Nat) : Prop where
  expression (loosest : Precedence) {s s' : State} : w.Abreast s s' →
    w.Echoed Doomed s s' ((nested w.whole levels).expression loosest)
      ((nested w.part levels).expression loosest)
  operand {s s' : State} : w.Abreast s s' →
    w.Echoed w.Lost s s' (nested w.whole levels).operand (nested w.part levels).operand

variable {w} {α : Type} {levels : Nat} {s s' t t' : State}

/-- The readers of the source keep the state. -/
theorem keeps_part (w : Enclosure) (levels : Nat) :
    (keeps w.part.options.maxDepth).Inners (nested w.part levels) (nested w.part levels) :=
  keeps_nested (w.dictionary' ▸ Dictionary.hasStandardHooks_standard) levels

theorem keeps_argument (w : Enclosure) (levels : Nat) (command : String) :
    Keeps w.part.options.maxDepth (argument w.part (nested w.part levels) command) :=
  show (keeps _).rel (argument w.part (nested w.part levels) command)
      (argument (w.part.allowing 0) (nested w.part levels) command) from
    (w.keeps_part levels).argument command

/-! ### Groups -/

section

variable (hl : w.Level levels)

include hl

theorem Level.awaiting (close : String) (hs : w.Abreast s s') :
    w.Echoed Doomed s s' (Parser.awaiting close ((nested w.whole levels).expression .loosest))
      (Parser.awaiting close ((nested w.part levels).expression .loosest)) :=
  .awaiting hs ((w.keeps_part levels).expression _) fun _ _ ht => hl.expression .loosest ht

theorem Level.groupBody (close : String) {closing : Token.Kind} (hclosing : closing.closes?.isSome)
    (hs : w.Abreast s s') :
    w.Echoed Doomed s s' (Parser.groupBody w.whole (nested w.whole levels) close closing)
      (Parser.groupBody w.part (nested w.part levels) close closing) := by
  refine (hl.awaiting close hs).bind (fun body t hdoomed => .current ?_) fun body t t' ht => .current ?_
  · dsimp only
    split
    · exact .advance (.pure (hdoomed.forward body 1))
    · exact .recordHere (.pure doomed_record)
  · by_cases hkind : (t'.current w.part).kind = closing
    · have hne : t'.rest ≠ [] := by
        refine @State.rest_ne_nil_of_current w.part t' ?_
        rw [hkind]
        rintro rfl
        cases hclosing
      have hplain : ¬ TakesDelimiter (t'.current w.part) := by
        rintro (h | h) <;> · rw [hkind] at h; rw [h] at hclosing; cases hclosing
      rw [ht.current hne, Excerpt.kind_place, hkind, beq_self_eq_true, if_pos rfl, if_pos rfl]
      exact .advance ht hne hplain fun hu => .pure hu body
    · refine .of_ensures ?_
      rw [beq_eq_false_iff_ne.mpr hkind]
      exact .recordHere (.pure doomed_record)

/-- A group behind a token of kind `opening`, if one is next. -/
theorem Level.group (close : String) {opening closing : Token.Kind} (hopening : opening.opens?.isSome)
    (hclosing : closing.closes?.isSome) (hs : w.Abreast s s') :
    w.Echoed DoomedGroup s s'
      (do
        skipSpacing
        if (← current w.whole).kind == opening then
          advance
          return some (← Parser.groupBody w.whole (nested w.whole levels) close closing)
        else
          return none)
      (do
        skipSpacing
        if (← current w.part).kind == opening then
          advance
          return some (← Parser.groupBody w.part (nested w.part levels) close closing)
        else
          return none) := by
  refine .skipSpacing hs fun ht => .current ?_
  rw [ht.kind_beq_current hopening]
  refine .ite (fun hkind => ?_) fun _ => .pure ht none
  rw [← eq_of_beq hkind] at hopening
  have hne : s'.pastSpacing.rest ≠ [] := by
    refine @State.rest_ne_nil_of_current w.part _ fun hend => ?_
    rw [hend] at hopening
    cases hopening
  have hplain : ¬ TakesDelimiter (s'.pastSpacing.current w.part) := by
    rintro (h | h) <;> · rw [h] at hopening; cases hopening
  refine .advance ht hne hplain fun hu => (hl.groupBody close hclosing hu).bind ?_ ?_
  · exact fun body v hdoomed => .pure ⟨rfl, hdoomed⟩
  · exact fun body v v' hv => .pure hv _

theorem Level.braceGroup (hs : w.Abreast s s') :
    w.Echoed DoomedGroup s s' (Parser.braceGroup w.whole (nested w.whole levels))
      (Parser.braceGroup w.part (nested w.part levels)) :=
  hl.group "\x7d" rfl rfl hs

theorem Level.bracketGroup (hs : w.Abreast s s') :
    w.Echoed DoomedGroup s s' (Parser.bracketGroup w.whole (nested w.whole levels))
      (Parser.bracketGroup w.part (nested w.part levels)) :=
  hl.group "]" rfl rfl hs

end

/-! ### Arguments -/

theorem Abreast.cutDigit {run : String} (h : w.Abreast s s')
    (hrun : (s'.current w.part).digits? = some run) : w.Abreast s.cutDigit s'.cutDigit := by
  obtain ⟨x, xs, hrest', hrest⟩ := h.exists_rest (rest_ne_nil_of_digits? (Option.isSome_of_eq_some hrun))
  rw [State.current_of_rest hrest'] at hrun
  have hcontained := h.contained
  have hinside := h.inside
  have hends := h.ends
  rw [hrest'] at hcontained hinside hends
  unfold State.cutDigit
  simp only [hrest, hrest', Excerpt.digits?_place, hrun]
  exact
    { seen := h.seen
      rest := by
        show _ :: _ = _ :: _
        simp only [Excerpt.place, Nat.add_right_comm]
        rfl
      closers := h.closers
      clean := h.clean
      inside := by
        rw [List.forall_mem_cons]
        refine ⟨⟨fun h => ?_, (hinside x (.head _)).stop_le, fun h => ?_⟩, fun t ht => ?_⟩
        · cases h
        · cases h
        · exact hinside t (.tail _ ht)
      ends := by
        rw [List.forall_mem_cons]
        refine ⟨fun h => ?_, fun t ht => hends t (.tail _ ht)⟩
        cases h
      contained := hcontained.cons_of_digits (Option.isSome_of_eq_some hrun) rfl }

theorem echoed_firstDigit {bad : Expression → State → Prop} {run : String} (hs : w.Abreast s s')
    (hrun : (s'.current w.part).digits? = some run) :
    w.Echoed bad s s' (firstDigit run) (firstDigit run) := by
  have hsome := Option.isSome_of_eq_some hrun
  unfold firstDigit
  split
  · exact .pure hs _
  · have hplain := not_takesDelimiter_of_digits? hsome
    exact .advance hs (rest_ne_nil_of_digits? hsome) hplain fun ht => .pure ht _
  · exact (Echoed.pure (hs.cutDigit hrun) _).of_step rfl rfl

theorem Level.argument (hl : w.Level levels) (command : String) (hs : w.Abreast s s') :
    w.Echoed Doomed s s' (Parser.argument w.whole (nested w.whole levels) command)
      (Parser.argument w.part (nested w.part levels) command) := by
  refine (hl.braceGroup hs).bind (fun group t hdoomed => ?_) fun group t t' ht => ?_
  · obtain ⟨body, rfl⟩ := Option.isSome_iff_exists.mp hdoomed.1
    exact .pure hdoomed.2
  · cases group with
    | some body => exact .pure ht body
    | none =>
      refine .current ?_
      rw [ht.digits?_current]
      cases hrun : (t'.current w.part).digits? with
      | some run => exact echoed_firstDigit ht hrun
      | none =>
        refine (hl.operand ht).bind (fun o u hlost => ?_) fun o u u' hu => ?_
        · cases o with
          | some operand =>
            rcases hlost with hdoomed | ⟨hnone, -⟩
            · exact .pure hdoomed
            · cases hnone
          | none => exact .recordHere (.pure doomed_record)
        · cases o with
          | some operand => exact .pure hu operand
          | none => exact .of_ensures (.recordHere (.pure doomed_record))

/-! ### Raw groups -/

theorem echoed_rawGroup (hs : w.Abreast s s') :
    w.Echoed DoomedGroup s s' (rawGroup w.whole) (rawGroup w.part) := by
  refine .skipSpacing hs fun ht => .get ?_
  by_cases hnil : s'.pastSpacing.rest = []
  · have hrest := ht.rest
    rw [hnil, w.after_eq, List.map_nil, List.nil_append] at hrest
    have hkind : (w.closing.kind != .groupOpen) = true := by
      rcases w.closes with ⟨h, -⟩ | ⟨h, -⟩ <;> rw [h] <;> rfl
    rw [hrest, hnil]
    dsimp only
    rw [if_pos hkind]
    exact .pure ht none
  · obtain ⟨opening, own, hrest', hrest⟩ := ht.exists_rest hnil
    have hinside := ht.inside
    have hcontained := ht.contained
    rw [hrest'] at hinside hcontained
    rw [hrest, hrest']
    dsimp only
    rw [Excerpt.kind_place]
    refine .ite (fun _ => .pure ht none) fun hopen => ?_
    cases hcount : closing? 0 own with
    | none => exact .of_ensures (.skip (.recordHere (.pure ⟨rfl, doomed_record⟩)))
    | some count =>
      have hsame : closing? 0 (own.map w.place ++ w.after) = some count := by
        rcases Excerpt.closing?_place (w := w.toExcerpt) 0 own with heq | ⟨hnone, -⟩
        · rw [heq, hcount]
        · rw [hnone] at hcount
          cases hcount
      obtain ⟨closing, hclosing, hkind⟩ := getElem?_of_closing? hcount
      obtain ⟨hlt, -⟩ := List.getElem?_eq_some_iff.mp hclosing
      have hlength : count + 2 ≤ s'.pastSpacing.rest.length := by
        rw [hrest', List.length_cons]
        omega
      have hbehind := hcontained.drop_of_last (n := count + 1) hclosing
        (not_takesDelimiter_of_close hkind)
      rw [← hrest'] at hbehind
      rw [hsame]
      refine .skip ht hlength hbehind fun hu => .get ?_
      have hget : s'.pastSpacing.rest[count + 1]? = some closing := by
        rw [hrest']
        exact hclosing
      have hget' : s.pastSpacing.rest[count + 1]? = some (w.place closing) := by
        rw [ht.rest, List.getElem?_append_left (by rw [List.length_map]; omega), List.getElem?_map, hget]
        rfl
      have hdigits : closing.digits? = none := by simp only [Token.digits?, hkind]
      rw [State.previous_forward_succ hget, State.previous_forward_succ hget', Excerpt.start_place,
        Excerpt.stop_place, w.slice (hinside opening (.head _)).stop_le
          ((hinside closing (.tail _ (List.mem_of_getElem? hclosing))).start_le hdigits)]
      exact .pure hu _

/-! ### Hooks -/

theorem echoed_missingArgument (command : String) (inner inner' : Inner) :
    w.Echoed Doomed s s' (run w.whole inner (Readers.missingArgument command))
      (run w.part inner' (Readers.missingArgument command)) :=
  .of_ensures (.recordHere (.pure doomed_record))

section

variable (hl : w.Level levels) (lhs : Option Expression)

include hl

theorem Level.script (name command : String) (hs : w.Abreast s s') :
    w.Echoed Doomed s s' (run w.whole (nested w.whole levels) (Readers.script name command lhs))
      (run w.part (nested w.part levels) (Readers.script name command lhs)) :=
  (hl.argument command hs).built

theorem Level.squareRoot (hs : w.Abreast s s') :
    w.Echoed Doomed s s' (run w.whole (nested w.whole levels) (Readers.squareRoot lhs))
      (run w.part (nested w.part levels) (Readers.squareRoot lhs)) := by
  refine (hl.bracketGroup hs).bind (fun index t hdoomed => ?_) fun index t t' ht => ?_
  · exact (ensures_doomed (keeps_argument w levels "\\sqrt") hdoomed.2).bind fun _ u hu => .pure hu
  · exact (hl.argument "\\sqrt" ht).built

omit hl in
theorem echoed_identifier (hs : w.Abreast s s') :
    w.Echoed Doomed s s' (run w.whole (nested w.whole levels) (Readers.identifier lhs))
      (run w.part (nested w.part levels) (Readers.identifier lhs)) := by
  refine (echoed_rawGroup hs).bind (fun raw t hdoomed => ?_) fun raw t t' ht => ?_
  · obtain ⟨text, rfl⟩ := Option.isSome_iff_exists.mp hdoomed.1
    simp only [Reading.bind]
    split
    · exact .recordHere (.pure doomed_record)
    · exact .pure hdoomed.2
  · cases raw with
    | none => exact echoed_missingArgument _ _ _
    | some text =>
      simp only [Reading.bind]
      split
      · exact echoed_missingArgument _ _ _
      · exact .pure ht _

omit hl in
theorem echoed_text (hs : w.Abreast s s') :
    w.Echoed Doomed s s' (run w.whole (nested w.whole levels) (Readers.text lhs))
      (run w.part (nested w.part levels) (Readers.text lhs)) := by
  refine (echoed_rawGroup hs).bind (fun raw t hdoomed => ?_) fun raw t t' ht => ?_
  · obtain ⟨text, rfl⟩ := Option.isSome_iff_exists.mp hdoomed.1
    exact .pure hdoomed.2
  · cases raw with
    | none => exact echoed_missingArgument _ _ _
    | some text => exact .pure ht _

theorem Level.placeholder (hs : w.Abreast s s') :
    w.Echoed Doomed s s' (run w.whole (nested w.whole levels) (Readers.placeholder lhs))
      (run w.part (nested w.part levels) (Readers.placeholder lhs)) := by
  refine (hl.bracketGroup hs).bind (fun _ t hdoomed => ?_) fun _ t t' ht => ?_
  · have hraw : Keeps 0 (rawGroup w.part) := (keeps 0).rawGroup
    exact (ensures_doomed hraw hdoomed.2).bind fun _ u hu => .pure hu
  · exact (echoed_rawGroup ht).bind_pure fun _ _ hdoomed => hdoomed.2

/-- What the hooks of the standard notations read. -/
theorem Level.run {hook : ReadingHook} {follows : Bool} {trigger : String}
    (hhook : Readers.Standard follows trigger hook) (hs : w.Abreast s s') :
    w.Echoed Doomed s s' (Parser.run w.whole (nested w.whole levels) (hook lhs))
      (Parser.run w.part (nested w.part levels) (hook lhs)) := by
  cases hhook with
  | unaryPlus =>
    exact (hl.expression _ hs).built
  | power => exact hl.script lhs "Power" "^" hs
  | subscript => exact hl.script lhs "Subscript" "_" hs
  | squareRoot => exact hl.squareRoot lhs hs
  | operatorname => exact echoed_identifier lhs hs
  | mathrm => exact echoed_identifier lhs hs
  | text => exact echoed_text lhs hs
  | placeholder => exact hl.placeholder lhs hs
  | infinity => exact .pure hs _

end

end TexFormula.Parser.Enclosure
