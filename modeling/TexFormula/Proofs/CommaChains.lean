import TexFormula.Proofs.ArgumentLists
import TexFormula.Proofs.NumberReading

/-!
# Chains of digit runs

Digit runs with commas between them are one number if they are grouped by three, and numbers of their
own otherwise (`parse_commaChain`). The runs are judged again behind every comma that separates: as
soon as all that are left are grouped by three, they make up one number (`chainNumbers`). So the
numbers are the runs themselves just if the last two of them are not grouped.
-/

open TexFormula.Parser

namespace TexFormula

/-! ### Grouped runs -/

/-- The runs are the groups of one number: three digits each behind one to three. -/
def IsGrouped (run : String) (others : List String) : Prop :=
  (1 ≤ run.length ∧ run.length ≤ 3) ∧ ∀ group ∈ others, group.length = 3

instance (run : String) (others : List String) : Decidable (IsGrouped run others) :=
  inferInstanceAs (Decidable (_ ∧ _))

/-- The numbers that a chain is read as. The runs from one on are one number if they are grouped. -/
def chainNumbers : List String → List String
  | [] => []
  | run :: others =>
    if IsGrouped run others then [String.join (run :: others)] else run :: chainNumbers others

/-- The texts are the literals of the values. -/
def Denote (texts : List String) (values : List Number) : Prop :=
  List.Forall₂ (fun text value => Number.ofLiteral? text = some value) texts values

variable {run : String} {others : List String}

theorem IsDigitRun.join (hrun : IsDigitRun run) (hothers : ∀ g ∈ others, IsDigitRun g) :
    IsDigitRun (String.join (run :: others)) where
  nonempty := by
    rw [String.join_cons]
    exact fun h => hrun.nonempty (String.append_eq_empty_iff.mp h).1
  digits := by
    intro c hc
    rw [String.toList_join, List.flatMap_cons, List.mem_append] at hc
    rcases hc with hc | hc
    · exact hrun.digits c hc
    · obtain ⟨g, hg, hc⟩ := List.mem_flatMap.mp hc
      exact (hothers g hg).digits c hc

theorem isDigitRun_of_mem_chainNumbers {runs : List String} (h : ∀ g ∈ runs, IsDigitRun g) :
    ∀ text ∈ chainNumbers runs, IsDigitRun text := by
  induction runs with
  | nil => exact List.forall_mem_nil _
  | cons run others ih =>
    obtain ⟨hrun, hothers⟩ := List.forall_mem_cons.mp h
    unfold chainNumbers
    split
    · exact List.forall_mem_singleton.mpr (hrun.join hothers)
    · exact List.forall_mem_cons.mpr ⟨hrun, ih hothers⟩

/-- The first number of a chain is the whole of it, or the runs behind the first one are judged again. -/
theorem exists_chainNumbers_cons (run : String) (others : List String) :
    ∃ text, chainNumbers (run :: others) =
      text :: if IsGrouped run others then [] else chainNumbers others := by
  rw [chainNumbers]
  split
  · exact ⟨_, rfl⟩
  · exact ⟨_, rfl⟩

/-- Every number of a chain has a value. -/
theorem exists_values {runs : List String} (h : ∀ g ∈ runs, IsDigitRun g) :
    ∃ values, Denote (chainNumbers runs) values := by
  have hall := isDigitRun_of_mem_chainNumbers h
  generalize chainNumbers runs = texts at hall
  induction texts with
  | nil => exact ⟨[], .nil⟩
  | cons text texts ih =>
    obtain ⟨htext, htexts⟩ := List.forall_mem_cons.mp hall
    obtain ⟨value, hvalue⟩ := htext.exists_ofLiteral? false
    obtain ⟨values, hvalues⟩ := ih htexts
    exact ⟨value :: values, .cons (by simpa using hvalue) hvalues⟩

/-- The last two runs of a chain are grouped. -/
def EndsGrouped (runs : List String) : Prop :=
  ∃ before first last, runs = before ++ [first, last] ∧ IsGrouped first [last]

theorem endsGrouped_cons_iff (h : ¬IsGrouped run others) :
    EndsGrouped (run :: others) ↔ EndsGrouped others := by
  constructor
  · rintro ⟨before, first, last, heq, hgrouped⟩
    cases before with
    | nil =>
      obtain ⟨rfl, rfl⟩ := List.cons.inj heq
      exact absurd hgrouped h
    | cons head before => exact ⟨before, first, last, (List.cons.inj heq).2, hgrouped⟩
  · rintro ⟨before, first, last, rfl, hgrouped⟩
    exact ⟨run :: before, first, last, rfl, hgrouped⟩

/-- All groups of a number but the first one have three digits. -/
theorem IsGrouped.endsGrouped (h : IsGrouped run others) (hne : others ≠ []) :
    EndsGrouped (run :: others) := by
  obtain ⟨front, last, rfl⟩ := (List.eq_nil_or_concat others).resolve_left hne
  rw [List.concat_eq_append] at h ⊢
  have hlast := h.2 last (by simp)
  rcases List.eq_nil_or_concat front with rfl | ⟨before, first, rfl⟩
  · exact ⟨[], run, last, rfl, h.1, by simpa using hlast⟩
  · have hfirst := h.2 first (by simp)
    exact ⟨run :: before, first, last, by simp, ⟨by omega, by omega⟩, by simpa using hlast⟩

theorem not_endsGrouped_singleton (run : String) : ¬EndsGrouped [run] := by
  rintro ⟨before, first, last, heq, -⟩
  have hlength := congrArg List.length heq
  rw [List.length_append] at hlength
  simp at hlength

/-- The numbers are the runs themselves unless the last two are grouped. -/
theorem chainNumbers_eq_self_iff (runs : List String) :
    chainNumbers runs = runs ↔ ¬EndsGrouped runs := by
  induction runs with
  | nil => simp [chainNumbers, EndsGrouped]
  | cons run others ih =>
    rw [chainNumbers]
    split
    · next hgrouped =>
      cases others with
      | nil => simpa using not_endsGrouped_singleton run
      | cons next others => simpa using hgrouped.endsGrouped (by simp)
    · next hungrouped => rw [endsGrouped_cons_iff hungrouped, ← ih, List.cons_inj_right]

/-! ### Tokens -/

/-- Commas with digit runs behind them, without any gap from byte `start` up to byte `stop`. -/
inductive Adjoining : (start stop : Nat) → List Token → List String → Prop where
  | nil (stop : Nat) : Adjoining stop stop [] []
  | cons {start stop : Nat} {mark group : Token} {rest : List Token} {run : String}
      {others : List String} (hmark : mark.kind = .punct ',') (hstart : mark.start = start)
      (hgroup : group.kind = .digits run) (hnext : group.start = mark.stop)
      (h : Adjoining group.stop stop rest others) :
      Adjoining start stop (mark :: group :: rest) (run :: others)

theorem toList_commaChain (run : String) (others : List String) :
    (String.intercalate "," (run :: others)).toList =
      run.toList ++ others.flatMap fun group => ',' :: group.toList := by
  induction others generalizing run with
  | nil => simp
  | cons group others ih =>
    rw [String.intercalate_cons_cons, String.toList_append, ih, String.toList_append,
      List.flatMap_cons, List.append_assoc]
    rfl

theorem Token.laid_comma (offset : Nat) (r : List Char) :
    laid offset (',' :: r) = ⟨.punct ',', offset, offset + 1⟩ :: laid (offset + 1) r :=
  laid_cons rfl rfl offset

theorem head?_following_isDigit (others : List String) :
    (others.flatMap fun group => ',' :: group.toList).head?.any Char.isDigit = false := by
  cases others <;> rfl

/-- By induction on the runs: they are cut without a gap between them. -/
theorem adjoining_laid (h : ∀ g ∈ others, IsDigitRun g) (offset : Nat) :
    Adjoining offset (offset + Text.byteLength (others.flatMap fun group => ',' :: group.toList))
      (Token.laid offset (others.flatMap fun group => ',' :: group.toList)) others := by
  induction others generalizing offset with
  | nil =>
    rw [List.flatMap_nil, Token.laid_nil]
    exact .nil offset
  | cons group others ih =>
    obtain ⟨hgroup, hothers⟩ := List.forall_mem_cons.mp h
    have hrest := ih hothers (offset + 1 + Text.byteLength group.toList)
    rw [List.flatMap_cons, List.cons_append, Token.laid_comma, Token.laid_digits hgroup.toList_ne_nil
      hgroup.digits (head?_following_isDigit others), String.ofList_toList]
    refine .cons rfl rfl rfl rfl ?_
    rw [Text.byteLength_cons, Text.byteLength_append, ← Nat.add_assoc, ← Nat.add_assoc]
    exact hrest

namespace Adjoining

variable {start stop : Nat} {ts : List Token}

theorem kind_head? (h : Adjoining start stop ts others) :
    ∀ mark ∈ ts.head?, mark.kind = .punct ',' := by
  cases h with
  | nil => nofun
  | cons hmark _ _ _ _ =>
    intro mark hhead
    rw [← Option.some.inj hhead, hmark]

/-- The groups behind the first run. The last one ends where the chain does. -/
theorem exists_digitGroups (h : Adjoining start stop ts others) :
    ∃ groups, digitGroups (·.isPunct ',') start ts = groups ∧ ts.length = 2 * groups.length ∧
      groups.map digitsOf = others ∧ ∀ last ∈ groups.getLast?, last.stop = stop := by
  induction h with
  | nil stop => exact ⟨[], rfl, rfl, rfl, nofun⟩
  | @cons start stop mark group rest run others hmark hstart hgroup hnext hrest ih =>
    obtain ⟨groups, hgroups, hlength, hmap, hlast⟩ := ih
    have hdigits : group.digits? = some run := by rw [Token.digits?, hgroup]
    refine ⟨group :: groups, ?_, ?_, ?_, ?_⟩
    · rw [digitGroups, hgroups]
      simp [Token.isPunct, hmark, hstart, hnext, hdigits]
    · simp only [List.length_cons, hlength]
      omega
    · rw [List.map_cons, hmap, digitsOf, hdigits]
      rfl
    · cases groups with
      | nil =>
        intro last hhead
        obtain rfl : group = last := Option.some.inj hhead
        cases hrest with
        | nil => rfl
        | cons => cases hmap
      | cons next groups => rwa [List.getLast?_cons_cons]

end Adjoining

namespace Parser

variable {env : Env} {inner outer : Inner} {s s₁ : State} {t : Token} {ts : List Token}
  {start stop : Nat} {value : Number} {loosest : Precedence} {text : String}

/-! ### The first run of a chain -/

theorem joinGroups_eq_join (run : String) (groups : List Token) :
    joinGroups run groups = String.join (run :: groups.map digitsOf) := by
  induction groups generalizing run with
  | nil => simp [joinGroups]
  | cons group groups ih =>
    have hstep := ih (run ++ digitsOf group)
    rw [joinGroups] at hstep ⊢
    rw [List.foldl_cons, hstep, List.map_cons, String.join_cons, String.join_cons, String.join_cons,
      String.append_assoc]

theorem groupedByThree_iff (run : String) (groups : List Token) :
    groupedByThree run groups = true ↔ IsGrouped run (groups.map digitsOf) := by
  simp [groupedByThree, IsGrouped]

/-- The state behind the first run of a chain that is not grouped. A chain that could be meant as one
number is reported, unless it goes on with one that has been judged already. -/
def State.passRun (env : Env) (s : State) (t : Token) (stop : Nat) (others : List String) : State :=
  if continuesChain (t :: s.seen) = false ∧ ∃ group ∈ others, 3 ≤ group.length then
    (s.forward 1).record ⟨.ambiguousDigitGroup, env.slice t.start stop⟩ t.start stop
  else
    s.forward 1

theorem State.rest_passRun (hs : s.rest = t :: ts) : (s.passRun env t stop others).rest = ts := by
  unfold passRun
  split <;> simp [hs]

theorem State.closers_passRun : (s.passRun env t stop others).closers = s.closers := by
  unfold passRun
  split <;> simp

/-- Behind the first run, the groups are taken if they make up one number with it. -/
theorem runs_commaGroups (env : Env) (run : String) {groups : List Token} (hs : s.rest = t :: ts)
    (hgroups : digitGroups (·.isPunct ',') t.stop ts = groups) (hlength : ts.length = 2 * groups.length)
    (hlast : ∀ last ∈ groups.getLast?, last.stop = stop) :
    if IsGrouped run (groups.map digitsOf) then
      Runs (commaGroups env run) (s.forward 1) (String.join (run :: groups.map digitsOf))
        (s.forward (t :: ts).length)
    else
      Runs (commaGroups env run) (s.forward 1) run (s.passRun env t stop (groups.map digitsOf)) := by
  have hrest : (s.forward 1).rest = ts := by
    rw [State.rest_forward, hs]
    rfl
  have hpoint : (ts.drop (2 * groups.length)).head?.any (·.isPunct '.') = false := by
    rw [← hlength, List.drop_length]
    rfl
  unfold commaGroups
  simp only [runs_get, State.previous_forward_one hs, hrest, hgroups, hpoint]
  cases hend : groups.getLast? with
  | none =>
    obtain rfl := List.getLast?_eq_none_iff.mp hend
    obtain rfl : ts = [] := List.length_eq_zero_iff.mp hlength
    split
    · rw [List.map_nil, String.join_cons]
      simpa using Runs.pure run (s.forward 1)
    · simpa [State.passRun] using Runs.pure run (s.forward 1)
  | some last =>
    obtain rfl := hlast last hend
    simp only [Bool.not_false, Bool.and_true, groupedByThree_iff]
    split_ifs with hgrouped hreport
    · rw [runs_skip, State.forward_forward, ← hlength, joinGroups_eq_join, List.length_cons,
        Nat.add_comm]
      exact .pure _ _
    · rw [State.seen_forward_one hs] at hreport
      rw [State.passRun, if_pos (by simpa using hreport)]
      exact .pure _ _
    · rw [State.seen_forward_one hs] at hreport
      rw [State.passRun, if_neg (by simpa using hreport)]
      exact .pure _ _

/-- The digits before the point, in a chain that takes up the rest of the source. -/
theorem runs_wholeDigits_of_adjoining (env : Env) (hs : s.rest = t :: ts) (ht : t.kind = .digits run)
    (hts : Adjoining t.stop stop ts others) :
    if IsGrouped run others then
      Runs (wholeDigits env) s (String.join (run :: others)) (s.forward (t :: ts).length)
    else
      Runs (wholeDigits env) s run (s.passRun env t stop others) := by
  obtain ⟨groups, hgroups, hlength, rfl, hlast⟩ := hts.exists_digitGroups
  have hcommas := runs_commaGroups env run hs hgroups hlength hlast
  have hthin : digitGroups (·.isCommand ",") t.stop ts = [] := by
    refine digitGroups_eq_nil fun mark hmark => ?_
    rw [Token.isCommand, hts.kind_head? mark hmark]
    rfl
  have hwhole {text : String} {s₁ : State} (h : Runs (commaGroups env run) (s.forward 1) text s₁) :
      Runs (wholeDigits env) s text s₁ := by
    have hdigits : t.digits? = some run := by rw [Token.digits?, ht]
    have hrest : (s.forward 1).rest = ts := by
      rw [State.rest_forward, hs]
      rfl
    unfold wholeDigits
    rw [runs_current, State.current_of_rest hs, hdigits]
    dsimp only
    rw [runs_advance, runs_get, State.previous_forward_one hs, hrest, hthin]
    exact h
  split_ifs at hcommas ⊢ <;> exact hwhole hcommas

/-- The digits are all of the number, if the source ends behind them or a comma follows. -/
theorem runs_number_of_wholeDigits (h : Runs (wholeDigits env) s text s₁) (hne : text ≠ "")
    (hvalue : Number.ofLiteral? text = some value)
    (hend : ∀ mark ∈ s₁.rest.head?, mark.kind = .punct ',') :
    Runs (number env false) s (.number value) s₁ := by
  have hpoint : (s₁.current env).isPunct '.' = false := by
    cases hrest : s₁.rest with
    | nil =>
      rw [State.current_of_rest_nil hrest]
      rfl
    | cons mark _ =>
      rw [State.current_of_rest hrest, Token.isPunct, hend mark (by rw [hrest]; rfl)]
      rfl
  have hfraction : Runs (fractionDigits env text) s₁ ("", "") s₁ := by
    unfold fractionDigits
    rw [runs_get]
    dsimp only
    rw [hpoint]
    exact .pure _ _
  have hexponent : Runs exponent s₁ none s₁ := by
    unfold exponent
    rw [runs_get, powerOfTen?_eq_none fun mark hmark => by rw [hend mark hmark]; decide]
    exact .pure _ _
  have hliteral : literal false text "" "" none = text := by simp [literal, hne]
  unfold number
  rw [runs_current]
  refine h.bind (hfraction.bind (hexponent.bind ?_))
  rw [hliteral]
  dsimp only
  rw [hvalue]
  exact .pure _ _

/-- The state behind the first number of a chain. -/
def State.passNumber (env : Env) (s : State) (t : Token) (stop : Nat) (run : String)
    (others : List String) : State :=
  if IsGrouped run others then s.forward s.rest.length else s.passRun env t stop others

/-- Behind the first number is the end or a comma. -/
theorem State.kind_head?_passNumber (hs : s.rest = t :: ts) (hts : Adjoining t.stop stop ts others) :
    ∀ mark ∈ (s.passNumber env t stop run others).rest.head?, mark.kind = .punct ',' := by
  unfold passNumber
  split
  · rw [rest_forward, List.drop_length]
    nofun
  · rw [rest_passRun hs]
    exact hts.kind_head?

theorem State.closers_passNumber :
    (s.passNumber env t stop run others).closers = s.closers := by
  unfold passNumber
  split
  · exact closers_forward s _
  · exact closers_passRun

/-- The first number of a chain. -/
theorem runs_operand_of_adjoining (env : Env) (hs : s.rest = t :: ts) (ht : t.kind = .digits run)
    (hts : Adjoining t.stop stop ts others) (hclosers : s.Delimited) (hrun : IsDigitRun run)
    (hothers : ∀ g ∈ others, IsDigitRun g) {texts : List String}
    (hchain : chainNumbers (run :: others) = text :: texts)
    (hvalue : Number.ofLiteral? text = some value) :
    Runs (operand env inner) s (some { expression := .number value })
      (s.passNumber env t stop run others) := by
  have hend : ∀ mark ∈ (s.passNumber env t stop run others).rest.head?, mark.kind = .punct ',' :=
    State.kind_head?_passNumber hs hts
  have hwhole := runs_wholeDigits_of_adjoining env hs ht hts
  refine runs_operand_of_digits hs ht hclosers ?_
  unfold State.passNumber at hend ⊢
  unfold chainNumbers at hchain
  by_cases hgrouped : IsGrouped run others
  · rw [if_pos hgrouped] at hchain hwhole hend ⊢
    obtain ⟨rfl, -⟩ := List.cons.inj hchain
    rw [hs] at hend ⊢
    exact runs_number_of_wholeDigits hwhole (hrun.join hothers).nonempty hvalue hend
  · rw [if_neg hgrouped] at hchain hwhole hend ⊢
    obtain ⟨rfl, -⟩ := List.cons.inj hchain
    exact runs_number_of_wholeDigits hwhole hrun.nonempty hvalue hend

/-! ### The numbers behind the first one -/

/-- What binds more tightly than a comma ends in front of one. -/
theorem stops_of_kind_head? (hcomma : env.dictionary.operators "," = [.comma]) (hclosers : s.Delimited)
    (h : ∀ mark ∈ s.rest.head?, mark.kind = .punct ',') (hloosest : .sequence < loosest) :
    Stops env inner loosest s := by
  cases hrest : s.rest with
  | nil => exact stops_of_nil hrest
  | cons mark rest =>
    have hmark : mark.kind = .punct ',' := h mark (by rw [hrest]; rfl)
    have hfree : Free mark.kind := by rw [hmark]; decide
    exact stops_of_loose hrest hfree.continues hfree.ne_parenthesis hclosers
      (by rw [Token.trigger?, hmark]; rfl) hcomma (Nat.not_le_of_lt hloosest)

/-- The first number, as the operand behind a comma. -/
theorem runs_expressionAt_of_adjoining (hcomma : env.dictionary.operators "," = [.comma])
    (hs : s.rest = t :: ts) (ht : t.kind = .digits run) (hts : Adjoining t.stop stop ts others)
    (hclosers : s.Delimited) (hrun : IsDigitRun run) (hothers : ∀ g ∈ others, IsDigitRun g)
    {texts : List String} (hchain : chainNumbers (run :: others) = text :: texts)
    (hvalue : Number.ofLiteral? text = some value) :
    Runs (expressionAt env inner (rightPrecedence .comma)) s (.number value)
      (s.passNumber env t stop run others) := by
  have hafter : (s.passNumber env t stop run others).Delimited := by
    unfold State.Delimited
    rw [State.closers_passNumber]
    exact hclosers
  have htight : Precedence.sequence < rightPrecedence .comma := by decide
  exact (leadsTo_of_operand (runs_operand_of_adjoining env hs ht hts hclosers hrun hothers hchain
    hvalue)).runs (stops_of_kind_head? hcomma hafter (State.kind_head?_passNumber hs hts) htight)

/-- A run has been read last, up to byte `start`. -/
def State.BehindRun (s : State) (start : Nat) : Prop :=
  ∃ digits before, s.seen = digits :: before ∧ digits.digits?.isSome ∧ digits.stop = start

theorem State.behindRun_passRun (hs : s.rest = t :: ts) (ht : t.kind = .digits run) :
    (s.passRun env t stop others).BehindRun t.stop := by
  refine ⟨t, s.seen, ?_, by rw [Token.digits?, ht]; rfl, rfl⟩
  unfold passRun
  split
  · exact seen_forward_one hs
  · exact seen_forward_one hs

/-- A chain that goes on behind a comma is not reported. -/
theorem State.BehindRun.passRun {mark : Token} (h : s.BehindRun start) (hs : s.rest = mark :: t :: ts)
    (hmark : mark.kind = .punct ',') (hstart : mark.start = start) (hnext : t.start = mark.stop) :
    (s.forward 1).passRun env t stop others = (s.forward 1).forward 1 := by
  obtain ⟨digits, before, hseen, hdigits, rfl⟩ := h
  have hchain : continuesChain (t :: (s.forward 1).seen) = true := by
    rw [State.seen_forward_one hs, hseen]
    simp [continuesChain, Token.isPunct, hmark, hstart, hnext, hdigits]
  rw [State.passRun, hchain, if_neg fun h => Bool.false_ne_true h.1.symm]

/-- By induction on the runs: behind each comma, they are judged again. -/
theorem exists_leadsTo_of_adjoining (hcomma : env.dictionary.operators "," = [.comma])
    (houter : ∀ p, outer.expression p = expressionAt env inner p)
    (hts : Adjoining start stop ts others) (hothers : ∀ g ∈ others, IsDigitRun g)
    {values : List Number} (hvalues : Denote (chainNumbers others) values) (hs : s.rest = ts)
    (hclosers : s.Delimited) (hseen : s.BehindRun start) {done : List Expression} (hdone : done ≠ [])
    {o : Operand} {chained : Option String} (ho : Collects "Sequence" done o chained) :
    ∃ s₁ o₁ chained₁, s₁.rest = [] ∧ s₁.diagnostics = s.diagnostics ∧
      Collects "Sequence" (done ++ values.map .number) o₁ chained₁ ∧
      ∀ fuel, s.rest.length ≤ fuel → LeadsTo env outer .loosest
        (chain env outer .loosest fuel o chained) s o₁ chained₁ s₁ := by
  induction hts generalizing s values done o chained with
  | nil stop =>
    cases hvalues
    exact ⟨s, o, chained, hs, rfl, by simpa using ho, fun fuel hfuel e s₂ h => h fuel hfuel⟩
  | @cons start stop mark group rest run others hmark hstart hgroup hnext hgroups ih =>
    obtain ⟨hrun, hothers⟩ := List.forall_mem_cons.mp hothers
    obtain ⟨text, hchain⟩ := exists_chainNumbers_cons run others
    rw [hchain] at hvalues
    obtain ⟨value, values, hvalue, hmore, rfl⟩ := List.forall₂_cons_left_iff.mp hvalues
    have hfree : Free mark.kind := by rw [hmark]; decide
    have hinside : (s.forward 1).rest = group :: rest := by
      rw [State.rest_forward, hs]
      rfl
    have hright : Runs (expressionAt env inner (rightPrecedence .comma)) (s.forward 1) _ _ :=
      runs_expressionAt_of_adjoining hcomma hinside hgroup hgroups (hclosers.forward 1) hrun hothers
        hchain hvalue
    rw [← houter] at hright
    have hstep {s₁ : State} (hs₁ : (s.forward 1).passNumber env group stop run others = s₁)
        (hle : s₁.rest.length ≤ (group :: rest).length) (fuel : Nat) (hfuel : s.rest.length ≤ fuel) :
        LeadsTo env outer .loosest (chain env outer .loosest fuel o chained) s _ _ s₁ :=
      (hfree.continues.meets hs hclosers).leadsTo_of_comma hmark hcomma (hs₁ ▸ hright) rfl hle
        (by decide) hfuel
    have hhere := ho.append hdone (.number value)
    by_cases hgrouped : IsGrouped run others
    · rw [if_pos hgrouped] at hmore
      cases hmore
      have hend : ((s.forward 1).forward (group :: rest).length).rest = [] := by
        rw [State.rest_forward, hinside, List.drop_length]
      refine ⟨_, _, _, hend, by simp, hhere, fun fuel hfuel => hstep ?_ ?_ fuel hfuel⟩
      · rw [State.passNumber, if_pos hgrouped, hinside]
      · rw [hend]
        exact Nat.zero_le _
    · rw [if_neg hgrouped] at hmore
      have hthere : ((s.forward 1).forward 1).rest = rest := by
        rw [State.rest_forward, hinside]
        rfl
      have hbehind : ((s.forward 1).forward 1).BehindRun group.stop :=
        ⟨group, _, State.seen_forward_one hinside, by rw [Token.digits?, hgroup]; rfl, rfl⟩
      obtain ⟨s₁, o₁, chained₁, hend, hdiagnostics, hcollects, hleads⟩ :=
        ih hothers hmore hthere ((hclosers.forward 1).forward 1) hbehind (by simp) hhere
      refine ⟨s₁, o₁, chained₁, hend, by simpa using hdiagnostics, by simpa using hcollects, ?_⟩
      intro fuel hfuel
      refine LeadsTo.trans (hstep ?_ ?_ fuel hfuel) hleads
      · rw [State.passNumber, if_neg hgrouped, hseen.passRun hs hmark hstart hnext]
      · rw [hthere]
        exact Nat.le_succ _

end Parser

/-! ### The whole source -/

/-- The tokens of a chain. -/
theorem exists_meaningful_commaChain (hrun : IsDigitRun run) (hothers : ∀ g ∈ others, IsDigitRun g)
    {source : String} (hsource : source = String.intercalate "," (run :: others)) :
    ∃ t ts, Token.meaningful source = t :: ts ∧ t.kind = .digits run ∧ t.start = 0 ∧
      Adjoining t.stop source.utf8ByteSize ts others := by
  have htext : source.toList = run.toList ++ others.flatMap fun group => ',' :: group.toList := by
    rw [hsource, toList_commaChain]
  have hlaid := Token.laid_digits hrun.toList_ne_nil hrun.digits (head?_following_isDigit others) 0
  rw [← htext, String.ofList_toList] at hlaid
  have hstop : 0 + Text.byteLength run.toList +
      Text.byteLength (others.flatMap fun group => ',' :: group.toList) = source.utf8ByteSize := by
    rw [Nat.zero_add, ← Text.byteLength_append, ← htext, Text.byteLength_toList]
  have hadjoining := adjoining_laid hothers (0 + Text.byteLength run.toList)
  rw [hstop] at hadjoining
  exact ⟨_, _, hlaid, rfl, rfl, hadjoining⟩

theorem slice_whole (source : String) : Text.slice source 0 source.utf8ByteSize = source := by
  have hslice : Text.slice? source.toList 0 source.utf8ByteSize = some source.toList :=
    Text.slice?_eq_some_iff.mpr ⟨[], [], by simp, rfl, by rw [Nat.zero_add, Text.byteLength_toList]⟩
  rw [Text.slice, hslice, Option.getD_some, String.ofList_toList]

/-- What is reported of a chain that could be meant as one number. -/
def ambiguousChain (source : String) : Diagnostic :=
  .of ⟨.ambiguousDigitGroup, source⟩ (some (.between 0 source.utf8ByteSize))

section

variable {source : String} {t : Token} {ts : List Token} {text : String} {texts : List String}
  {value : Number} {values : List Number}

/-- A chain at the start of the source has not been judged before. -/
theorem diagnostics_passRun_ofSource (hstart : t.start = 0) :
    ((State.ofSource source).passRun ⟨source, .standard, {}⟩ t source.utf8ByteSize others).diagnostics =
      if ∃ group ∈ others, 3 ≤ group.length then [ambiguousChain source] else [] := by
  have hfresh : continuesChain (t :: (State.ofSource source).seen) = false := rfl
  have hslice : Env.slice ⟨source, .standard, {}⟩ t.start source.utf8ByteSize = source := by
    rw [hstart]
    exact slice_whole source
  simp only [State.passRun, hfresh, true_and, hslice]
  split
  · rw [hstart, ambiguousChain]
    exact congrArg _ (State.diagnostics_forward _ 1)
  · exact State.diagnostics_forward _ 1

/-- A chain that is one number. -/
theorem parse_of_isGrouped (hgrouped : IsGrouped run others) (hs : Token.meaningful source = t :: ts)
    (ht : t.kind = .digits run) (hts : Adjoining t.stop source.utf8ByteSize ts others)
    (hrun : IsDigitRun run) (hothers : ∀ g ∈ others, IsDigitRun g)
    (hchain : chainNumbers (run :: others) = text :: texts)
    (hvalue : Number.ofLiteral? text = some value) :
    parse .standard {} source = .ok ⟨.number value, []⟩ := by
  let env : Env := ⟨source, .standard, {}⟩
  have hoperand : Runs (operand env (nested env 63)) (.ofSource source) _ _ :=
    runs_operand_of_adjoining env hs ht hts nofun hrun hothers hchain hvalue
  rw [State.passNumber, if_pos hgrouped] at hoperand
  refine parse_eq_of_runs rfl rfl ((leadsTo_of_operand hoperand).runs (stops_of_nil ?_))
  rw [State.rest_forward]
  exact List.drop_length

/-- A chain of numbers of their own. -/
theorem parse_of_not_isGrouped (hungrouped : ¬IsGrouped run others) (hne : others ≠ [])
    (hs : Token.meaningful source = t :: ts) (ht : t.kind = .digits run) (hstart : t.start = 0)
    (hts : Adjoining t.stop source.utf8ByteSize ts others) (hrun : IsDigitRun run)
    (hothers : ∀ g ∈ others, IsDigitRun g) (hvalues : Denote (chainNumbers (run :: others)) values) :
    parse .standard {} source = .ok ⟨.function "Sequence" (values.map .number),
      if ∃ group ∈ others, 3 ≤ group.length then [ambiguousChain source] else []⟩ := by
  let env : Env := ⟨source, .standard, {}⟩
  have hrest : (State.ofSource source).rest = t :: ts := hs
  obtain ⟨text, hchain⟩ := exists_chainNumbers_cons run others
  rw [hchain, if_neg hungrouped] at hvalues
  obtain ⟨value, values, hvalue, hmore, rfl⟩ := List.forall₂_cons_left_iff.mp hvalues
  have hoperand : Runs (operand env (nested env 63)) (.ofSource source) _ _ :=
    runs_operand_of_adjoining env hs ht hts nofun hrun hothers hchain hvalue
  rw [State.passNumber, if_neg hungrouped] at hoperand
  have hclosers : ((State.ofSource source).passRun env t source.utf8ByteSize others).Delimited := by
    unfold State.Delimited
    rw [State.closers_passRun]
    nofun
  have hcomma : env.dictionary.operators "," = [.comma] := rfl
  have houter (p : Precedence) :
      (nested env 63).expression p = expressionAt env (nested env 62) p := rfl
  obtain ⟨s₁, o₁, chained₁, hend, hdiagnostics, hcollects, hleads⟩ :=
    exists_leadsTo_of_adjoining hcomma houter hts hothers hmore (State.rest_passRun hrest) hclosers
      (State.behindRun_passRun hrest ht) (by simp) (Collects.single "Sequence" { expression := _ })
  have hruns := ((leadsTo_of_operand hoperand).trans hleads).runs (stops_of_nil hend)
  rw [hcollects.expression] at hruns
  obtain ⟨next, others', rfl⟩ := List.exists_cons_of_ne_nil hne
  obtain ⟨text', hchain'⟩ := exists_chainNumbers_cons next others'
  rw [hchain'] at hmore
  obtain ⟨value', values', -, -, rfl⟩ := List.forall₂_cons_left_iff.mp hmore
  rw [parse_eq_of_runs_expression rfl rfl hruns hend, hdiagnostics, diagnostics_passRun_ofSource hstart]
  split <;> rfl

end

/-- Grouped runs are parsed as one number. Otherwise the commas separate, and a chain that could be
meant as one number is reported once; the numbers are the runs themselves just if the last two of them
are not grouped. -/
theorem parse_commaChain (hne : others ≠ []) (hruns : ∀ g ∈ run :: others, IsDigitRun g) :
    (IsGrouped run others →
      ∃ value, Number.ofLiteral? (String.join (run :: others)) = some value ∧
        parse .standard {} (String.intercalate "," (run :: others)) = .ok ⟨.number value, []⟩) ∧
    (¬IsGrouped run others →
      ∃ values, Denote (chainNumbers (run :: others)) values ∧
        parse .standard {} (String.intercalate "," (run :: others)) =
          .ok ⟨.function "Sequence" (values.map .number),
            if ∃ group ∈ others, 3 ≤ group.length then
              [ambiguousChain (String.intercalate "," (run :: others))]
            else []⟩) ∧
    (chainNumbers (run :: others) = run :: others ↔ ¬EndsGrouped (run :: others)) := by
  obtain ⟨hrun, hothers⟩ := List.forall_mem_cons.mp hruns
  obtain ⟨t, ts, hs, ht, hstart, hts⟩ := exists_meaningful_commaChain hrun hothers rfl
  obtain ⟨values, hvalues⟩ := exists_values hruns
  refine ⟨fun hgrouped => ?_, fun hungrouped => ⟨values, hvalues, ?_⟩, chainNumbers_eq_self_iff _⟩
  · have hchain : chainNumbers (run :: others) = [String.join (run :: others)] := by
      rw [chainNumbers, if_pos hgrouped]
    rw [hchain] at hvalues
    obtain ⟨value, _, hvalue, -, -⟩ := List.forall₂_cons_left_iff.mp hvalues
    exact ⟨value, hvalue, parse_of_isGrouped hgrouped hs ht hts hrun hothers hchain hvalue⟩
  · exact parse_of_not_isGrouped hungrouped hne hs ht hstart hts hrun hothers hvalues

theorem isDigitRun_mixed : ∀ g ∈ ["1", "2", "345"], IsDigitRun g := by
  decide

/-- Of three runs, the last two make up one number. -/
theorem parse_commaChain_mixed :
    ["2", "345"] ≠ [] ∧ (∀ g ∈ ["1", "2", "345"], IsDigitRun g) ∧ ∃ values,
      Denote ["1", "2345"] values ∧ parse .standard {} "1,2,345" =
        .ok ⟨.function "Sequence" (values.map .number), [ambiguousChain "1,2,345"]⟩ := by
  obtain ⟨-, hseparate, -⟩ := parse_commaChain (by simp) isDigitRun_mixed
  exact ⟨by simp, isDigitRun_mixed, hseparate (by decide)⟩

/-- The runs of a chain that is reported are not numbers of their own. -/
theorem not_parse_commaChain_separate :
    (∀ g ∈ ["1", "2", "345"], IsDigitRun g) ∧ ¬IsGrouped "1" ["2", "345"] ∧
      ¬∃ values diagnostics, Denote ["1", "2", "345"] values ∧
        parse .standard {} (String.intercalate "," ["1", "2", "345"]) =
          .ok ⟨.function "Sequence" (values.map .number), diagnostics⟩ := by
  refine ⟨isDigitRun_mixed, by decide, ?_⟩
  rintro ⟨values, diagnostics, hvalues, hparse⟩
  obtain ⟨hrun, hothers⟩ := List.forall_mem_cons.mp isDigitRun_mixed
  obtain ⟨t, ts, hs, ht, hstart, hts⟩ := exists_meaningful_commaChain hrun hothers rfl
  obtain ⟨values', hvalues'⟩ := exists_values isDigitRun_mixed
  have hread := parse_of_not_isGrouped (by decide) (by simp) hs ht hstart hts hrun hothers hvalues'
  rw [hparse] at hread
  injection hread with hread
  have hnumbers : values.map Expression.number = values'.map .number := by
    injection hread with hexpression
    injection hexpression
  have hlength := congrArg List.length hnumbers
  rw [List.length_map, List.length_map, ← hvalues.length_eq, ← hvalues'.length_eq] at hlength
  exact absurd hlength (by decide)

end TexFormula
