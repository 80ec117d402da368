import TexFormula.Proofs.AliasChains
import TexFormula.Proofs.Outcome
import TexFormula.Proofs.WritingCongruence

/-!
# The arguments of a written node

A node that a notation writes by the rule of its kind shows the texts of its arguments one behind
the other (`Scribe.Shows`), but a prefix or postfix notation writes the first one alone, whatever its
arity accepts. Where it accepts an application without arguments, there is none to write, and that is
the only way in which an operand can be missing (`arguments_of_within`).
-/

namespace TexFormula

/-! ### Texts in a text -/

/-- The pieces stand in the text one behind the other, with anything between them. -/
inductive Text.Holds : (pieces : List String) → (text : String) → Prop where
  | nil (text : String) : Holds [] text
  | cons (before piece : String) {pieces : List String} {after : String} (h : Holds pieces after) :
      Holds (piece :: pieces) (before ++ (piece ++ after))

namespace Text.Holds

variable {pieces others : List String} {text other : String}

theorem single (text : String) : Holds [text] text := by
  simpa using cons "" text (nil "")

theorem behind (before : String) (h : Holds pieces text) : Holds pieces (before ++ text) := by
  cases h with
  | nil => exact .nil _
  | cons start piece h =>
    rw [← String.append_assoc]
    exact .cons _ piece h

theorem append (h : Holds pieces text) (hother : Holds others other) :
    Holds (pieces ++ others) (text ++ other) := by
  induction h with
  | nil text => exact hother.behind text
  | cons before piece _ ih =>
    rw [String.append_assoc, String.append_assoc]
    exact .cons before piece ih

theorem before (after : String) (h : Holds pieces text) : Holds pieces (text ++ after) := by
  simpa using h.append (nil after)

theorem join (h : Holds pieces text) (hother : Holds others other) :
    Holds (pieces ++ others) (Text.join text other) := by
  unfold Text.join
  split
  · exact (h.before " ").append hother
  · exact h.append hother

theorem parenthesized (h : Holds pieces text) : Holds pieces (Text.parenthesized text) :=
  (h.behind "(").before ")"

theorem braced (h : Holds pieces text) : Holds pieces (Text.braced text) :=
  (h.behind "\x7b").before "\x7d"

theorem intercalate (separator : String) (texts : List String) :
    Holds texts (String.intercalate separator texts) := by
  induction texts with
  | nil => exact .nil _
  | cons text texts ih =>
    cases texts with
    | nil => exact .single text
    | cons next texts =>
      rw [String.intercalate_cons_cons]
      exact ((single text).before separator).append ih

theorem isInfix_of_mem {piece : String} (h : Holds pieces text) (hpiece : piece ∈ pieces) :
    piece.toList <:+: text.toList := by
  induction h with
  | nil => cases hpiece
  | cons start first _ ih =>
    simp only [String.toList_append]
    rcases List.mem_cons.mp hpiece with rfl | hrest
    · exact ⟨_, _, List.append_assoc _ _ _⟩
    · exact (ih hrest).trans (((List.suffix_append _ _).trans (List.suffix_append _ _)).isInfix)

end Text.Holds

/-! ### Arguments in a text -/

namespace Scribe

/-- The texts of the arguments stand in the text one behind the other. -/
def Shows (scribe : Scribe) (arguments : List Expression) (text : String) : Prop :=
  ∃ texts, List.Forall₂ (fun e t => scribe.serialize e = .ok t) arguments texts ∧
    Text.Holds texts text

variable {scribe : Scribe} {e : Expression} {arguments others : List Expression}
  {text other : String} {n : Notation}

namespace Shows

theorem nil (text : String) : scribe.Shows [] text :=
  ⟨[], .nil, .nil text⟩

theorem of_serialize (h : scribe.serialize e = .ok text) : scribe.Shows [e] text :=
  ⟨[text], .cons h .nil, .single text⟩

/-- The same arguments in a text made from the one that shows them. -/
theorem map (h : scribe.Shows arguments text)
    (htext : ∀ {pieces}, Text.Holds pieces text → Text.Holds pieces other) :
    scribe.Shows arguments other :=
  let ⟨texts, hserialize, hholds⟩ := h
  ⟨texts, hserialize, htext hholds⟩

theorem append (h : scribe.Shows arguments text) (hother : scribe.Shows others other) :
    scribe.Shows (arguments ++ others) (text ++ other) :=
  let ⟨texts, hserialize, hholds⟩ := h
  let ⟨texts', hserialize', hholds'⟩ := hother
  ⟨texts ++ texts', List.rel_append hserialize hserialize', hholds.append hholds'⟩

theorem join (h : scribe.Shows arguments text) (hother : scribe.Shows others other) :
    scribe.Shows (arguments ++ others) (Text.join text other) :=
  let ⟨texts, hserialize, hholds⟩ := h
  let ⟨texts', hserialize', hholds'⟩ := hother
  ⟨texts ++ texts', List.rel_append hserialize hserialize', hholds.join hholds'⟩

end Shows

theorem shows_of_wrap {loosest : Precedence} (h : scribe.wrap e loosest = .ok text) :
    scribe.Shows [e] text := by
  obtain ⟨t, ht, htext⟩ := bind_eq_ok.mp h
  cases htext
  split
  · exact (Shows.of_serialize ht).map .parenthesized
  · exact .of_serialize ht

theorem shows_of_list (h : scribe.list arguments = .ok text) : scribe.Shows arguments text := by
  obtain ⟨texts, htexts, htext⟩ := bind_eq_ok.mp h
  cases htext
  exact ⟨texts, mapM_eq_ok.mp htexts, .intercalate ", " texts⟩

/-- A fold that shows one more argument with each step. -/
theorem shows_of_foldlM {α : Type} {step : String → α → Except WriteFault String}
    {argument : α → Expression}
    (hstep : ∀ {written shown a text}, scribe.Shows shown written → step written a = .ok text →
      scribe.Shows (shown ++ [argument a]) text)
    {as : List α} {start : String} {shown : List Expression} (hstart : scribe.Shows shown start)
    (h : as.foldlM step start = .ok text) : scribe.Shows (shown ++ as.map argument) text := by
  induction as generalizing start shown with
  | nil =>
    cases h
    simpa using hstart
  | cons a as ih =>
    rw [List.foldlM_cons] at h
    obtain ⟨next, hnext, hrest⟩ := bind_eq_ok.mp h
    simpa using ih (hstep hstart hnext) hrest

theorem shows_of_bracedArguments {start : String}
    (h : scribe.bracedArguments start arguments = .ok text) : scribe.Shows arguments text := by
  have hshows : scribe.Shows ([] ++ arguments.map id) text := by
    refine shows_of_foldlM (fun {written shown a text} hshown hstep => ?_) (.nil start) h
    obtain ⟨t, ht, htext⟩ := bind_eq_ok.mp hstep
    cases htext
    exact hshown.append ((Shows.of_serialize ht).map .braced)
  rwa [List.map_id, List.nil_append] at hshows

theorem shows_of_application {name : String} (h : scribe.application name arguments = .ok text) :
    scribe.Shows arguments text := by
  unfold application at h
  split at h
  · exact shows_of_bracedArguments h
  · obtain ⟨items, hitems, htext⟩ := bind_eq_ok.mp h
    cases htext
    exact (shows_of_list hitems).map fun hholds => hholds.parenthesized.behind _

theorem shows_of_chain (h : Serializer.chain scribe n arguments = .ok text) :
    scribe.Shows arguments text := by
  have hshows : scribe.Shows ([] ++ arguments.zipIdx.map Prod.fst) text := by
    refine shows_of_foldlM (fun {written shown operand text} hshown hstep => ?_) (.nil "") h
    obtain ⟨t, ht, htext⟩ := bind_eq_ok.mp hstep
    cases htext
    refine Shows.join ?_ (shows_of_wrap ht)
    split
    · exact hshown
    · have hglyph := hshown.join (Shows.nil n.glyph)
      rwa [List.append_nil] at hglyph
  rwa [List.zipIdx_map_fst, List.nil_append] at hshows

end Scribe

/-! ### The arguments that a notation writes -/

namespace Notation

/-- The notation stands before or behind one operand. -/
def IsUnary (n : Notation) : Prop :=
  n.kind = .prefixOp ∨ n.kind = .postfixOp

/-- The arguments that the rule of the kind writes. -/
def written (n : Notation) (arguments : List Expression) : List Expression :=
  match n.kind with
  | .prefixOp => arguments.take 1
  | .postfixOp => arguments.take 1
  | _ => arguments

end Notation

namespace Scribe

variable {scribe : Scribe} {arguments others : List Expression} {text name : String} {n : Notation}

/-- The text of a node shows the arguments that the notation writes. -/
theorem shows_of_byKind (h : Serializer.byKind scribe n name arguments = .ok text) :
    scribe.Shows (n.written arguments) text := by
  revert h
  unfold Serializer.byKind Notation.written
  cases n.kind with
  | infixOp _ => exact shows_of_chain
  | prefixOp =>
    cases arguments with
    | nil => nofun
    | cons operand others =>
      intro h
      obtain ⟨t, ht, htext⟩ := bind_eq_ok.mp h
      cases htext
      exact (Shows.nil n.glyph).join (shows_of_wrap ht)
  | postfixOp =>
    cases arguments with
    | nil => nofun
    | cons operand others =>
      intro h
      obtain ⟨t, ht, htext⟩ := bind_eq_ok.mp h
      cases htext
      exact (shows_of_wrap ht).map (.before n.glyph)
  | matchfix close =>
    intro h
    obtain ⟨items, hitems, htext⟩ := bind_eq_ok.mp h
    cases htext
    exact (shows_of_list hitems).map fun hholds => (hholds.behind n.glyph).before close
  | command _ => exact shows_of_bracedArguments
  | function =>
    intro h
    obtain ⟨items, hitems, htext⟩ := bind_eq_ok.mp h
    cases htext
    exact (shows_of_list hitems).map fun hholds => hholds.parenthesized.behind n.glyph
  | symbol => exact shows_of_application
  | custom => exact shows_of_application

/-- A prefix or postfix notation writes the same whatever stands behind the first argument. -/
theorem byKind_congr_of_isUnary (hunary : n.IsUnary) (hhead : others.head? = arguments.head?) :
    Serializer.byKind scribe n name others = Serializer.byKind scribe n name arguments := by
  unfold Serializer.byKind
  rcases hunary with hkind | hkind <;> rw [hkind] <;>
    cases arguments <;> cases others <;> simp_all

end Scribe

/-! ### Programs that miss no operand -/

/-- The program does not end for want of an operand. -/
def Supplied {α : Type} (x : Except WriteFault α) : Prop :=
  ∀ name, x ≠ .error (.fatal (.missingOperand name))

namespace Supplied

variable {α β : Type} {x : Except WriteFault α}

theorem ok (a : α) : Supplied (.ok a) :=
  nofun

theorem bind {f : α → Except WriteFault β} (h : Supplied x) (hf : ∀ a, Supplied (f a)) :
    Supplied (x >>= f) := by
  cases x with
  | ok a => exact hf a
  | error fault =>
    intro name hname
    cases hname
    exact h name rfl

/-- What comes after the last program that can fail. -/
theorem map {f : α → β} (h : Supplied x) : Supplied (x >>= fun a => .ok (f a)) :=
  h.bind fun a => .ok (f a)

theorem mapM {f : α → Except WriteFault β} {as : List α} (h : ∀ a ∈ as, Supplied (f a)) :
    Supplied (as.mapM f) := by
  induction as with
  | nil => exact .ok []
  | cons a as ih =>
    obtain ⟨ha, has⟩ := List.forall_mem_cons.mp h
    rw [List.mapM_cons]
    exact ha.bind fun b => (ih has).map

theorem foldlM {f : β → α → Except WriteFault β} {as : List α} (h : ∀ b, ∀ a ∈ as, Supplied (f b a))
    (b : β) : Supplied (as.foldlM f b) := by
  induction as generalizing b with
  | nil => exact .ok b
  | cons a as ih =>
    rw [List.foldlM_cons]
    exact (h b a List.mem_cons_self).bind (ih fun b a ha => h b a (List.mem_cons_of_mem _ ha))

end Supplied

/-- The nodes below can be written without missing an operand. -/
def Scribe.Supplies (scribe : Scribe) : Prop :=
  ∀ e, Supplied (scribe.serialize e)

/-- The hook misses no operand of its own. -/
def WritingHook.Supplies (hook : WritingHook) : Prop :=
  ∀ ⦃scribe : Scribe⦄, scribe.Supplies → ∀ arguments, Supplied (hook scribe arguments)

namespace Scribe.Supplies

variable {scribe : Scribe} {n : Notation} (h : scribe.Supplies)

include h

theorem wrap (e : Expression) (loosest : Precedence) : Supplied (scribe.wrap e loosest) :=
  (h e).map

theorem list (arguments : List Expression) : Supplied (scribe.list arguments) :=
  (Supplied.mapM fun a _ => h a).map

theorem bracedArguments (start : String) (arguments : List Expression) :
    Supplied (scribe.bracedArguments start arguments) :=
  .foldlM (fun _ a _ => (h a).map) start

theorem application (name : String) (arguments : List Expression) :
    Supplied (scribe.application name arguments) := by
  unfold Scribe.application
  split
  · exact h.bracedArguments name arguments
  · exact (h.list arguments).map

theorem chain (n : Notation) (arguments : List Expression) :
    Supplied (Serializer.chain scribe n arguments) :=
  .foldlM (fun _ operand _ => (h.wrap operand.1 _).map) ""

/-- The rule of a kind misses an operand only where there is no argument. -/
theorem byKind {arguments : List Expression} (harguments : n.IsUnary → arguments ≠ [])
    (name : String) : Supplied (Serializer.byKind scribe n name arguments) := by
  unfold Serializer.byKind
  cases hkind : n.kind with
  | infixOp _ => exact h.chain n arguments
  | prefixOp =>
    cases arguments with
    | nil => exact absurd rfl (harguments (.inl hkind))
    | cons operand others => exact (h.wrap operand _).map
  | postfixOp =>
    cases arguments with
    | nil => exact absurd rfl (harguments (.inr hkind))
    | cons operand others => exact (h.wrap operand _).map
  | matchfix close => exact (h.list arguments).map
  | command _ => exact h.bracedArguments _ arguments
  | function => exact (h.list arguments).map
  | symbol => exact h.application name arguments
  | custom => exact h.application name arguments

end Scribe.Supplies

namespace Writers

variable {scribe : Scribe}

theorem supplies_sum : WritingHook.Supplies sum := by
  intro scribe h arguments
  cases arguments with
  | nil => exact .ok _
  | cons first rest =>
    refine (h.wrap first _).bind (.foldlM fun text term _ => ?_)
    unfold addTerm
    split
    · exact (h term).map
    · exact (h.wrap term _).map

section

variable (h : scribe.Supplies)

include h

theorem supplied_moreFactors (previous : Expression) (written : String) (es : List Expression) :
    Supplied (moreFactors scribe previous written es) := by
  induction es generalizing previous written with
  | nil => exact .ok _
  | cons factor rest ih => exact (h.wrap factor _).bind fun text => ih factor _

theorem supplied_factors (es : List Expression) : Supplied (factors scribe es) := by
  cases es with
  | nil => exact .ok _
  | cons first rest => exact (h.wrap first _).bind fun text => supplied_moreFactors h first text rest

theorem supplied_scriptBase (base : Expression) : Supplied (scriptBase scribe base) :=
  (h.wrap base _).map

end

theorem supplies_product : WritingHook.Supplies product := by
  intro scribe h arguments
  unfold product
  split
  · exact .ok _
  · refine (supplied_factors h _).bind fun top => ?_
    split
    · exact .ok _
    · exact (supplied_factors h _).map

theorem supplies_power : WritingHook.Supplies power := by
  intro scribe h arguments
  unfold power
  split
  · next base exponent =>
    split
    · split
      · exact (h base).map
      · exact (h _).map
    · split
      · exact (h base).map
      · exact (h base).map
      · exact (supplied_scriptBase h base).map
      · exact (supplied_scriptBase h base).bind fun _ => (h exponent).map
  · exact h.application "Power" arguments

theorem supplies_subscript : WritingHook.Supplies subscript := by
  intro scribe h arguments
  unfold subscript
  split
  · next base index => exact (supplied_scriptBase h base).bind fun _ => (h index).map
  · exact h.application "Subscript" arguments

theorem supplies_root : WritingHook.Supplies root := by
  intro scribe h arguments
  unfold root
  split
  · next radicand index => exact (h index).bind fun _ => (h radicand).map
  · exact h.application "Root" arguments

theorem supplies_error : WritingHook.Supplies error := by
  intro scribe h arguments
  unfold error
  split
  · exact .ok _
  · exact .ok _
  · exact (h _).map
  · exact .ok _

theorem supplies_verbatim (spell : String → String) : WritingHook.Supplies (verbatim spell) := by
  intro scribe h arguments
  refine .foldlM (fun written argument _ => ?_) ""
  cases argument with
  | text content => exact .ok _
  | _ => exact (h _).map

/-- The hooks of the standard notations miss no operand. -/
theorem Standard.supplies {hook : WritingHook} (h : Standard hook) : hook.Supplies := by
  cases h with
  | sum => exact supplies_sum
  | product => exact supplies_product
  | power => exact supplies_power
  | subscript => exact supplies_subscript
  | root => exact supplies_root
  | error => exact supplies_error
  | verbatim spell => exact supplies_verbatim spell

end Writers

/-! ### Nodes -/

namespace Serializer

variable {s : Serializer} {levels : Nat} {name text : String} {n : Notation}
  {arguments others : List Expression}

/-- A notation without a hook that accepts the arguments writes by the rule of its kind. -/
theorem within_succ_eq_byKind (hlookup : s.dictionary.lookup name = some n)
    (hwriter : n.writer = none) (harity : n.arity.accepts arguments.length = true) :
    s.within (levels + 1) (.apply (.symbol name) arguments) =
      byKind (s.scribe (s.within levels)) n name arguments := by
  rw [within, node, named, hlookup]
  simp only [hwriter]
  rw [if_pos harity]

/-- A notation of the serializer that is written without a hook and wants an operand always has
one. -/
def Supplies (s : Serializer) : Prop :=
  ∀ name n, s.dictionary.lookup name = some n → n.writer = none → n.IsUnary →
    n.arity.accepts 0 = false

theorem supplied_named (hhooks : ∀ n ∈ s.dictionary.entries, ∀ hook ∈ n.writer, hook.Supplies)
    (h : s.Supplies) {scribe : Scribe} (hscribe : scribe.Supplies) (name : String)
    (arguments : List Expression) : Supplied (s.named scribe name arguments) := by
  unfold named
  cases hlookup : s.dictionary.lookup name with
  | none => exact hscribe.application name arguments
  | some n =>
    dsimp only
    cases hwriter : n.writer with
    | some hook =>
      exact hhooks n (Dictionary.mem_entries_of_lastOf hlookup) hook hwriter hscribe arguments
    | none =>
      dsimp only
      split
      · next harity =>
        refine hscribe.byKind (fun hunary => ?_) name
        rintro rfl
        exact Bool.false_ne_true ((h name n hlookup hwriter hunary).symm.trans harity)
      · exact hscribe.application name arguments

theorem supplied_within (hhooks : ∀ n ∈ s.dictionary.entries, ∀ hook ∈ n.writer, hook.Supplies)
    (h : s.Supplies) (levels : Nat) (e : Expression) : Supplied (s.within levels e) := by
  induction levels generalizing e with
  | zero => nofun
  | succ levels ih =>
    have hscribe : (s.scribe (s.within levels)).Supplies := ih
    unfold within node
    split
    · exact .ok _
    · exact .ok _
    · exact .ok _
    · nofun
    · exact .ok _
    · exact supplied_named hhooks h hscribe _ _
    · exact (hscribe.wrap _ _).bind fun text => (hscribe.list _).map

/-- Nothing is written for want of an operand just if the expression is. -/
theorem run_eq_missingOperand_iff {e : Expression} :
    s.run e = .error (.missingOperand name) ↔
      s.serialize e = .error (.fatal (.missingOperand name)) := by
  unfold run
  split <;> simp_all

/-- No operand is ever missing just if there are no levels to write on, or each prefix or postfix
notation without a hook refuses to be written without an argument. -/
theorem run_ne_missingOperand_iff
    (hhooks : ∀ n ∈ s.dictionary.entries, ∀ hook ∈ n.writer, hook.Supplies) :
    (∀ e name, s.run e ≠ .error (.missingOperand name)) ↔
      s.options.maxDepth = 0 ∨ s.Supplies := by
  simp only [ne_eq, run_eq_missingOperand_iff, serialize]
  constructor
  · intro h
    rcases Nat.eq_zero_or_pos s.options.maxDepth with hzero | hpos
    · exact .inl hzero
    · obtain ⟨levels, hlevels⟩ := Nat.exists_eq_add_of_lt hpos
      refine .inr fun name n hlookup hwriter hunary => Bool.eq_false_iff.mpr fun harity => ?_
      -- An application to nothing takes one level, and there is one.
      have hnode : s.within (levels + 1) (.apply (.symbol name) []) = byKind _ n name [] :=
        within_succ_eq_byKind hlookup hwriter harity
      refine h (.apply (.symbol name) []) n.name ?_
      rw [hlevels, Nat.zero_add, hnode, byKind]
      rcases hunary with hkind | hkind <;> rw [hkind] <;> rfl
  · rintro (hzero | h) e
    · rw [hzero]
      nofun
    · exact supplied_within hhooks h _ e

/-- Writing never fails for want of an operand just if there are no levels to write on, or each
prefix or postfix notation without a hook refuses to be written without an argument. The text of a
node that a notation writes by the rule of its kind shows the texts of all arguments, but those of a
prefix or postfix notation behind the first one: it writes the same whatever they are. -/
theorem supplied_iff_and_shows_written
    (hhooks : ∀ n ∈ s.dictionary.entries, ∀ hook ∈ n.writer, hook.Supplies) :
    ((∀ e name, s.run e ≠ .error (.missingOperand name)) ↔
      s.options.maxDepth = 0 ∨ s.Supplies) ∧
    ∀ levels name n arguments text, s.dictionary.lookup name = some n → n.writer = none →
      n.arity.accepts arguments.length = true →
      s.within (levels + 1) (.apply (.symbol name) arguments) = .ok text →
      (s.scribe (s.within levels)).Shows (n.written arguments) text ∧
      (n.IsUnary → ∀ others, n.arity.accepts others.length = true →
        others.head? = arguments.head? →
        s.within (levels + 1) (.apply (.symbol name) others) = .ok text) := by
  refine ⟨run_ne_missingOperand_iff hhooks, ?_⟩
  intro levels name n arguments text hlookup hwriter harity htext
  have hnode : s.within (levels + 1) (.apply (.symbol name) arguments) = _ :=
    within_succ_eq_byKind hlookup hwriter harity
  rw [hnode] at htext
  refine ⟨Scribe.shows_of_byKind htext, fun hunary others hothers hhead => ?_⟩
  rw [within_succ_eq_byKind hlookup hwriter hothers,
    Scribe.byKind_congr_of_isUnary hunary hhead, htext]

end Serializer

/-! ### A prefix notation for any number of operands -/

/-- A prefix notation that accepts an application to `min` or more arguments. -/
def Notation.anyPrefix (min : Nat) : Notation :=
  (ofPrefix "P" "\\p" .negation).withArity min none

namespace Serializer

/-- Writes by the standard notations and the prefix notation. -/
def ofAnyPrefix (min : Nat) : Serializer :=
  ⟨⟨Dictionary.standardEntries ++ [.anyPrefix min], []⟩, {}⟩

theorem hooks_supply_ofAnyPrefix (min : Nat) :
    ∀ n ∈ (ofAnyPrefix min).dictionary.entries, ∀ hook ∈ n.writer, hook.Supplies := by
  refine List.forall_mem_append.mpr ⟨fun n hn hook hhook => ?_, List.forall_mem_singleton.mpr nofun⟩
  exact (Dictionary.writtenAsStandard_standardEntries n hn hook hhook).supplies

/-- No notation for one operand accepts an application without arguments. -/
theorem supplies_ofAnyPrefix_one : (ofAnyPrefix 1).Supplies := by
  have hall : (ofAnyPrefix 1).dictionary.entries.all fun n =>
      n.kind == .prefixOp || n.kind == .postfixOp → n.arity.accepts 0 = false := by decide
  intro name n hlookup _ hunary
  have hn := List.all_eq_true.mp hall n (Dictionary.mem_entries_of_lastOf hlookup)
  refine of_decide_eq_true hn ?_
  rcases hunary with hkind | hkind <;> rw [hkind] <;> rfl

/-- One argument is wanted, and the one behind it is left out. -/
theorem supplied_iff_and_shows_written_anyPrefix :
    (∀ n ∈ (ofAnyPrefix 1).dictionary.entries, ∀ hook ∈ n.writer, hook.Supplies) ∧
    (∀ e name, (ofAnyPrefix 1).run e ≠ .error (.missingOperand name)) ∧
    ((ofAnyPrefix 1).scribe ((ofAnyPrefix 1).within 1)).Shows [.symbol "a"] "\\p a" ∧
    (ofAnyPrefix 1).within 2 (.function "P" [.symbol "a", .symbol "b"]) = .ok "\\p a" := by
  obtain ⟨hsupplied, hshows⟩ := supplied_iff_and_shows_written (hooks_supply_ofAnyPrefix 1)
  obtain ⟨hwritten, hothers⟩ :=
    hshows 1 "P" (.anyPrefix 1) [.symbol "a"] "\\p a" rfl rfl rfl rfl
  exact ⟨hooks_supply_ofAnyPrefix 1, hsupplied.mpr (.inr supplies_ofAnyPrefix_one), hwritten,
    hothers (.inl rfl) [.symbol "a", .symbol "b"] rfl rfl⟩

/-- Where no argument is accepted, writing fails for want of one; where two are, the second one is
not in the text. -/
theorem not_supplied_and_shows_anyPrefix :
    Dictionary.standard.withOverrides [.anyPrefix 0] = .ok (ofAnyPrefix 0).dictionary ∧
    (ofAnyPrefix 0).dictionary.lookup "P" = some (.anyPrefix 0) ∧
    (Notation.anyPrefix 0).writer = none ∧ (Notation.anyPrefix 0).arity.accepts 0 = true ∧
    (Notation.anyPrefix 0).arity.accepts 2 = true ∧
    (ofAnyPrefix 0).run (.function "P" []) = .error (.missingOperand "P") ∧
    (ofAnyPrefix 0).run (.function "P" [.symbol "a", .symbol "b"]) = .ok ⟨"\\p a", []⟩ ∧
    ¬ ((ofAnyPrefix 0).scribe ((ofAnyPrefix 0).within 1)).Shows [.symbol "a", .symbol "b"]
      "\\p a" := by
  refine ⟨rfl, rfl, rfl, rfl, rfl, rfl, rfl, ?_⟩
  rintro ⟨texts, hserialize, hholds⟩
  obtain ⟨a, _, -, hrest, rfl⟩ := List.forall₂_cons_left_iff.mp hserialize
  obtain ⟨b, _, hb, -, rfl⟩ := List.forall₂_cons_left_iff.mp hrest
  cases hb
  have hpart := hholds.isInfix_of_mem (List.mem_cons_of_mem a List.mem_cons_self)
  exact absurd (hpart.subset List.mem_cons_self) (by decide)

end Serializer

end TexFormula
