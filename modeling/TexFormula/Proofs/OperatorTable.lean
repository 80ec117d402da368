import Mathlib.Data.List.Nodup
import Mathlib.Data.List.Pairwise
import TexFormula.Proofs.AliasChains
import TexFormula.Proofs.Reads
import TexFormula.Proofs.ResolvedNotations
import TexFormula.Serializer

/-!
# Tables of operators

An `OperatorTable` is a list of notations that are described by their kind, precedence and
associativity alone, each filed under one token. In the dictionary of such a table, names and places
of triggers have one notation.

The expressions over a table are those that it is made for (`Over`). `rightEdge` is the precedence
from which on an operator behind the text of an expression would be taken into it.
-/

namespace TexFormula

namespace Notation

/-- Nothing but its kind says how the notation is read and written. -/
structure Bare (n : Notation) : Prop where
  latex : n.latex = none
  aliasOf : n.aliasOf = none
  parseOnly : n.parseOnly = false
  serializeOnly : n.serializeOnly = false
  reader : n.reader = none
  writer : n.writer = none

/-- The notation is an operator or a command, and takes as many arguments as its kind has. -/
def Operates (n : Notation) : Prop :=
  match n.kind with
  | .infixOp true => n.arity = .atLeast 2 ∧ n.associativity = .left ∧ n.precedence < .atomic
  | .infixOp false => n.arity = .exactly 2 ∧ n.precedence < .atomic
  | .prefixOp => n.arity = .exactly 1 ∧ n.precedence < .atomic
  | .postfixOp => n.arity = .exactly 1 ∧ n.precedence < .atomic
  | .command count => n.arity = .exactly count
  | _ => False

/-- The trigger is one token, of a kind to which only notations give a meaning. -/
def HasFreeTrigger (n : Notation) : Prop :=
  ∃ trigger kind, n.trigger = some trigger ∧
    (Token.ofSource trigger).map Token.kind = [kind, .ending] ∧ Parser.Free kind

def isInfix (n : Notation) : Bool :=
  match n.kind with
  | .infixOp _ => true
  | _ => false

end Notation

structure OperatorTable (entries : List Notation) : Prop where
  bare : ∀ n ∈ entries, n.Bare
  operates : ∀ n ∈ entries, n.Operates
  free : ∀ n ∈ entries, n.HasFreeTrigger
  long : ∀ n ∈ entries, 2 ≤ n.name.length
  distinct : (entries.map Notation.name).Nodup
  /-- Notations for the same place have different triggers. -/
  apart : entries.Pairwise fun n m => n.followsOperand = m.followsOperand → n.trigger ≠ m.trigger
  /-- A right-associative operator shares its precedence only with its like. -/
  right : ∀ n ∈ entries, n.isInfix = true → n.associativity = .right → ∀ m ∈ entries,
    m.followsOperand = true → m.precedence = n.precedence →
    m.isInfix = true ∧ m.associativity = .right

/-- The glyph of a notation is its trigger, and one token. -/
theorem Notation.HasFreeTrigger.mark_glyph {n : Notation} (h : n.HasFreeTrigger) (hn : n.Bare) :
    ∃ kind, Lexeme.Mark n.glyph.toList kind ∧ Parser.Free kind ∧
      kind.trigger? = some n.glyph ∧ n.trigger = some n.glyph := by
  obtain ⟨trigger, kind, htrigger, htokens, hfree⟩ := h
  have hglyph : n.glyph = trigger := by
    rw [Notation.glyph, hn.latex, htrigger]
    rfl
  have hmark : Lexeme.Mark trigger.toList kind := .of_tokens htokens (by
    cases kind with
    | punct c => exact .inl ⟨c, rfl⟩
    | command name => exact .inr ⟨name, rfl⟩
    | _ => exact hfree.elim)
  rw [hglyph]
  exact ⟨kind, hmark, hfree, by rw [hmark.trigger?_eq, String.ofList_toList], htrigger⟩

/-- The expressions that can be written with the notations of a table. -/
inductive Over (entries : List Notation) : Expression → Prop
  | letter {c : Char} (h : Text.isLetter c = true) : Over entries (.symbol (String.singleton c))
  | application {n : Notation} {arguments : List Expression} (hn : n ∈ entries)
      (haccepts : n.arity.accepts arguments.length = true)
      (harguments : ∀ a ∈ arguments, Over entries a)
      (hhead : n.isVariadic = true → ∀ a ∈ arguments.head?, a.headName? ≠ some n.name) :
      Over entries (.function n.name arguments)

/-! ### The dictionary of a table -/

namespace OperatorTable

variable {entries : List Notation} {d : Dictionary} {n m : Notation} {trigger name : String}

theorem dictionary_eq (ht : OperatorTable entries) (hd : Dictionary.ofList entries = .ok d) :
    d = ⟨entries, []⟩ :=
  Dictionary.eq_of_ofList_eq_ok (fun n hn => (ht.bare n hn).aliasOf) hd

theorem eq_of_name_eq (ht : OperatorTable entries) (hn : n ∈ entries) (hm : m ∈ entries)
    (h : m.name = n.name) : m = n :=
  List.inj_on_of_nodup_map ht.distinct hm hn h

theorem eq_of_trigger_eq (ht : OperatorTable entries) (hn : n ∈ entries) (hm : m ∈ entries)
    (hplace : m.followsOperand = n.followsOperand) (h : m.trigger = n.trigger) : m = n := by
  have : Std.Symm fun n m : Notation => n.followsOperand = m.followsOperand →
      n.trigger ≠ m.trigger := ⟨fun _ _ hnm hplace h => hnm hplace.symm h.symm⟩
  by_contra hne
  exact ht.apart.forall hm hn hne hplace h

theorem lookup_of_mem (ht : OperatorTable entries) (hn : n ∈ entries) :
    Dictionary.lookup ⟨entries, []⟩ n.name = some n := by
  show entries.reverse.find? _ = _
  cases hfind : entries.reverse.find? fun m =>
      m.name == n.name && m.aliasOf.isNone && !m.parseOnly with
  | none =>
    have hnone := List.find?_eq_none.mp hfind n (List.mem_reverse.mpr hn)
    simp [(ht.bare n hn).aliasOf, (ht.bare n hn).parseOnly] at hnone
  | some m =>
    have hm := List.mem_reverse.mp (List.mem_of_find?_eq_some hfind)
    have hname := List.find?_some hfind
    simp only [Bool.and_eq_true, beq_iff_eq] at hname
    exact hfind.trans (congrArg some (ht.eq_of_name_eq hn hm hname.1.1))

theorem lookup_eq_none (h : ∀ n ∈ entries, n.name ≠ name) :
    Dictionary.lookup ⟨entries, []⟩ name = none := by
  refine List.find?_eq_none.mpr fun n hn => ?_
  have hne : (n.name == name) = false := beq_false_of_ne (h n (List.mem_reverse.mp hn))
  simp [Dictionary.canonicalName, hne]

/-- All notations of a trigger are read at it. -/
theorem readAt_eq (ht : OperatorTable entries) (trigger : String) :
    Dictionary.readAt ⟨entries, []⟩ trigger =
      entries.reverse.filter fun n => n.trigger == some trigger := by
  rw [Dictionary.readAt_of_plain fun n hn => (ht.bare n hn).aliasOf]
  refine List.filter_congr fun n hn => ?_
  rw [(ht.bare n (List.mem_reverse.mp hn)).serializeOnly]
  rfl

/-- A place of a trigger has one notation. -/
theorem filter_readAt (ht : OperatorTable entries) (hn : n ∈ entries)
    (htrigger : n.trigger = some trigger) {p : Notation → Bool} (hp : p n = true)
    (hplace : ∀ m, p m = true → m.followsOperand = n.followsOperand) :
    (Dictionary.readAt ⟨entries, []⟩ trigger).filter p = [n] := by
  rw [ht.readAt_eq]
  have hmem : n ∈ (entries.reverse.filter fun n => n.trigger == some trigger).filter p := by
    simp [hn, htrigger, hp]
  have hnodup : ((entries.reverse.filter fun n => n.trigger == some trigger).filter p).Nodup :=
    ((List.nodup_reverse.mpr ht.distinct.of_map).filter _).filter _
  have honly : ∀ m ∈ (entries.reverse.filter fun n => n.trigger == some trigger).filter p,
      m = n := by
    intro m hm
    simp only [List.mem_filter, List.mem_reverse, beq_iff_eq] at hm
    exact ht.eq_of_trigger_eq hn hm.1.1 (hplace m hm.2) (hm.1.2.trans htrigger.symm)
  have heq := List.eq_replicate_iff.mpr ⟨rfl, honly⟩
  rw [heq] at hmem hnodup ⊢
  have hle := List.nodup_replicate.mp hnodup
  have hpos := List.length_pos_of_mem hmem
  rw [List.length_replicate] at hpos
  rw [Nat.le_antisymm hle hpos]
  rfl

theorem operands_eq (ht : OperatorTable entries) (hn : n ∈ entries)
    (htrigger : n.trigger = some trigger) (hplace : n.followsOperand = false) :
    Dictionary.operands ⟨entries, []⟩ trigger = [n] :=
  ht.filter_readAt hn htrigger (by rw [hplace]; rfl) fun _ hm =>
    ((Bool.not_eq_true' _).mp hm).trans hplace.symm

theorem operators_eq (ht : OperatorTable entries) (hn : n ∈ entries)
    (htrigger : n.trigger = some trigger) (hplace : n.followsOperand = true) :
    Dictionary.operators ⟨entries, []⟩ trigger = [n] :=
  ht.filter_readAt hn htrigger hplace fun _ hm => hm.trans hplace.symm

theorem mark_glyph (ht : OperatorTable entries) (hn : n ∈ entries) :
    ∃ kind, Lexeme.Mark n.glyph.toList kind ∧ Parser.Free kind ∧
      kind.trigger? = some n.glyph ∧ n.trigger = some n.glyph :=
  (ht.free n hn).mark_glyph (ht.bare n hn)

/-- Letters are no triggers. -/
theorem readAt_letter (ht : OperatorTable entries) {c : Char} (hc : Text.isLetter c = true) :
    Dictionary.readAt ⟨entries, []⟩ (String.singleton c) = [] := by
  rw [ht.readAt_eq]
  refine List.filter_eq_nil_iff.mpr fun n hn heq => ?_
  obtain ⟨kind, hmark, -, -, htrigger⟩ := ht.mark_glyph (List.mem_reverse.mp hn)
  rw [eq_of_beq heq] at htrigger
  rw [← Option.some.inj htrigger, String.toList_singleton] at hmark
  rw [hmark.not_isLetter] at hc
  cases hc

end OperatorTable

/-! ### Precedences -/

section

variable {entries : List Notation} {n m : Notation} {e : Expression} {arguments : List Expression}

/-- The precedence from which on an operator behind the text of an expression would be read as a
part of it. -/
def rightEdge (d : Dictionary) (e : Expression) : Precedence :=
  match e.headName?.bind d.lookup with
  | some n =>
    match n.kind with
    | .infixOp _ => Parser.rightPrecedence n
    | .prefixOp => n.precedence.tighter
    | _ => .atomic
  | none => .atomic

/-- How tightly the operand in front of an operator must bind to stand there without parentheses. -/
def leftPrecedence (n : Notation) : Precedence :=
  if n.isInfix && n.associativity != .left then n.precedence.tighter else n.precedence

namespace Precedence

variable {p : Precedence}

theorem le_atomic (p : Precedence) : p ≤ .atomic := p.rank_le

theorem rank_tighter (h : p < .atomic) : p.tighter.rank = p.rank + 1 := by
  unfold tighter
  rw [dif_pos (show p.rank + 1 ≤ 65535 from h)]

theorem le_tighter (p : Precedence) : p ≤ p.tighter := by
  unfold tighter
  split
  · exact Nat.le_succ _
  · exact Nat.le_refl _

theorem le_antisymm {q : Precedence} (h : p ≤ q) (h' : q ≤ p) : p = q := by
  obtain ⟨rank, hrank⟩ := p
  obtain ⟨rank', hrank'⟩ := q
  obtain rfl : rank = rank' := Nat.le_antisymm h h'
  rfl

theorem tighter_le {q : Precedence} (h : p < q) : p.tighter ≤ q := by
  unfold tighter
  split
  · exact h
  · exact Nat.le_of_lt h

end Precedence

theorem precedence_le_rightPrecedence (n : Notation) : n.precedence ≤ Parser.rightPrecedence n := by
  unfold Parser.rightPrecedence
  split
  · exact Nat.le_refl _
  · exact Precedence.le_tighter _

theorem precedence_le_leftPrecedence (n : Notation) : n.precedence ≤ leftPrecedence n := by
  unfold leftPrecedence
  split
  · exact Precedence.le_tighter _
  · exact Nat.le_refl _

theorem Over.isMissing_eq_false (h : Over entries e) : e.isMissing = false := by
  cases h <;> rfl

namespace OperatorTable

theorem precedence_lt (ht : OperatorTable entries) (hn : n ∈ entries)
    (h : n.followsOperand = true ∨ n.kind = .prefixOp) : n.precedence < .atomic := by
  have hoperates := ht.operates n hn
  unfold Notation.Operates at hoperates
  unfold Notation.followsOperand at h
  split at hoperates
  · exact hoperates.2.2
  · exact hoperates.2
  · exact hoperates.2
  · exact hoperates.2
  · next hkind => rw [hkind] at h; simp at h
  · exact hoperates.elim

theorem precedenceOf_function (ht : OperatorTable entries) (hn : n ∈ entries) :
    (Serializer.mk ⟨entries, []⟩ {}).precedenceOf (.function n.name arguments) =
      match n.kind with
      | .infixOp _ => n.precedence
      | .prefixOp => n.precedence
      | .postfixOp => n.precedence
      | _ => .atomic := by
  unfold Serializer.precedenceOf Expression.function
  dsimp only [Expression.headName?, Expression.symbol?, Option.bind_some]
  exact ht.lookup_of_mem hn ▸ rfl

theorem rightEdge_function (ht : OperatorTable entries) (hn : n ∈ entries) :
    rightEdge ⟨entries, []⟩ (.function n.name arguments) =
      match n.kind with
      | .infixOp _ => Parser.rightPrecedence n
      | .prefixOp => n.precedence.tighter
      | _ => .atomic := by
  unfold rightEdge Expression.function
  dsimp only [Expression.headName?, Expression.symbol?, Option.bind_some]
  rw [ht.lookup_of_mem hn]

/-- Operators of the same precedence on both sides of an operand are told apart by their
associativities. -/
theorem lt_rightPrecedence (ht : OperatorTable entries) (hn : n ∈ entries) (hm : m ∈ entries)
    (hfollows : n.followsOperand = true) (hbetween : m.isInfix = true)
    (h : leftPrecedence n ≤ m.precedence) : n.precedence < Parser.rightPrecedence m := by
  have hlt := ht.precedence_lt hn (.inl hfollows)
  have hle : n.precedence ≤ m.precedence := Nat.le_trans (precedence_le_leftPrecedence n) h
  unfold Parser.rightPrecedence
  split
  · next hright =>
    rcases Nat.lt_or_eq_of_le hle with hlt | heq
    · exact hlt
    · have heq : n.precedence = m.precedence := by
        cases hp : n.precedence; cases hq : m.precedence; simp_all
      obtain ⟨hbetween, hright⟩ := ht.right m hm hbetween hright n hn hfollows heq
      have hleft : leftPrecedence n = n.precedence.tighter := by
        rw [leftPrecedence, hbetween, hright]
        rfl
      rw [hleft, heq, Precedence.le_def, Precedence.rank_tighter (heq ▸ hlt)] at h
      exact absurd h (Nat.not_succ_le_self _)
  · have hm := ht.precedence_lt hm (.inl (by
      unfold Notation.isInfix at hbetween
      unfold Notation.followsOperand
      split at hbetween
      · next hkind => rw [hkind]
      · cases hbetween))
    rw [Precedence.lt_def, Precedence.rank_tighter hm]
    exact Nat.lt_succ_of_le hle

/-- An operand that stands in front of an operator without parentheses is read to its end before
the operator is. -/
theorem lt_rightEdge (ht : OperatorTable entries) (hn : n ∈ entries)
    (hfollows : n.followsOperand = true)
    (h : leftPrecedence n ≤ (Serializer.mk ⟨entries, []⟩ {}).precedenceOf e) :
    n.precedence < rightEdge ⟨entries, []⟩ e := by
  have hlt := ht.precedence_lt hn (.inl hfollows)
  unfold Serializer.precedenceOf at h
  unfold rightEdge
  cases hlookup : e.headName?.bind (Dictionary.lookup ⟨entries, []⟩) with
  | none => exact hlt
  | some m =>
    rw [hlookup] at h
    dsimp only at h ⊢
    obtain ⟨name, -, hname⟩ := Option.bind_eq_some_iff.mp hlookup
    have hm : m ∈ entries := Dictionary.mem_entries_of_lastOf hname
    cases hkind : m.kind with
    | infixOp variadic =>
      rw [hkind] at h
      exact ht.lt_rightPrecedence hn hm hfollows (by rw [Notation.isInfix, hkind]) h
    | prefixOp =>
      rw [hkind] at h
      rw [Precedence.lt_def, Precedence.rank_tighter (ht.precedence_lt hm (.inr hkind))]
      exact Nat.lt_succ_of_le (Nat.le_trans (precedence_le_leftPrecedence n) h)
    | _ => exact hlt

/-- What is read behind an operator ends where its text does. -/
theorem precedence_le_rightEdge (e : Expression) :
    (Serializer.mk ⟨entries, []⟩ {}).precedenceOf e ≤ rightEdge ⟨entries, []⟩ e := by
  unfold Serializer.precedenceOf rightEdge
  dsimp only
  cases e.headName?.bind (Dictionary.lookup ⟨entries, []⟩) with
  | none => exact Nat.le_refl _
  | some n =>
    dsimp only
    cases n.kind with
    | infixOp variadic => exact precedence_le_rightPrecedence n
    | prefixOp => exact Precedence.le_tighter _
    | _ => exact Precedence.le_atomic _

end OperatorTable

end

end TexFormula
