import TexFormula.Parser.Expression
import TexFormula.Proofs.SideBySide.Operand

/-!
# Expressions side by side

Operators are looked up under triggers that both dictionaries know alike, so that the loop behind an
operand takes the same steps on both sides (`twin_chain`). The readers of all levels are twins by
induction on the levels (`twin_within`).
-/

namespace TexFormula.Parser.SideBySide

variable {w : SideBySide} {inner inner' : Inner} {s s' : State}

/-! ### Operators -/

theorem look_extend (name : String) (chained : Bool) (lhs rhs : Expression) :
    look (extend name chained lhs rhs) = (false, none) := by
  unfold extend
  split <;> rfl

theorem extend_same {t : State} {name : String} {chained : Bool} {lhs lhs' rhs rhs' : Expression}
    (hl : w.Same look t lhs lhs') (hr : w.Same look t rhs rhs') :
    w.Same look t (extend name chained lhs rhs) (extend name chained lhs' rhs') where
  view := by rw [look_extend, look_extend]
  eq hc := by rw [hl.eq hc, hr.eq hc]

/-- What the loop finds out about an application and the notation it was made by. -/
def lookApplied (x : Expression × Notation) : (Bool × Option String) × Notation :=
  (look x.1, x.2)

section

variable (hi : w.Inners inner inner')

include hi

theorem twin_applyOperator {n : Notation} (hn : ∀ hook, n.reader = some hook → w.Admits hook)
    {lhs lhs' : Expression} (hl : w.Same look s lhs lhs') (chain : Option String)
    (hs : w.Alike s s') :
    w.Twin (w.Same (Option.map look)) s s' (applyOperator w.left inner n lhs chain)
      (applyOperator w.right inner' n lhs' chain) := by
  unfold applyOperator
  split
  · next hook hreader => exact twin_run hi (hn hook hreader) hl.some hs
  · split
    · exact .pure hs (Same.some (.function fun hc => by rw [hl.eq hc]))
    · refine (hi.expression _ hs).bind fun rhs rhs' t t' ht hclear hr => ?_
      dsimp only
      rw [hr.isMissing]
      refine .ite (fun _ => .recordHere ht fun u u' hu hclear' => .pure hu ?_) fun _ => .pure ht ?_
      · exact (extend_same (hl.mono fun hc => hclear (hclear' hc)) (hr.mono hclear')).some
      · exact (extend_same (hl.mono hclear) hr).some
    · exact .pure hs hl.some

theorem twin_firstOperator {notations : List Notation}
    (h : ∀ n ∈ notations, ∀ hook, n.reader = some hook → w.Admits hook) {lhs lhs' : Expression}
    (hl : w.Same look s lhs lhs') (chain : Option String) (hs : w.Alike s s') :
    w.Twin (w.Same (Option.map lookApplied)) s s' (firstOperator w.left inner lhs chain notations)
      (firstOperator w.right inner' lhs' chain notations) := by
  induction notations generalizing s s' with
  | nil => exact .pure hs (.refl _ _)
  | cons n rest ih =>
    refine .orElse (.attempt hs (.advance hs fun ht => ?_)) fun t t' ht hclear => ?_
    · refine (twin_applyOperator hi (h n (.head _)) (hl.mono Clear.of_forward) chain ht).bind
        fun o o' u u' hu _ ho => .pure hu ?_
      rcases ho.none_or_some with ⟨rfl, rfl⟩ | ⟨e, e', rfl, rfl, he⟩
      · exact .refl _ _
      · exact Same.some ⟨by simp [lookApplied, he.view], fun hc => by rw [he.eq hc]⟩
    · exact ih (fun n hn => h n (.tail _ hn)) (hl.mono hclear) ht

/-! ### The loop behind an operand -/

theorem twin_chain (loosest : Precedence) (fuel : Nat) {lhs lhs' : Operand}
    (hl : w.Same Operand.look s lhs lhs') (chained : Option String) (hs : w.Alike s s') :
    w.Twin (w.Same look) s s' (chain w.left inner loosest fuel lhs chained)
      (chain w.right inner' loosest fuel lhs' chained) := by
  induction fuel generalizing s s' lhs lhs' chained with
  | zero => exact .pure hs hl.expression
  | succ fuel ih =>
    refine .skipSpacing hs fun t t' ht hclear => .atTerminator ht ?_
    have hl := hl.mono hclear
    refine .ite (fun _ => .pure ht hl.expression) fun _ => .current ?_
    rw [hl.callable, ht.current.isPunct, hasOperator_congr ht.current]
    refine .ite (fun _ => ?_) fun _ => ?_
    · refine (twin_delimitedArguments hi ht).bind fun es es' u u' hu hclear hes => ih ?_ none hu
      exact ⟨rfl, fun hc => by rw [hl.expression.eq (hclear hc), hes hc]⟩
    · cases hoperator : (t.current w.left).trigger?.filter w.left.dictionary.hasOperator with
      | some trigger =>
        have hknown := ht.current.known trigger (Option.eq_some_of_filter_eq_some hoperator)
        have hcandidates : candidates w.right trigger loosest = candidates w.left trigger loosest := by
          simp only [candidates, Dictionary.operators, hknown.readAt]
        have hadmits : ∀ n ∈ candidates w.left trigger loosest, ∀ hook, n.reader = some hook →
            w.Admits hook := fun n hn =>
          hknown.admits n (List.mem_filter.mp (List.mem_filter.mp hn).1).1
        simp only [hcandidates]
        refine (twin_firstOperator hi hadmits hl.expression chained ht).bind
          fun o o' u u' hu hclear ho => ?_
        rcases ho.none_or_some with ⟨rfl, rfl⟩ | ⟨⟨e, n⟩, ⟨e', n'⟩, rfl, rfl, he⟩
        · exact .pure hu (hl.expression.mono hclear)
        · obtain ⟨hlook, rfl⟩ := Prod.mk.inj he.view
          refine ih (Same.operand ⟨hlook, fun hc => ?_⟩ false) _ hu
          exact congrArg Prod.fst (he.eq hc)
      | none =>
        refine .ite (fun _ => .pure ht hl.expression) fun _ => .get ?_
        refine (hi.expression _ ht).bind fun factor factor' u u' hu hclear hf => .get ?_
        rw [hu.position, ht.position, hf.isMissing]
        refine .ite (fun _ => .pure hu (hl.expression.mono hclear)) fun _ => ih ?_ _ hu
        exact (extend_same (hl.expression.mono hclear) hf).operand false

theorem twin_expressionAt (loosest : Precedence) (hs : w.Alike s s') :
    w.Twin (w.Same look) s s' (expressionAt w.left inner loosest)
      (expressionAt w.right inner' loosest) := by
  refine (twin_operand hi hs).bind fun o o' t t' ht _ ho => ?_
  rcases ho.none_or_some with ⟨rfl, rfl⟩ | ⟨lhs, lhs', rfl, rfl, hl⟩
  · refine .current ?_
    rw [hasOperator_congr ht.current]
    split
    · next trigger _ =>
      refine .atTerminator ht (.ite (fun _ => .pure ht (.refl _ _)) fun _ => ?_)
      refine .recordAt ht ht.current fun u u' hu _ => .get ?_
      rw [hu.length_rest]
      exact twin_chain hi loosest _ (.refl _ _) none hu
    · exact .pure ht (.refl _ _)
  · refine .get ?_
    rw [ht.length_rest]
    exact twin_chain hi loosest _ hl none ht

end

/-! ### Levels and whole texts -/

theorem twin_within (levels : Nat) :
    w.Inners (within w.left levels) (within w.right levels) := by
  induction levels with
  | zero =>
    refine ⟨fun _ _ _ _ => ?_, fun _ => ?_⟩
    all_goals
      simp only [within, w.options]
      exact .throw _
  | succ levels ih =>
    refine ⟨fun loosest _ _ hs => .descend hs fun t t' ht _ => twin_expressionAt ih loosest ht,
      fun {s s'} hs => ?_⟩
    have hoperand : w.Twin (w.Same (Option.map Operand.look)) s s'
        (descend w.left (operand w.left (within w.left levels)))
        (descend w.right (operand w.right (within w.right levels))) :=
      .descend hs fun t t' ht _ => twin_operand ih ht
    refine (hoperand.bind fun o o' t t' ht _ ho => .pure ht ?_).of_step rfl rfl id
    rcases ho.none_or_some with ⟨rfl, rfl⟩ | ⟨a, a', rfl, rfl, ha⟩
    · exact .refl _ _
    · exact ha.expression.some

theorem twin_parts {readers readers' : Inner} (hr : w.Inners readers readers') (fuel : Nat)
    (hs : w.Alike s s') :
    w.Twin w.Given s s' (parts w.left readers fuel) (parts w.right readers' fuel) := by
  induction fuel generalizing s s' with
  | zero => exact .pure hs fun _ => rfl
  | succ fuel ih =>
    refine (hr.expression .loosest hs).bind fun e e' t t' ht _ he => .get ?_
    rw [he.isMissing, ht.isEmpty_rest]
    refine .ite (fun _ => .pure ht fun hc => by rw [he.eq hc]) fun _ => .current ?_
    refine (twin_unexpected ht ht.current).bind fun o o' u u' hu hclear ho => ?_
    refine (ih hu).bind fun es es' v v' hv hclear' hes => .pure hv fun hc => ?_
    rw [he.eq (hclear (hclear' hc)), ho.eq (hclear' hc), hes hc]

theorem twin_root (hs : w.Alike s s') : w.Twin w.Given s s' (root w.left) (root w.right) := by
  have hreaders : w.Inners w.left.readers w.right.readers := by
    rw [Env.readers, Env.readers, w.options]
    exact twin_within _
  refine .get ?_
  rw [hs.length_rest]
  refine (twin_parts hreaders _ hs).bind fun es es' t t' ht _ hes => .pure ht fun hc => ?_
  rw [hes hc]

end TexFormula.Parser.SideBySide
