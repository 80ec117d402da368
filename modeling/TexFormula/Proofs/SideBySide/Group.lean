import TexFormula.Parser.Group
import TexFormula.Proofs.SideBySide.Numeral

/-!
# Groups, arguments and hooks side by side

If the readers of the next level are twins (`SideBySide.Inners`), so are groups, arguments and the
hooks of the standard notations (`twin_run`).
-/

namespace TexFormula.Parser

theorem closing?_congr {depth : Nat} {ts ts' : List Token}
    (h : ts'.map (·.kind) = ts.map (·.kind)) : closing? depth ts' = closing? depth ts := by
  induction ts generalizing depth ts' with
  | nil => rw [List.map_eq_nil_iff.mp h]
  | cons t ts ih =>
    obtain ⟨t', us, rfl, ht, hus⟩ := exists_cons_of_map_kind h
    unfold closing?
    simp only [ht, ih hus]

namespace SideBySide

/-- The readers of the next level are twins. -/
structure Inners (w : SideBySide) (inner inner' : Inner) : Prop where
  expression (loosest : Precedence) {s s' : State} : w.Alike s s' →
    w.Twin (w.Same look) s s' (inner.expression loosest) (inner'.expression loosest)
  operand {s s' : State} : w.Alike s s' →
    w.Twin (w.Same (Option.map look)) s s' inner.operand inner'.operand

variable {w : SideBySide} {inner inner' : Inner} {s s' : State}

section

variable (hi : w.Inners inner inner')

include hi

theorem Inners.awaiting (close : String) (hs : w.Alike s s') :
    w.Twin (w.Same look) s s' (Parser.awaiting close (inner.expression .loosest))
      (Parser.awaiting close (inner'.expression .loosest)) :=
  .awaiting hs fun _ _ ht _ => hi.expression .loosest ht

theorem twin_groupBody (close : String) (closing : Token.Kind) (hs : w.Alike s s') :
    w.Twin (w.Same look) s s' (groupBody w.left inner close closing)
      (groupBody w.right inner' close closing) := by
  unfold groupBody
  refine (hi.awaiting close hs).bind fun body body' t t' ht _ hbody => .current ?_
  rw [ht.current.kind]
  dsimp only
  exact .ite (fun _ => .advance ht fun hu => .pure hu (hbody.mono Clear.of_forward)) fun _ =>
    .recordHere ht fun u u' hu hclear => .pure hu (hbody.mono hclear)

theorem twin_braceGroup (hs : w.Alike s s') :
    w.Twin (w.Same (Option.map look)) s s' (braceGroup w.left inner) (braceGroup w.right inner') := by
  unfold braceGroup
  refine .skipSpacing hs fun t t' ht _ => .current ?_
  rw [ht.current.kind]
  refine .ite (fun _ => .advance ht fun hu => ?_) fun _ => .pure ht (.refl _ _)
  exact (twin_groupBody hi _ _ hu).bind fun body body' v v' hv _ hbody => .pure hv hbody.some

theorem twin_bracketGroup (hs : w.Alike s s') :
    w.Twin (w.Same (Option.map look)) s s' (bracketGroup w.left inner)
      (bracketGroup w.right inner') := by
  unfold bracketGroup
  refine .skipSpacing hs fun t t' ht _ => .current ?_
  rw [ht.current.kind]
  refine .ite (fun _ => .advance ht fun hu => ?_) fun _ => .pure ht (.refl _ _)
  exact (twin_groupBody hi _ _ hu).bind fun body body' v v' hv _ hbody => .pure hv hbody.some

end

theorem twin_firstDigit {run : String} (hs : w.Alike s s')
    (hrun : (s.current w.left).digits? = some run) :
    w.Twin (w.Same look) s s' (firstDigit run) (firstDigit run) := by
  unfold firstDigit
  split
  · exact .pure hs (.refl _ _)
  · exact .advance hs fun ht => .pure ht (.refl _ _)
  · next hnil hone =>
    have hlong : 2 ≤ run.toList.length := by
      rcases hlist : run.toList with - | ⟨c, - | ⟨d, cs⟩⟩
      · exact absurd hlist hnil
      · exact absurd hlist (hone c)
      · simp
    have hdiagnostics : s.cutDigit.diagnostics = s.diagnostics := by
      unfold State.cutDigit
      repeat' split
      all_goals rfl
    have ht := hs.cutDigit hrun hlong
    refine Twin.of_step (.pure ht (.refl _ _)) rfl rfl fun h => h.of_diagnostics hdiagnostics

theorem twin_argument (hi : w.Inners inner inner') (command : String) (hs : w.Alike s s') :
    w.Twin (w.Same look) s s' (argument w.left inner command) (argument w.right inner' command) := by
  unfold argument
  refine (twin_braceGroup hi hs).bind fun group group' t t' ht _ hgroup => ?_
  rcases hgroup.none_or_some with ⟨rfl, rfl⟩ | ⟨e, e', rfl, rfl, he⟩
  · refine .current ?_
    rw [ht.current.digits?]
    cases hrun : (t.current w.left).digits? with
    | some run => exact twin_firstDigit ht hrun
    | none =>
      refine (hi.operand ht).bind fun operand operand' u u' hu _ hoperand => ?_
      rcases hoperand.none_or_some with ⟨rfl, rfl⟩ | ⟨e, e', rfl, rfl, he⟩
      · exact .recordHere hu fun v v' hv _ => .pure hv (.refl _ _)
      · exact .pure hu he
  · exact .pure ht he

/-- The raw texts of two groups, which are the same if the sources are. -/
def Raw (w : SideBySide) (_ : State) (raw raw' : Option String) : Prop :=
  raw'.isSome = raw.isSome ∧ (w.exact → raw' = raw)

theorem twin_rawGroup (hs : w.Alike s s') :
    w.Twin w.Raw s s' (rawGroup w.left) (rawGroup w.right) := by
  unfold rawGroup
  refine .skipSpacing hs fun t t' ht _ => .get ?_
  obtain ⟨before, after, h⟩ := ht
  have hkinds := Alike.kinds ⟨before, after, h⟩
  rw [h.rest, h.rest'] at hkinds ⊢
  have ht : w.Alike t t' := ⟨before, after, h⟩
  cases after with
  | nil => exact .pure ht ⟨rfl, fun _ => rfl⟩
  | cons opening after =>
    have hopening := h.pair_after (p := opening) (.head _)
    have hrest := (List.cons.inj hkinds).2
    simp only [List.map_cons, hopening.kind, closing?_congr hrest, List.length_map]
    refine .ite (fun _ => .pure ht ⟨rfl, fun _ => rfl⟩) fun _ => ?_
    cases closing? 0 (after.map (·.1)) with
    | some count =>
      refine .skip ht fun hu => .get (.pure hu ⟨rfl, fun hexact => ?_⟩)
      simp only [hopening.same hexact, hu.previous.same hexact, Env.slice, w.source hexact]
    | none =>
      refine .skip ht fun hu => .recordHere hu fun v v' hv _ => .pure hv ⟨rfl, fun hexact => ?_⟩
      simp only [hopening.same hexact, Env.slice, Env.ending, w.source hexact]

theorem twin_missingArgument (command : String) (hs : w.Alike s s') :
    w.Twin (w.Same (Option.map look)) s s'
      (run w.left inner (Readers.missingArgument command))
      (run w.right inner' (Readers.missingArgument command)) :=
  .recordHere hs fun _ _ ht _ => .pure ht (.refl _ _)

/-- The hooks of the standard notations are twins. -/
theorem twin_run (hi : w.Inners inner inner') {hook : ReadingHook} (hhook : w.Admits hook)
    {base base' : Option Expression} (hbase : w.Same (Option.map look) s base base')
    (hs : w.Alike s s') :
    w.Twin (w.Same (Option.map look)) s s' (run w.left inner (hook base))
      (run w.right inner' (hook base')) := by
  cases hhook with
  | unaryPlus =>
    refine (hi.expression Precedence.addition.tighter hs).bind fun e e' t t' ht _ he => ?_
    refine .pure ht ?_
    rw [he.isMissing]
    split
    · exact .refl _ _
    · exact he.some
  | power =>
    refine (twin_argument hi "^" hs).bind fun e e' t t' ht hclear he => .pure ht (Same.some ?_)
    exact .function fun hc => by rw [hbase.eq (hclear hc), he.eq hc]
  | subscript =>
    refine (twin_argument hi "_" hs).bind fun e e' t t' ht hclear he => .pure ht (Same.some ?_)
    exact .function fun hc => by rw [hbase.eq (hclear hc), he.eq hc]
  | squareRoot =>
    refine (twin_bracketGroup hi hs).bind fun index index' t t' ht hclear hindex => ?_
    refine (twin_argument hi "\\sqrt" ht).bind fun e e' u u' hu hclear' he => ?_
    rcases hindex.none_or_some with ⟨rfl, rfl⟩ | ⟨i, i', rfl, rfl, hi⟩
    · exact .pure hu (Same.some (.function fun hc => by rw [he.eq hc]))
    · exact .pure hu (Same.some (.function fun hc => by rw [he.eq hc, hi.eq (hclear' hc)]))
  | placeholder =>
    refine (twin_bracketGroup hi hs).bind fun index index' t t' ht _ _ => ?_
    exact (twin_rawGroup ht).bind fun raw raw' u u' hu _ _ => .pure hu (.refl _ _)
  | infinity => exact .pure hs (.refl _ _)
  | identifier hexact =>
    refine (twin_rawGroup hs).bind fun raw raw' t t' ht _ hraw => ?_
    rw [hraw.2 hexact]
    cases raw with
    | none => exact twin_missingArgument _ ht
    | some raw =>
      dsimp only [Reading.bind]
      split
      · exact twin_missingArgument _ ht
      · exact .pure ht (.refl _ _)
  | text hexact =>
    refine (twin_rawGroup hs).bind fun raw raw' t t' ht _ hraw => ?_
    rw [hraw.2 hexact]
    cases raw with
    | none => exact twin_missingArgument _ ht
    | some raw => exact .pure ht (.refl _ _)

end SideBySide

end TexFormula.Parser
