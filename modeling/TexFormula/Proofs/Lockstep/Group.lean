import TexFormula.Parser.Group
import TexFormula.Proofs.Idle
import TexFormula.Proofs.Lockstep.Numeral

/-!
# Groups and reading programs in step

Two parsers run side by side on the same source with different dictionaries. `InStep k` compares
their readers of the next level: they agree wherever fewer than `k` tokens are left. Given this,
groups, arguments and steady reading programs agree, and a program that declines comes to its end.
-/

namespace TexFormula.Parser

variable {α : Type} {env : Env} {d : Dictionary} {inner inner' : Inner} {k n : Nat} {s : State}

/-- The same source and options with another dictionary. -/
def Env.on (env : Env) (d : Dictionary) : Env :=
  { env with dictionary := d }

@[simp] theorem State.current_on : s.current (env.on d) = s.current env := rfl

@[simp] theorem State.atTerminator_on : s.atTerminator (env.on d) = s.atTerminator env := rfl

/-- Both parsers read the same one level down, wherever fewer than `k` tokens are left. -/
structure InStep (k : Nat) (inner inner' : Inner) : Prop where
  expression (loosest : Precedence) {s : State} : s.rest.length < k →
    Agree (AtMost s.rest.length) s (inner.expression loosest) (inner'.expression loosest)
  operand {s : State} : s.rest.length < k →
    Agree (AtMost s.rest.length) s inner.operand inner'.operand

theorem InStep.agree_expression (hi : InStep k inner inner') (loosest : Precedence)
    (hs : s.rest.length ≤ n) (hn : n < k) :
    Agree (AtMost n) s (inner.expression loosest) (inner'.expression loosest) :=
  (hi.expression loosest (by omega)).mono fun _ _ h => h.mono hs

theorem InStep.agree_operand (hi : InStep k inner inner') (hs : s.rest.length ≤ n) (hn : n < k) :
    Agree (AtMost n) s inner.operand inner'.operand :=
  (hi.operand (by omega)).mono fun _ _ h => h.mono hs

theorem InStep.refl_right (hi : InStep k inner inner') : InStep k inner' inner' :=
  ⟨fun loosest _ hs => (hi.expression loosest hs).refl_right, fun hs => (hi.operand hs).refl_right⟩

/-! ### Groups and arguments -/

section

variable (hi : InStep k inner inner')

include hi

/-- What is read while one more closing delimiter is waited for. -/
theorem InStep.agree_awaiting (close : String) (hs : s.rest.length ≤ n) (hn : n < k) :
    Agree (AtMost n) s (awaiting close (inner.expression .loosest))
      (awaiting close (inner'.expression .loosest)) := by
  have h : Agree (AtMost n) { s with closers := close :: s.closers } (inner.expression .loosest)
      (inner'.expression .loosest) := hi.agree_expression .loosest hs hn
  exact .awaiting h fun _ _ ht => ht

theorem agree_groupBody (close : String) (closing : Token.Kind) (hs : s.rest.length ≤ n)
    (hn : n < k) :
    Agree (AtMost n) s (groupBody env inner close closing)
      (groupBody (env.on d) inner' close closing) := by
  unfold groupBody
  refine .bind (hi.agree_awaiting close hs hn) fun body t ht => .current ?_
  show Agree _ t (ite _ _ _) (ite _ _ _)
  split
  · exact .advance (.pure (State.length_forward_le ht 1))
  · exact .recordHere (.pure ht)

theorem agree_braceGroup (hs : s.rest.length ≤ n) (hn : n < k) :
    Agree (AtMost n) s (braceGroup env inner) (braceGroup (env.on d) inner') := by
  unfold braceGroup
  have hspace := State.length_forward_le hs (s.rest.takeWhile State.isSpacing).length
  refine .skipSpacing (.current ?_)
  split
  · refine .advance (.bind (agree_groupBody hi _ _ (State.length_forward_le hspace 1) hn) ?_)
    exact fun _ _ ht => .pure ht
  · exact .pure hspace

theorem agree_bracketGroup (hs : s.rest.length ≤ n) (hn : n < k) :
    Agree (AtMost n) s (bracketGroup env inner) (bracketGroup (env.on d) inner') := by
  unfold bracketGroup
  have hspace := State.length_forward_le hs (s.rest.takeWhile State.isSpacing).length
  refine .skipSpacing (.current ?_)
  split
  · refine .advance (.bind (agree_groupBody hi _ _ (State.length_forward_le hspace 1) hn) ?_)
    exact fun _ _ ht => .pure ht
  · exact .pure hspace

end

theorem agree_firstDigit (run : String) (hs : s.rest.length ≤ n) :
    Agree (AtMost n) s (firstDigit run) (firstDigit run) := by
  unfold firstDigit
  split
  · exact .pure hs
  · exact .advance (.pure (State.length_forward_le hs 1))
  · exact .modify (.pure (by rw [AtMost, State.length_rest_cutDigit]; exact hs))

theorem agree_argument (hi : InStep k inner inner') (command : String) (hs : s.rest.length ≤ n)
    (hn : n < k) :
    Agree (AtMost n) s (argument env inner command) (argument (env.on d) inner' command) := by
  unfold argument
  refine .bind (agree_braceGroup hi hs hn) fun group t ht => ?_
  split
  · exact .pure ht
  · refine .current ?_
    split
    · exact agree_firstDigit _ ht
    · refine .bind (hi.agree_operand ht hn) fun operand u hu => ?_
      split
      · exact .pure hu
      · exact .recordHere (.pure hu)

theorem agree_rawGroup (hs : s.rest.length ≤ n) :
    Agree (AtMost n) s (rawGroup env) (rawGroup env) := by
  unfold rawGroup
  have hspace := State.length_forward_le hs (s.rest.takeWhile State.isSpacing).length
  refine .skipSpacing (.get ?_)
  split
  · exact .pure hspace
  · split
    · exact .pure hspace
    · split
      · exact .skip (.get (.pure (State.length_forward_le hspace _)))
      · exact .skip (.recordHere (.pure (State.length_forward_le hspace _)))

/-! ### Reading programs -/

/-- Parsers in step give the same answers, but for how a name is written. -/
theorem agree_answer (hi : InStep k inner inner') {request : Request}
    (hrequest : ∀ name, request ≠ .glyph name) (hs : s.rest.length ≤ n) (hn : n < k) :
    Agree (AtMost n) s (answer env inner request) (answer (env.on d) inner' request) := by
  cases request with
  | expression loosest => exact hi.agree_expression loosest hs hn
  | argument command => exact agree_argument hi command hs hn
  | braceGroup => exact agree_braceGroup hi hs hn
  | bracketGroup => exact agree_bracketGroup hi hs hn
  | rawGroup => exact agree_rawGroup hs
  | skipSpacing => exact .refl (t := s.forward _) rfl (State.length_forward_le hs _)
  | report problem => exact .current (.refl rfl hs)
  | glyph name => exact absurd rfl (hrequest name)

theorem agree_run (hi : InStep k inner inner') {r : Reading α} (hr : r.Steady)
    (hs : s.rest.length ≤ n) (hn : n < k) :
    Agree (AtMost n) s (run env inner r) (run (env.on d) inner' r) := by
  induction hr generalizing s with
  | done value => exact .pure hs
  | ask hrequest _ ih => exact .bind (agree_answer hi hrequest hs hn) fun reply t ht => ih reply ht

/-- A program that declines runs to its end, whatever it has read on the way. -/
theorem runs_of_declines (hi : InStep k inner inner) {r : Reading (Option α)} (hr : r.Declines)
    (hs : s.rest.length < k) : ∃ t, Runs (run env inner r) s none t := by
  induction hr generalizing s with
  | done => exact ⟨s, .pure none s⟩
  | @ask request next _ ih =>
    by_cases hglyph : ∃ name, request = .glyph name
    · obtain ⟨name, rfl⟩ := hglyph
      obtain ⟨t, ht⟩ := ih ((env.dictionary.lookup name).map (·.glyph)) hs
      exact ⟨t, ht⟩
    · have hrequest : ∀ name, request ≠ .glyph name := fun name h => hglyph ⟨name, h⟩
      have h : Agree (AtMost s.rest.length) s (answer env inner request)
          (answer (env.on env.dictionary) inner request) :=
        agree_answer hi hrequest (Nat.le_refl _) hs
      obtain ⟨reply, u, hreply, -, hu⟩ := h
      obtain ⟨t, ht⟩ := ih reply (Nat.lt_of_le_of_lt hu hs)
      exact ⟨t, hreply.bind ht⟩

end TexFormula.Parser
