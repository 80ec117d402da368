import TexFormula.Parser.Operand
import TexFormula.Proofs.Lockstep.Group

/-!
# Operands in step

Each part of an operand reads a token before it goes one level down, so with `n + 1` tokens left the
readers of that level meet at most `n`. Idle notations come first at a trigger; they are taken back
one after the other (`runs_firstNotation_idle`).
-/

namespace TexFormula.Parser

variable {env : Env} {d : Dictionary} {inner inner' : Inner} {k n : Nat} {s : State}

/-! ### Built-in shapes -/

theorem Consumed.none {a : Option α} (ha : a = none) (hs : s.rest.length ≤ n + 1) :
    Consumed n a s :=
  ⟨hs, fun h => by simp [ha] at h⟩

theorem Consumed.of_atMost {a : Option α} (hs : s.rest.length ≤ n) : Consumed n a s :=
  ⟨Nat.le_succ_of_le hs, fun _ => hs⟩

theorem unexpected_on (t : Token) : unexpected (env.on d) t = unexpected env t := rfl

theorem agree_unexpected (t : Token) (hs : s.rest.length ≤ n + 1) :
    Agree (AtMost n) s (unexpected env t) (unexpected env t) := by
  unfold unexpected
  exact .advance (.recordAt (.pure (State.length_forward_one_le hs)))

theorem number_on (negative : Bool) : number (env.on d) negative = number env negative := rfl

theorem signedNumber_on (negative : Bool) :
    signedNumber (env.on d) negative = signedNumber env negative := by
  unfold signedNumber
  rw [number_on]
  rfl

theorem agree_signedNumber (negative : Bool) (hs : s.rest.length ≤ n + 1) :
    Agree (Consumed n) s (signedNumber env negative) (signedNumber env negative) := by
  unfold signedNumber
  have hforward := State.length_forward_one_le hs
  refine .attempt (Q := AtMost n) (.advance ?_) (.none rfl hs) fun a t ht => .of_atMost ht
  refine .bind (agree_number negative hforward) fun value t ht => .current ?_
  split
  · exact .pure ht
  · exact .pure ht

section

variable (hi : InStep k inner inner')

include hi

theorem agree_delimitedArguments (hs : s.rest.length ≤ n + 1) (hn : n < k) :
    Agree (AtMost n) s (delimitedArguments env inner) (delimitedArguments (env.on d) inner') := by
  unfold delimitedArguments
  refine .advance (.bind (agree_groupBody hi _ _ (State.length_forward_one_le hs) hn) ?_)
  exact fun _ _ ht => .pure ht

theorem agree_parenthesized (hs : s.rest.length ≤ n + 1) (hn : n < k) :
    Agree (AtMost n) s (parenthesized env inner) (parenthesized (env.on d) inner') := by
  unfold parenthesized
  refine .advance (.bind (agree_groupBody hi _ _ (State.length_forward_one_le hs) hn) ?_)
  exact fun _ _ ht => .pure ht

theorem agree_braced (hs : s.rest.length ≤ n + 1) (hn : n < k) :
    Agree (AtMost n) s (braced env inner) (braced (env.on d) inner') := by
  unfold braced
  refine .advance (.bind (agree_groupBody hi _ _ (State.length_forward_one_le hs) hn) ?_)
  exact fun _ _ ht => .pure ht

end

/-- Idle notations are no delimiters, so the same delimiters are found without them. -/
theorem find?_isMatchfix_operands (hd : env.dictionary.IdleExtension d) (trigger : String) :
    (d.operands trigger).find? (·.isMatchfix) =
      (env.dictionary.operands trigger).find? (·.isMatchfix) := by
  obtain ⟨idle, hd', hidle⟩ := hd.operands trigger
  have hnone : idle.find? (·.isMatchfix) = none := by
    rw [List.find?_eq_none]
    intro m hm
    rw [(hidle m hm).not_matchfix]
    exact Bool.false_ne_true
  rw [hd', List.find?_append, hnone, Option.none_or]

theorem agree_leftRight (hd : env.dictionary.IdleExtension d) (hi : InStep k inner inner')
    (hs : s.rest.length ≤ n + 1) (hn : n < k) :
    Agree (AtMost n) s (leftRight env inner) (leftRight (env.on d) inner') := by
  unfold leftRight
  have hforward := State.length_forward_le (State.length_forward_one_le hs) 1
  refine .advance (.current (.advance (.bind (hi.agree_awaiting _ hforward hn) fun body t ht => ?_)))
  have hfind : (fun trigger => ((env.on d).dictionary.operands trigger).find? (·.isMatchfix)) =
      fun trigger => (env.dictionary.operands trigger).find? (·.isMatchfix) :=
    funext fun trigger => find?_isMatchfix_operands hd trigger
  rw [hfind]
  refine .current ?_
  dsimp only
  split
  · refine .skip ?_
    have hafter := State.length_forward_le ht 2
    split
    · exact .pure hafter
    · split <;> exact .pure hafter
  · refine .recordHere ?_
    split
    · exact .pure ht
    · split <;> exact .pure ht

theorem agree_builtin (hd : env.dictionary.IdleExtension d) (hi : InStep k inner inner')
    (hs : s.rest.length ≤ n + 1) (hn : n < k) :
    Agree (Consumed n) s (builtin env inner) (builtin (env.on d) inner') := by
  unfold builtin
  have hnumber (h : startsNumber s.rest) :
      Agree (Consumed n) s (do return some { expression := ← number env false : Operand })
        (do return some { expression := ← number env false }) :=
    .bind (agree_number_of_startsNumber false h hs) fun _ _ ht => .pure (.of_atMost ht)
  refine .get ?_
  rw [State.current_on]
  dsimp only
  cases hkind : (s.current env).kind with
  | digits run =>
    simp only [number_on]
    refine hnumber ?_
    cases hrest : s.rest with
    | nil => simp [State.current_of_rest_nil hrest, Env.ending] at hkind
    | cons t ts =>
      rw [State.current_of_rest hrest] at hkind
      simp [startsNumber, Token.digits?, hkind]
  | punct c =>
    simp only [number_on, signedNumber_on]
    split
    · exact .bind (agree_parenthesized hi hs hn) fun _ _ ht => .pure (.of_atMost ht)
    · split
      · next h => exact hnumber (Bool.and_eq_true_iff.mp h).2
      · split
        · exact agree_signedNumber _ hs
        · exact .pure (.none rfl hs)
  | groupOpen => exact .bind (agree_braced hi hs hn) fun _ _ ht => .pure (.of_atMost ht)
  | command name =>
    dsimp only
    split
    · exact .bind (agree_leftRight hd hi hs hn) fun _ _ ht => .pure (.of_atMost ht)
    · exact .pure (.none rfl hs)
  | loneBackslash =>
    simp only [unexpected_on]
    exact .bind (agree_unexpected _ hs) fun _ _ ht => .pure (.of_atMost ht)
  | _ => exact .pure (.none rfl hs)

/-! ### Notations -/

section

variable (hi : InStep k inner inner')

include hi

theorem agree_arguments (command : String) (count : Nat) (hs : s.rest.length ≤ n) (hn : n < k) :
    Agree (AtMost n) s (arguments env inner command count)
      (arguments (env.on d) inner' command count) := by
  induction count generalizing s with
  | zero => exact .pure hs
  | succ count ih =>
    refine .bind (agree_argument hi command hs hn) fun first t ht => ?_
    exact .bind (ih ht) fun _ _ hu => .pure hu

theorem agree_functionArguments (command : String) (hs : s.rest.length ≤ n) (hn : n < k) :
    Agree (AtMost n) s (functionArguments env inner command)
      (functionArguments (env.on d) inner' command) := by
  unfold functionArguments
  have hspace := State.length_forward_le hs (s.rest.takeWhile State.isSpacing).length
  refine .skipSpacing (.current ?_)
  split
  · exact agree_delimitedArguments hi (Nat.le_succ_of_le hspace) hn
  · refine .bind (hi.agree_expression _ hspace hn) fun argument t ht => ?_
    dsimp only
    split
    · exact .recordHere (.pure ht)
    · exact .pure ht

theorem agree_enclosed (close : String) (hs : s.rest.length ≤ n) (hn : n < k) :
    Agree (AtMost n) s (enclosed env inner close) (enclosed (env.on d) inner' close) := by
  unfold enclosed
  refine .bind (hi.agree_awaiting close hs hn) fun body t ht => .current ?_
  dsimp only
  split
  · exact .advance (.pure (State.length_forward_le ht 1))
  · exact .recordHere (.pure ht)

theorem agree_prefixed (m : Notation) (hs : s.rest.length ≤ n) (hn : n < k) :
    Agree (AtMost n) s (prefixed env inner m) (prefixed (env.on d) inner' m) := by
  unfold prefixed
  refine .bind (hi.agree_expression _ hs hn) fun operand t ht => ?_
  dsimp only
  split
  · exact .recordHere (.pure ht)
  · exact .pure ht

theorem agree_applyNotation {m : Notation} (hm : m.Steady) (hs : s.rest.length ≤ n) (hn : n < k) :
    Agree (AtMost n) s (applyNotation env inner m) (applyNotation (env.on d) inner' m) := by
  unfold applyNotation
  split
  · next hook hreader =>
    exact .bind (agree_run hi (hm hook hreader none) hs hn) fun _ _ ht => .pure ht
  · split
    · exact .pure hs
    · exact .bind (agree_prefixed hi m hs hn) fun _ _ ht => .pure ht
    · exact .bind (agree_enclosed hi _ hs hn) fun _ _ ht => .pure ht
    · exact .bind (agree_arguments hi _ _ hs hn) fun _ _ ht => .pure ht
    · exact .bind (agree_functionArguments hi _ hs hn) fun _ _ ht => .pure ht
    · exact .pure hs
    · exact .pure hs
    · exact .pure hs

theorem agree_firstNotation {notations : List Notation} (h : ∀ m ∈ notations, m.Steady)
    (hs : s.rest.length ≤ n + 1) (hn : n < k) :
    Agree (Consumed n) s (firstNotation env inner notations)
      (firstNotation (env.on d) inner' notations) := by
  induction notations generalizing s with
  | nil => exact .pure (.none rfl hs)
  | cons m rest ih =>
    have hforward := State.length_forward_one_le hs
    refine .orElse (Q := Consumed n) ?_ (fun _ _ ht => ht) fun t ht => ?_
    · refine .attempt (Q := AtMost n) (.advance ?_) (.none rfl hs) fun _ _ ht => .of_atMost ht
      exact agree_applyNotation hi (h m List.mem_cons_self) hforward hn
    · exact ih (fun m hm => h m (List.mem_cons_of_mem _ hm)) ht.1

end

/-- A notation that declines is taken back, and the others are tried from the same state. -/
theorem runs_firstNotation_idle (hi : InStep k inner inner) {idle notations : List Notation}
    (h : ∀ m ∈ idle, m.Idle) (hs : (s.forward 1).rest.length < k) {a : Option Operand} {t : State}
    (ht : Runs (firstNotation env inner notations) s a t) :
    Runs (firstNotation env inner (idle ++ notations)) s a t := by
  induction idle with
  | nil => exact ht
  | cons m rest ih =>
    obtain ⟨hook, hreader, hhook⟩ := (h m List.mem_cons_self).declines
    obtain ⟨u, hu⟩ : ∃ u, Runs (run env inner (hook none)) (s.forward 1) none u :=
      runs_of_declines hi (hhook none) hs
    refine runs_orElse.mpr (.inr ⟨s, ?_, ih fun m hm => h m (List.mem_cons_of_mem _ hm)⟩)
    refine runs_attempt.mpr (.inl ⟨rfl, rfl, u, ?_⟩)
    rw [runs_advance, applyNotation, hreader]
    exact hu.bind (.pure none u)

theorem agree_notated (hd : env.dictionary.IdleExtension d) (hi : InStep k inner inner')
    (hs : s.rest.length ≤ n + 1) (hn : n < k) :
    Agree (Consumed n) s (notated env inner) (notated (env.on d) inner') := by
  unfold notated
  refine .current ?_
  split
  · next trigger _ =>
    obtain ⟨idle, heq, hidle⟩ := hd.operands trigger
    have hsteady : ∀ m ∈ env.dictionary.operands trigger, m.Steady :=
      fun m hm => hd.steady_operands hm
    obtain ⟨a, t, ha, ha', ht⟩ := agree_firstNotation hi hsteady hs hn
    have hforward := Nat.lt_of_le_of_lt (State.length_forward_one_le hs) hn
    refine ⟨a, t, ha, ?_, ht⟩
    show Runs (firstNotation (env.on d) inner' (d.operands trigger)) s a t
    rw [heq]
    exact runs_firstNotation_idle hi.refl_right hidle hforward ha'
  · exact .pure (.none rfl hs)

/-! ### Unknown letters and commands -/

theorem agree_unknownLetter (t : Token) (c : Char) (hs : s.rest.length ≤ n + 1) :
    Agree (AtMost n) s (unknownLetter env t c) (unknownLetter env t c) := by
  unfold unknownLetter
  have hforward := State.length_forward_one_le hs
  refine .advance ?_
  split
  · exact .pure hforward
  · exact .pure hforward
  · exact .pure hforward
  · exact .recordAt (.pure hforward)

section

variable (hi : InStep k inner inner')

include hi

theorem agree_unknownArguments (fuel stop : Nat) (hs : s.rest.length ≤ n) (hn : n < k) :
    Agree (AtMost n) s (unknownArguments env inner fuel stop)
      (unknownArguments (env.on d) inner' fuel stop) := by
  induction fuel generalizing s stop with
  | zero => exact .pure hs
  | succ fuel ih =>
    have hforward := State.length_forward_le hs 1
    refine .current ?_
    dsimp only
    split
    · exact .pure hs
    · refine .advance (.bind (hi.agree_awaiting _ hforward hn) fun body t ht => .current ?_)
      split
      · refine .advance (.bind (ih _ (State.length_forward_le ht 1)) fun _ _ hu => ?_)
        exact .pure hu
      · exact .recordHere (.pure ht)

theorem agree_unknownCommand (token : Token) (name : String) (hs : s.rest.length ≤ n + 1)
    (hn : n < k) :
    Agree (AtMost n) s (unknownCommand env inner token name)
      (unknownCommand (env.on d) inner' token name) := by
  unfold unknownCommand
  have hforward := State.length_forward_one_le hs
  -- the groups are read or not, and all else is the same
  refine .advance (.ite (fun _ => .get (.bind (agree_unknownArguments hi _ _ hforward hn) ?_))
    fun _ => .bind (Q := AtMost n) (.pure hforward) ?_)
  all_goals
    intro found t ht
    dsimp only [Env.on]
    split
    · exact .pure ht
    · exact .record (.pure ht)
    · refine .record ?_
      split
      · exact .pure ht
      · exact .pure ht

theorem agree_unknown (hs : s.rest.length ≤ n + 1) (hn : n < k) :
    Agree (AtMost n) s (unknown env inner) (unknown (env.on d) inner') := by
  unfold unknown
  refine .current ?_
  split
  · exact agree_unknownLetter _ _ hs
  · exact agree_unknownCommand hi _ _ hs hn
  · exact .bind (agree_unexpected _ hs) fun _ _ ht => .pure ht

end

/-! ### Operands -/

theorem agree_atOperator (hd : env.dictionary.IdleExtension d) :
    Agree (fun _ t => t = s) s (atOperator env) (atOperator (env.on d)) := by
  unfold atOperator
  have hoperator : (env.on d).dictionary.hasOperator = env.dictionary.hasOperator :=
    funext hd.hasOperator
  rw [hoperator]
  exact .current (.pure rfl)

theorem agree_operandWithin (hd : env.dictionary.IdleExtension d) (hi : InStep k inner inner')
    (fuel : Nat) (hs : s.rest.length ≤ n + 1)
    (hn : n < k) :
    Agree (Consumed n) s (operandWithin env inner fuel) (operandWithin (env.on d) inner' fuel) := by
  induction fuel generalizing s with
  | zero => exact .pure (.none rfl hs)
  | succ fuel ih =>
    have hspace := State.length_forward_le hs (s.rest.takeWhile State.isSpacing).length
    refine .skipSpacing (.atTerminator ?_)
    split
    · exact .pure (.none rfl hspace)
    · refine .orElse (Q := Consumed n) ?_ (fun _ _ ht => ht) fun t ht => ?_
      · refine .orElse (Q := Consumed n) (agree_builtin hd hi hspace hn) (fun _ _ ht => ht) ?_
        exact fun t ht => agree_notated hd hi ht.1 hn
      · refine .bind (agree_atOperator hd) ?_
        rintro operator _ rfl
        split
        · exact .pure (.none rfl ht.1)
        · refine .orElse (Q := AtMost n) (agree_unknown hi ht.1 hn) (fun _ _ hu => .of_atMost hu) ?_
          exact fun u hu => ih (Nat.le_succ_of_le hu)

theorem agree_operand (hd : env.dictionary.IdleExtension d) (hi : InStep k inner inner')
    (hs : s.rest.length ≤ n + 1) (hn : n < k) :
    Agree (Consumed n) s (operand env inner) (operand (env.on d) inner') :=
  .get (agree_operandWithin hd hi _ hs hn)

end TexFormula.Parser
