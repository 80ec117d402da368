import TexFormula.Proofs.ParserRun

/-!
# Checkpoints

What has to be kept of a state to come back to it later: the place among the tokens and the lengths
of the three lists. Tokens are read in place and digit runs are cut in place, so going back also
means to put the runs together again that have been cut since, the latest first (`undo`).

`Follows s t` says what every step keeps of a state, and it is just enough to come back:
`Follows.restore`.
-/

namespace TexFormula.Parser

/-- Puts digit runs together again, given their places and what stood there, the latest cut first. -/
def undo : (cuts : List (Nat × Token)) → (tokens : List Token) → List Token
  | [], tokens => tokens
  | (place, t) :: cuts, tokens => undo cuts (tokens.set place t)

theorem undo_append (cuts cuts' : List (Nat × Token)) (tokens : List Token) :
    undo (cuts ++ cuts') tokens = undo cuts' (undo cuts tokens) := by
  induction cuts generalizing tokens with
  | nil => rfl
  | cons cut cuts ih => exact ih _

@[simp] theorem length_undo (cuts : List (Nat × Token)) (tokens : List Token) :
    (undo cuts tokens).length = tokens.length := by
  induction cuts generalizing tokens with
  | nil => rfl
  | cons cut cuts ih => exact (ih _).trans List.length_set

/-- What is kept of a state: its place and the lengths of its lists. -/
structure Checkpoint where
  position : Nat
  diagnostics : Nat
  closers : Nat
  cuts : Nat

namespace State

def checkpoint (s : State) : Checkpoint where
  position := s.position
  diagnostics := s.diagnostics.length
  closers := s.closers.length
  cuts := s.cuts.length

/-- Goes back to the place of a checkpoint. What the lists have grown by since is dropped, and the
cuts among it are undone. -/
def restore (s : State) (c : Checkpoint) : State :=
  let tokens := undo (s.cuts.take (s.cuts.length - c.cuts)) s.tokens
  { s with
    seen := (tokens.take c.position).reverse
    rest := tokens.drop c.position
    diagnostics := s.diagnostics.drop (s.diagnostics.length - c.diagnostics)
    closers := s.closers.drop (s.closers.length - c.closers)
    cuts := s.cuts.drop (s.cuts.length - c.cuts) }

end State

/-- State `t` comes after `s`: no delimiter is waited for and no level is taken that was not before,
nothing that has been read or found is lost, and what has been cut since can be undone. -/
structure Follows (s t : State) : Prop where
  closers : t.closers = s.closers
  depth : t.depth = s.depth
  position : s.position ≤ t.position
  diagnostics : s.diagnostics <:+ t.diagnostics
  cuts : ∃ since, t.cuts = since ++ s.cuts ∧ undo since t.tokens = s.tokens

namespace Follows

variable {s t u : State}

theorem refl (s : State) : Follows s s :=
  ⟨rfl, rfl, Nat.le_refl _, List.suffix_rfl, [], rfl, rfl⟩

theorem trans (h : Follows s t) (h' : Follows t u) : Follows s u := by
  obtain ⟨since, hcuts, htokens⟩ := h.cuts
  obtain ⟨since', hcuts', htokens'⟩ := h'.cuts
  refine ⟨h'.closers.trans h.closers, h'.depth.trans h.depth, Nat.le_trans h.position h'.position,
    h.diagnostics.trans h'.diagnostics, since' ++ since, ?_, ?_⟩
  · rw [hcuts', hcuts, List.append_assoc]
  · rw [undo_append, htokens', htokens]

/-! ### Steps -/

theorem forward (s : State) (count : Nat) : Follows s (s.forward count) := by
  induction count generalizing s with
  | zero =>
    rw [State.forward_zero]
    exact refl s
  | succ count ih =>
    cases h : s.rest with
    | nil =>
      rw [State.forward_of_rest_nil h]
      exact refl s
    | cons t ts =>
      rw [State.forward_succ h]
      refine trans (t := { s with seen := t :: s.seen, rest := ts })
        ⟨rfl, rfl, Nat.le_succ _, List.suffix_rfl, [], rfl, ?_⟩ (ih _)
      show (t :: s.seen).reverse ++ ts = s.seen.reverse ++ s.rest
      rw [List.reverse_cons, List.append_assoc, List.singleton_append, h]

theorem cutDigit (s : State) : Follows s s.cutDigit := by
  unfold State.cutDigit
  split
  · exact refl s
  · next t rest h =>
    split
    · exact refl s
    · next run _ =>
      refine ⟨rfl, rfl, Nat.le_refl _, List.suffix_rfl, [(s.position, t)], rfl, ?_⟩
      have hplace : s.seen.reverse.length = s.position := List.length_reverse
      show (s.seen.reverse ++ _ :: rest).set s.position t = s.seen.reverse ++ s.rest
      rw [h, ← hplace, List.set_append_right _ _ (Nat.le_refl _), Nat.sub_self, List.set_cons_zero]

theorem record (s : State) (problem : Problem) (start stop : Nat) :
    Follows s (s.record problem start stop) :=
  ⟨rfl, rfl, Nat.le_refl _, List.suffix_cons _ _, [], rfl, rfl⟩

/-- A delimiter that was waited for in between is waited for no longer. -/
theorem awaiting {close : String} (h : Follows { s with closers := close :: s.closers } t) :
    Follows s { t with closers := t.closers.tail } := by
  refine ⟨?_, h.depth, h.position, h.diagnostics, h.cuts⟩
  show t.closers.tail = s.closers
  rw [h.closers]
  rfl

/-- A level that was taken in between is left. -/
theorem descend (h : Follows { s with depth := s.depth + 1 } t) :
    Follows s { t with depth := t.depth - 1 } := by
  refine ⟨h.closers, ?_, h.position, h.diagnostics, h.cuts⟩
  show t.depth - 1 = s.depth
  rw [h.depth]
  rfl

/-! ### How many tokens are left -/

theorem position_add_length_rest (h : Follows s t) :
    t.position + t.rest.length = s.position + s.rest.length := by
  obtain ⟨since, -, htokens⟩ := h.cuts
  have hlength := congrArg List.length htokens
  simpa [State.tokens, State.position] using hlength

theorem length_rest_le (h : Follows s t) : t.rest.length ≤ s.rest.length := by
  have hplace := h.position
  have htotal := h.position_add_length_rest
  omega

theorem length_rest_lt (h : Follows s t) (hne : t.position ≠ s.position) :
    t.rest.length < s.rest.length := by
  have hplace := h.position
  have htotal := h.position_add_length_rest
  omega

/-! ### The way back -/

/-- From every state that comes after it a checkpoint leads back to the state it is of. -/
theorem restore (h : Follows s t) : t.restore s.checkpoint = s := by
  obtain ⟨since, hcuts, htokens⟩ := h.cuts
  have hsince : t.cuts.length - s.cuts.length = since.length := by
    rw [hcuts, List.length_append, Nat.add_sub_cancel]
  have htake : t.cuts.take (t.cuts.length - s.cuts.length) = since := by
    rw [hsince, hcuts, List.take_left]
  have hdrop : t.cuts.drop (t.cuts.length - s.cuts.length) = s.cuts := by
    rw [hsince, hcuts, List.drop_left]
  have hdiagnostics : t.diagnostics.drop (t.diagnostics.length - s.diagnostics.length) =
      s.diagnostics :=
    (List.suffix_iff_eq_drop.mp h.diagnostics).symm
  have hclosers : t.closers.drop (t.closers.length - s.closers.length) = s.closers := by
    rw [h.closers, Nat.sub_self, List.drop_zero]
  have hplace : s.position = s.seen.reverse.length := List.length_reverse.symm
  have hseen : (s.tokens.take s.position).reverse = s.seen := by
    rw [State.tokens, hplace, List.take_left, List.reverse_reverse]
  have hrest : s.tokens.drop s.position = s.rest := by
    rw [State.tokens, hplace, List.drop_left]
  simp only [State.restore, State.checkpoint, htake, hdrop, htokens, hdiagnostics, hclosers, hseen,
    hrest, h.depth]

end Follows

end TexFormula.Parser
