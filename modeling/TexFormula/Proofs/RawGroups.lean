import TexFormula.Proofs.Reads

/-!
# Groups read as text

`rawGroup` answers the source between two braces. Where no brace stands between them it ends at the
first one that closes, or at the end of the source if there is none.
-/

namespace TexFormula

namespace Token

/-- Tokens of which none is a brace. -/
def unbraced : Language Token :=
  {ts | ∀ t ∈ ts, t.kind ≠ .groupOpen ∧ t.kind ≠ .groupClose}

variable {ts us : List Token} {kind : Kind}

theorem nil_mem_unbraced : [] ∈ unbraced :=
  nofun

theorem append_mem_unbraced (hts : ts ∈ unbraced) (hus : us ∈ unbraced) : ts ++ us ∈ unbraced :=
  List.forall_mem_append.mpr ⟨hts, hus⟩

theorem mem_unbraced_of_mem_mul (h : ts ∈ unbraced * unbraced) : ts ∈ unbraced := by
  obtain ⟨ts, hts, us, hus, rfl⟩ := Language.mem_mul.mp h
  exact append_mem_unbraced hts hus

theorem mem_unbraced_of_mem_one (hopen : kind ≠ .groupOpen) (hclose : kind ≠ .groupClose)
    (h : ts ∈ one kind) : ts ∈ unbraced := by
  obtain ⟨t, rfl, rfl⟩ := h
  intro u hu
  rw [List.mem_singleton.mp hu]
  exact ⟨hopen, hclose⟩

end Token

namespace Parser

variable {env : Env} {s : State} {opening closing t : Token} {ts rest : List Token}

/-! ### The brace that closes -/

theorem closing?_cons_of_not_brace (hopen : t.kind ≠ .groupOpen) (hclose : t.kind ≠ .groupClose)
    (depth : Nat) (rest : List Token) :
    closing? depth (t :: rest) = (closing? depth rest).map (· + 1) := by
  conv_lhs => unfold closing?
  split
  · next hkind => exact absurd hkind hopen
  · next hkind => exact absurd hkind hclose
  · next hkind => exact absurd hkind hclose
  · rfl

theorem closing?_zero_cons (h : t.kind = .groupClose) (rest : List Token) :
    closing? 0 (t :: rest) = some 0 := by
  unfold closing?
  rw [h]

theorem closing?_cons_open (h : t.kind = .groupOpen) (depth : Nat) (rest : List Token) :
    closing? depth (t :: rest) = (closing? (depth + 1) rest).map (· + 1) := by
  conv_lhs => unfold closing?
  rw [h]

theorem closing?_cons_close (h : t.kind = .groupClose) (depth : Nat) (rest : List Token) :
    closing? (depth + 1) (t :: rest) = (closing? depth rest).map (· + 1) := by
  conv_lhs => unfold closing?
  rw [h]

theorem closing?_append (hts : ts ∈ Token.unbraced) (depth : Nat) (rest : List Token) :
    closing? depth (ts ++ rest) = (closing? depth rest).map (· + ts.length) := by
  induction ts with
  | nil => simp
  | cons t ts ih =>
    obtain ⟨⟨hopen, hclose⟩, hmore⟩ := List.forall_mem_cons.mp hts
    rw [List.cons_append, closing?_cons_of_not_brace hopen hclose, ih hmore, Option.map_map]
    rfl

/-- A token closes the group at the place that is found. -/
theorem getElem?_of_closing? {depth count : Nat} (h : closing? depth rest = some count) :
    ∃ t, rest[count]? = some t ∧ t.kind = .groupClose := by
  induction rest generalizing depth count with
  | nil => cases h
  | cons t rest ih =>
    have hmore {depth : Nat} (h : (closing? depth rest).map (· + 1) = some count) :
        ∃ u, (t :: rest)[count]? = some u ∧ u.kind = .groupClose := by
      obtain ⟨count', hrest, rfl⟩ := Option.map_eq_some_iff.mp h
      exact ih hrest
    unfold closing? at h
    split at h
    · exact hmore h
    · next hkind =>
      cases h
      exact ⟨t, rfl, hkind⟩
    · exact hmore h
    · exact hmore h

/-! ### Runs -/

theorem isSpacing_of_groupOpen (h : t.kind = .groupOpen) : State.isSpacing t = false := by
  unfold State.isSpacing
  rw [h]

/-- The text goes up to the brace that closes the group. -/
theorem runs_rawGroup_of_closing? (hs : s.rest = opening :: (ts ++ closing :: rest))
    (hopening : opening.kind = .groupOpen)
    (hcount : closing? 0 (ts ++ closing :: rest) = some ts.length) :
    Runs (rawGroup env) s (some (env.slice opening.stop closing.start))
      (s.forward (ts.length + 2)) := by
  have hplace : s.rest[ts.length + 1]? = some closing := by
    rw [hs]
    simp
  unfold rawGroup
  rw [runs_skipSpacing, takeWhile_isSpacing hs (isSpacing_of_groupOpen hopening),
    State.forward_zero, runs_get, hs]
  dsimp only
  rw [hopening, hcount]
  simp only [bne_self_eq_false, Bool.false_eq_true, if_false]
  rw [runs_skip, runs_get, State.previous_forward_succ hplace]
  exact .pure _ _

theorem runs_rawGroup (hs : s.rest = opening :: (ts ++ closing :: rest))
    (hopening : opening.kind = .groupOpen) (hts : ts ∈ Token.unbraced)
    (hclosing : closing.kind = .groupClose) :
    Runs (rawGroup env) s (some (env.slice opening.stop closing.start))
      (s.forward (ts.length + 2)) :=
  runs_rawGroup_of_closing? hs hopening (by simp [closing?_append hts, closing?_zero_cons hclosing])

theorem runs_rawGroup_of_unclosed (hs : s.rest = opening :: ts)
    (hopening : opening.kind = .groupOpen) (hts : ts ∈ Token.unbraced) :
    Runs (rawGroup env) s (some (env.slice opening.stop env.ending.start))
      ((s.forward (ts.length + 1)).record ⟨.expectedClosing, "\x7d"⟩ env.ending.start
        env.ending.stop) := by
  have hnone : closing? 0 ts = none := by
    have hend := closing?_append hts 0 []
    rwa [List.append_nil] at hend
  have hall : (s.forward (ts.length + 1)).rest = [] := by
    rw [State.rest_forward, hs]
    simp
  unfold rawGroup
  rw [runs_skipSpacing, takeWhile_isSpacing hs (isSpacing_of_groupOpen hopening),
    State.forward_zero, runs_get, hs]
  dsimp only
  rw [hopening, hnone]
  simp only [bne_self_eq_false, Bool.false_eq_true, if_false]
  rw [runs_skip]
  have hrecord : Runs (recordHere env .expectedClosing "\x7d") (s.forward (ts.length + 1)) ()
      ((s.forward (ts.length + 1)).record ⟨.expectedClosing, "\x7d"⟩ env.ending.start
        env.ending.stop) := by
    rw [recordHere, runs_current, State.current_of_rest_nil hall]
    rfl
  exact hrecord.bind (.pure _ _)

end Parser

end TexFormula
