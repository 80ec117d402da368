import TexFormula.Parser.Numeral
import TexFormula.Proofs.SideBySide

/-!
# Numerals side by side

Runs of digits are the one place where the parser asks whether tokens touch. It only ever asks so next
to a run of digits, and there the tokens touch on both sides or on none (`SideBySide.Gap`).
-/

namespace TexFormula.Parser

/-! ### What depends on the kinds of tokens alone -/

section Kinds

variable {t t' : Token} {ts ts' : List Token}

theorem exists_cons_of_map_kind (h : ts'.map (·.kind) = (t :: ts).map (·.kind)) :
    ∃ t' us', ts' = t' :: us' ∧ t'.kind = t.kind ∧ us'.map (·.kind) = ts.map (·.kind) := by
  obtain ⟨t', us', hts', hkind, hkinds⟩ := List.map_eq_cons_iff.mp h
  exact ⟨t', us', hts', hkind, hkinds⟩

theorem startsNumber_congr (h : ts'.map (·.kind) = ts.map (·.kind)) :
    startsNumber ts' = startsNumber ts := by
  rcases ts with - | ⟨t, - | ⟨u, ts⟩⟩
  · rw [List.map_eq_nil_iff.mp h]
  · obtain ⟨t', us', rfl, ht, hus⟩ := exists_cons_of_map_kind h
    rw [List.map_eq_nil_iff.mp hus]
    simp [startsNumber, digits?_congr ht]
  · obtain ⟨t', us', rfl, ht, hus⟩ := exists_cons_of_map_kind h
    obtain ⟨u', vs', rfl, hu, -⟩ := exists_cons_of_map_kind hus
    simp [startsNumber, digits?_congr ht, isPunct_congr ht, digits?_congr hu]

theorem digitsToBrace?_congr (h : ts'.map (·.kind) = ts.map (·.kind)) :
    digitsToBrace? ts' = digitsToBrace? ts := by
  rcases ts with - | ⟨t, - | ⟨u, ts⟩⟩
  · rw [List.map_eq_nil_iff.mp h]
  · obtain ⟨t', us', rfl, -, hus⟩ := exists_cons_of_map_kind h
    rw [List.map_eq_nil_iff.mp hus]
    rfl
  · obtain ⟨t', us', rfl, ht, hus⟩ := exists_cons_of_map_kind h
    obtain ⟨u', vs', rfl, hu, -⟩ := exists_cons_of_map_kind hus
    simp [digitsToBrace?, digits?_congr ht, hu]

theorem bracedExponent?_congr (h : ts'.map (·.kind) = ts.map (·.kind)) :
    bracedExponent? ts' = bracedExponent? ts := by
  rcases ts with - | ⟨t, - | ⟨u, ts⟩⟩
  · rw [List.map_eq_nil_iff.mp h]
  · obtain ⟨t', us', rfl, -, hus⟩ := exists_cons_of_map_kind h
    rw [List.map_eq_nil_iff.mp hus]
    rfl
  · obtain ⟨t', us', rfl, ht, hus⟩ := exists_cons_of_map_kind h
    have hdigits := digitsToBrace?_congr hus
    obtain ⟨u', vs', rfl, hu, hvs⟩ := exists_cons_of_map_kind hus
    simp only [bracedExponent?, sign?, isPunct_congr hu, ht, hdigits, digitsToBrace?_congr hvs]

theorem exponentText?_congr (h : ts'.map (·.kind) = ts.map (·.kind)) :
    exponentText? ts' = exponentText? ts := by
  have hbraced := bracedExponent?_congr h
  rcases ts with - | ⟨t, ts⟩
  · rw [List.map_eq_nil_iff.mp h]
  · obtain ⟨t', us', rfl, ht, -⟩ := exists_cons_of_map_kind h
    simp only [exponentText?, List.head?_cons, Option.bind_some, digits?_congr ht, hbraced]

theorem powerOfTen?_congr (h : ts'.map (·.kind) = ts.map (·.kind)) :
    powerOfTen? ts' = powerOfTen? ts := by
  rcases ts with - | ⟨t, - | ⟨u, - | ⟨v, ts⟩⟩⟩
  · rw [List.map_eq_nil_iff.mp h]
  · obtain ⟨t', us', rfl, -, hus⟩ := exists_cons_of_map_kind h
    rw [List.map_eq_nil_iff.mp hus]
    rfl
  · obtain ⟨t', us', rfl, -, hus⟩ := exists_cons_of_map_kind h
    obtain ⟨u', vs', rfl, -, hvs⟩ := exists_cons_of_map_kind hus
    rw [List.map_eq_nil_iff.mp hvs]
    rfl
  · obtain ⟨t', us', rfl, ht, hus⟩ := exists_cons_of_map_kind h
    obtain ⟨u', vs', rfl, hu, hvs⟩ := exists_cons_of_map_kind hus
    obtain ⟨v', ws', rfl, hv, hws⟩ := exists_cons_of_map_kind hvs
    simp only [powerOfTen?, isCommand_congr ht, hu, isPunct_congr hv, exponentText?_congr hws]

theorem joinGroups_eq (run : String) (groups : List Token) :
    joinGroups run groups = (groups.map digitsOf).foldl (· ++ ·) run := by
  rw [joinGroups, List.foldl_map]

theorem groupedByThree_eq (run : String) (groups : List Token) :
    groupedByThree run groups =
      (1 ≤ run.length && run.length ≤ 3 && (groups.map digitsOf).all (·.length == 3)) := by
  rw [groupedByThree, List.all_map]
  rfl

theorem any_long_eq (groups : List Token) :
    (groups.any fun group => 3 ≤ (digitsOf group).length) =
      (groups.map digitsOf).any fun digits => 3 ≤ digits.length := by
  rw [List.any_map]
  rfl

end Kinds

/-! ### Where a number has been read -/

/-- The token read last is a run of digits. -/
def State.AfterDigits (s : State) : Prop :=
  ∃ t seen, s.seen = t :: seen ∧ t.digits?.isSome

theorem afterDigits_forward_one {s : State} {run : String} {env : Env}
    (h : (s.current env).digits? = some run) : (s.forward 1).AfterDigits := by
  cases hrest : s.rest with
  | nil =>
    rw [State.current_of_rest_nil hrest] at h
    cases h
  | cons t rest =>
    rw [State.current_of_rest hrest] at h
    rw [State.forward_succ hrest, State.forward_zero]
    exact ⟨t, s.seen, rfl, by rw [h]; rfl⟩

/-- Groups of digits are read up to a group. -/
theorem afterDigits_forward_digitGroups {isMark : Token → Bool} {stop : Nat} {tokens : List Token}
    {s : State} (hrest : s.rest = tokens) (h : s.AfterDigits) :
    (s.forward (2 * (digitGroups isMark stop tokens).length)).AfterDigits := by
  fun_induction digitGroups isMark stop tokens generalizing s with
  | case1 stop mark group rest hgroup ih =>
    simp only [Bool.and_eq_true] at hgroup
    rw [List.length_cons, Nat.mul_succ, Nat.add_comm, ← State.forward_forward,
      State.forward_succ hrest, State.forward_succ rfl, State.forward_zero]
    exact ih rfl ⟨group, _, rfl, hgroup.2⟩
  | case2 => simpa using h
  | case3 => simpa using h

theorem afterDigits_of_runs_wholeDigits {env : Env} {s t : State} {whole : String}
    (h : Runs (wholeDigits env) s whole t) (hwhole : whole ≠ "") : t.AfterDigits := by
  unfold wholeDigits at h
  rw [runs_current] at h
  cases hrun : (s.current env).digits? with
  | none =>
    rw [hrun] at h
    exact absurd (runs_pure.mp h).1 hwhole
  | some run =>
    have hforward := afterDigits_forward_one hrun
    rw [hrun] at h
    rw [runs_advance, runs_get] at h
    split at h
    · unfold commaGroups at h
      rw [runs_get] at h
      dsimp only at h
      split at h
      · obtain ⟨-, rfl⟩ := runs_pure.mp h
        exact hforward
      · split at h
        · rw [runs_skip] at h
          obtain ⟨-, rfl⟩ := runs_pure.mp h
          exact afterDigits_forward_digitGroups rfl hforward
        · split at h
          · obtain ⟨_, u, hu, h⟩ := runs_bind.mp h
            cases hu
            obtain ⟨-, rfl⟩ := runs_pure.mp h
            exact hforward
          · obtain ⟨-, rfl⟩ := runs_pure.mp h
            exact hforward
    · unfold thinSpaceGroups at h
      rw [runs_get, runs_skip] at h
      obtain ⟨-, rfl⟩ := runs_pure.mp h
      exact afterDigits_forward_digitGroups rfl hforward

namespace SideBySide

variable {w : SideBySide} {s s' : State} {p q : Token × Token} {before after : List (Token × Token)}
  {isMark : Token → Bool}

/-! ### Groups of digits -/

/-- The groups of digits that go on behind a token, on both sides. -/
def groups (isMark : Token → Bool) : Token × Token → List (Token × Token) → List (Token × Token)
  | p, mark :: group :: rest =>
    if isMark mark.1 && mark.1.start == p.1.stop && group.1.start == mark.1.stop &&
        group.1.digits?.isSome then
      group :: groups isMark group rest
    else
      []
  | _, _ => []

theorem digitGroups_left (p : Token × Token) (after : List (Token × Token)) :
    digitGroups isMark p.1.stop (after.map (·.1)) = (groups isMark p after).map (·.1) := by
  fun_induction groups isMark p after with
  | case1 p mark group rest h ih => simp only [List.map_cons, digitGroups, h, if_true, ih]
  | case2 p mark group rest h =>
    simp only [List.map_cons, digitGroups, h, Bool.false_eq_true, if_false, List.map_nil]
  | case3 after p h =>
    rcases after with - | ⟨mark, - | ⟨group, rest⟩⟩
    · rfl
    · rfl
    · exact absurd rfl (h mark group rest)

theorem mem_of_mem_groups (h : q ∈ groups isMark p after) : q ∈ after := by
  fun_induction groups isMark p after with
  | case1 p mark group rest hgroup ih =>
    rcases List.mem_cons.mp h with rfl | h
    · simp
    · exact .tail _ (.tail _ (ih h))
  | case2 => cases h
  | case3 => cases h

theorem Gap.stop_beq (h : Gap p q) (hdigits : p.1.digits?.isSome ∨ q.1.digits?.isSome) :
    (p.2.stop == q.2.start) = (p.1.stop == q.1.start) := by
  rw [Bool.eq_iff_iff, beq_iff_eq, beq_iff_eq]
  exact h.touch hdigits

theorem Gap.start_beq (h : Gap p q) (hdigits : p.1.digits?.isSome ∨ q.1.digits?.isSome) :
    (q.2.start == p.2.stop) = (q.1.start == p.1.stop) := by
  rw [BEq.comm, h.stop_beq hdigits, BEq.comm]

/-- A mark and a group touch on both sides or on none. -/
theorem touches_congr {mark group : Token × Token} (hmark : isMark mark.2 = isMark mark.1)
    (hgroup : w.Match group.1 group.2) (hdigits : p.1.digits?.isSome)
    (hgap : Gap p mark) (hgap' : Gap mark group) :
    (isMark mark.2 && mark.2.start == p.2.stop && group.2.start == mark.2.stop &&
        group.2.digits?.isSome) =
      (isMark mark.1 && mark.1.start == p.1.stop && group.1.start == mark.1.stop &&
        group.1.digits?.isSome) := by
  rw [hmark, hgroup.digits?, hgap.start_beq (.inl hdigits)]
  cases hrun : group.1.digits?.isSome with
  | false => simp only [Bool.and_false]
  | true => rw [hgap'.start_beq (.inr hrun)]

theorem digitGroups_right (hmark : ∀ q ∈ after, isMark q.2 = isMark q.1)
    (hpairs : ∀ q ∈ after, w.Match q.1 q.2) (hdigits : p.1.digits?.isSome)
    (hgaps : (p :: after).IsChain Gap) :
    digitGroups isMark p.2.stop (after.map (·.2)) = (groups isMark p after).map (·.2) := by
  fun_induction groups isMark p after with
  | case1 p mark group rest h ih =>
    rw [List.isChain_cons_cons, List.isChain_cons_cons] at hgaps
    obtain ⟨hgap, hgap', hgaps⟩ := hgaps
    simp only [List.forall_mem_cons] at hmark hpairs
    have htouch := touches_congr hmark.1 hpairs.2.1 hdigits hgap hgap'
    have hrun : group.1.digits?.isSome := (Bool.and_eq_true_iff.mp h).2
    rw [h] at htouch
    simp only [List.map_cons, digitGroups, htouch, if_true, ih hmark.2.2 hpairs.2.2 hrun hgaps]
  | case2 p mark group rest h =>
    rw [List.isChain_cons_cons, List.isChain_cons_cons] at hgaps
    obtain ⟨hgap, hgap', -⟩ := hgaps
    simp only [List.forall_mem_cons] at hmark hpairs
    have htouch := touches_congr hmark.1 hpairs.2.1 hdigits hgap hgap'
    rw [Bool.eq_false_iff.mpr h] at htouch
    simp only [List.map_cons, digitGroups, htouch, Bool.false_eq_true, if_false, List.map_nil]
  | case3 after p h =>
    rcases after with - | ⟨mark, - | ⟨group, rest⟩⟩
    · rfl
    · rfl
    · exact absurd rfl (h mark group rest)

/-- From the one token up to the end of the other one both sources have the same text. -/
def SameText (w : SideBySide) (p q : Token × Token) : Prop :=
  ∃ text, Text.slice? w.left.source.toList p.1.start q.1.stop = some text ∧
    Text.slice? w.right.source.toList p.2.start q.2.stop = some text

theorem Match.sameText (h : w.Match p.1 p.2) : w.SameText p p := by
  obtain ⟨text, -, hleft, hright⟩ := h.text
  exact ⟨text, hleft, hright⟩

theorem SameText.slice (h : w.SameText p q) :
    w.right.slice p.2.start q.2.stop = w.left.slice p.1.start q.1.stop := by
  obtain ⟨text, hleft, hright⟩ := h
  simp only [Env.slice, Text.slice, hleft, hright]

/-- The text goes on with a token that touches it. -/
theorem SameText.append {r : Token × Token} (h : w.SameText p q) (hr : w.Match r.1 r.2)
    (hgap : Gap q r) (hdigits : q.1.digits?.isSome ∨ r.1.digits?.isSome)
    (htouch : r.1.start = q.1.stop) : w.SameText p r := by
  obtain ⟨text, hleft, hright⟩ := h
  obtain ⟨text', -, hleft', hright'⟩ := hr.text
  rw [htouch] at hleft'
  rw [← (hgap.touch hdigits).mpr htouch.symm] at hright'
  exact ⟨text ++ text', Text.slice?_append hleft hleft', Text.slice?_append hright hright'⟩

/-- Groups of digits are without gaps, so their text is the same. -/
theorem sameText_of_mem_groups {first last : Token × Token} (h : w.SameText first p)
    (hpairs : ∀ q ∈ after, w.Match q.1 q.2) (hdigits : p.1.digits?.isSome)
    (hgaps : (p :: after).IsChain Gap) (hlast : (groups isMark p after).getLast? = some last) :
    w.SameText first last := by
  fun_induction groups isMark p after with
  | case1 p mark group rest hgroup ih =>
    rw [List.isChain_cons_cons, List.isChain_cons_cons] at hgaps
    obtain ⟨hgap, hgap', hgaps⟩ := hgaps
    simp only [List.forall_mem_cons] at hpairs
    simp only [Bool.and_eq_true, beq_iff_eq] at hgroup
    obtain ⟨⟨⟨-, htouch⟩, htouch'⟩, hrun⟩ := hgroup
    have hmark := h.append hpairs.1 hgap (.inl hdigits) htouch
    have hnext := hmark.append hpairs.2.1 hgap' (.inr hrun) htouch'
    rw [List.getLast?_cons] at hlast
    cases hmore : (groups isMark group rest).getLast? with
    | none =>
      rw [hmore] at hlast
      obtain rfl : group = last := by simpa using hlast
      exact hnext
    | some more =>
      rw [hmore] at hlast
      obtain rfl : more = last := by simpa using hlast
      exact ih hnext hpairs.2.2 hrun hgaps hmore
  | case2 => cases hlast
  | case3 => cases hlast

theorem map_digitsOf {pairs : List (Token × Token)} (h : ∀ q ∈ pairs, w.Match q.1 q.2) :
    (pairs.map (·.2)).map digitsOf = (pairs.map (·.1)).map digitsOf := by
  simp only [List.map_map]
  exact List.map_congr_left fun q hq => congrArg (·.getD "") (h q hq).digits?

/-! ### States behind a run of digits -/

/-- The run of digits that has just been read, with the tokens around it. -/
structure BehindDigits (w : SideBySide) (p : Token × Token) (before after : List (Token × Token))
    (s s' : State) : Prop extends w.Beside (p :: before) after s s' where
  digits : p.1.digits?.isSome

theorem Alike.behindDigits (h : w.Alike s s') (hdigits : s.AfterDigits) :
    ∃ p before after, w.BehindDigits p before after s s' := by
  obtain ⟨before, after, h⟩ := h
  obtain ⟨t, seen, hseen, ht⟩ := hdigits
  cases before with
  | nil => simp [h.seen] at hseen
  | cons p before =>
    have hp : p.1 = t := by
      rw [h.seen] at hseen
      exact (List.cons.inj hseen).1
    exact ⟨p, before, after, h, by rw [hp]; exact ht⟩

namespace BehindDigits

theorem gaps_after (h : w.BehindDigits p before after s s') : (p :: after).IsChain Gap := by
  have hgaps := h.gaps
  rw [List.reverse_cons, List.append_assoc, List.singleton_append] at hgaps
  exact (List.isChain_append.mp hgaps).2.1

theorem gaps_before (h : w.BehindDigits p before after s s') :
    (p :: before).IsChain fun q r => Gap r q := by
  have hgaps := (List.isChain_append.mp h.gaps).1
  rwa [List.isChain_reverse] at hgaps

theorem match_after (h : w.BehindDigits p before after s s') : ∀ q ∈ after, w.Match q.1 q.2 :=
  fun _ hq => h.pairs _ (List.mem_append_right _ hq)

theorem match_self (h : w.BehindDigits p before after s s') : w.Match p.1 p.2 :=
  h.pairs p (.head _)

theorem previous_left (h : w.BehindDigits p before after s s') (env : Env) :
    s.previous env = p.1 := by
  simp [State.previous, h.seen]

theorem previous_right (h : w.BehindDigits p before after s s') (env : Env) :
    s'.previous env = p.2 := by
  simp [State.previous, h.seen']

theorem digitGroups (h : w.BehindDigits p before after s s') (isMark : Token → Bool)
    (hmark : ∀ q : Token × Token, w.Match q.1 q.2 → isMark q.2 = isMark q.1) :
    Parser.digitGroups isMark (s.previous w.left).stop s.rest = (groups isMark p after).map (·.1) ∧
      Parser.digitGroups isMark (s'.previous w.right).stop s'.rest =
        (groups isMark p after).map (·.2) := by
  rw [h.previous_left, h.previous_right, h.rest, h.rest']
  exact ⟨digitGroups_left p after, digitGroups_right (fun q hq => hmark q (h.match_after q hq))
    h.match_after h.digits h.gaps_after⟩

/-- On both sides the run follows a comma and another run without a gap, or on none. -/
theorem continuesChain (h : w.BehindDigits p before after s s') :
    Parser.continuesChain s'.seen = Parser.continuesChain s.seen := by
  have hgaps := h.gaps_before
  have hpairs : ∀ q ∈ before, w.Match q.1 q.2 := fun q hq =>
    h.pairs q (List.mem_append_left _ (.tail _ hq))
  rw [h.seen, h.seen']
  rcases before with - | ⟨comma, - | ⟨run, before⟩⟩
  · rfl
  · rfl
  · rw [List.isChain_cons_cons, List.isChain_cons_cons] at hgaps
    obtain ⟨hgap, hgap', -⟩ := hgaps
    simp only [List.forall_mem_cons] at hpairs
    simp only [List.map_cons, Parser.continuesChain, hpairs.1.isPunct, hpairs.2.1.digits?,
      hgap.stop_beq (.inr h.digits)]
    cases hrun : run.1.digits?.isSome with
    | false => simp only [Bool.and_false, Bool.false_and]
    | true => rw [hgap'.stop_beq (.inl hrun)]

end BehindDigits

/-! ### The parts of a number -/

theorem twin_thinSpaceGroups (run : String) (hs : w.Alike s s') (hdigits : s.AfterDigits) :
    w.Twin Equal s s' (thinSpaceGroups w.left run) (thinSpaceGroups w.right run) := by
  obtain ⟨p, before, after, h⟩ := hs.behindDigits hdigits
  obtain ⟨hleft, hright⟩ := h.digitGroups (·.isCommand ",") fun q hq => hq.isCommand ","
  have hpairs : ∀ q ∈ groups (·.isCommand ",") p after, w.Match q.1 q.2 := fun q hq =>
    h.match_after q (mem_of_mem_groups hq)
  unfold thinSpaceGroups
  refine .get ?_
  simp only [hleft, hright, joinGroups_eq, map_digitsOf hpairs, List.length_map]
  exact .skip hs fun ht => .pure ht rfl

theorem twin_commaGroups (run : String) (hs : w.Alike s s') (hdigits : s.AfterDigits) :
    w.Twin Equal s s' (commaGroups w.left run) (commaGroups w.right run) := by
  obtain ⟨p, before, after, h⟩ := hs.behindDigits hdigits
  obtain ⟨hleft, hright⟩ := h.digitGroups (·.isPunct ',') fun q hq => hq.isPunct ','
  have hpairs : ∀ q ∈ groups (·.isPunct ',') p after, w.Match q.1 q.2 := fun q hq =>
    h.match_after q (mem_of_mem_groups hq)
  have hpoint (count : Nat) : (s'.rest.drop count).head?.any (·.isPunct '.') =
      (s.rest.drop count).head?.any (·.isPunct '.') := by
    rw [h.rest, h.rest', ← List.map_drop, ← List.map_drop, List.head?_map, List.head?_map]
    cases hnext : (after.drop count).head? with
    | none => rfl
    | some q => exact (h.match_after q (List.mem_of_mem_drop (List.mem_of_head? hnext))).isPunct '.'
  unfold commaGroups
  refine .get ?_
  simp only [hleft, hright, joinGroups_eq, groupedByThree_eq, map_digitsOf hpairs, List.length_map,
    hpoint, any_long_eq, h.continuesChain, List.getLast?_map]
  cases hlast : (groups (·.isPunct ',') p after).getLast? with
  | none => exact .pure hs rfl
  | some last =>
    have htext := sameText_of_mem_groups h.match_self.sameText h.match_after h.digits h.gaps_after
      hlast
    have hlastPair := hpairs last (List.mem_of_getLast? hlast)
    dsimp only [Option.map_some]
    refine .ite (fun _ => .skip hs fun ht => .pure ht rfl) fun _ => .ite (fun _ => ?_) fun _ =>
      .pure hs rfl
    rw [h.previous_left, h.previous_right, htext.slice]
    refine .record hs (fun hexact => ?_) fun t t' ht _ _ => .pure ht rfl
    rw [h.match_self.same hexact, hlastPair.same hexact]
    exact ⟨rfl, rfl⟩

theorem twin_wholeDigits (hs : w.Alike s s') :
    w.Twin Equal s s' (wholeDigits w.left) (wholeDigits w.right) := by
  unfold wholeDigits
  refine .current ?_
  rw [hs.current.digits?]
  cases hrun : (s.current w.left).digits? with
  | none => exact .pure hs rfl
  | some run =>
    refine .advance hs fun ht => .get ?_
    have hdigits := afterDigits_forward_one hrun
    obtain ⟨p, before, after, h⟩ := ht.behindDigits hdigits
    obtain ⟨hleft, hright⟩ := h.digitGroups (·.isCommand ",") fun q hq => hq.isCommand ","
    simp only [hleft, hright, List.isEmpty_map]
    exact .ite (fun _ => twin_commaGroups run ht hdigits) fun _ => twin_thinSpaceGroups run ht hdigits

theorem twin_barredDigits (hs : w.Alike s s') :
    w.Twin Equal s s' barredDigits barredDigits := by
  have hkinds := hs.kinds
  unfold barredDigits
  refine .get ?_
  rcases hrest : s.rest with - | ⟨bar, - | ⟨opening, - | ⟨digits, - | ⟨closing, rest⟩⟩⟩⟩
  all_goals rw [hrest] at hkinds
  · rw [List.map_eq_nil_iff.mp hkinds]
    exact .pure hs rfl
  · obtain ⟨bar', us, hus, -, hkinds⟩ := exists_cons_of_map_kind hkinds
    rw [hus, List.map_eq_nil_iff.mp hkinds]
    exact .pure hs rfl
  · obtain ⟨bar', us, hus, -, hkinds⟩ := exists_cons_of_map_kind hkinds
    obtain ⟨opening', vs, rfl, -, hkinds⟩ := exists_cons_of_map_kind hkinds
    rw [hus, List.map_eq_nil_iff.mp hkinds]
    exact .pure hs rfl
  · obtain ⟨bar', us, hus, -, hkinds⟩ := exists_cons_of_map_kind hkinds
    obtain ⟨opening', vs, rfl, -, hkinds⟩ := exists_cons_of_map_kind hkinds
    obtain ⟨digits', ws, rfl, -, hkinds⟩ := exists_cons_of_map_kind hkinds
    rw [hus, List.map_eq_nil_iff.mp hkinds]
    exact .pure hs rfl
  · obtain ⟨bar', us, hus, hbar, hkinds⟩ := exists_cons_of_map_kind hkinds
    obtain ⟨opening', vs, rfl, hopening, hkinds⟩ := exists_cons_of_map_kind hkinds
    obtain ⟨digits', ws, rfl, hdigits, hkinds⟩ := exists_cons_of_map_kind hkinds
    obtain ⟨closing', xs, rfl, hclosing, -⟩ := exists_cons_of_map_kind hkinds
    simp only [hus, isCommand_congr hbar, hopening, hclosing, digits?_congr hdigits]
    refine .ite (fun _ => ?_) fun _ => .pure hs rfl
    cases digits.digits? with
    | none => exact .pure hs rfl
    | some run => exact .skip hs fun ht => .pure ht rfl

/-- The point stands right behind the whole digits on both sides or on none. -/
theorem touchesWhole_congr {whole : String} (hs : w.Alike s s') (hwhole : whole ≠ "" → s.AfterDigits)
    (hpoint : (s.current w.left).isPunct '.') :
    (whole != "" && (s'.current w.right).start == (s'.previous w.right).stop) =
      (whole != "" && (s.current w.left).start == (s.previous w.left).stop) := by
  by_cases hne : whole = ""
  · rw [bne_eq_false_iff_eq.mpr hne, Bool.false_and, Bool.false_and]
  · obtain ⟨p, before, after, h⟩ := hs.behindDigits (hwhole hne)
    have hgaps := h.gaps_after
    rw [h.previous_left, h.previous_right]
    congr 1
    cases after with
    | nil =>
      rw [State.current_of_rest_nil h.rest] at hpoint
      cases hpoint
    | cons q after =>
      rw [State.current_of_rest h.rest, State.current_of_rest h.rest']
      exact (List.isChain_cons_cons.mp hgaps).1.start_beq (.inl h.digits)

theorem twin_fractionDigits (whole : String) (hs : w.Alike s s')
    (hwhole : whole ≠ "" → s.AfterDigits) :
    w.Twin Equal s s' (fractionDigits w.left whole) (fractionDigits w.right whole) := by
  have hmarker := hs.current
  have hafter := hs.following
  unfold fractionDigits
  refine .get ?_
  simp only [hmarker.isPunct, hafter.digits?, hafter.isCommand]
  refine .ite (fun _ => .pure hs rfl) fun hpoint => .ite (fun _ => ?_) fun _ => ?_
  · refine .advance hs fun ht => .current ?_
    rw [ht.current.digits?]
    cases hrun : ((s.forward 1).current w.left).digits? with
    | none => exact (twin_barredDigits ht).bind_equal fun barred u u' hu _ => .pure hu rfl
    | some run =>
      refine .advance ht fun hu => ?_
      refine (twin_thinSpaceGroups run hu (afterDigits_forward_one hrun)).bind_equal ?_
      intro fraction v v' hv _
      exact (twin_barredDigits hv).bind_equal fun barred u u' hu _ => .pure hu rfl
  · rw [touchesWhole_congr hs hwhole (by simpa using hpoint)]
    exact .ite (fun _ => .advance hs fun ht => .pure ht rfl) fun _ => .pure hs rfl

theorem twin_exponent (hs : w.Alike s s') : w.Twin Equal s s' exponent exponent := by
  unfold exponent
  refine .get ?_
  rw [powerOfTen?_congr hs.kinds]
  cases powerOfTen? s.rest with
  | none => exact .pure hs rfl
  | some found => exact .skip hs fun ht => .pure ht rfl

theorem twin_number (negative : Bool) (hs : w.Alike s s') :
    w.Twin (w.Same look) s s' (number w.left negative) (number w.right negative) := by
  unfold number
  refine .current ((twin_wholeDigits hs).bind_of_runs ?_)
  intro whole whole' t t' hruns ht _ hwhole
  cases hwhole
  refine (twin_fractionDigits whole ht (afterDigits_of_runs_wholeDigits hruns)).bind_equal ?_
  intro parts u u' hu _
  refine (twin_exponent hu).bind_equal fun exponent v v' hv _ => ?_
  dsimp only
  split
  · exact .pure hv (.refl _ _)
  · refine .get (.record hv (fun hexact => ?_) fun t t' ht _ _ => .pure ht (.refl _ _))
    rw [hs.current.same hexact, hv.previous.same hexact]
    exact ⟨rfl, rfl⟩

end SideBySide

end TexFormula.Parser
