import TexFormula.Proofs.Excerpt
import TexFormula.Proofs.Numerals

/-!
# Numerals of a piece

A numeral looks ahead by some tokens, but it goes on only with tokens that close no group, so it does not
see what stands behind the piece (`digitGroups_place`, `powerOfTen?_place`). It can read the last token,
as the brace behind digits under a bar or behind an exponent, and leave the piece by that.
-/

namespace TexFormula.Parser

/-- The digits under a bar, if they are next. -/
def barred? : List Token → Option String
  | bar :: opening :: digits :: closing :: _ =>
    if bar.isCommand "overline" && opening.kind == .groupOpen && closing.kind == .groupClose then
      digits.digits?
    else
      none
  | _ => none

theorem barredDigits_eq : barredDigits = do
    match barred? (← get).rest with
    | some run => do
      skip 4
      return run
    | none => return "" := by
  unfold barredDigits
  refine bind_congr fun s => ?_
  rcases hrest : s.rest with - | ⟨bar, - | ⟨opening, - | ⟨digits, - | ⟨closing, rest⟩⟩⟩⟩
  all_goals try rfl
  dsimp only [barred?]
  split
  · cases digits.digits? <;> rfl
  · rfl

namespace Closes

variable {t : Token}

theorem digits? (h : Closes t) : t.digits? = none := by
  rcases h with h | h <;> simp only [Token.digits?, h]

theorem isPunct (h : Closes t) (c : Char) : t.isPunct c = false := by
  rcases h with h | h <;> rw [Token.isPunct, h] <;> rfl

theorem isCommand (h : Closes t) (name : String) : t.isCommand name = false := by
  rcases h with h | h <;> rw [Token.isCommand, h] <;> rfl

theorem not_of_digits? {run : String} (h : t.digits? = some run) : ¬ Closes t := by
  intro ht
  rw [ht.digits?] at h
  cases h

theorem not_of_isPunct {c : Char} (h : t.isPunct c) : ¬ Closes t := by
  intro ht
  rw [ht.isPunct c] at h
  cases h

theorem not_of_groupOpen (h : t.kind = .groupOpen) : ¬ Closes t := by
  rintro (ht | ht) <;> · rw [h] at ht; cases ht

end Closes

namespace Excerpt

variable {w : Excerpt} {s s' t t' : State} {own : List Token}

/-! ### Looking ahead -/

/-- The groups of a numeral end before the end of the piece. -/
theorem digitGroups_place {isMark : Token → Bool} (hmark : ∀ t, isMark (w.place t) = isMark t)
    (hstop : ∀ t, Closes t → isMark t = false) {stop : Nat} (hown : Closed own) :
    digitGroups isMark (stop + w.offset) (own.map w.place ++ w.after) =
        (digitGroups isMark stop own).map w.place ∧
      2 * (digitGroups isMark stop own).length < own.length := by
  induction stop, own using digitGroups.induct isMark with
  | case1 stop mark group rest h ih =>
    have hlonger : Closed rest := by
      simp only [Bool.and_eq_true] at h
      obtain ⟨run, hrun⟩ := Option.isSome_iff_exists.mp h.2
      exact hown.tail.tail_of_not (Closes.not_of_digits? hrun)
    obtain ⟨heq, hlength⟩ := ih hlonger
    rw [digitGroups.eq_1, if_pos h]
    constructor
    · rw [List.map_cons, List.map_cons, List.cons_append, List.cons_append, digitGroups.eq_1,
        if_pos (by simpa [hmark] using h), List.map_cons]
      exact congrArg (w.place group :: ·) heq
    · simp only [List.length_cons]
      omega
  | case2 stop mark group rest h =>
    rw [digitGroups.eq_1, if_neg h]
    constructor
    · rw [List.map_cons, List.map_cons, List.cons_append, List.cons_append, digitGroups.eq_1,
        if_neg (by simpa [hmark] using h), List.map_nil]
    · simp
  | case3 own stop hshort =>
    cases hown with
    | @last x hx =>
      have hnone : ∀ t ∈ ([x].map w.place ++ w.after).head?, isMark t = false := by
        rintro t ⟨rfl⟩
        rw [hmark, hstop x hx]
      have hempty : digitGroups isMark stop [x] = [] :=
        digitGroups_eq_nil (by rintro t ⟨rfl⟩; exact hstop x hx)
      rw [hempty]
      exact ⟨digitGroups_eq_nil hnone, by simp⟩
    | cons x hxs =>
      obtain ⟨y, ys, rfl⟩ := List.exists_cons_of_ne_nil hxs.ne_nil
      exact absurd rfl (hshort x y ys)

theorem digitsToBrace?_place (hown : Closed own) :
    digitsToBrace? (own.map w.place ++ w.after) = digitsToBrace? own := by
  cases hown with
  | @last x hx =>
    cases w.after with
    | nil => rfl
    | cons y ys =>
      simp only [List.map_cons, List.map_nil, List.singleton_append, digitsToBrace?, digits?_place,
        hx.digits?, ite_self]
  | cons x hxs =>
    obtain ⟨y, ys, rfl⟩ := List.exists_cons_of_ne_nil hxs.ne_nil
    rfl

theorem bracedExponent?_place (hown : Closed own) :
    bracedExponent? (own.map w.place ++ w.after) = bracedExponent? own := by
  cases hown with
  | @last x hx =>
    have hopening : (x.kind != .groupOpen) = true := by
      rcases hx with hx | hx <;> rw [hx] <;> rfl
    cases w.after with
    | nil => rfl
    | cons y ys =>
      simp only [List.map_cons, List.map_nil, List.singleton_append, bracedExponent?, kind_place,
        hopening, if_true]
  | cons x hxs =>
    have hdigits := digitsToBrace?_place (w := w) hxs
    obtain ⟨y, ys, rfl⟩ := List.exists_cons_of_ne_nil hxs.ne_nil
    rw [List.map_cons, List.cons_append] at hdigits
    have hsign : sign? (w.place y) = sign? y := rfl
    simp only [List.map_cons, List.cons_append, bracedExponent?, kind_place, hsign, hdigits]
    cases hy : sign? y with
    | none => rfl
    | some sign =>
      have hlonger : Closed ys := by
        refine hxs.tail_of_not fun hclose => ?_
        rw [sign?, hclose.isPunct, hclose.isPunct] at hy
        cases hy
      simp only [digitsToBrace?_place hlonger]

theorem exponentText?_place (hown : Closed own) :
    exponentText? (own.map w.place ++ w.after) = exponentText? own := by
  have hbraced := bracedExponent?_place (w := w) hown
  obtain ⟨x, xs, rfl⟩ := List.exists_cons_of_ne_nil hown.ne_nil
  unfold exponentText?
  rw [hbraced]
  rfl

/-- None of the first three tokens of a power of ten closes a group. -/
theorem powerOfTen?_of_closes {ts : List Token} {i : Nat} (hi : i < 3) {x : Token}
    (hx : ts[i]? = some x) (hclose : Closes x) : powerOfTen? ts = none := by
  have hten : (x.kind == .digits "10") = false := by
    rcases hclose with h | h <;> rw [h] <;> rfl
  rcases ts with - | ⟨times, - | ⟨ten, - | ⟨caret, rest⟩⟩⟩
  all_goals try rfl
  unfold powerOfTen?
  dsimp only
  rcases i with - | - | - | i
  · cases hx
    rw [hclose.isCommand, hclose.isCommand, Bool.or_self, Bool.false_and, Bool.false_and]
    rfl
  · cases hx
    rw [hten, Bool.and_false, Bool.false_and]
    rfl
  · cases hx
    rw [hclose.isPunct, Bool.and_false]
    rfl
  · omega

theorem powerOfTen?_place (hown : Closed own) :
    powerOfTen? (own.map w.place ++ w.after) = powerOfTen? own := by
  cases hown with
  | @last x hx =>
      rw [powerOfTen?_of_closes (i := 0) (x := w.place x) (by omega) rfl hx,
        powerOfTen?_of_closes (i := 0) (by omega) rfl hx]
  | cons times hown =>
    cases hown with
    | @last x hx =>
        rw [powerOfTen?_of_closes (i := 1) (x := w.place x) (by omega) rfl hx,
          powerOfTen?_of_closes (i := 1) (by omega) rfl hx]
    | cons ten hown =>
      cases hown with
      | @last x hx =>
          rw [powerOfTen?_of_closes (i := 2) (x := w.place x) (by omega) rfl hx,
            powerOfTen?_of_closes (i := 2) (by omega) rfl hx]
      | cons caret hown =>
        have hexponent := exponentText?_place (w := w) hown
        simp only [List.map_cons, List.cons_append, powerOfTen?, isCommand_place, isPunct_place,
          kind_place, hexponent]

theorem barred?_of_closes {ts : List Token} {i : Nat} (hi : i < 3) {x : Token}
    (hx : ts[i]? = some x) (hclose : Closes x) : barred? ts = none := by
  have hopening : (x.kind == .groupOpen) = false := by
    rcases hclose with h | h <;> rw [h] <;> rfl
  rcases ts with - | ⟨bar, - | ⟨opening, - | ⟨digits, - | ⟨closing, rest⟩⟩⟩⟩
  all_goals try rfl
  unfold barred?
  dsimp only
  rcases i with - | - | - | i
  · cases hx
    rw [hclose.isCommand, Bool.false_and, Bool.false_and]
    rfl
  · cases hx
    rw [hopening, Bool.and_false, Bool.false_and]
    rfl
  · cases hx
    rw [hclose.digits?, ite_self]
  · omega

theorem barred?_place (hown : Closed own) :
    barred? (own.map w.place ++ w.after) = barred? own := by
  cases hown with
  | @last x hx =>
      rw [barred?_of_closes (i := 0) (x := w.place x) (by omega) rfl hx,
        barred?_of_closes (i := 0) (by omega) rfl hx]
  | cons bar hown =>
    cases hown with
    | @last x hx =>
        rw [barred?_of_closes (i := 1) (x := w.place x) (by omega) rfl hx,
          barred?_of_closes (i := 1) (by omega) rfl hx]
    | cons opening hown =>
      cases hown with
      | @last x hx =>
          rw [barred?_of_closes (i := 2) (x := w.place x) (by omega) rfl hx,
            barred?_of_closes (i := 2) (by omega) rfl hx]
      | cons digits hown =>
        obtain ⟨closing, rest, rfl⟩ := List.exists_cons_of_ne_nil hown.ne_nil
        rfl

theorem startsNumber_place (hown : Closed own) :
    startsNumber (own.map w.place ++ w.after) = startsNumber own := by
  cases hown with
  | @last x hx =>
    simp only [List.map_cons, List.map_nil, List.singleton_append, startsNumber, digits?_place,
      isPunct_place, hx.isPunct, Bool.false_and]
  | cons x hxs =>
    obtain ⟨y, ys, rfl⟩ := List.exists_cons_of_ne_nil hxs.ne_nil
    rfl

/-! ### The parts of a numeral -/

variable {α : Type} {bad : α → State → Prop}

theorem joinGroups_place (run : String) (groups : List Token) :
    joinGroups run (groups.map w.place) = joinGroups run groups := by
  rw [joinGroups, List.foldl_map]
  rfl

theorem groupedByThree_place (run : String) (groups : List Token) :
    groupedByThree run (groups.map w.place) = groupedByThree run groups := by
  rw [groupedByThree, List.all_map]
  rfl

/-- Tokens of the piece are skipped, but not all. -/
theorem Mirrored.skip_inside {count : Nat} {f f' : Unit → Parser α} (hs : w.Beside s s')
    (hcount : count < s'.rest.length)
    (h : w.Beside (s.forward count) (s'.forward count) →
      w.Mirrored bad (s.forward count) (s'.forward count) (f ()) (f' ())) :
    w.Mirrored bad s s' (Parser.skip count >>= f) (Parser.skip count >>= f') :=
  .skip hs h fun hpast => absurd hpast (hs.forward hcount).not_past

theorem mirrored_thinSpaceGroups {bad : String → State → Prop} (run : String) (hs : w.Beside s s') :
    w.Mirrored bad s s' (thinSpaceGroups w.whole run) (thinSpaceGroups w.part run) := by
  obtain ⟨heq, hlength⟩ := @digitGroups_place w s'.rest (·.isCommand ",") (fun _ => rfl)
    (fun _ h => h.isCommand ",") (s'.previous w.part).stop hs.closed
  refine .get ?_
  dsimp only
  rw [hs.previous, hs.rest, stop_place, heq, List.length_map, joinGroups_place]
  exact .skip_inside hs hlength fun ht => .pure ht _

theorem mirrored_commaGroups {bad : String → State → Prop} (run : String) (hs : w.Beside s s') :
    w.Mirrored bad s s' (commaGroups w.whole run) (commaGroups w.part run) := by
  obtain ⟨heq, hlength⟩ := @digitGroups_place w s'.rest (·.isPunct ',') (fun _ => rfl)
    (fun _ h => h.isPunct ',') (s'.previous w.part).stop hs.closed
  unfold commaGroups
  refine .get ?_
  dsimp only
  rw [hs.previous, stop_place, show digitGroups (·.isPunct ',') _ s.rest = _ from hs.rest ▸ heq,
    List.length_map, groupedByThree_place, joinGroups_place, List.getLast?_map]
  generalize digitGroups (·.isPunct ',') (s'.previous w.part).stop s'.rest = groups at hlength
  have hbehind : (s.rest.drop (2 * groups.length)).head?.any (·.isPunct '.') =
      (s'.rest.drop (2 * groups.length)).head?.any (·.isPunct '.') := by
    obtain ⟨x, xs, hrest', hrest⟩ := (hs.forward hlength).exists_rest
    rw [State.rest_forward] at hrest hrest'
    rw [hrest, hrest']
    rfl
  rw [hbehind]
  cases groups.getLast? with
  | none => exact .pure hs run
  | some last =>
    refine .ite (fun _ => .skip_inside hs hlength fun ht => .pure ht _) fun _ => ?_
    exact .record_if hs fun t t' ht => .pure ht run

theorem mirrored_wholeDigits {bad : String → State → Prop} (hs : w.Beside s s') :
    w.Mirrored bad s s' (wholeDigits w.whole) (wholeDigits w.part) := by
  refine .current ?_
  rw [hs.current, digits?_place]
  cases hdigits : (s'.current w.part).digits? with
  | none => exact .pure hs ""
  | some run =>
    refine .advance hs (Closes.not_of_digits? hdigits) fun ht => .get ?_
    have hgroups : (digitGroups (·.isCommand ",") ((s.forward 1).previous w.whole).stop
          (s.forward 1).rest).isEmpty =
        (digitGroups (·.isCommand ",") ((s'.forward 1).previous w.part).stop
          (s'.forward 1).rest).isEmpty := by
      rw [ht.previous, ht.rest, stop_place, (@digitGroups_place w (s'.forward 1).rest (·.isCommand ",")
        (fun _ => rfl) (fun _ h => h.isCommand ",") _ ht.closed).1, List.isEmpty_map]
    rw [hgroups]
    exact .ite (fun _ => mirrored_commaGroups run ht) fun _ => mirrored_thinSpaceGroups run ht

theorem mirrored_barredDigits (hs : w.Beside s s') :
    w.Mirrored w.Leaves s s' barredDigits barredDigits := by
  rw [barredDigits_eq]
  refine .get ?_
  rw [hs.rest, barred?_place hs.closed]
  cases barred? s'.rest with
  | none => exact .pure hs ""
  | some run => exact .skip hs (fun ht => .pure ht run) fun hpast => .pure hpast

theorem mirrored_fractionDigits (whole : String) (hs : w.Beside s s') :
    w.Mirrored w.Leaves s s' (fractionDigits w.whole whole) (fractionDigits w.part whole) := by
  unfold fractionDigits
  refine .get ?_
  dsimp only
  rw [hs.current, hs.previous, isPunct_place]
  by_cases hpoint : (s'.current w.part).isPunct '.'
  · have hopen := Closes.not_of_isPunct hpoint
    rw [hs.following hopen, hpoint, digits?_place, isCommand_place]
    refine .ite (fun h => by cases h) fun _ => .ite (fun _ => .advance hs hopen fun ht => ?_) fun _ => ?_
    · have hbarred (fraction : String) {u u' : State} (hu : w.Beside u u') :
          w.Mirrored w.Leaves u u' (do return (fraction, ← barredDigits))
            (do return (fraction, ← barredDigits)) :=
        (mirrored_barredDigits hu).bind (fun _ _ hpast => .pure hpast) fun _ _ _ hv => .pure hv _
      refine .current ?_
      rw [ht.current, digits?_place]
      cases hdigits : ((s'.forward 1).current w.part).digits? with
      | none => exact hbarred "" ht
      | some run =>
        refine .advance ht (Closes.not_of_digits? hdigits) fun hu => ?_
        exact .bind (mirrored_thinSpaceGroups run hu : w.Mirrored (fun _ _ => False) _ _ _ _) nofun
          fun fraction _ _ hv => hbarred fraction hv
    · have htouch : ((w.place (s'.current w.part)).start == (w.place (s'.previous w.part)).stop) =
          ((s'.current w.part).start == (s'.previous w.part).stop) := by
        rw [start_place, stop_place, Bool.eq_iff_iff, beq_iff_eq, beq_iff_eq]
        omega
      rw [htouch]
      exact .ite (fun _ => .advance hs hopen fun ht => .pure ht _) fun _ => .pure hs _
  · rw [Bool.eq_false_iff.mpr hpoint]
    exact .pure hs _

theorem mirrored_exponent (hs : w.Beside s s') : w.Mirrored w.Leaves s s' exponent exponent := by
  refine .get ?_
  rw [hs.rest, powerOfTen?_place hs.closed]
  cases powerOfTen? s'.rest with
  | none => exact .pure hs none
  | some found => exact .skip hs (fun ht => .pure ht _) fun hpast => .pure hpast

/-! ### Numerals -/

theorem mirrored_number (negative : Bool) (hs : w.Beside s s') :
    w.Mirrored w.Leaves s s' (number w.whole negative) (number w.part negative) := by
  unfold number
  refine .current (.bind (mirrored_wholeDigits hs : w.Mirrored (fun _ _ => False) _ _ _ _) nofun
    fun whole t t' ht => ?_)
  refine .bind (mirrored_fractionDigits whole ht) (fun fraction u hpast => ?_)
    fun fraction u u' hu => ?_
  · have hexponent : Keeps 0 exponent := (keeps 0).exponent
    refine (ensures_past hexponent hpast).bind fun power v hv => ?_
    dsimp only
    split
    · exact .pure hv
    · exact .get (.record (.pure hv))
  · refine .bind (mirrored_exponent hu) (fun power v hv => ?_) fun power v v' hv => ?_
    · dsimp only
      split
      · exact .pure hv
      · exact .get (.record (.pure hv))
    · dsimp only
      split
      · exact .pure hv _
      · exact .get (.record hv fun _ _ hx _ => .pure hx _)

/-- What is read of a numeral does not depend on its sign. -/
theorem rest_eq_of_number {env : Env} {negative negative' : Bool} {v v' : Expression}
    (h : Runs (number env negative) s v t) (h' : Runs (number env negative') s v' t') :
    t'.rest = t.rest := by
  have hparts {negative : Bool} {v : Expression} {t : State} (h : Runs (number env negative) s v t) :
      ∃ whole t₁ fraction t₂ power t₃, Runs (wholeDigits env) s whole t₁ ∧
        Runs (fractionDigits env whole) t₁ fraction t₂ ∧ Runs exponent t₂ power t₃ ∧
          t.rest = t₃.rest := by
    unfold number at h
    rw [runs_current] at h
    obtain ⟨whole, t₁, hwhole, h⟩ := runs_bind.mp h
    obtain ⟨fraction, t₂, hfraction, h⟩ := runs_bind.mp h
    obtain ⟨power, t₃, hpower, h⟩ := runs_bind.mp h
    refine ⟨whole, t₁, fraction, t₂, power, t₃, hwhole, hfraction, hpower, ?_⟩
    dsimp only at h
    split at h
    · rw [(runs_pure.mp h).2]
    · rw [runs_get] at h
      obtain ⟨_, u, hrecord, h⟩ := runs_bind.mp h
      rw [(runs_pure.mp h).2]
      cases hrecord
      rfl
  obtain ⟨_, _, _, _, _, _, hwhole, hfraction, hpower, hrest⟩ := hparts h
  obtain ⟨_, _, _, _, _, _, hwhole', hfraction', hpower', hrest'⟩ := hparts h'
  obtain ⟨rfl, rfl⟩ := hwhole.det hwhole'
  obtain ⟨rfl, rfl⟩ := hfraction.det hfraction'
  obtain ⟨rfl, rfl⟩ := hpower.det hpower'
  rw [hrest, hrest']

end Excerpt

end TexFormula.Parser
