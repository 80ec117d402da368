import TexFormula.Proofs.ParserRun
import TexFormula.Proofs.Spelling

/-!
# Plain forms of numerals

A numeral that is no number is quoted in its plain form: its digits without the marks between their
groups, and the exponent of its power of ten. `plainForm` finds it in the tokens of the numeral. There is
one lemma for each part of a numeral that says which tokens it takes (`State.Takes`) and what it makes of
them; `plainForm_parts` puts the parts together.
-/

namespace TexFormula.Parser

variable {env : Env} {s t u : State} {own own' whole decimals power : List Token} {run : String}

/-! ### The plain form -/

/-- A power of ten goes on behind the token. -/
def isTimes (t : Token) : Bool :=
  t.isCommand "times" || t.isCommand "cdot"

/-- The plain form of a numeral that is made up of some tokens. -/
def plainForm (negative : Bool) (tokens : List Token) : String :=
  let mantissa := tokens.takeWhile (!isTimes ·)
  let decimals := mantissa.dropWhile (!·.isPunct '.')
  literal negative (joinGroups "" (mantissa.takeWhile (!·.isPunct '.')))
    (joinGroups "" (decimals.takeWhile (!·.isCommand "overline")))
    (joinGroups "" (decimals.dropWhile (!·.isCommand "overline")))
    ((powerOfTen? (tokens.dropWhile (!isTimes ·))).map Prod.fst)

/-- The token is a digit run or a mark between two of them. -/
def inDigitGroups (t : Token) : Bool :=
  t.digits?.isSome || t.isPunct ',' || t.isCommand ","

theorem kind_of_inDigitGroups {t : Token} (h : inDigitGroups t) :
    (∃ run, t.kind = .digits run) ∨ t.kind = .punct ',' ∨ t.kind = .command "," := by
  unfold inDigitGroups Token.digits? Token.isPunct Token.isCommand at h
  cases hkind : t.kind <;> simp_all

theorem digitsOf_of_kind {t : Token} (h : ∀ run, t.kind ≠ .digits run) : digitsOf t = "" := by
  unfold digitsOf Token.digits?
  split
  · next run hkind => exact absurd hkind (h run)
  · rfl

theorem not_isPunct_of_inDigitGroups {t : Token} (h : inDigitGroups t) : t.isPunct '.' = false := by
  rcases kind_of_inDigitGroups h with ⟨run, hkind⟩ | hkind | hkind <;>
    simp [Token.isPunct, hkind]

theorem not_isCommand_of_inDigitGroups {t : Token} {name : String} (h : inDigitGroups t)
    (hname : name ≠ ",") : t.isCommand name = false := by
  rcases kind_of_inDigitGroups h with ⟨run, hkind⟩ | hkind | hkind <;>
    simp [Token.isCommand, hkind, hname.symm]

theorem not_isTimes_of_inDigitGroups {t : Token} (h : inDigitGroups t) : isTimes t = false := by
  simp [isTimes, not_isCommand_of_inDigitGroups h]

/-- The whole digits, what comes from the point on and the power of ten are told apart by the tokens
that they start with. -/
theorem plainForm_parts (negative : Bool) (hwhole : ∀ x ∈ whole, inDigitGroups x)
    (hpoint : ∀ x ∈ decimals.head?, x.isPunct '.') (hdecimals : ∀ x ∈ decimals, isTimes x = false)
    (hpower : ∀ x ∈ power.head?, isTimes x) :
    plainForm negative (whole ++ (decimals ++ power)) = literal negative (joinGroups "" whole)
      (joinGroups "" (decimals.takeWhile (!·.isCommand "overline")))
      (joinGroups "" (decimals.dropWhile (!·.isCommand "overline")))
      ((powerOfTen? power).map Prod.fst) := by
  have hmantissa : ∀ x ∈ whole ++ decimals, (!isTimes x) = true := by
    intro x hx
    rcases List.mem_append.mp hx with hx | hx
    · simp [not_isTimes_of_inDigitGroups (hwhole x hx)]
    · simp [hdecimals x hx]
  have hbefore : ∀ x ∈ whole, (!x.isPunct '.') = true := by
    intro x hx
    simp [not_isPunct_of_inDigitGroups (hwhole x hx)]
  have htimes : power.head?.any (!isTimes ·) = false := by
    cases power with
    | nil => rfl
    | cons x power => simp [hpower x rfl]
  have hdot : decimals.head?.any (!·.isPunct '.') = false := by
    cases decimals with
    | nil => rfl
    | cons x decimals => simp [hpoint x rfl]
  unfold plainForm
  rw [← List.append_assoc, Text.takeWhile_append hmantissa htimes,
    Text.dropWhile_append hmantissa htimes]
  dsimp only
  rw [Text.takeWhile_append hbefore hdot, Text.dropWhile_append hbefore hdot]

theorem startsNumber_append (h : startsNumber own) (own' : List Token) :
    startsNumber (own ++ own') := by
  cases own with
  | nil => cases h
  | cons first own =>
    cases own with
    | nil => simpa [startsNumber] using .inl (by simpa [startsNumber] using h)
    | cons next own => exact h

/-! ### Tokens taken -/

/-- From one state to the other just these tokens are read. -/
structure State.Takes (s : State) (own : List Token) (t : State) : Prop where
  rest : s.rest = own ++ t.rest
  seen : t.seen = own.reverse ++ s.seen

namespace State.Takes

theorem refl (s : State) : s.Takes [] s :=
  ⟨rfl, rfl⟩

theorem trans (h : s.Takes own t) (h' : t.Takes own' u) : s.Takes (own ++ own') u := by
  refine ⟨?_, ?_⟩
  · rw [h.rest, h'.rest, List.append_assoc]
  · rw [h'.seen, h.seen, List.reverse_append, List.append_assoc]

theorem forward (s : State) (count : Nat) : s.Takes (s.rest.take count) (s.forward count) :=
  ⟨by simp, s.seen_forward count⟩

theorem forward_one {x : Token} {rest : List Token} (h : s.rest = x :: rest) :
    s.Takes [x] (s.forward 1) := by
  have hone := forward s 1
  rwa [h] at hone

/-- The token taken last is the one before those that are left. -/
theorem previous_eq {init : List Token} {x : Token} (h : s.Takes (init ++ [x]) t) :
    t.previous env = x := by
  simp [State.previous, h.seen]

end State.Takes

theorem startsNumber_of_digits {x : Token} (h : x.digits?.isSome) (own : List Token) :
    startsNumber (x :: own) := by
  simp [startsNumber, h]

/-! ### Digit groups -/

/-- The groups and their marks hold the digits of the groups. -/
theorem joinGroups_digitGroups {isMark : Token → Bool}
    (hmark : ∀ x, isMark x → x.isPunct ',' ∨ x.isCommand ",") (run : String) (stop : Nat) :
    ∀ tokens : List Token,
      (∀ x ∈ tokens.take (2 * (digitGroups isMark stop tokens).length), inDigitGroups x) ∧
        joinGroups run (tokens.take (2 * (digitGroups isMark stop tokens).length)) =
          joinGroups run (digitGroups isMark stop tokens)
  | [] => ⟨by simp, by simp [digitGroups]⟩
  | [_] => ⟨by simp [digitGroups], by simp [digitGroups]⟩
  | mark :: group :: rest => by
    unfold digitGroups
    split
    · next hgoes =>
      obtain ⟨hall, hjoin⟩ :=
        joinGroups_digitGroups hmark (run ++ digitsOf group) group.stop rest
      simp only [Bool.and_eq_true] at hgoes
      have hcomma := hmark mark hgoes.1.1.1
      have hmarks : inDigitGroups mark := by
        rcases hcomma with h | h <;> simp [inDigitGroups, h]
      have hempty : digitsOf mark = "" := by
        refine digitsOf_of_kind fun run hkind => ?_
        simp [Token.isPunct, Token.isCommand, hkind] at hcomma
      refine ⟨?_, ?_⟩
      · simp only [List.length_cons, Nat.mul_add, List.take_succ_cons, List.forall_mem_cons]
        exact ⟨hmarks, by simp [inDigitGroups, hgoes.2], hall⟩
      · simp only [List.length_cons, Nat.mul_add, List.take_succ_cons]
        simpa [joinGroups, hempty] using hjoin
    · exact ⟨by simp, by simp⟩

/-- The digits go on behind `run`, and nothing but groups of them is taken. -/
def JoinsGroups (s : State) (run : String) (digits : String) (t : State) : Prop :=
  ∃ own, s.Takes own t ∧ (∀ x ∈ own, inDigitGroups x) ∧ digits = joinGroups run own

theorem JoinsGroups.none (s : State) (run : String) : JoinsGroups s run run s :=
  ⟨[], .refl s, by simp, rfl⟩

theorem JoinsGroups.skip {isMark : Token → Bool}
    (hmark : ∀ x, isMark x → x.isPunct ',' ∨ x.isCommand ",") (stop : Nat) :
    JoinsGroups s run (joinGroups run (digitGroups isMark stop s.rest))
      (s.forward (2 * (digitGroups isMark stop s.rest).length)) := by
  obtain ⟨hall, hjoin⟩ := joinGroups_digitGroups hmark run stop s.rest
  exact ⟨_, .forward s _, hall, hjoin.symm⟩

theorem ensures_thinSpaceGroups (run : String) (s : State) :
    Ensures (JoinsGroups s run) s (thinSpaceGroups env run) :=
  .get (.skip (.pure (.skip (fun _ h => .inr h) _)))

theorem ensures_commaGroups (run : String) (s : State) :
    Ensures (JoinsGroups s run) s (commaGroups env run) := by
  refine .get ?_
  dsimp only
  split
  · exact .pure (.none s run)
  · split
    · exact .skip (.pure (.skip (fun _ h => .inl h) _))
    · split
      · exact .record (.pure ⟨[], ⟨rfl, rfl⟩, by simp, rfl⟩)
      · exact .pure (.none s run)

/-! ### Parts of a numeral -/

theorem ensures_wholeDigits (s : State) : Ensures (fun digits t => ∃ own, s.Takes own t ∧
    (∀ x ∈ own, inDigitGroups x) ∧ digits = joinGroups "" own ∧
      ((s.current env).digits? = none ∧ own = [] ∨ startsNumber own)) s (wholeDigits env) := by
  refine .current ?_
  split
  · next hnone => exact .pure ⟨[], .refl s, by simp, rfl, .inl ⟨hnone, rfl⟩⟩
  next run hrun =>
  obtain ⟨first, rest, hrest⟩ : ∃ first rest, s.rest = first :: rest :=
    List.exists_cons_of_ne_nil (rest_ne_nil_of_digits? (Option.isSome_of_eq_some hrun))
  rw [State.current_of_rest hrest] at hrun
  have hfirst : first.digits?.isSome := by simp [hrun]
  have hbehind {m : Parser String} (h : Ensures (JoinsGroups (s.forward 1) run) (s.forward 1) m) :
      Ensures (fun digits t => ∃ own, s.Takes own t ∧ (∀ x ∈ own, inDigitGroups x) ∧
        digits = joinGroups "" own ∧ ((s.current env).digits? = none ∧ own = [] ∨ startsNumber own))
        (s.forward 1) m := by
    refine h.mono ?_
    rintro digits t ⟨own, htakes, hown, rfl⟩
    refine ⟨first :: own, (State.Takes.forward_one hrest).trans htakes, ?_, ?_,
      .inr (startsNumber_of_digits hfirst own)⟩
    · exact List.forall_mem_cons.mpr ⟨by simp [inDigitGroups, hfirst], hown⟩
    · simp [joinGroups, digitsOf, hrun]
  refine .advance (.get ?_)
  split
  · exact hbehind (ensures_commaGroups run _)
  · exact hbehind (ensures_thinSpaceGroups run _)

theorem ensures_barredDigits (s : State) : Ensures (fun digits t => ∃ own, s.Takes own t ∧
    (∀ x ∈ own.head?, x.isCommand "overline") ∧ (∀ x ∈ own, isTimes x = false) ∧
      digits = joinGroups "" own) s barredDigits := by
  have hnone : ∃ own, s.Takes own s ∧ (∀ x ∈ own.head?, x.isCommand "overline") ∧
      (∀ x ∈ own, isTimes x = false) ∧ "" = joinGroups "" own := ⟨[], .refl s, by simp, by simp, rfl⟩
  refine .get ?_
  split
  · next bar opening digits closing more hrest =>
    split
    · next hbarred =>
      simp only [Bool.and_eq_true, Token.isCommand, beq_iff_eq] at hbarred
      obtain ⟨⟨hbar, hopening⟩, hclosing⟩ := hbarred
      split
      · next run hrun =>
        have htakes := State.Takes.forward s 4
        rw [hrest] at htakes
        have hdigits : inDigitGroups digits := by simp [inDigitGroups, hrun]
        refine .skip (.pure ⟨[bar, opening, digits, closing], htakes, ?_, ?_, ?_⟩)
        · simp [Token.isCommand, hbar]
        · have htimes := not_isTimes_of_inDigitGroups hdigits
          simp [isTimes, Token.isCommand, hbar, hopening, hclosing] at htimes ⊢
          exact htimes
        · have hbar' : digitsOf bar = "" := digitsOf_of_kind (by simp [hbar])
          have hopening' : digitsOf opening = "" := digitsOf_of_kind (by simp [hopening])
          have hclosing' : digitsOf closing = "" := digitsOf_of_kind (by simp [hclosing])
          have hrun' : digitsOf digits = run := by simp [digitsOf, hrun]
          simp [joinGroups, hbar', hopening', hclosing', hrun']
      · exact .pure hnone
    · exact .pure hnone
  · exact .pure hnone

/-- A number that starts without digits starts with a point in front of some. -/
theorem point_of_startsNumber (hnone : (s.current env).digits? = none)
    (h : startsNumber s.rest) :
    (s.current env).isPunct '.' ∧ (s.following env).digits?.isSome := by
  cases hrest : s.rest with
  | nil => rw [hrest] at h; cases h
  | cons first rest =>
    rw [State.current_of_rest hrest] at hnone ⊢
    rw [State.following, hrest]
    rw [hrest] at h
    cases rest with
    | nil => simp [startsNumber, hnone] at h
    | cons next rest => simpa [startsNumber, hnone] using h

/-- What the tokens from the point on say of the fraction. -/
def ReadsFraction (env : Env) (s : State) (digits : String × String) (t : State) : Prop :=
  ∃ own, s.Takes own t ∧ (∀ x ∈ own.head?, x.isPunct '.') ∧ (∀ x ∈ own, isTimes x = false) ∧
    digits = (joinGroups "" (own.takeWhile (!·.isCommand "overline")),
      joinGroups "" (own.dropWhile (!·.isCommand "overline"))) ∧
    ((s.current env).isPunct '.' → (s.following env).digits?.isSome → startsNumber own)

/-- Behind the point and its digits there may be some under a bar. -/
theorem ensures_behindPoint {point : Token} (hkind : point.kind = .punct '.')
    (htakes : s.Takes (point :: own) t) (hown : ∀ x ∈ own, inDigitGroups x)
    (hstarts : (s.following env).digits?.isSome → startsNumber (point :: own)) :
    Ensures (ReadsFraction env s) t (do return (joinGroups "" own, ← barredDigits)) := by
  refine .bind (ensures_barredDigits t) ?_
  rintro repeating u ⟨barred, htakes', hbar, hbarred, rfl⟩
  have hbefore : ∀ x ∈ point :: own, (!x.isCommand "overline") = true := by
    refine List.forall_mem_cons.mpr ⟨by simp [Token.isCommand, hkind], fun x hx => ?_⟩
    simp [not_isCommand_of_inDigitGroups (hown x hx)]
  have hbehind : barred.head?.any (!·.isCommand "overline") = false := by
    cases barred with
    | nil => rfl
    | cons x barred => simp [hbar x rfl]
  refine .pure ⟨point :: own ++ barred, htakes.trans htakes', by simp [Token.isPunct, hkind], ?_, ?_,
    fun _ h => startsNumber_append (hstarts h) barred⟩
  · refine List.forall_mem_append.mpr ⟨List.forall_mem_cons.mpr ⟨?_, fun x hx => ?_⟩, hbarred⟩
    · simp [isTimes, Token.isCommand, hkind]
    · exact not_isTimes_of_inDigitGroups (hown x hx)
  · rw [Text.takeWhile_append hbefore hbehind, Text.dropWhile_append hbefore hbehind]
    simp [joinGroups, digitsOf_of_kind (t := point) (by simp [hkind])]

theorem ensures_fractionDigits (whole : String) (s : State) :
    Ensures (ReadsFraction env s) s (fractionDigits env whole) := by
  refine .get ?_
  dsimp only
  split
  · next hpoint =>
    exact .pure ⟨[], .refl s, by simp, by simp, rfl, fun h => by simp [h] at hpoint⟩
  next hpoint =>
  have hpoint : (s.current env).isPunct '.' := by simpa using hpoint
  obtain ⟨point, rest, hrest⟩ : ∃ point rest, s.rest = point :: rest :=
    List.exists_cons_of_ne_nil (rest_ne_nil_of_isPunct hpoint)
  have hone := State.Takes.forward_one hrest
  have hnext : s.following env = (s.forward 1).current env := by
    simp [State.following, State.current]
  rw [State.current_of_rest hrest] at hpoint ⊢
  have hkind : point.kind = .punct '.' := by simpa [Token.isPunct] using hpoint
  split
  · refine .advance (.current ?_)
    split
    · next run hrun =>
      obtain ⟨first, more, hmore⟩ : ∃ first more, (s.forward 1).rest = first :: more :=
        List.exists_cons_of_ne_nil (rest_ne_nil_of_digits? (Option.isSome_of_eq_some hrun))
      rw [State.current_of_rest hmore] at hrun
      refine .advance (.bind (ensures_thinSpaceGroups run _) ?_)
      rintro digits t ⟨own, htakes, hown, rfl⟩
      have hdigits : joinGroups run own = joinGroups "" (first :: own) := by
        simp [joinGroups, digitsOf, hrun]
      rw [hdigits]
      refine ensures_behindPoint hkind (hone.trans ((State.Takes.forward_one hmore).trans htakes)) ?_ ?_
      · exact List.forall_mem_cons.mpr ⟨by simp [inDigitGroups, hrun], hown⟩
      · exact fun _ => by simp [startsNumber, hpoint, hrun]
    · next hnone =>
      exact ensures_behindPoint hkind hone (List.forall_mem_nil _) fun h => by simp [hnext, hnone] at h
  · next hgoes =>
    have hnot : ¬(s.following env).digits?.isSome := fun h => hgoes (by simp [h])
    split
    · refine .advance (.pure ⟨[point], hone, by simpa using hpoint, ?_, ?_, fun _ h => absurd h hnot⟩)
      · simp [isTimes, Token.isCommand, hkind]
      · simp [Token.isCommand, joinGroups, hkind, digitsOf_of_kind (t := point) (by simp [hkind])]
    · exact .pure ⟨[], .refl s, by simp, by simp, rfl, fun _ h => absurd h hnot⟩

/-! ### Powers of ten -/

theorem digitsToBrace?_take {tokens : List Token} {text : String}
    (h : digitsToBrace? tokens = some text) : digitsToBrace? (tokens.take 2) = some text := by
  match tokens with
  | [] => cases h
  | [_] => cases h
  | digits :: closing :: rest => exact h

theorem bracedExponent?_take {tokens : List Token} {text : String} {count : Nat}
    (h : bracedExponent? tokens = some (text, count)) :
    bracedExponent? (tokens.take count) = some (text, count) := by
  unfold bracedExponent? at h
  split at h
  · next opening first rest =>
    split at h
    · cases h
    · next hopening =>
      split at h
      · next sign hsign =>
        obtain ⟨run, hrun, heq⟩ := Option.map_eq_some_iff.mp h
        cases heq
        simpa [bracedExponent?, hopening, hsign] using digitsToBrace?_take hrun
      · next hsign =>
        obtain ⟨run, hrun, heq⟩ := Option.map_eq_some_iff.mp h
        cases heq
        simpa [bracedExponent?, hopening, hsign] using digitsToBrace?_take hrun
  · cases h

theorem exponentText?_take {tokens : List Token} {text : String} {count : Nat}
    (h : exponentText? tokens = some (text, count)) :
    exponentText? (tokens.take count) = some (text, count) := by
  unfold exponentText? at h
  split at h
  · next run hrun =>
    split at h
    · next hone =>
      cases h
      obtain ⟨first, rest, rfl⟩ : ∃ first rest, tokens = first :: rest :=
        List.exists_cons_of_ne_nil (by rintro rfl; cases hrun)
      simp [exponentText?, show first.digits? = some text from hrun, hone]
    · cases h
  · next hnone =>
    have hbraced := bracedExponent?_take h
    cases tokens with
    | nil => cases h
    | cons first rest =>
      cases count with
      | zero => cases hbraced
      | succ count =>
        have hfirst : first.digits? = none := hnone
        simpa [exponentText?, hfirst] using hbraced

theorem powerOfTen?_take {tokens : List Token} {text : String} {count : Nat}
    (h : powerOfTen? tokens = some (text, count)) :
    (∀ x ∈ tokens.head?, isTimes x) ∧ powerOfTen? (tokens.take count) = some (text, count) := by
  unfold powerOfTen? at h
  split at h
  · next times ten caret rest =>
    split at h
    · next hpower =>
      obtain ⟨⟨text', count'⟩, hexponent, heq⟩ := Option.map_eq_some_iff.mp h
      cases heq
      have htimes : isTimes times := (Bool.and_eq_true_iff.mp (Bool.and_eq_true_iff.mp hpower).1).1
      refine ⟨by simpa using htimes, ?_⟩
      simp [powerOfTen?, hpower, exponentText?_take hexponent]
    · cases h
  · cases h

theorem ensures_exponent (s : State) : Ensures (fun text t => ∃ own, s.Takes own t ∧
    (∀ x ∈ own.head?, isTimes x) ∧ text = (powerOfTen? own).map Prod.fst) s exponent := by
  refine .get ?_
  split
  · next text count hpower =>
    obtain ⟨htimes, htake⟩ := powerOfTen?_take hpower
    refine .skip (.pure ⟨s.rest.take count, .forward s count, fun x hx => ?_, by simp [htake]⟩)
    refine htimes x ?_
    cases count with
    | zero => simp at hx
    | succ count =>
      rw [List.head?_take] at hx
      simpa using hx
  · exact .pure ⟨[], .refl s, by simp, rfl⟩

end TexFormula.Parser
