import TexFormula.Proofs.Enclosed
import TexFormula.Proofs.OpenBraces.Group

/-!
# Numerals between delimiters

What a numeral looks for ahead is no closing delimiter, with one exception: digits under a bar and
exponents in braces end with a brace. Those that lack theirs would take the closing delimiter, but no
brace is open in a source that contains what its tokens take (`barred?_place`, `powerOfTen?_place`).
-/

namespace TexFormula.Parser

theorem length_digitGroups_le (isMark : Token → Bool) (stop : Nat) (tokens : List Token) :
    2 * (digitGroups isMark stop tokens).length ≤ tokens.length := by
  fun_induction digitGroups isMark stop tokens with
  | case1 stop mark group rest h ih =>
    simp only [List.length_cons]
    omega
  | case2 => exact Nat.zero_le _
  | case3 => exact Nat.zero_le _

theorem SelfContained.drop_barred? {own : List Token} {run : String} (h : SelfContained own)
    (hbarred : barred? own = some run) : 4 ≤ own.length ∧ SelfContained (own.drop 4) := by
  unfold barred? at hbarred
  split at hbarred
  · next bar opening digits closing rest =>
    split at hbarred
    · next hgroup =>
      have hclose : closing.kind = .groupClose := by simp_all
      exact ⟨by simp, h.drop_of_last (n := 3) rfl (not_takesDelimiter_of_close hclose)⟩
    · cases hbarred
  · cases hbarred

/-- An exponent ends with a digit or with a brace that closes a group. -/
theorem exists_last_of_exponentText? {own : List Token} {text : String} {count : Nat}
    (h : exponentText? own = some (text, count)) :
    ∃ n c, count = n + 1 ∧ own[n]? = some c ∧ ¬ TakesDelimiter c := by
  unfold exponentText? at h
  split at h
  · next run hrun =>
    split at h
    · cases h
      obtain ⟨digits, hdigits, hrun⟩ := Option.bind_eq_some_iff.mp hrun
      obtain ⟨rest, rfl⟩ := List.head?_eq_some_iff.mp hdigits
      exact ⟨0, digits, rfl, rfl, not_takesDelimiter_of_digits? (Option.isSome_of_eq_some hrun)⟩
    · cases h
  · obtain ⟨n, c, hcount, hc, hclose⟩ := OpenBrace.exists_close_of_bracedExponent? h
    exact ⟨n, c, hcount, hc, not_takesDelimiter_of_close hclose⟩

theorem SelfContained.drop_powerOfTen? {own : List Token} {text : String} {count : Nat}
    (h : SelfContained own) (hpower : powerOfTen? own = some (text, count)) :
    count ≤ own.length ∧ SelfContained (own.drop count) := by
  unfold powerOfTen? at hpower
  split at hpower
  · next times ten caret rest =>
    split at hpower
    · obtain ⟨⟨text', count'⟩, hexponent, heq⟩ := Option.map_eq_some_iff.mp hpower
      cases heq
      obtain ⟨n, c, rfl, hc, hplain⟩ := exists_last_of_exponentText? hexponent
      obtain ⟨hlt, -⟩ := List.getElem?_eq_some_iff.mp hc
      exact ⟨Nat.succ_le_succ (Nat.succ_le_succ (Nat.succ_le_succ hlt)),
        h.drop_of_last (n := n + 3) hc hplain⟩
    · cases hpower
  · cases hpower

theorem following_eq (env : Env) (s : State) : s.following env = (s.forward 1).current env := by
  rw [State.following, State.current, State.rest_forward]

namespace Enclosure

variable {w : Enclosure} {s s' t t' : State} {own : List Token}

/-! ### Looking ahead -/

theorem digitGroups_place {isMark : Token → Bool} (hmark : ∀ t, isMark (w.place t) = isMark t)
    (stop : Nat) (own : List Token) :
    digitGroups isMark (stop + w.offset) (own.map w.place ++ w.after) =
      (digitGroups isMark stop own).map w.place := by
  rw [w.after_eq]
  fun_induction digitGroups isMark stop own with
  | case1 stop mark group rest h ih =>
    rw [List.map_cons, List.map_cons, List.cons_append, List.cons_append, digitGroups.eq_1,
      if_pos (by simpa [hmark] using h), List.map_cons]
    exact congrArg (w.place group :: ·) ih
  | case2 stop mark group rest h =>
    rw [List.map_cons, List.map_cons, List.cons_append, List.cons_append, digitGroups.eq_1,
      if_neg (by simpa [hmark] using h), List.map_nil]
  | case3 own stop hshort =>
    rcases own with - | ⟨mark, - | ⟨group, rest⟩⟩
    · rfl
    · simp [digitGroups]
    · exact absurd rfl (hshort mark group rest)

theorem continuesChain_place (seen : List Token) :
    continuesChain (seen.map w.place ++ w.before) = continuesChain seen := by
  rw [w.before_eq]
  rcases seen with - | ⟨group, - | ⟨comma, - | ⟨digits, seen⟩⟩⟩
  · rfl
  · rfl
  · simp [continuesChain, w.digits?_opening]
  · simp [continuesChain, Nat.add_right_cancel_iff, Bool.beq_eq_decide_eq]

theorem digitsToBrace?_place (hsingle : ∀ d, own = [d] → d.digits? = none) :
    digitsToBrace? (own.map w.place ++ w.after) = digitsToBrace? own := by
  rw [w.after_eq]
  rcases own with - | ⟨d, - | ⟨c, own⟩⟩
  · rfl
  · simp [digitsToBrace?, hsingle d rfl]
  · rfl

/-- The braces of an exponent are closed. -/
theorem bracedExponent?_place (hclosed : ∀ brace behind, own = brace :: behind →
    brace.kind = .groupOpen → ∃ t ∈ behind, t.kind = .groupClose) :
    bracedExponent? (own.map w.place ++ w.after) = bracedExponent? own := by
  rcases own with - | ⟨brace, - | ⟨first, own⟩⟩
  · rw [w.after_eq]
    rfl
  · rw [w.after_eq]
    simp only [List.map_cons, List.map_nil, List.singleton_append, bracedExponent?]
    have hsign : sign? w.closing = none := by
      rw [sign?, isPunct_closing (by decide), isPunct_closing (by decide)]
      rfl
    rw [hsign]
    simp [digitsToBrace?]
  · by_cases hopen : brace.kind = .groupOpen
    · obtain ⟨t, ht, hclose⟩ := hclosed brace (first :: own) rfl hopen
      have hdigits : t.digits? = none := by rw [Token.digits?, hclose]
      have hsign : sign? (w.place first) = sign? first := rfl
      simp only [List.map_cons, List.cons_append, bracedExponent?, Excerpt.kind_place, hsign]
      cases hfirst : sign? first with
      | some sign =>
        rw [digitsToBrace?_place]
        rintro d rfl
        rcases List.mem_cons.mp ht with rfl | ht
        · simp [sign?, Token.isPunct, hclose] at hfirst
        · rwa [← List.mem_singleton.mp ht]
      | none =>
        have hbehind : digitsToBrace? ((first :: own).map w.place ++ w.after) =
            digitsToBrace? (first :: own) := digitsToBrace?_place fun d hd => by
          rw [hd] at ht
          rwa [← List.mem_singleton.mp ht]
        rw [List.map_cons, List.cons_append] at hbehind
        rw [hbehind]
    · have hnot : (brace.kind != .groupOpen) = true := bne_iff_ne.mpr hopen
      simp [bracedExponent?, hnot]

theorem exponentText?_place (hclosed : ∀ brace behind, own = brace :: behind →
    brace.kind = .groupOpen → ∃ t ∈ behind, t.kind = .groupClose) :
    exponentText? (own.map w.place ++ w.after) = exponentText? own := by
  have hbraced := bracedExponent?_place (w := w) hclosed
  unfold exponentText?
  rw [hbraced]
  cases own with
  | nil =>
    rw [w.after_eq]
    simp
  | cons x own => rfl

theorem powerOfTen?_place (hown : SelfContained own) :
    powerOfTen? (own.map w.place ++ w.after) = powerOfTen? own := by
  rcases own with - | ⟨times, - | ⟨ten, - | ⟨caret, own⟩⟩⟩
  · rw [w.after_eq]
    rfl
  · rw [w.after_eq]
    rfl
  · rw [w.after_eq]
    simp [powerOfTen?, isPunct_closing]
  · by_cases hcaret : caret.isPunct '^'
    · have hexponent : exponentText? (own.map w.place ++ w.after) = exponentText? own := by
        refine exponentText?_place fun brace behind hbrace hopen => ?_
        refine hown.closed (x := caret) ?_ (not_takesDelimiter_of_isPunct hcaret) hopen
        rw [← hbrace]
        exact ⟨[times, ten], rfl⟩
      simp [powerOfTen?, hexponent]
    · simp [powerOfTen?, hcaret]

theorem barred?_place (hown : SelfContained own) :
    barred? (own.map w.place ++ w.after) = barred? own := by
  rcases own with - | ⟨bar, - | ⟨opening, - | ⟨digits, - | ⟨closing, own⟩⟩⟩⟩
  · rw [w.after_eq]
    rfl
  · rw [w.after_eq]
    rfl
  · rw [w.after_eq]
    rfl
  · rw [w.after_eq]
    simp only [List.map_cons, List.map_nil, List.cons_append, List.nil_append, barred?,
      Excerpt.isCommand_place, Excerpt.kind_place, Excerpt.digits?_place]
    refine ite_eq_right_iff.mpr fun hbar => ?_
    simp only [Bool.and_eq_true, beq_iff_eq] at hbar
    have hplain : ¬ TakesDelimiter bar := not_takesDelimiter_of_isCommand hbar.1.1 (by decide)
    obtain ⟨t, ht, hclose⟩ := hown.closed List.suffix_rfl hplain hbar.1.2
    rw [← List.mem_singleton.mp ht, Token.digits?, hclose]
  · rfl

theorem startsNumber_place (own : List Token) :
    startsNumber (own.map w.place ++ w.after) = startsNumber own := by
  rw [w.after_eq]
  rcases own with - | ⟨x, - | ⟨y, own⟩⟩
  · simp [startsNumber, isPunct_closing]
  · simp [startsNumber]
  · rfl

/-! ### The parts of a numeral -/

theorem Abreast.begun_forward (hne : s'.rest ≠ []) : (s'.forward 1).seen ≠ [] := by
  obtain ⟨x, xs, hrest⟩ := List.exists_cons_of_ne_nil hne
  rw [State.forward_succ hrest, State.forward_zero]
  exact List.cons_ne_nil _ _

/-- The same groups are next on both sides, and they can be skipped. -/
theorem Abreast.digitGroups (hs : w.Abreast s s') (hbegun : s'.seen ≠ []) (isMark : Token → Bool)
    (hmark : ∀ t, isMark (w.place t) = isMark t) (hgrows : ∀ t, isMark t → ¬ TakesDelimiter t) :
    ∃ groups, Parser.digitGroups isMark (s'.previous w.part).stop s'.rest = groups ∧
      Parser.digitGroups isMark (s.previous w.whole).stop s.rest = groups.map w.place ∧
        2 * groups.length ≤ s'.rest.length ∧ SelfContained (s'.rest.drop (2 * groups.length)) := by
  refine ⟨_, rfl, ?_, length_digitGroups_le _ _ _, hs.contained.drop_of_forall ?_⟩
  · rw [hs.previous hbegun, hs.rest, Excerpt.stop_place, digitGroups_place hmark]
  · exact forall_mem_digitGroups hgrows (fun _ => not_takesDelimiter_of_digits?) _ _

section

variable {bad : String → State → Prop} (run : String) (hs : w.Abreast s s') (hbegun : s'.seen ≠ [])

include hs hbegun

theorem echoed_thinSpaceGroups :
    w.Echoed bad s s' (thinSpaceGroups w.whole run) (thinSpaceGroups w.part run) := by
  obtain ⟨groups, hpart, hwhole, hlength, hcontained⟩ := hs.digitGroups hbegun (·.isCommand ",")
    (fun _ => rfl) fun _ h => not_takesDelimiter_of_isCommand h (by decide)
  refine .get ?_
  dsimp only
  rw [hpart, hwhole, List.length_map, Excerpt.joinGroups_place]
  exact .skip hs hlength hcontained fun ht => .pure ht _

theorem echoed_commaGroups :
    w.Echoed bad s s' (commaGroups w.whole run) (commaGroups w.part run) := by
  obtain ⟨groups, hpart, hwhole, hlength, hcontained⟩ := hs.digitGroups hbegun (·.isPunct ',')
    (fun _ => rfl) fun _ h => not_takesDelimiter_of_isPunct h
  have hbehind : (s.rest.drop (2 * groups.length)).head?.any (·.isPunct '.') =
      (s'.rest.drop (2 * groups.length)).head?.any (·.isPunct '.') := by
    have hrest := (hs.forward hlength hcontained).rest
    rw [State.rest_forward, State.rest_forward, w.after_eq] at hrest
    rw [hrest]
    cases s'.rest.drop (2 * groups.length) with
    | nil => exact isPunct_closing (by decide)
    | cons x xs => rfl
  have hlong : (groups.map w.place).any (fun group => 3 ≤ (digitsOf group).length) =
      groups.any fun group => 3 ≤ (digitsOf group).length := by
    rw [List.any_map]
    rfl
  unfold commaGroups
  refine .get ?_
  dsimp only
  rw [hpart, hwhole, List.length_map, Excerpt.groupedByThree_place, Excerpt.joinGroups_place,
    List.getLast?_map, hs.seen, continuesChain_place, hbehind, hlong]
  cases groups.getLast? with
  | none => exact .pure hs run
  | some last =>
    refine .ite (fun _ => .skip hs hlength hcontained fun ht => .pure ht _) fun _ => ?_
    refine .ite (fun _ => ?_) fun _ => .pure hs run
    exact (Echoed.pure (hs.record _ _ _ _ _ _) run).of_step rfl rfl

end

theorem echoed_wholeDigits {bad : String → State → Prop} (hs : w.Abreast s s') :
    w.Echoed bad s s' (wholeDigits w.whole) (wholeDigits w.part) := by
  refine .current ?_
  rw [hs.digits?_current]
  cases hdigits : (s'.current w.part).digits? with
  | none => exact .pure hs ""
  | some run =>
    have hsome := Option.isSome_of_eq_some hdigits
    have hne := rest_ne_nil_of_digits? hsome
    refine .advance hs hne (not_takesDelimiter_of_digits? hsome) fun ht => .get ?_
    obtain ⟨groups, hpart, hwhole, -⟩ := ht.digitGroups (Abreast.begun_forward hne) (·.isCommand ",")
      (fun _ => rfl) fun _ h => not_takesDelimiter_of_isCommand h (by decide)
    rw [hpart, hwhole, List.isEmpty_map]
    exact .ite (fun _ => echoed_commaGroups run ht (Abreast.begun_forward hne)) fun _ =>
      echoed_thinSpaceGroups run ht (Abreast.begun_forward hne)

theorem echoed_barredDigits {bad : String → State → Prop} (hs : w.Abreast s s') :
    w.Echoed bad s s' barredDigits barredDigits := by
  rw [barredDigits_eq]
  refine .get ?_
  rw [hs.rest, barred?_place hs.contained]
  cases hbarred : barred? s'.rest with
  | none => exact .pure hs ""
  | some run =>
    obtain ⟨hlength, hcontained⟩ := hs.contained.drop_barred? hbarred
    exact .skip hs hlength hcontained fun ht => .pure ht run

theorem echoed_exponent {bad : Option String → State → Prop} (hs : w.Abreast s s') :
    w.Echoed bad s s' exponent exponent := by
  refine .get ?_
  rw [hs.rest, powerOfTen?_place hs.contained]
  cases hpower : powerOfTen? s'.rest with
  | none => exact .pure hs none
  | some found =>
    obtain ⟨hlength, hcontained⟩ := hs.contained.drop_powerOfTen? hpower
    exact .skip hs hlength hcontained fun ht => .pure ht _

/-- Whole digits have been read, or there are none. -/
theorem begun_wholeDigits {env : Env} (s : State) :
    Ensures (fun whole t => whole = "" ∨ t.seen ≠ []) s (wholeDigits env) := by
  unfold wholeDigits
  refine .current ?_
  split
  · exact .pure (.inl rfl)
  · next run hrun =>
    have hbegun {m : Parser String} (hm : Keeps 0 m) :
        Ensures (fun whole t => whole = "" ∨ t.seen ≠ []) (s.forward 1) m := by
      refine (hm.ensures _).mono fun _ t ht => .inr fun hnil => ?_
      have hne := rest_ne_nil_of_digits? (Option.isSome_of_eq_some hrun)
      have hplace := ht.position
      rw [State.position_forward (List.length_pos_iff.mpr hne), State.position, State.position, hnil]
        at hplace
      exact absurd hplace (Nat.not_succ_le_zero _)
    refine .advance (.get ?_)
    split
    · exact hbegun ((keeps 0).commaGroups run)
    · exact hbegun ((keeps 0).thinSpaceGroups run)

theorem echoed_fractionDigits {bad : String × String → State → Prop} {whole : String}
    (hs : w.Abreast s s') (hwhole : whole = "" ∨ s'.seen ≠ []) :
    w.Echoed bad s s' (fractionDigits w.whole whole) (fractionDigits w.part whole) := by
  unfold fractionDigits
  refine .get ?_
  dsimp only
  rw [hs.isPunct_current (by decide)]
  by_cases hpoint : (s'.current w.part).isPunct '.'
  · have hne := rest_ne_nil_of_isPunct hpoint
    have hnext := hs.forward_one hne (not_takesDelimiter_of_isPunct hpoint)
    have hbegun := Abreast.begun_forward hne
    have htouch : (whole != "" && (s.current w.whole).start == (s.previous w.whole).stop) =
        (whole != "" && (s'.current w.part).start == (s'.previous w.part).stop) := by
      rcases hwhole with rfl | hbegun
      · rfl
      · rw [hs.current hne, hs.previous hbegun, Excerpt.start_place, Excerpt.stop_place,
          Bool.eq_iff_iff]
        simp
    have hbarred (fraction : String) {u u' : State} (hu : w.Abreast u u') :
        w.Echoed bad u u' (do return (fraction, ← barredDigits))
          (do return (fraction, ← barredDigits)) :=
      (echoed_barredDigits hu : w.Echoed (fun _ _ => False) _ _ _ _).bind_pure nofun
    rw [hpoint, following_eq, following_eq, hnext.digits?_current, hnext.isCommand_current, htouch]
    refine .ite nofun fun _ => .ite (fun _ => ?_) fun _ => ?_
    · refine .advance hs hne (not_takesDelimiter_of_isPunct hpoint) fun ht => .current ?_
      rw [ht.digits?_current]
      cases hdigits : ((s'.forward 1).current w.part).digits? with
      | none => exact hbarred "" ht
      | some run =>
        have hsome := Option.isSome_of_eq_some hdigits
        have hne' := rest_ne_nil_of_digits? hsome
        refine .advance ht hne' (not_takesDelimiter_of_digits? hsome) fun hu => ?_
        exact (echoed_thinSpaceGroups run hu (Abreast.begun_forward hne') :
          w.Echoed (fun _ _ => False) _ _ _ _).bind nofun fun fraction _ _ hv => hbarred fraction hv
    · have hplain := not_takesDelimiter_of_isPunct hpoint
      exact .ite (fun _ => .advance hs hne hplain fun ht => .pure ht _) fun _ =>
        .pure hs _
  · rw [Bool.eq_false_iff.mpr hpoint]
    exact .pure hs _

/-! ### Numerals -/

theorem echoed_number {bad : Expression → State → Prop} (negative : Bool) (hs : w.Abreast s s') :
    w.Echoed bad s s' (number w.whole negative) (number w.part negative) := by
  unfold number
  refine .current ((echoed_wholeDigits hs : w.Echoed (fun _ _ => False) _ _ _ _).bind_of_runs nofun
    fun whole t t' _ hruns ht => ?_)
  have hwhole := begun_wholeDigits s' whole t' hruns
  refine .bind (echoed_fractionDigits ht hwhole : w.Echoed (fun _ _ => False) _ _ _ _) nofun
    fun fraction u u' hu => ?_
  refine .bind (echoed_exponent hu : w.Echoed (fun _ _ => False) _ _ _ _) nofun
    fun power v v' hv => ?_
  dsimp only
  split
  · exact .pure hv _
  · refine .get ?_
    exact (Echoed.pure (hv.record _ _ _ _ _ _) _).of_step rfl rfl

end Enclosure

end TexFormula.Parser
