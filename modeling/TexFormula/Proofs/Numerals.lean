import TexFormula.Proofs.Reads
import TexFormula.Proofs.WholeNumerals

/-!
# Reading whole numbers

The tokens of a written whole number are digit runs with thin spaces between them and no gap
anywhere (`numeralTokens`). The parser reads them as the number, together with a power of ten behind
it if there is one (`runs_number`).
-/

namespace TexFormula

namespace NumberFormat

theorem flatten_triples (cs : List Char) : (triples cs).flatten = cs := by
  fun_induction triples cs with
  | case1 a b c rest ih => simp [ih]
  | case2 => rfl
  | case3 rest => simp

theorem ne_nil_of_mem_triples {cs : List Char} : ∀ g ∈ triples cs, g ≠ [] := by
  fun_induction triples cs with
  | case1 a b c rest ih => simpa using ih
  | case2 => simp
  | case3 rest _ hne => simpa using hne

theorem intercalate_cons (sep first : List Char) (others : List (List Char)) :
    List.intercalate sep (first :: others) = first ++ others.flatMap (sep ++ ·) := by
  induction others generalizing first with
  | nil => simp
  | cons g others ih =>
    show first ++ (sep ++ List.intercalate sep (g :: others)) = _
    rw [ih, List.flatMap_cons, List.append_assoc]

theorem triples_ne_nil {cs : List Char} (h : cs ≠ []) : triples cs ≠ [] := by
  intro hnil
  have hflatten := flatten_triples cs
  rw [hnil] at hflatten
  exact h hflatten.symm

theorem exists_triples {cs : List Char} (h : 3 < cs.length) :
    ∃ first others, triples cs = first :: others ∧ others ≠ [] ∧
      first ++ others.flatten = cs ∧ ∀ g ∈ first :: others, g ≠ [] := by
  match cs, h with
  | a :: b :: c :: d :: rest, _ =>
    have hne : ∀ g ∈ triples (a :: b :: c :: d :: rest), g ≠ [] := ne_nil_of_mem_triples
    exact ⟨[a, b, c], triples (d :: rest), rfl, triples_ne_nil (List.cons_ne_nil d rest),
      flatten_triples (a :: b :: c :: d :: rest), hne⟩

theorem exists_triplesFromRight {cs : List Char} (h : 3 < cs.length) :
    ∃ first others, triplesFromRight cs = first :: others ∧ others ≠ [] ∧
      first ++ others.flatten = cs ∧ ∀ g ∈ first :: others, g ≠ [] := by
  unfold triplesFromRight
  dsimp only
  split
  · exact exists_triples h
  · have hlt : cs.length % 3 < 3 := Nat.mod_lt _ (by decide)
    refine ⟨_, _, rfl, triples_ne_nil ?_, ?_, ?_⟩
    · rw [ne_eq, List.drop_eq_nil_iff]
      omega
    · rw [flatten_triples, List.take_append_drop]
    · refine List.forall_mem_cons.mpr ⟨?_, ne_nil_of_mem_triples⟩
      rw [ne_eq, List.take_eq_nil_iff, ← List.length_eq_zero_iff]
      omega

/-- Digits are written in groups, of which there is more than one from four digits on. -/
theorem joinGroups_eq {groups : List Char → List (List Char)} {digits : List Char}
    (hgroups : 3 < digits.length → ∃ first others, groups digits = first :: others ∧ others ≠ [] ∧
      first ++ others.flatten = digits ∧ ∀ g ∈ first :: others, g ≠ []) (hne : digits ≠ []) :
    ∃ first others, ({} : NumberFormat).joinGroups groups digits =
        first ++ others.flatMap (['\\', ','] ++ ·) ∧
      first ++ others.flatten = digits ∧ (∀ g ∈ first :: others, g ≠ []) ∧
      (others = [] ↔ digits.length ≤ 3) := by
  unfold joinGroups
  have hseparator : ({} : NumberFormat).groupSeparator ≠ "" := by decide
  rw [decide_eq_false hseparator, Bool.false_or]
  rcases Nat.lt_or_ge 3 digits.length with hlong | hshort
  · obtain ⟨first, others, hsplit, hothers, hflatten, hnonempty⟩ := hgroups hlong
    refine ⟨first, others, ?_, hflatten, hnonempty, ?_⟩
    · rw [if_neg (by simpa using hlong), hsplit, intercalate_cons]
      rfl
    · exact ⟨fun h => absurd h hothers, fun h => by omega⟩
  · refine ⟨digits, [], ?_, ?_, by simpa using hne, by simpa using hshort⟩
    · rw [if_pos (by simpa using hshort)]
      simp
    · simp

/-- Between the digits of a number stand thin spaces only. -/
theorem mem_joinGroups {groups : List Char → List (List Char)} {digits : List Char}
    (hgroups : 3 < digits.length → ∃ first others, groups digits = first :: others ∧ others ≠ [] ∧
      first ++ others.flatten = digits ∧ ∀ g ∈ first :: others, g ≠ []) (hne : digits ≠ [])
    (hdigits : ∀ c ∈ digits, c.isDigit = true) {c : Char}
    (hc : c ∈ ({} : NumberFormat).joinGroups groups digits) :
    c.isDigit = true ∨ c = '\\' ∨ c = ',' := by
  obtain ⟨first, others, hgrouped, hflatten, -, -⟩ := joinGroups_eq hgroups hne
  rw [← hflatten] at hdigits
  rw [hgrouped, List.mem_append] at hc
  rcases hc with hc | hc
  · exact .inl (hdigits c (List.mem_append_left _ hc))
  · obtain ⟨g, hg, hc⟩ := List.mem_flatMap.mp hc
    rcases List.mem_append.mp hc with hc | hc
    · right
      simpa using hc
    · exact .inl (hdigits c (List.mem_append_right _ (List.mem_flatten_of_mem hg hc)))

theorem grouped_eq (n : Nat) :
    ∃ first others, grouped n = first ++ others.flatMap (['\\', ','] ++ ·) ∧
      first ++ others.flatten = Digits.ofNat n ∧ (∀ g ∈ first :: others, g ≠ []) ∧
      (others = [] ↔ (Digits.ofNat n).length ≤ 3) :=
  joinGroups_eq exists_triplesFromRight (Digits.ofNat_ne_nil n)

end NumberFormat

/-! ### Tokens -/

/-- Thin spaces with digit runs behind them, without any gap from byte `stop` on. -/
inductive Grouped : Nat → List Token → List Char → Prop
  | nil {stop : Nat} : Grouped stop [] []
  | cons {stop : Nat} {mark group : Token} {rest : List Token} {run digits : List Char}
      (hmark : mark.kind = .command ",") (hstart : mark.start = stop)
      (hgroup : group.kind = .digits (String.ofList run)) (hnext : group.start = mark.stop)
      (h : Grouped group.stop rest digits) : Grouped stop (mark :: group :: rest) (run ++ digits)

/-- The tokens of a run of digits that may stand in groups. -/
def runTokens (digits : List Char) : Language Token :=
  {ts | ∃ (t : Token) (rest : List Token) (run more : List Char), ts = t :: rest ∧
    t.kind = .digits (String.ofList run) ∧ Grouped t.stop rest more ∧ run ++ more = digits}

/-- The tokens of a whole number. Up to three digits are a single one. -/
def numeralTokens (n : Nat) : Language Token :=
  {ts | ∃ (t : Token) (rest : List Token) (run digits : List Char), ts = t :: rest ∧
    t.kind = .digits (String.ofList run) ∧ Grouped t.stop rest digits ∧
    run ++ digits = Digits.ofNat n ∧ (rest = [] ↔ (Digits.ofNat n).length ≤ 3)}

namespace Token

theorem laid_digits {run r : List Char} (hne : run ≠ []) (h : ∀ c ∈ run, c.isDigit = true)
    (hr : r.head?.any Char.isDigit = false) (offset : Nat) :
    laid offset (run ++ r) =
      ⟨.digits (String.ofList run), offset, offset + Text.byteLength run⟩ ::
        laid (offset + Text.byteLength run) r := by
  cases run with
  | nil => exact absurd rfl hne
  | cons c cs =>
    have hcs : ∀ x ∈ cs, x.isDigit = true := fun x hx => h x (List.mem_cons_of_mem _ hx)
    have hread : Lexeme.read c (cs ++ r) = ⟨.digits (String.ofList (c :: cs)), c :: cs, r⟩ := by
      rw [Lexeme.read_of_isDigit (h c List.mem_cons_self), Lexeme.run, Text.takeWhile_append hcs hr,
        Text.dropWhile_append hcs hr]
    exact laid_cons hread rfl offset

theorem laid_thinSpace (offset : Nat) (r : List Char) :
    laid offset ('\\' :: ',' :: r) = ⟨.command ",", offset, offset + 2⟩ :: laid (offset + 2) r :=
  laid_cons rfl rfl offset

/-- By induction on the groups: they are cut without a gap between them. -/
theorem exists_grouped {others : List (List Char)} (hne : ∀ g ∈ others, g ≠ [])
    (h : ∀ g ∈ others, ∀ c ∈ g, c.isDigit = true) {r : List Char}
    (hr : r.head?.any Char.isDigit = false) (offset : Nat) :
    ∃ ts, Grouped offset ts others.flatten ∧ (ts = [] ↔ others = []) ∧
      laid offset (others.flatMap (['\\', ','] ++ ·) ++ r) =
        ts ++ laid (offset + Text.byteLength (others.flatMap (['\\', ','] ++ ·))) r := by
  induction others generalizing offset with
  | nil => exact ⟨[], .nil, ⟨fun _ => rfl, fun _ => rfl⟩, rfl⟩
  | cons g others ih =>
    obtain ⟨ts, hts, -, hlaid⟩ := ih (fun x hx => hne x (List.mem_cons_of_mem _ hx))
      (fun x hx => h x (List.mem_cons_of_mem _ hx)) (offset + 2 + Text.byteLength g)
    have hnext : (others.flatMap (['\\', ','] ++ ·) ++ r).head?.any Char.isDigit = false := by
      cases others with
      | nil => exact hr
      | cons x xs => rfl
    refine ⟨⟨.command ",", offset, offset + 2⟩ ::
      ⟨.digits (String.ofList g), offset + 2, offset + 2 + Text.byteLength g⟩ :: ts,
      .cons rfl rfl rfl rfl hts, by simp, ?_⟩
    rw [List.flatMap_cons, List.append_assoc, List.append_assoc]
    show laid offset ('\\' :: ',' :: (g ++ _)) = _
    rw [laid_thinSpace, laid_digits (hne g List.mem_cons_self) (h g List.mem_cons_self) hnext, hlaid]
    have hlength : Text.byteLength (['\\', ','] ++ g ++ others.flatMap (['\\', ','] ++ ·)) =
        2 + Text.byteLength g + Text.byteLength (others.flatMap (['\\', ','] ++ ·)) := by
      rw [Text.byteLength_append, Text.byteLength_append]
      rfl
    rw [hlength]
    simp only [Nat.add_assoc, List.cons_append]

end Token

theorem Text.endsWithDigit_of_forall {cs : List Char} (hne : cs ≠ [])
    (h : ∀ c ∈ cs, c.isDigit = true) : endsWithDigit cs = true := by
  unfold endsWithDigit
  rw [List.getLast?_eq_some_getLast hne]
  exact h _ (List.getLast_mem hne)

theorem Spells.digits {ds : List Char} (hne : ds ≠ []) (h : ∀ c ∈ ds, c.isDigit = true) :
    Spells ds (Token.one (.digits (String.ofList ds))) := by
  intro offset r hr
  refine ⟨_, ⟨_, rfl, rfl⟩, Token.laid_digits hne h ?_ offset⟩
  cases hfirst : r.head?.any Char.isDigit with
  | false => rfl
  | true => rw [← hr.digits hfirst, Text.endsWithDigit_of_forall hne h]

theorem Text.endsWithDigit_groups {first : List Char} {others : List (List Char)}
    (hne : ∀ g ∈ first :: others, g ≠ [])
    (h : ∀ g ∈ first :: others, ∀ c ∈ g, c.isDigit = true) (sep : List Char) :
    endsWithDigit (first ++ others.flatMap (sep ++ ·)) = true := by
  rcases List.eq_nil_or_concat others with rfl | ⟨init, g, rfl⟩
  · rw [List.flatMap_nil, List.append_nil]
    exact endsWithDigit_of_forall (hne first List.mem_cons_self) (h first List.mem_cons_self)
  · rw [List.concat_eq_append] at hne h ⊢
    have hg : g ∈ first :: (init ++ [g]) := by simp
    rw [List.flatMap_append, List.flatMap_singleton, ← List.append_assoc, ← List.append_assoc,
      endsWithDigit_append _ (hne g hg)]
    exact endsWithDigit_of_forall (hne g hg) (h g hg)

/-- The tokens of groups with thin spaces between them. -/
theorem Spells.groups {first : List Char} {others : List (List Char)}
    (hne : ∀ g ∈ first :: others, g ≠ [])
    (h : ∀ g ∈ first :: others, ∀ c ∈ g, c.isDigit = true) :
    Spells (first ++ others.flatMap (['\\', ','] ++ ·))
      {ts | ∃ (t : Token) (rest : List Token), ts = t :: rest ∧
        t.kind = .digits (String.ofList first) ∧ Grouped t.stop rest others.flatten ∧
        (rest = [] ↔ others = [])} := by
  intro offset r hr
  have hstop : r.head?.any Char.isDigit = false := by
    cases hfirst : r.head?.any Char.isDigit with
    | false => rfl
    | true => rw [← hr.digits hfirst, Text.endsWithDigit_groups hne h]
  have hnext : (others.flatMap (['\\', ','] ++ ·) ++ r).head?.any Char.isDigit = false := by
    cases others with
    | nil => exact hstop
    | cons x xs => rfl
  obtain ⟨ts, hts, hsingle, hlaid⟩ := Token.exists_grouped
    (fun g hg => hne g (List.mem_cons_of_mem _ hg))
    (fun g hg => h g (List.mem_cons_of_mem _ hg)) hstop (offset + Text.byteLength first)
  refine ⟨⟨.digits (String.ofList first), offset, offset + Text.byteLength first⟩ :: ts,
    ⟨_, ts, rfl, rfl, hts, hsingle⟩, ?_⟩
  rw [List.append_assoc, Token.laid_digits (hne first List.mem_cons_self)
    (h first List.mem_cons_self) hnext, hlaid, Text.byteLength_append, Nat.add_assoc]
  rfl

theorem NumberFormat.isDigit_of_mem_groups {first digits : List Char} {others : List (List Char)}
    (hflatten : first ++ others.flatten = digits) (h : ∀ c ∈ digits, c.isDigit = true) :
    ∀ g ∈ first :: others, ∀ c ∈ g, c.isDigit = true := by
  intro g hg c hc
  refine h c ?_
  rw [← hflatten, ← List.flatten_cons]
  exact List.mem_flatten_of_mem hg hc

theorem Spells.numeral (n : Nat) : Spells (NumberFormat.grouped n) (numeralTokens n) := by
  obtain ⟨first, others, hgrouped, hflatten, hne, hshort⟩ := NumberFormat.grouped_eq n
  have hdigits := NumberFormat.isDigit_of_mem_groups hflatten Digits.isDigit_of_mem_ofNat
  rw [hgrouped]
  refine (Spells.groups hne hdigits).mono ?_
  rintro _ ⟨t, rest, rfl, hkind, hgroups, hsingle⟩
  exact ⟨t, rest, first, others.flatten, rfl, hkind, hgroups, hflatten, hsingle.trans hshort⟩

/-! ### Reading -/

namespace Parser

variable {env : Env} {s : State} {ts after : List Token} {n : Nat}

/-- A number ends in front of the tokens. -/
def EndsNumber (after : List Token) : Prop :=
  ∀ t ∈ after.head?, t.isCommand "," = false ∧ t.isPunct ',' = false ∧ t.isPunct '.' = false

theorem digitGroups_eq_nil {isMark : Token → Bool} {stop : Nat}
    (h : ∀ t ∈ after.head?, isMark t = false) : digitGroups isMark stop after = [] := by
  unfold digitGroups
  split
  · next mark group rest =>
    rw [h mark rfl]
    rfl
  · rfl

/-- The groups that are read off the tokens of a numeral. -/
theorem exists_digitGroups {stop : Nat} {digits : List Char} (h : Grouped stop ts digits)
    (hafter : ∀ t ∈ after.head?, t.isCommand "," = false) :
    ∃ groups, digitGroups (·.isCommand ",") stop (ts ++ after) = groups ∧
      2 * groups.length = ts.length ∧ (groups = [] ↔ ts = []) ∧
      ∀ run, joinGroups run groups = run ++ String.ofList digits := by
  induction h with
  | nil => exact ⟨[], digitGroups_eq_nil hafter, rfl, by simp, fun run => (String.append_empty).symm⟩
  | @cons stop mark group rest run digits hmark hstart hgroup hnext _ ih =>
    obtain ⟨groups, hgroups, hlength, -, hjoin⟩ := ih
    refine ⟨group :: groups, ?_, by simp only [List.length_cons]; omega, by simp, fun start => ?_⟩
    · have hdigits : group.digits? = some (String.ofList run) := by rw [Token.digits?, hgroup]
      rw [List.cons_append, List.cons_append, digitGroups, hgroups]
      simp [Token.isCommand, hmark, hstart, hnext, hdigits]
    · have hdigits : digitsOf group = String.ofList run := by
        rw [digitsOf, Token.digits?, hgroup]
        rfl
      rw [joinGroups, List.foldl_cons, hdigits]
      show joinGroups _ groups = _
      rw [hjoin, String.ofList_append, String.append_assoc]

/-- A run of digits ends in front of the tokens. -/
def EndsRun (after : List Token) : Prop :=
  ∀ t ∈ after.head?, t.isCommand "," = false ∧ t.isPunct ',' = false

theorem EndsNumber.endsRun (h : EndsNumber after) : EndsRun after :=
  fun t ht => ⟨(h t ht).1, (h t ht).2.1⟩

/-- The first token of a run of digits, and the groups behind it. -/
theorem exists_thinSpaceGroups (env : Env) {digits : List Char} (hs : s.rest = ts ++ after)
    (hts : ts ∈ runTokens digits) (hafter : EndsRun after) :
    ∃ t rest run groups, ts = t :: rest ∧ t.digits? = some run ∧
      (s.forward 1).rest = rest ++ after ∧
      digitGroups (·.isCommand ",") t.stop (rest ++ after) = groups ∧ (groups = [] ↔ rest = []) ∧
      joinGroups run groups = String.ofList digits ∧
      Runs (thinSpaceGroups env run) (s.forward 1) (String.ofList digits) (s.forward ts.length) := by
  obtain ⟨t, rest, run, more, rfl, hkind, hgrouped, hdigits⟩ := hts
  obtain ⟨groups, hgroups, hlength, hnil, hjoin⟩ := exists_digitGroups hgrouped
    fun u hu => (hafter u hu).1
  have hrest : (s.forward 1).rest = rest ++ after := by
    rw [State.rest_forward, hs]
    rfl
  have hresult : joinGroups (String.ofList run) groups = String.ofList digits := by
    rw [hjoin, ← String.ofList_append, hdigits]
  refine ⟨t, rest, _, groups, rfl, by rw [Token.digits?, hkind], hrest, hgroups, hnil, hresult, ?_⟩
  unfold thinSpaceGroups
  rw [runs_get, State.previous_forward_one hs, hrest, hgroups]
  dsimp only
  rw [runs_skip, State.forward_forward, hlength, hresult, List.length_cons, Nat.add_comm]
  exact .pure _ _

theorem runs_wholeDigits (env : Env) {digits : List Char} (hs : s.rest = ts ++ after)
    (hts : ts ∈ runTokens digits)
    (hafter : EndsRun after) :
    Runs (wholeDigits env) s (String.ofList digits) (s.forward ts.length) := by
  obtain ⟨t, rest, run, groups, rfl, hrun, hrest, hgroups, hnil, hresult, hruns⟩ :=
    exists_thinSpaceGroups env hs hts hafter
  unfold wholeDigits
  rw [runs_current, State.current_of_rest hs, hrun]
  dsimp only
  rw [runs_advance, runs_get, State.previous_forward_one hs, hrest, hgroups]
  by_cases hempty : groups = []
  · have hcommas : digitGroups (·.isPunct ',') t.stop (rest ++ after) = [] := by
      rw [hnil.mp hempty]
      exact digitGroups_eq_nil fun u hu => (hafter u hu).2
    rw [hempty, joinGroups, List.foldl_nil] at hresult
    rw [hempty, hnil.mp hempty]
    show Runs (commaGroups env run) _ _ _
    unfold commaGroups
    rw [runs_get, State.previous_forward_one hs, hrest]
    dsimp only
    rw [hcommas, hresult]
    exact .pure _ _
  · rw [List.isEmpty_eq_false_iff.mpr hempty, if_neg Bool.false_ne_true]
    exact hruns

theorem mem_runTokens_of_mem_numeralTokens (h : ts ∈ numeralTokens n) :
    ts ∈ runTokens (Digits.ofNat n) := by
  obtain ⟨t, rest, run, digits, rfl, hkind, hgrouped, hdigits, -⟩ := h
  exact ⟨t, rest, run, digits, rfl, hkind, hgrouped, hdigits⟩

theorem literal_eq (negative : Bool) (n : Nat) (exponent : Option Nat) :
    literal negative (String.ofList (Digits.ofNat n)) "" ""
      (exponent.map fun k => String.ofList (Digits.ofNat k)) =
      String.ofList (numeral negative (Digits.ofNat n) exponent) := by
  have hne : String.ofList (Digits.ofNat n) ≠ "" := by
    intro h
    have hlist := congrArg String.toList h
    rw [String.toList_ofList] at hlist
    exact Digits.ofNat_ne_nil n hlist
  have hsign : (if negative then "-" else "") = String.ofList (if negative then ['-'] else []) := by
    cases negative <;> rfl
  unfold literal numeral
  rw [if_neg hne, hsign]
  cases exponent with
  | none => simp [String.ofList_append]
  | some k =>
    have he : "e" ++ String.ofList (Digits.ofNat k) = String.ofList ('e' :: Digits.ofNat k) := by
      rw [← List.singleton_append, String.ofList_append]
    simp only [Option.map_some, Option.getD_some, he, true_and, if_true, String.append_empty,
      String.ofList_append, String.append_assoc]

/-- A number is read up to where it ends, with the power of ten that `powerOfTen?` finds there. -/
theorem runs_number (hs : s.rest = ts ++ after) (hts : ts ∈ numeralTokens n)
    (hsmall : n < tenPow 15) (hafter : EndsNumber after) {power : Option Nat}
    (hsmallPower : ∀ k ∈ power, k < 1000)
    (hpower : powerOfTen? after = power.map fun k => (String.ofList (Digits.ofNat k), 6))
    (negative : Bool) :
    ∃ value, value.value? = some (signed negative (n * 10 ^ power.getD 0)) ∧
      Runs (number env negative) s (.number value)
        (s.forward (ts.length + (power.map fun _ => 6).getD 0)) := by
  obtain ⟨value, hliteral, hvalue⟩ := Number.ofLiteral?_numeral hsmall negative hsmallPower
  refine ⟨value, hvalue, ?_⟩
  have hrest : (s.forward ts.length).rest = after := by
    rw [State.rest_forward, hs, List.drop_left]
  have hfraction : Runs (fractionDigits env (String.ofList (Digits.ofNat n))) (s.forward ts.length)
      ("", "") (s.forward ts.length) := by
    have hpoint : ((s.forward ts.length).current env).isPunct '.' = false := by
      rw [State.current, hrest]
      cases after with
      | nil => rfl
      | cons t _ => exact (hafter t rfl).2.2
    unfold fractionDigits
    rw [runs_get]
    simp only [hpoint, Bool.not_false, if_true]
    exact .pure _ _
  have hexponentiated : Runs exponent (s.forward ts.length)
      (power.map fun k => String.ofList (Digits.ofNat k))
      (s.forward (ts.length + (power.map fun _ => 6).getD 0)) := by
    unfold exponent
    rw [runs_get, hrest, hpower]
    cases power with
    | none => exact .pure _ _
    | some k =>
      dsimp only [Option.map_some]
      rw [runs_skip, State.forward_forward]
      exact .pure _ _
  unfold number
  rw [runs_current]
  have hwhole := runs_wholeDigits env hs (mem_runTokens_of_mem_numeralTokens hts) hafter.endsRun
  refine hwhole.bind (hfraction.bind (hexponentiated.bind ?_))
  rw [literal_eq]
  dsimp only
  rw [hliteral]
  exact .pure _ _

end Parser

end TexFormula
