import TexFormula.Proofs.Juxtaposition

/-!
# Products as they are read

Factors stand side by side or with a times sign between them, and the parser takes them one after the
other (`Factors`). A numeral and a power of ten behind it become one number, so it matters whether a
product ends in a numeral. `Phrase D f P` holds of the tokens that can start a product, go on with
one, and stand behind a minus sign.
-/

open Filter TexFormula.Parser

namespace TexFormula.Parser

variable {D : Set (String → ℚ)} {p q : Precedence} {follow follow' : List Token → Prop}
  {f g : Meaning} {P Q R : Language Token} {env : Env} {inner : Inner} {s : State}
  {loosest : Precedence}

/-! ### Where a chain ends -/

/-- The chain ends where it is, unless it has come to an operand that can be applied. -/
def Ends (env : Env) (inner : Inner) (loosest : Precedence) (s : State) : Prop :=
  ∀ fuel (o : Operand) chained, o.callable = false →
    Runs (chain env inner loosest fuel o chained) s o.expression s

theorem Stops.ends (h : Stops env inner loosest s) : Ends env inner loosest s :=
  fun fuel o chained _ => h fuel o chained

/-- The chain ends in front of an operator that binds too loosely. -/
theorem ends_of_operator (henv : env.IsStandard) {t : Token} {rest : List Token}
    (hrest : s.rest = t :: rest) (hs : s.Delimited) {kind : Token.Kind} (ht : t.kind = kind)
    (hfree : Free kind) {trigger : String} (htrigger : kind.trigger? = some trigger) {n : Notation}
    (hn : Dictionary.standard.operators trigger = [n]) (hloose : n.precedence < loosest) :
    Ends env inner loosest s := by
  subst ht
  refine (stops_of_loose hrest hfree.continues hfree.ne_parenthesis hs htrigger ?_
    (Nat.not_le_of_lt hloose)).ends
  rw [henv.dictionary]
  exact hn

theorem ends_of_endsProduct (henv : env.IsStandard) (h : EndsProduct s.rest) (hs : s.Delimited)
    (hloosest : .addition < loosest) : Ends env inner loosest s := by
  cases hrest : s.rest with
  | nil => exact (stops_of_nil hrest).ends
  | cons t rest =>
    rcases h t (by rw [hrest]; rfl) with hclosing | hsum
    · exact (stops_of_closing hrest hclosing).ends
    · obtain ⟨n, hn, hloose⟩ := exists_isOperator_of_mem_sumKinds hsum
      obtain ⟨trigger, htrigger, hoperators⟩ := hn.exists_operators
      exact ends_of_operator henv hrest hs rfl hn.free htrigger hoperators
        (Nat.lt_of_le_of_lt hloose hloosest)

theorem BeginsUnit.beginsFactor {kind : Token.Kind} (h : BeginsUnit kind) : BeginsFactor kind := by
  rcases h with ⟨c, hc, rfl⟩ | rfl | ⟨name, hname, rfl⟩
  · exact .inl ⟨c, hc.isLetter, rfl⟩
  · exact .inr (.inl rfl)
  · exact .command (List.mem_append_right _ hname)

theorem ends_of_endsFactor (henv : env.IsStandard) (h : EndsFactor s.rest) (hs : s.Delimited)
    (hloosest : .multiplication < loosest) : Ends env inner loosest s := by
  cases hrest : s.rest with
  | nil => exact (stops_of_nil hrest).ends
  | cons t rest =>
    rcases h t (by rw [hrest]; rfl) with hproduct | htimes | hbegins
    · refine ends_of_endsProduct henv ?_ hs (Nat.lt_trans (by decide) hloosest)
      intro u hu
      rw [hrest] at hu
      rw [← Option.some.inj hu]
      exact hproduct
    · exact ends_of_operator henv hrest hs htimes (by decide) rfl rfl hloosest
    · intro fuel o chained ho
      cases fuel with
      | zero => exact .pure _ _
      | succ fuel =>
        refine runs_chain_of_beginsFactor henv hrest hbegins.beginsFactor hs (by simp [ho]) ?_
        rw [if_pos hloosest]
        exact .pure _ _

/-- The whole expression, where the chain ends behind the tokens. -/
theorem exists_runs_expressionAt {S : Operand → Option String → Prop} (hS : Settles S)
    {ts after : List Token} (h : Reads env inner delimited p follow S P) (hts : ts ∈ P)
    (hs : s.rest = ts ++ after) (hctx : s.Delimited) (hp : loosest ≤ p) (hafter : follow after)
    (hends : Ends env inner loosest (s.forward ts.length)) :
    ∃ o chained, S o chained ∧ o.expression.isMissing = false ∧
      Runs (expressionAt env inner loosest) s o.expression (s.forward ts.length) := by
  obtain ⟨o, chained, ho, hleads⟩ := h ts hts after s loosest hs hctx hp hafter
  obtain ⟨hcallable, hpresent⟩ := hS o chained ho
  exact ⟨o, chained, ho, hpresent, hleads _ _ fun fuel _ => hends fuel o chained hcallable⟩

/-! ### One more factor -/

/-- The chain of an operator grows by one value. -/
theorem Says.grow {name : String} (op : ℚ → ℚ → ℚ)
    (hpair : ∀ a b, Expression.operation? name [a, b] = some (op a b))
    (hmore : ∀ vs a b, Expression.operation? name vs = some a →
      Expression.operation? name (vs ++ [b]) = some (op a b))
    {o : Operand} {chained : Option String} (ho : Says D f o chained) {e : Expression}
    (he : ∀ σ ∈ D, e.value? σ = some (g σ)) :
    Says D (fun σ => op (f σ) (g σ)) ⟨extend name (chained == some name) o.expression e, false⟩
      (some name) := by
  have hnew : ∀ σ ∈ D, (Expression.function name [o.expression, e]).value? σ =
      some (op (f σ) (g σ)) := by
    intro σ hσ
    rw [Expression.value?_function, Expression.values?, Expression.values?, Expression.values?,
      ho.value σ hσ, he σ hσ]
    exact hpair _ _
  have hfresh : Says D (fun σ => op (f σ) (g σ)) ⟨.function name [o.expression, e], false⟩
      (some name) :=
    ⟨hnew, rfl, rfl, fun other hother => Option.some.inj hother ▸ rfl⟩
  cases hchained : chained == some name with
  | false => exact hfresh
  | true =>
    have hhead := ho.chain name (eq_of_beq hchained)
    cases hlhs : o.expression with
    | apply head arguments =>
      rw [hlhs] at hhead
      cases head with
      | symbol other =>
        have hname : other = name := Option.some.inj hhead
        subst hname
        refine ⟨fun σ hσ => ?_, rfl, rfl, fun _ hother => hother⟩
        have hvalue := ho.value σ hσ
        rw [hlhs, Expression.value?] at hvalue
        obtain ⟨vs, hvs, hop⟩ := Option.bind_eq_some_iff.mp hvalue
        show Expression.value? σ (.apply (.symbol other) (arguments ++ [e])) = _
        rw [Expression.value?, Expression.values?_append_singleton, hvs, he σ hσ]
        exact hmore vs _ _ hop
      | _ => cases hhead
    | _ =>
      rw [hlhs] at hhead
      cases hhead

theorem Says.add {o : Operand} {chained : Option String} (ho : Says D f o chained) {e : Expression}
    (he : ∀ σ ∈ D, e.value? σ = some (g σ)) :
    Says D (f + g) ⟨extend "Add" (chained == some "Add") o.expression e, false⟩ (some "Add") :=
  Says.grow (· + ·) (fun a b => by simp) (fun vs a b h => by simp_all) ho he

theorem Says.mul {o : Operand} {chained : Option String} (ho : Says D f o chained) {e : Expression}
    (he : ∀ σ ∈ D, e.value? σ = some (g σ)) :
    Says D (f * g) ⟨extend "Multiply" (chained == some "Multiply") o.expression e, false⟩
      (some "Multiply") :=
  Says.grow (· * ·) (fun a b => by simp) (fun vs a b h => by simp_all) ho he

/-- A factor behind a times sign. -/
theorem Reads.times {outer : Inner} {S S' : Operand → Option String → Prop} (hS : Settles S')
    (henv : env.IsStandard) (houter : outer.expression Precedence.multiplication.tighter =
      expressionAt env inner Precedence.multiplication.tighter)
    (h : Reads env outer delimited p follow S P) (hp : .multiplication ≤ p)
    (hQ : Reads env inner delimited q follow' S' Q)
    (hq : Precedence.multiplication.tighter ≤ q)
    (hfollow : ∀ (t : Token) us after, us ∈ Q → t.kind = .command "times" → follow' after →
      follow (t :: (us ++ after)))
    (hends : ∀ after, follow' after → EndsFactor after) :
    Reads env outer delimited .multiplication follow'
      (fun o chained => chained = some "Multiply" ∧ ∃ a c b c', S a c ∧ S' b c' ∧
        o = ⟨extend "Multiply" (c == some "Multiply") a.expression b.expression, false⟩)
      (P * (Token.one (.command "times") * Q)) := by
  have hfree : Free (.command "times") := by decide
  have hoperators : env.dictionary.operators "\\times" =
      [((Notation.ofInfix "Multiply" "\\times" .multiplication).variadic.withArity 0 none).withWriter
        Writers.product] := by
    rw [henv.dictionary]
    rfl
  refine h.operator hfree rfl hoperators hp hfollow ?_
  intro us hus after s a c hs hctx hafter ha
  have hrest : (s.forward us.length).rest = after := by
    rw [State.rest_forward, hs, List.drop_left]
  have hstop : Ends env inner Precedence.multiplication.tighter (s.forward us.length) :=
    ends_of_endsFactor henv (hrest ▸ hends after hafter) (delimited.forward _ hctx) (by decide)
  obtain ⟨b, c', hb, hpresent, hruns⟩ := exists_runs_expressionAt hS hQ hus hs hctx hq hafter hstop
  refine ⟨_, ⟨rfl, a, c, b, c', ha, hb, rfl⟩, ?_⟩
  unfold applyOperator
  refine Runs.bind (houter ▸ hruns) ?_
  rw [hpresent]
  exact .pure _ _

theorem Piece.times (h : Piece D p follow f P) (hp : .multiplication ≤ p)
    (hQ : Piece D q follow' g Q) (hq : Precedence.multiplication.tighter ≤ q)
    (hfollow : ∀ (t : Token) us after, us ∈ Q → t.kind = .command "times" → follow' after →
      follow (t :: (us ++ after)))
    (hends : ∀ after, follow' after → EndsFactor after) :
    Piece D .multiplication follow' (f * g) (P * (Token.one (.command "times") * Q)) := by
  refine (Eventually.and h hQ.below).mono fun levels hlevels env henv => ?_
  obtain ⟨hleft, below, rfl, hright⟩ := hlevels
  have hreads : Reads env (nested env (below + 1)) delimited .multiplication follow' _ _ :=
    Reads.times Says.settles henv rfl (hleft env henv) hp (hright env henv) hq hfollow hends
  refine hreads.mono (Nat.le_refl _) (fun _ h => h) ?_
  rintro _ _ ⟨rfl, a, c, b, c', ha, hb, rfl⟩
  exact ha.mul hb.value

/-- The tokens start a letter, a group in parentheses or a fraction. -/
def Starts (P : Language Token) : Prop :=
  ∀ ts ∈ P, ∃ t rest, ts = t :: rest ∧ BeginsUnit t.kind

/-- A factor without a times sign. -/
theorem Reads.beside {outer : Inner} {S S' : Operand → Option String → Prop} (hS : Settles S)
    (hS' : Settles S') (henv : env.IsStandard)
    (houter : outer.expression Precedence.multiplication.tighter =
      expressionAt env inner Precedence.multiplication.tighter)
    (h : Reads env outer delimited p follow S P) (hp : .multiplication ≤ p)
    (hQ : Reads env inner delimited q follow' S' Q) (hq : Precedence.multiplication.tighter ≤ q)
    (hstarts : Starts Q) (hfollow : ∀ us after, us ∈ Q → follow' after → follow (us ++ after))
    (hends : ∀ after, follow' after → EndsFactor after) :
    Reads env outer delimited .multiplication follow'
      (fun o chained => chained = some "Multiply" ∧ ∃ a c b c', S a c ∧ S' b c' ∧
        o = ⟨extend "Multiply" (c == some "Multiply") a.expression b.expression, false⟩)
      (P * Q) := by
  refine (Reads.juxtaposed (T := fun e => ∃ b c, S' b c ∧ e = b.expression) henv h hp
    (fun us hus after s hs hctx hafter => ?_) (fun us hus => ?_)
    fun us hus after hafter => hfollow us after hus hafter).mono (Nat.le_refl _) (fun _ h => h) ?_
  · have hrest : (s.forward us.length).rest = after := by
      rw [State.rest_forward, hs, List.drop_left]
    have hstop : Ends env inner Precedence.multiplication.tighter (s.forward us.length) :=
      ends_of_endsFactor henv (hrest ▸ hends after hafter) (delimited.forward _ hctx) (by decide)
    obtain ⟨b, c, hb, hpresent, hruns⟩ := exists_runs_expressionAt hS' hQ hus hs hctx hq hafter hstop
    exact ⟨b.expression, ⟨b, c, hb, rfl⟩, hpresent, houter ▸ hruns⟩
  · obtain ⟨t, rest, rfl, ht⟩ := hstarts us hus
    refine ⟨t, rest, rfl, ht.beginsFactor, fun o c ho hcallable => ?_⟩
    rw [(hS o c ho).1] at hcallable
    cases hcallable
  · rintro _ _ ⟨rfl, a, c, _, ha, ⟨b, c', hb, rfl⟩, rfl⟩
    exact ⟨rfl, a, c, b, c', ha, hb, rfl⟩

theorem Piece.beside (h : Piece D p follow f P) (hp : .multiplication ≤ p)
    (hQ : Piece D q follow' g Q) (hq : Precedence.multiplication.tighter ≤ q) (hstarts : Starts Q)
    (hfollow : ∀ us after, us ∈ Q → follow' after → follow (us ++ after))
    (hends : ∀ after, follow' after → EndsFactor after) :
    Piece D .multiplication follow' (f * g) (P * Q) := by
  refine (Eventually.and h hQ.below).mono fun levels hlevels env henv => ?_
  obtain ⟨hleft, below, rfl, hright⟩ := hlevels
  have hreads : Reads env (nested env (below + 1)) delimited .multiplication follow' _ _ :=
    Reads.beside Says.settles Says.settles henv rfl (hleft env henv) hp (hright env henv) hq
      hstarts hfollow hends
  refine hreads.mono (Nat.le_refl _) (fun _ h => h) ?_
  rintro _ _ ⟨rfl, a, c, b, c', ha, hb, rfl⟩
  exact ha.mul hb.value

/-! ### Products -/

/-- A factor ends, and no power of ten follows that would belong to a numeral. -/
def EndsUnscaled (after : List Token) : Prop :=
  EndsFactor after ∧ powerOfTen? after = none

/-- The tokens are read as a product that more factors can follow. -/
inductive Factors (D : Set (String → ℚ)) (f : Meaning) (P : Language Token) : Prop
  | closed (h : Piece D .multiplication EndsFactor f P)
  /-- The last factor is a numeral, which takes up a power of ten. -/
  | scalable (h : Piece D .multiplication EndsUnscaled f P)
      (hscaled : ∀ k < 1000,
        Piece D .multiplication EndsFactor (fun σ => f σ * 10 ^ k) (P * powerTokens k))

theorem powerOfTen?_eq_none {after : List Token}
    (h : ∀ t ∈ after.head?, t.kind ≠ .command "times" ∧ t.kind ≠ .command "cdot") :
    powerOfTen? after = none := by
  unfold powerOfTen?
  split
  · next times ten caret rest =>
    obtain ⟨htimes, hcdot⟩ := h times rfl
    rw [Token.isCommand, Token.isCommand, beq_false_of_ne htimes, beq_false_of_ne hcdot]
    rfl
  · rfl

theorem EndsProduct.endsUnscaled {after : List Token} (h : EndsProduct after) :
    EndsUnscaled after := by
  refine ⟨h.endsFactor, powerOfTen?_eq_none fun t ht => ?_⟩
  rcases h t ht with (hkind | hkind) | hsum
  · rw [hkind]
    exact ⟨nofun, nofun⟩
  · rw [hkind]
    exact ⟨nofun, nofun⟩
  · exact ⟨ne_of_mem_of_not_mem hsum (by decide), ne_of_mem_of_not_mem hsum (by decide)⟩

theorem Factors.endsProduct (h : Factors D f P) : Piece D .multiplication EndsProduct f P := by
  cases h with
  | closed h => exact h.mono (Nat.le_refl _) (fun _ h => h.endsFactor) fun _ _ => rfl
  | scalable h _ => exact h.mono (Nat.le_refl _) (fun _ h => h.endsUnscaled) fun _ _ => rfl

theorem Factors.congr (h : Factors D f P) (hfg : ∀ σ ∈ D, f σ = g σ) : Factors D g P := by
  cases h with
  | closed h => exact .closed (h.mono (Nat.le_refl _) (fun _ h => h) hfg)
  | scalable h hscaled =>
    refine .scalable (h.mono (Nat.le_refl _) (fun _ h => h) hfg) fun k hk => ?_
    exact (hscaled k hk).mono (Nat.le_refl _) (fun _ h => h) fun σ hσ => by rw [hfg σ hσ]

/-- In front of the tokens, a minus sign is an operator. -/
def TakesMinus (P : Language Token) : Prop :=
  ∀ ts ∈ P, ∀ (env : Env) (inner : Inner) (s : State) (t : Token) (after : List Token),
    s.rest = t :: (ts ++ after) → t.kind = .punct '-' → Runs (builtin env inner) s none s

/-- The tokens go on with a product. -/
def Extends (D : Set (String → ℚ)) (f : Meaning) (P : Language Token) : Prop :=
  ∀ ⦃g : Meaning⦄ ⦃R : Language Token⦄, Factors D g R → Factors D (g * f) (R * P)

/-- The tokens can start a product, go on with one, and stand behind a minus sign. -/
structure Phrase (D : Set (String → ℚ)) (numeric : Bool) (f : Meaning) (P : Language Token) : Prop
    where
  alone : Factors D f P
  minus : TakesMinus P ∨ Factors D (-f) (Token.one (.punct '-') * P)
  times : Extends D f (Token.one (.command "times") * P)
  beside : numeric = false → Starts P ∧ Extends D f P

theorem Extends.congr (h : Extends D f P) (hfg : ∀ σ ∈ D, f σ = g σ) : Extends D g P :=
  fun _ _ hR => (h hR).congr fun σ hσ => by simp [hfg σ hσ]

theorem Extends.extend (h : Extends D f P) (h' : Extends D g Q) : Extends D (f * g) (P * Q) := by
  intro _ _ hR
  rw [← mul_assoc, ← mul_assoc]
  exact h' (h hR)

theorem TakesMinus.mul (h : TakesMinus P) (Q : Language Token) : TakesMinus (P * Q) := by
  intro ws hws env inner s t after hs ht
  obtain ⟨ts, hts, us, -, rfl⟩ := Language.mem_mul.mp hws
  rw [List.append_assoc] at hs
  exact h ts hts env inner s t _ hs ht

theorem Starts.mul (h : Starts P) (Q : Language Token) : Starts (P * Q) := by
  intro ws hws
  obtain ⟨ts, hts, us, -, rfl⟩ := Language.mem_mul.mp hws
  obtain ⟨t, rest, rfl, ht⟩ := h ts hts
  exact ⟨t, rest ++ us, rfl, ht⟩

/-- What starts with a unit is no number. -/
theorem Starts.takesMinus (h : Starts P) : TakesMinus P := by
  intro ts hts env inner s t after hs ht
  obtain ⟨u, rest, rfl, hu⟩ := h ts hts
  have hfree : Free t.kind := by
    rw [ht]
    decide
  refine runs_builtin_of_free hs hfree ?_ ?_
  · refine startsNumber_eq_false_of_kind ?_ ?_ <;> rw [ht] <;> exact nofun
  · exact startsNumber_eq_false_of_kind hu.ne_digits (hu.ne_punct (by decide))

/-- In front of what is no digit and no point, a minus sign is an operator. -/
theorem takesMinus_one {kind : Token.Kind} (hdigits : ∀ run, kind ≠ .digits run)
    (hpoint : kind ≠ .punct '.') : TakesMinus (Token.one kind) := by
  rintro _ ⟨u, rfl, rfl⟩ env inner s t after hs ht
  have hfree : Free t.kind := by
    rw [ht]
    decide
  refine runs_builtin_of_free hs hfree ?_ (startsNumber_eq_false_of_kind hdigits hpoint)
  refine startsNumber_eq_false_of_kind ?_ ?_ <;> simp [ht]

theorem takesMinus_minus (P : Language Token) : TakesMinus (Token.one (.punct '-') * P) := by
  have hminus : TakesMinus (Token.one (.punct '-')) := takesMinus_one (fun _ => nofun) (by decide)
  exact hminus.mul P

namespace Phrase

variable {numeric : Bool}

theorem congr (h : Phrase D numeric f P) (hfg : ∀ σ ∈ D, f σ = g σ) : Phrase D numeric g P where
  alone := h.alone.congr hfg
  minus := h.minus.imp id fun hminus => hminus.congr fun σ hσ => by simp [hfg σ hσ]
  times := h.times.congr hfg
  beside hnumeric := (h.beside hnumeric).imp id fun hbeside => hbeside.congr hfg

theorem extend (h : Phrase D numeric f P) (h' : Extends D g Q) :
    Phrase D numeric (f * g) (P * Q) where
  alone := h' h.alone
  minus := by
    rcases h.minus with hminus | hminus
    · exact .inl (hminus.mul _)
    · refine .inr ?_
      rw [← mul_assoc]
      exact (h' hminus).congr fun σ _ => by simp
  times := by simpa only [mul_assoc] using h.times.extend h'
  beside hnumeric := by
    obtain ⟨hstarts, hbeside⟩ := h.beside hnumeric
    exact ⟨hstarts.mul _, hbeside.extend h'⟩

end Phrase

/-! ### Factors -/

theorem endsFactor_times {t : Token} (ht : t.kind = .command "times") (after : List Token) :
    EndsFactor (t :: after) := by
  intro u hu
  rw [← Option.some.inj hu]
  exact .inr (.inl ht)

theorem Starts.endsFactor (h : Starts P) {ts : List Token} (hts : ts ∈ P) (after : List Token) :
    EndsFactor (ts ++ after) := by
  obtain ⟨t, rest, rfl, ht⟩ := h ts hts
  intro u hu
  rw [← Option.some.inj hu]
  exact .inr (.inr ht)

/-- Behind a times sign, only the numeral ten can start a power of ten. -/
theorem powerOfTen?_times {t : Token} {after : List Token}
    (h : ∀ u ∈ after.head?, u.kind ≠ .digits "10") : powerOfTen? (t :: after) = none := by
  unfold powerOfTen?
  split
  · next times ten caret rest heq =>
    cases heq
    have hten := h ten rfl
    rw [beq_false_of_ne hten, Bool.and_false, Bool.false_and]
    rfl
  · rfl

theorem Starts.powerOfTen?_times (h : Starts P) {ts : List Token} (hts : ts ∈ P) (t : Token)
    (after : List Token) : powerOfTen? (t :: (ts ++ after)) = none := by
  obtain ⟨u, rest, rfl, hu⟩ := h ts hts
  refine Parser.powerOfTen?_times fun v hv hdigits => ?_
  rw [← Option.some.inj hv] at hdigits
  exact hu.ne_digits _ hdigits

theorem Starts.powerOfTen? (h : Starts P) {ts : List Token} (hts : ts ∈ P) (after : List Token) :
    Parser.powerOfTen? (ts ++ after) = none := by
  obtain ⟨u, rest, rfl, hu⟩ := h ts hts
  refine powerOfTen?_eq_none fun v hv => ?_
  rw [← Option.some.inj hv]
  exact ⟨hu.ne_command (by decide), hu.ne_command (by decide)⟩

/-- A unit, to whatever power. -/
theorem Phrase.ofUnit (h : Piece D p (fun _ => True) f P) (hp : .power ≤ p) (hstarts : Starts P) :
    Phrase D false f P := by
  have htight : Precedence.multiplication.tighter ≤ p := Nat.le_trans (by decide) hp
  have hloose : Precedence.multiplication ≤ p := Nat.le_trans (by decide) hp
  have hfactor : Piece D p EndsFactor f P :=
    h.mono (Nat.le_refl _) (fun _ _ => trivial) fun _ _ => rfl
  refine ⟨.closed (hfactor.mono hloose (fun _ h => h) fun _ _ => rfl), .inl hstarts.takesMinus,
    fun _ _ hR => ?_, fun _ => ⟨hstarts, fun _ _ hR => ?_⟩⟩
  · cases hR with
    | closed hR =>
      exact .closed (hR.times (Nat.le_refl _) hfactor htight
        (fun t us after _ ht _ => endsFactor_times ht _) fun _ h => h)
    | scalable hR _ =>
      exact .closed (hR.times (Nat.le_refl _) hfactor htight
        (fun t us after hus ht _ => ⟨endsFactor_times ht _, hstarts.powerOfTen?_times hus t after⟩)
        fun _ h => h)
  · cases hR with
    | closed hR =>
      exact .closed (hR.beside (Nat.le_refl _) hfactor htight hstarts
        (fun us after hus _ => hstarts.endsFactor hus after) fun _ h => h)
    | scalable hR _ =>
      exact .closed (hR.beside (Nat.le_refl _) hfactor htight hstarts
        (fun us after hus _ => ⟨hstarts.endsFactor hus after, hstarts.powerOfTen? hus after⟩)
        fun _ h => h)

theorem EndsFactor.endsNumber {after : List Token} (h : EndsFactor after) : EndsNumber after := by
  intro t ht
  rcases h t ht with hproduct | htimes | hunit
  · rcases hproduct with (hkind | hkind) | hsum
    · simp [Token.isCommand, Token.isPunct, hkind]
    · simp [Token.isCommand, Token.isPunct, hkind]
    · exact ⟨beq_false_of_ne (ne_of_mem_of_not_mem hsum (by decide)),
        beq_false_of_ne (ne_of_mem_of_not_mem hsum (by decide)),
        beq_false_of_ne (ne_of_mem_of_not_mem hsum (by decide))⟩
  · simp [Token.isCommand, Token.isPunct, htimes]
  · exact ⟨beq_false_of_ne (hunit.ne_command (by decide)),
      beq_false_of_ne (hunit.ne_punct (by decide)), beq_false_of_ne (hunit.ne_punct (by decide))⟩

theorem EndsFactor.ne_caret {after : List Token} (h : EndsFactor after) :
    ∀ t ∈ after.head?, t.kind ≠ .punct '^' := by
  intro t ht
  rcases h t ht with hproduct | htimes | hunit
  · rcases hproduct with (hkind | hkind) | hsum
    · simp [hkind]
    · simp [hkind]
    · exact ne_of_mem_of_not_mem hsum (by decide)
  · simp [htimes]
  · exact hunit.ne_punct (by decide)

theorem EndsFactor.endsNumeral {after : List Token} (h : EndsFactor after) (negative : Bool)
    {power : Option Nat} (hpower : power = none → powerOfTen? after = none) :
    EndsNumeral negative power after :=
  ⟨fun hnone => ⟨h.endsNumber, hpower hnone⟩, fun _ t ht => beq_false_of_ne (h.ne_caret t ht)⟩

theorem powerOfTen?_of_ne_caret {t u : Token} {after : List Token}
    (h : ∀ v ∈ after.head?, v.kind ≠ .punct '^') : powerOfTen? (t :: u :: after) = none := by
  unfold powerOfTen?
  split
  · next times ten caret rest heq =>
    cases heq
    rw [Token.isPunct, beq_false_of_ne (h caret rfl), Bool.and_false]
    rfl
  · rfl

/-- A numeral is no power of ten unless an exponent follows. -/
theorem powerOfTen?_numeral {n : Nat} {t : Token} {us after : List Token} (hus : us ∈ numeralTokens n)
    (hafter : ∀ v ∈ after.head?, v.kind ≠ .punct '^') : powerOfTen? (t :: (us ++ after)) = none := by
  obtain ⟨u, rest, _, _, rfl, -, hgrouped, -⟩ := hus
  refine powerOfTen?_of_ne_caret ?_
  cases hgrouped with
  | nil => exact hafter
  | cons hmark =>
    intro v hv
    rw [← Option.some.inj hv, hmark]
    exact nofun

/-- One more factor that is a numeral. -/
theorem Extends.times (h : Piece D .atomic EndsUnscaled f Q)
    (hscaled : ∀ k < 1000,
      Piece D .atomic EndsFactor (fun σ => f σ * 10 ^ k) (Q * powerTokens k))
    (hten : ∀ (t : Token) us after, us ∈ Q → (∀ v ∈ after.head?, v.kind ≠ .punct '^') →
      powerOfTen? (t :: (us ++ after)) = none) :
    Extends D f (Token.one (.command "times") * Q) := by
  intro g R hR
  have hcaret : ∀ k, ∀ us ∈ Q * powerTokens k, ∀ (t : Token) after,
      powerOfTen? (t :: (us ++ after)) = none := by
    intro k ws hws t after
    obtain ⟨us, hus, vs, hvs, rfl⟩ := Language.mem_mul.mp hws
    obtain ⟨_, ⟨u, rfl, hu⟩, xs, -, rfl⟩ := Language.mem_mul.mp hvs
    rw [List.append_assoc]
    refine hten t us _ hus ?_
    intro v hv
    rw [← Option.some.inj hv, hu]
    exact nofun
  have htight : Precedence.multiplication.tighter ≤ Precedence.atomic := by decide
  refine .scalable ?_ fun k hk => ?_
  · cases hR with
    | closed hR =>
      exact hR.times (Nat.le_refl _) h htight (fun t us after _ ht _ => endsFactor_times ht _)
        fun _ h => h.1
    | scalable hR _ =>
      exact hR.times (Nat.le_refl _) h htight (fun t us after hus ht hafter =>
        ⟨endsFactor_times ht _, hten t us after hus hafter.1.ne_caret⟩) fun _ h => h.1
  · have hfactor : Piece D .multiplication EndsFactor (g * fun σ => f σ * 10 ^ k)
        (R * (Token.one (.command "times") * (Q * powerTokens k))) := by
      cases hR with
      | closed hR =>
        exact hR.times (Nat.le_refl _) (hscaled k hk) htight
          (fun t us after _ ht _ => endsFactor_times ht _) fun _ h => h
      | scalable hR _ =>
        exact hR.times (Nat.le_refl _) (hscaled k hk) htight (fun t us after hus ht _ =>
          ⟨endsFactor_times ht _, hcaret k us hus t after⟩) fun _ h => h
    rw [mul_assoc, mul_assoc]
    exact hfactor.mono (Nat.le_refl _) (fun _ h => h) fun σ _ => (mul_assoc _ _ _).symm

section

variable {n : Nat} (hn : n < tenPow 15)

include hn

theorem Piece.unscaledNumeral : Piece D .atomic EndsUnscaled (fun _ => (n : ℚ)) (numeralTokens n) := by
  have hpiece : Piece D .atomic (EndsNumeral false none) _ (scaledTokens n none) := .numeral hn nofun
  refine hpiece.mono (Nat.le_refl _) (fun after h => h.1.endsNumeral false fun _ => h.2) ?_
  simp

theorem Piece.scaledNumeral {k : Nat} (hk : k < 1000) :
    Piece D .atomic EndsFactor (fun _ => (n : ℚ) * 10 ^ k) (numeralTokens n * powerTokens k) := by
  have hpower : ∀ j ∈ some k, j < 1000 := fun j hj => Option.some.inj hj ▸ hk
  have hpiece : Piece D .atomic (EndsNumeral false (some k)) _ (scaledTokens n (some k)) :=
    .numeral hn hpower
  exact hpiece.mono (Nat.le_refl _) (fun after h => h.endsNumeral false nofun) fun _ _ => rfl

theorem Piece.unscaledNegative :
    Piece D .atomic EndsUnscaled (fun _ => -(n : ℚ)) (Token.one (.punct '-') * numeralTokens n) := by
  have hpiece : Piece D .atomic (EndsNumeral true none) _
      (Token.one (.punct '-') * scaledTokens n none) := .negativeNumeral hn nofun
  refine hpiece.mono (Nat.le_refl _) (fun after h => h.1.endsNumeral true fun _ => h.2) ?_
  simp

theorem Piece.scaledNegative {k : Nat} (hk : k < 1000) :
    Piece D .atomic EndsFactor (fun _ => -(n : ℚ) * 10 ^ k)
      (Token.one (.punct '-') * numeralTokens n * powerTokens k) := by
  have hpower : ∀ j ∈ some k, j < 1000 := fun j hj => Option.some.inj hj ▸ hk
  have hpiece : Piece D .atomic (EndsNumeral true (some k)) _
      (Token.one (.punct '-') * scaledTokens n (some k)) := .negativeNumeral hn hpower
  rw [mul_assoc]
  exact hpiece.mono (Nat.le_refl _) (fun after h => h.endsNumeral true nofun) fun σ _ => by simp

/-- A negative number behind a times sign. -/
theorem Extends.timesNegative :
    Extends D (fun _ => -(n : ℚ))
      (Token.one (.command "times") * (Token.one (.punct '-') * numeralTokens n)) := by
  refine .times (.unscaledNegative hn) (fun k hk => .scaledNegative hn hk) ?_
  intro t us after hus _
  obtain ⟨_, ⟨u, rfl, hu⟩, vs, -, rfl⟩ := Language.mem_mul.mp hus
  refine powerOfTen?_times fun v hv => ?_
  rw [← Option.some.inj hv, hu]
  exact nofun

theorem Phrase.ofNumeral : Phrase D true (fun _ => (n : ℚ)) (numeralTokens n) where
  alone := .scalable ((Piece.unscaledNumeral hn).mono (by decide) (fun _ h => h) fun _ _ => rfl)
    fun k hk => (Piece.scaledNumeral hn hk).mono (by decide) (fun _ h => h) fun _ _ => rfl
  minus := .inr (.scalable
    ((Piece.unscaledNegative hn).mono (by decide) (fun _ h => h) fun _ _ => rfl)
    fun k hk => (Piece.scaledNegative hn hk).mono (by decide) (fun _ h => h) fun _ _ => rfl)
  times := .times (.unscaledNumeral hn) (fun k hk => .scaledNumeral hn hk)
    fun t us after hus hafter => powerOfTen?_numeral hus hafter
  beside := nofun

/-- In front of a power of a number, a minus sign is an operator. -/
theorem takesMinus_raised (k : Nat) : TakesMinus (numeralTokens n * exponentTokens k) := by
  intro ws hws env inner s t after hs ht
  obtain ⟨ts, hts, us, hus, rfl⟩ := Language.mem_mul.mp hws
  obtain ⟨_, ⟨caret, rfl, hcaret⟩, vs, -, rfl⟩ := Language.mem_mul.mp hus
  have hunscaled : ts ∈ scaledTokens n none := hts
  rw [List.append_assoc] at hs
  have hrest : (s.forward 1).rest = ts ++ (caret :: (vs ++ after)) := by
    rw [State.rest_forward, hs]
    rfl
  have hends : EndsNumber (caret :: (vs ++ after)) ∧ powerOfTen? (caret :: (vs ++ after)) = none := by
    refine ⟨fun u hu => ?_, powerOfTen?_eq_none fun u hu => ?_⟩ <;> rw [← Option.some.inj hu]
    · simp [Token.isCommand, Token.isPunct, hcaret]
    · simp [hcaret]
  have hnone : ∀ k ∈ (none : Option Nat), k < 1000 := by
    rintro _ ⟨⟩
  obtain ⟨value, -, hruns⟩ : ∃ value : Number, _ ∧ Runs (number env true) _ _ _ :=
    exists_runs_number hn hnone hunscaled hrest (fun _ => hends) true
  obtain ⟨d, rest, run, rfl, hkind⟩ := exists_digits_of_mem_scaledTokens hunscaled
  have hend : ((s.forward 1).forward (d :: rest).length).rest = caret :: (vs ++ after) := by
    rw [State.rest_forward, hrest, List.drop_left]
  exact runs_builtin_of_raised hs ht hkind hruns hend hcaret

theorem Piece.raised {k : Nat} (hk : k < tenPow 15) (follow : List Token → Prop) :
    Piece D .power follow (fun _ => (n : ℚ) ^ k) (numeralTokens n * exponentTokens k) := by
  have hbase : Piece D .atomic (EndsNumeral false none) _ (scaledTokens n none) := .numeral hn nofun
  have hpower := hbase.power (by decide) (fun t after ht => ?_) hk follow
  · refine hpower.mono (Nat.le_refl _) (fun _ h => h) ?_
    simp
  · have hcaret : ∀ u ∈ (t :: after).head?, u.kind = .punct '^' :=
      fun u hu => Option.some.inj hu ▸ ht
    refine ⟨fun _ => ⟨fun u hu => ?_, powerOfTen?_eq_none fun u hu => ?_⟩, nofun⟩
    · simp [Token.isCommand, Token.isPunct, hcaret u hu]
    · simp [hcaret u hu]

omit hn in
/-- A power of another number than ten, or to a longer exponent, is no power of ten. -/
theorem powerOfTen?_raised {k : Nat} (hother : ¬(n = 10 ∧ k < 1000)) {ws : List Token}
    (hws : ws ∈ numeralTokens n * exponentTokens k) (t : Token) (after : List Token) :
    powerOfTen? (t :: (ws ++ after)) = none := by
  obtain ⟨us, hus, vs, hvs, rfl⟩ := Language.mem_mul.mp hws
  obtain ⟨_, ⟨caret, rfl, hcaret⟩, xs, hxs, rfl⟩ := Language.mem_mul.mp hvs
  obtain ⟨opening, ys, closing, rfl, hopening, hdigits, hclosing⟩ := mem_enclosed_iff.mp hxs
  obtain ⟨u, rest, run, digits, rfl, hu, hgrouped, hrun, hsingle⟩ := hus
  cases hgrouped with
  | cons hmark =>
    refine powerOfTen?_of_ne_caret fun v hv => ?_
    rw [← Option.some.inj hv, hmark]
    exact nofun
  | nil =>
    rw [List.append_nil] at hrun
    by_cases hten : n = 10
    · have hlong : 1000 ≤ k := by omega
      obtain ⟨d, others, run', digits', rfl, hd, hgrouped', -, hsingle'⟩ := hdigits
      cases hgrouped' with
      | nil =>
        have hshort := (Digits.length_ofNat_le_iff (by decide)).mp (hsingle'.mp rfl)
        exact absurd hlong (Nat.not_le_of_lt hshort)
      | cons hmark =>
        have hnot : opening.digits? = none := by rw [Token.digits?, hopening]
        have hsign : sign? d = none := by simp [sign?, Token.isPunct, hd]
        simp [powerOfTen?, exponentText?, bracedExponent?, digitsToBrace?, hnot, hopening, hsign,
          hmark]
    · refine powerOfTen?_times fun v hv hkind => hten ?_
      rw [← Option.some.inj hv, hu] at hkind
      have hlist : run = ['1', '0'] := by
        have heq := congrArg String.toList (Token.Kind.digits.inj hkind)
        rwa [String.toList_ofList] at heq
      rw [← Digits.value_ofNat n, ← hrun, hlist]
      rfl

/-- A number to a power. Behind a times sign, a power of ten may belong to the numeral before it. -/
theorem Phrase.ofRaised {k : Nat} (hk : k < tenPow 15) :
    Phrase D true (fun _ => (n : ℚ) ^ k) (numeralTokens n * exponentTokens k) where
  alone := .closed ((Piece.raised hn hk _).mono (by decide) (fun _ h => h) fun _ _ => rfl)
  minus := .inl (takesMinus_raised hn k)
  times _ _ hR := by
    have hfactor : Piece D .power EndsFactor (fun _ => (n : ℚ) ^ k) _ := .raised hn hk _
    cases hR with
    | closed hR =>
      exact .closed (hR.times (Nat.le_refl _) hfactor (by decide)
        (fun t us after _ ht _ => endsFactor_times ht _) fun _ h => h)
    | scalable hR hscaled =>
      by_cases hten : n = 10 ∧ k < 1000
      · obtain ⟨rfl, hk⟩ := hten
        exact .closed (hscaled k hk)
      · exact .closed (hR.times (Nat.le_refl _) hfactor (by decide) (fun t us after hus ht _ =>
          ⟨endsFactor_times ht _, powerOfTen?_raised hten hus t after⟩) fun _ h => h)
  beside := nofun

end

end TexFormula.Parser
