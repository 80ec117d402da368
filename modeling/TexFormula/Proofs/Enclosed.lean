import TexFormula.Proofs.Excerpt.Expression
import TexFormula.Proofs.OpenBraces

/-!
# A source between two delimiters

An `Enclosure` is a source and another one in which it stands between two delimiters. States are
`Abreast` if they are at the same place of it: where the one has come to the end, the other one is in
front of the closing delimiter.

`Echoed`: whatever the second program does in the source the first one does between the delimiters,
but for runs that are `bad`. Such runs leave a diagnostic behind (`Doomed`), unless they are taken back.
-/

namespace TexFormula.Parser

/-! ### Tokens that leave the closing delimiter alone -/

/-- The last token is a `\right` and has no delimiter behind it, read from the left, where each `\left`
and `\right` takes the token behind it. -/
def endsBare : List Token → Bool
  | [] => false
  | [t] => t.isCommand "right"
  | t :: d :: rest => if TakesDelimiter t then endsBare rest else endsBare (d :: rest)

theorem endsBare_cons {t : Token} (h : ¬ TakesDelimiter t) (rest : List Token) :
    endsBare (t :: rest) = endsBare rest := by
  cases rest with
  | nil =>
    rw [endsBare, endsBare, Token.isCommand, beq_eq_false_iff_ne]
    exact fun hright => h (.inr hright)
  | cons d rest => rw [endsBare, if_neg h]

theorem endsBare_append {t : Token} (h : ¬ TakesDelimiter t) (front rest : List Token) :
    endsBare (front ++ t :: rest) = endsBare rest := by
  induction front using endsBare.induct with
  | case1 => exact endsBare_cons h rest
  | case2 u =>
    rw [List.singleton_append, endsBare, endsBare_cons h, ite_self]
  | case3 u d front hu ih =>
    rw [List.cons_append, List.cons_append, endsBare, if_pos hu, ih]
  | case4 u d front hu ih =>
    rw [List.cons_append, List.cons_append, endsBare, if_neg hu, ← List.cons_append, ih]

/-- Nothing in the tokens takes a delimiter behind them for its own: neither a `\right` at the end nor a
brace, but for one that is a growing delimiter itself. -/
structure SelfContained (tokens : List Token) : Prop where
  delimited : endsBare tokens = false
  closed {x brace : Token} {behind : List Token} (hsuffix : x :: brace :: behind <:+ tokens)
    (hx : ¬ TakesDelimiter x) (hopen : brace.kind = .groupOpen) : ∃ t ∈ behind, t.kind = .groupClose

namespace SelfContained

variable {t d : Token} {tokens rest : List Token}

theorem nil : SelfContained [] where
  delimited := rfl
  closed hsuffix := nomatch List.suffix_nil.mp hsuffix

theorem tail (h : SelfContained (t :: rest)) (ht : ¬ TakesDelimiter t) : SelfContained rest where
  delimited := (endsBare_cons ht rest).symm.trans h.delimited
  closed hsuffix := h.closed (hsuffix.trans (List.suffix_cons t rest))

theorem drop_of_forall {n : Nat} (h : SelfContained tokens)
    (hn : ∀ t ∈ tokens.take n, ¬ TakesDelimiter t) :
    SelfContained (tokens.drop n) := by
  induction n generalizing tokens with
  | zero => exact h
  | succ n ih =>
    cases tokens with
    | nil => exact h
    | cons t rest =>
      rw [List.take_succ_cons] at hn
      obtain ⟨ht, hn⟩ := List.forall_mem_cons.mp hn
      exact ih (h.tail ht) hn

/-- What is read before the last token does not matter. -/
theorem drop_of_last {n : Nat} (h : SelfContained tokens) (hn : tokens[n]? = some t)
    (ht : ¬ TakesDelimiter t) : SelfContained (tokens.drop (n + 1)) where
  delimited := by
    obtain ⟨hlt, hget⟩ := List.getElem?_eq_some_iff.mp hn
    have hdrop := List.drop_eq_getElem_cons hlt
    rw [hget] at hdrop
    rw [← endsBare_append ht (tokens.take n), ← hdrop, List.take_append_drop]
    exact h.delimited
  closed hsuffix := h.closed (hsuffix.trans (List.drop_suffix _ _))

/-- A token and the delimiter that it takes. -/
theorem drop_two (h : SelfContained (t :: rest)) (ht : TakesDelimiter t) :
    SelfContained (rest.drop 1) where
  delimited := by
    cases rest with
    | nil => rfl
    | cons d rest =>
      have hdelimited := h.delimited
      rwa [endsBare, if_pos ht] at hdelimited
  closed hsuffix :=
    h.closed (hsuffix.trans ((List.drop_suffix 1 rest).trans (List.suffix_cons t rest)))

theorem ne_right (h : SelfContained [t]) : t.isCommand "right" = false :=
  h.delimited

theorem cons_of_digits (h : SelfContained (t :: rest)) (ht : t.digits?.isSome) (hd : d.digits?.isSome) :
    SelfContained (d :: rest) where
  delimited := by
    rw [endsBare_cons (not_takesDelimiter_of_digits? hd),
      ← endsBare_cons (not_takesDelimiter_of_digits? ht)]
    exact h.delimited
  closed {x brace behind} hsuffix hx hopen := by
    rcases List.suffix_cons_iff.mp hsuffix with heq | hsuffix
    · obtain ⟨rfl, rfl⟩ := List.cons.inj heq
      exact h.closed List.suffix_rfl (not_takesDelimiter_of_digits? ht) hopen
    · exact h.closed (hsuffix.trans (List.suffix_cons t rest)) hx hopen

end SelfContained

/-! ### Places -/

/-- A source, and another one in which it stands between two delimiters. -/
structure Enclosure extends Excerpt where
  opening : Token
  closing : Token
  /-- The closing delimiter that is waited for. -/
  close : String
  before_eq : before = [opening]
  after_eq : after = [closing]
  outside_eq : outside = [close]
  digits?_opening : opening.digits? = none
  closes : closing.kind = .punct ')' ∧ close = ")" ∨ closing.kind = .groupClose ∧ close = "\x7d"

namespace Enclosure

variable (w : Enclosure)

section

variable {w}

@[simp] theorem digits?_closing : w.closing.digits? = none := by
  rcases w.closes with ⟨hkind, -⟩ | ⟨hkind, -⟩ <;> rw [Token.digits?, hkind]

@[simp] theorem isCommand_closing (name : String) : w.closing.isCommand name = false := by
  rcases w.closes with ⟨hkind, -⟩ | ⟨hkind, -⟩ <;> rw [Token.isCommand, hkind] <;> rfl

theorem isPunct_closing {c : Char} (hc : c ≠ ')') : w.closing.isPunct c = false := by
  rcases w.closes with ⟨hkind, -⟩ | ⟨hkind, -⟩ <;> rw [Token.isPunct, hkind, beq_eq_false_iff_ne]
  · exact fun h => hc (Token.Kind.punct.inj h).symm
  · exact fun h => by cases h

@[simp] theorem isSpacing_closing : State.isSpacing w.closing = false := by
  rcases w.closes with ⟨hkind, -⟩ | ⟨hkind, -⟩ <;> rw [State.isSpacing, hkind]

theorem endsExpression_closing : State.endsExpression w.closing.kind = true := by
  rcases w.closes with ⟨hkind, -⟩ | ⟨hkind, -⟩ <;> rw [hkind] <;> rfl

/-- No standard operator is a closing delimiter. -/
theorem operator_closing :
    w.closing.trigger?.filter Dictionary.standard.hasOperator = none := by
  rcases w.closes with ⟨hkind, -⟩ | ⟨hkind, -⟩ <;> rw [Token.trigger?, hkind] <;> rfl

end

/-- The states are at the same place. What is still to be read leaves the closing delimiter alone. -/
structure Abreast (s s' : State) : Prop where
  seen : s.seen = s'.seen.map w.place ++ w.before
  rest : s.rest = s'.rest.map w.place ++ w.after
  closers : s.closers = s'.closers ++ w.outside
  clean : s'.diagnostics = [] → s.diagnostics = []
  inside : ∀ t ∈ s'.rest, w.Inside t
  ends : ∀ t ∈ s'.rest, t.trigger? = some w.close → State.endsExpression t.kind
  contained : SelfContained s'.rest

/-- What a run of the second program comes to the first one comes to as well, or it is `bad`. -/
def Echoed {α : Type} (bad : α → State → Prop) (s s' : State) (m m' : Parser α) : Prop :=
  ∀ a t', Runs m' s' a t' → (∃ t, Runs m s a t ∧ w.Abreast t t') ∨ bad a t'

/-- A diagnostic has been recorded. -/
def Doomed {α : Type} (_ : α) (t : State) : Prop :=
  t.diagnostics ≠ []

variable {w} {α β : Type} {s s' t t' : State}

namespace Abreast

theorem exists_rest (h : w.Abreast s s') (hne : s'.rest ≠ []) : ∃ x xs, s'.rest = x :: xs ∧
    s.rest = w.place x :: (xs.map w.place ++ w.after) := by
  obtain ⟨x, xs, hrest⟩ := List.exists_cons_of_ne_nil hne
  exact ⟨x, xs, hrest, by rw [h.rest, hrest]; rfl⟩

theorem current (h : w.Abreast s s') (hne : s'.rest ≠ []) :
    s.current w.whole = w.place (s'.current w.part) := by
  obtain ⟨x, xs, hrest', hrest⟩ := h.exists_rest hne
  rw [State.current_of_rest hrest, State.current_of_rest hrest']

theorem current_of_nil (h : w.Abreast s s') (hnil : s'.rest = []) : s.current w.whole = w.closing := by
  have hrest := h.rest
  rw [hnil, w.after_eq] at hrest
  exact State.current_of_rest hrest

/-- What holds of a token at its place and of the closing delimiter as of the end. -/
theorem current_congr {γ : Type} {f : Token → γ} (h : w.Abreast s s')
    (hplace : ∀ x, f (w.place x) = f x) (hclosing : f w.closing = f w.part.ending) :
    f (s.current w.whole) = f (s'.current w.part) := by
  by_cases hne : s'.rest = []
  · rw [h.current_of_nil hne, State.current_of_rest_nil hne, hclosing]
  · rw [h.current hne, hplace]

theorem digits?_current (h : w.Abreast s s') :
    (s.current w.whole).digits? = (s'.current w.part).digits? :=
  h.current_congr (fun _ => rfl) digits?_closing

theorem isCommand_current (h : w.Abreast s s') (name : String) :
    (s.current w.whole).isCommand name = (s'.current w.part).isCommand name :=
  h.current_congr (f := (·.isCommand name)) (fun _ => rfl) (isCommand_closing name)

theorem isPunct_current (h : w.Abreast s s') {c : Char} (hc : c ≠ ')') :
    (s.current w.whole).isPunct c = (s'.current w.part).isPunct c :=
  h.current_congr (f := (·.isPunct c)) (fun _ => rfl) (isPunct_closing hc)

theorem kind_beq_current (h : w.Abreast s s') {kind : Token.Kind} (hopens : kind.opens?.isSome) :
    ((s.current w.whole).kind == kind) = ((s'.current w.part).kind == kind) := by
  refine h.current_congr (f := (·.kind == kind)) (fun _ => rfl) ?_
  have hend : (w.part.ending.kind == kind) = false := by
    rw [beq_eq_false_iff_ne]
    rintro rfl
    cases hopens
  rw [hend, beq_eq_false_iff_ne]
  rintro rfl
  rcases w.closes with ⟨hkind, -⟩ | ⟨hkind, -⟩ <;> rw [hkind] at hopens <;> cases hopens

theorem operator_current (h : w.Abreast s s') :
    (s.current w.whole).trigger?.filter w.whole.dictionary.hasOperator =
      (s'.current w.part).trigger?.filter w.part.dictionary.hasOperator := by
  rw [w.dictionary, w.dictionary']
  exact h.current_congr (f := fun t => t.trigger?.filter Dictionary.standard.hasOperator)
    (fun _ => rfl) operator_closing

theorem atTerminator (h : w.Abreast s s') : s.atTerminator w.whole = s'.atTerminator w.part := by
  by_cases hne : s'.rest = []
  · rw [State.atTerminator, State.atTerminator, h.current_of_nil hne, State.current_of_rest_nil hne,
      endsExpression_closing, Bool.true_or]
    rfl
  · have hcurrent := h.current hne
    obtain ⟨x, xs, hrest, -⟩ := h.exists_rest hne
    have hx : s'.current w.part = x := State.current_of_rest hrest
    rw [hx] at hcurrent
    rw [State.atTerminator, State.atTerminator, hcurrent, hx, h.closers]
    cases hclosers : s'.closers with
    | cons closer closers => rfl
    | nil =>
      -- the closing delimiter around the source ends an expression on its own
      have hends := h.ends x (hrest ▸ List.mem_cons_self)
      rw [List.nil_append, w.outside_eq, List.head?_cons, List.head?_nil, Excerpt.trigger?_place,
        Excerpt.kind_place]
      cases htrigger : x.trigger? with
      | none => rfl
      | some trigger =>
        dsimp only
        by_cases hclose : trigger = w.close
        · rw [hends (htrigger.trans (congrArg some hclose)), Bool.true_or, Bool.true_or]
        · rw [show (w.close == trigger) = false from beq_eq_false_iff_ne.mpr fun h => hclose h.symm]

theorem forward (h : w.Abreast s s') {n : Nat} (hn : n ≤ s'.rest.length)
    (hcontained : SelfContained (s'.rest.drop n)) : w.Abreast (s.forward n) (s'.forward n) where
  seen := by
    rw [State.seen_forward, State.seen_forward, h.rest, h.seen,
      List.take_append_of_le_length (by rwa [List.length_map]), ← List.map_take, ← List.map_reverse,
      List.map_append, List.append_assoc]
  rest := by
    rw [State.rest_forward, State.rest_forward, h.rest, List.map_drop,
      List.drop_append_of_le_length (by rwa [List.length_map])]
  closers := by
    rw [State.closers_forward, State.closers_forward]
    exact h.closers
  clean := by
    rw [State.diagnostics_forward, State.diagnostics_forward]
    exact h.clean
  inside t ht := by
    rw [State.rest_forward] at ht
    exact h.inside t (List.mem_of_mem_drop ht)
  ends t ht := by
    rw [State.rest_forward] at ht
    exact h.ends t (List.mem_of_mem_drop ht)
  contained := by
    rw [State.rest_forward]
    exact hcontained

theorem forward_one (h : w.Abreast s s') (hne : s'.rest ≠ [])
    (hgrows : ¬ TakesDelimiter (s'.current w.part)) : w.Abreast (s.forward 1) (s'.forward 1) := by
  obtain ⟨x, xs, hrest, -⟩ := h.exists_rest hne
  rw [State.current_of_rest hrest] at hgrows
  have hcontained := h.contained
  refine h.forward ?_ ?_
  · rw [hrest]
    exact Nat.succ_pos _
  · rw [hrest] at hcontained ⊢
    exact hcontained.tail hgrows

theorem length_rest (h : w.Abreast s s') : s.rest.length = s'.rest.length + 1 := by
  rw [h.rest, w.after_eq, List.length_append, List.length_map]
  rfl

theorem position (h : w.Abreast s s') : s.position = s'.position + 1 := by
  rw [State.position, State.position, h.seen, w.before_eq, List.length_append, List.length_map]
  rfl

theorem previous (h : w.Abreast s s') (hbegun : s'.seen ≠ []) :
    s.previous w.whole = w.place (s'.previous w.part) := by
  obtain ⟨x, xs, hseen⟩ := List.exists_cons_of_ne_nil hbegun
  simp [State.previous, h.seen, hseen]

theorem pastSpacing (h : w.Abreast s s') : w.Abreast s.pastSpacing s'.pastSpacing := by
  have hsame : (s.rest.takeWhile State.isSpacing).length =
      (s'.rest.takeWhile State.isSpacing).length := by
    rw [h.rest, w.after_eq]
    induction s'.rest with
    | nil => simp
    | cons x xs ih =>
      by_cases hx : State.isSpacing x
      · simpa [hx] using ih
      · simp [hx]
  rw [State.pastSpacing, State.pastSpacing, hsame]
  refine h.forward (List.takeWhile_prefix _).length_le (h.contained.drop_of_forall fun t ht => ?_)
  rw [← List.prefix_iff_eq_take.mp (List.takeWhile_prefix _)] at ht
  have hspacing := List.mem_takeWhile_imp ht
  rintro (hkind | hkind) <;> · rw [State.isSpacing, hkind] at hspacing; revert hspacing; decide

/-- Something is recorded on both sides. -/
theorem record (h : w.Abreast s s') (problem problem' : Problem) (start stop start' stop' : Nat) :
    w.Abreast (s.record problem start stop) (s'.record problem' start' stop') where
  seen := h.seen
  rest := h.rest
  closers := h.closers
  clean := nofun
  inside := h.inside
  ends := h.ends
  contained := h.contained

end Abreast

/-! ### Runs that leave a diagnostic behind -/

theorem doomed_record {a : α} {problem : Problem} {start stop : Nat} :
    Doomed a (s.record problem start stop) :=
  List.cons_ne_nil _ _

theorem Doomed.forward {a : α} (h : Doomed a s) (b : β) (n : Nat) : Doomed b (s.forward n) := by
  rw [Doomed, State.diagnostics_forward]
  exact h

theorem ensures_doomed {a : β} {limit : Nat} {m : Parser α} (hm : Keeps limit m) (hs : Doomed a s) :
    Ensures Doomed s m :=
  fun _ _ h hnil => hs (List.suffix_nil.mp (hnil ▸ (hm.follows h).diagnostics))

/-! ### Programs -/

namespace Echoed

variable {bad bad' : α → State → Prop} {bad₂ : β → State → Prop} {m m' : Parser α}

theorem pure (hs : w.Abreast s s') (a : α) : w.Echoed bad s s' (Pure.pure a) (Pure.pure a) := by
  intro b t h
  obtain ⟨rfl, rfl⟩ := runs_pure.mp h
  exact .inl ⟨s, .pure b s, hs⟩

theorem of_ensures (h : Ensures bad s' m') : w.Echoed bad s s' m m' :=
  fun a t ht => .inr (h a t ht)

theorem mono (h : w.Echoed bad s s' m m') (hbad : ∀ a t, bad a t → bad' a t) :
    w.Echoed bad' s s' m m' :=
  fun a t ht => (h a t ht).imp_right (hbad a t)

theorem and_runs (h : w.Echoed bad s s' m m') :
    w.Echoed (fun a t => Runs m' s' a t ∧ bad a t) s s' m m' :=
  fun a t ht => (h a t ht).imp_right fun hbad => ⟨ht, hbad⟩

theorem bind_of_runs {f f' : α → Parser β} (h : w.Echoed bad s s' m m')
    (hbad : ∀ a t, bad a t → Ensures bad₂ t (f' a))
    (hf : ∀ a t t', Runs m s a t → Runs m' s' a t' → w.Abreast t t' →
      w.Echoed bad₂ t t' (f a) (f' a)) :
    w.Echoed bad₂ s s' (m >>= f) (m' >>= f') := by
  intro b u' hb
  obtain ⟨a, t', ha', hb⟩ := runs_bind.mp hb
  rcases h a t' ha' with ⟨t, ha, ht⟩ | hat
  · rcases hf a t t' ha ha' ht b u' hb with ⟨u, hb, hu⟩ | hbu
    · exact .inl ⟨u, ha.bind hb, hu⟩
    · exact .inr hbu
  · exact .inr (hbad a t' hat b u' hb)

theorem bind {f f' : α → Parser β} (h : w.Echoed bad s s' m m')
    (hbad : ∀ a t, bad a t → Ensures bad₂ t (f' a))
    (hf : ∀ a t t', w.Abreast t t' → w.Echoed bad₂ t t' (f a) (f' a)) :
    w.Echoed bad₂ s s' (m >>= f) (m' >>= f') :=
  h.bind_of_runs hbad fun a t t' _ _ ht => hf a t t' ht

theorem bind_pure {f : α → β} (h : w.Echoed bad s s' m m') (hbad : ∀ a t, bad a t → bad₂ (f a) t) :
    w.Echoed bad₂ s s' (m >>= fun a => Pure.pure (f a)) (m' >>= fun a => Pure.pure (f a)) :=
  h.bind (fun a t ht => .pure (hbad a t ht)) fun a _ _ ht => pure ht (f a)

theorem map {f : α → β} (h : w.Echoed bad s s' m m') (hbad : ∀ a t, bad a t → bad₂ (f a) t) :
    w.Echoed bad₂ s s' (f <$> m) (f <$> m') := by
  rw [map_eq_pure_bind, map_eq_pure_bind]
  exact h.bind_pure hbad

/-- A result may be built up further: what a diagnostic dooms does not depend on it. -/
theorem built {f : α → β} (h : w.Echoed Doomed s s' m m') :
    w.Echoed Doomed s s' (m >>= fun a => Pure.pure (f a)) (m' >>= fun a => Pure.pure (f a)) :=
  h.bind_pure fun _ _ hdoomed => hdoomed

theorem of_step {u u' : State} {k k' : Parser α} (h : w.Echoed bad u u' k k') (hm : m s = k u)
    (hm' : m' s' = k' u') : w.Echoed bad s s' m m' := by
  intro a t ht
  rcases h a t (hm'.symm.trans ht) with ⟨t, ht, habreast⟩ | hbad
  · exact .inl ⟨t, hm.trans ht, habreast⟩
  · exact .inr hbad

theorem get {f f' : State → Parser β} (h : w.Echoed bad₂ s s' (f s) (f' s')) :
    w.Echoed bad₂ s s' (MonadState.get >>= f) (MonadState.get >>= f') := h

theorem current {f f' : Token → Parser β}
    (h : w.Echoed bad₂ s s' (f (s.current w.whole)) (f' (s'.current w.part))) :
    w.Echoed bad₂ s s' (Parser.current w.whole >>= f) (Parser.current w.part >>= f') := h

theorem atTerminator {f f' : Bool → Parser β} (hs : w.Abreast s s')
    (h : w.Echoed bad₂ s s' (f (s'.atTerminator w.part)) (f' (s'.atTerminator w.part))) :
    w.Echoed bad₂ s s' (Parser.atTerminator w.whole >>= f) (Parser.atTerminator w.part >>= f') := by
  show w.Echoed bad₂ s s' (f (s.atTerminator w.whole)) (f' (s'.atTerminator w.part))
  rw [hs.atTerminator]
  exact h

theorem skip {count : Nat} {f f' : Unit → Parser β} (hs : w.Abreast s s')
    (hcount : count ≤ s'.rest.length) (hcontained : SelfContained (s'.rest.drop count))
    (h : w.Abreast (s.forward count) (s'.forward count) →
      w.Echoed bad₂ (s.forward count) (s'.forward count) (f ()) (f' ())) :
    w.Echoed bad₂ s s' (Parser.skip count >>= f) (Parser.skip count >>= f') :=
  (h (hs.forward hcount hcontained)).of_step rfl rfl

theorem advance {f f' : Unit → Parser β} (hs : w.Abreast s s') (hne : s'.rest ≠ [])
    (hgrows : ¬ TakesDelimiter (s'.current w.part))
    (h : w.Abreast (s.forward 1) (s'.forward 1) →
      w.Echoed bad₂ (s.forward 1) (s'.forward 1) (f ()) (f' ())) :
    w.Echoed bad₂ s s' (Parser.advance >>= f) (Parser.advance >>= f') :=
  (h (hs.forward_one hne hgrows)).of_step rfl rfl

/-- A token is read on both sides, and what follows is compared from there. -/
theorem forward_one {f f' : Unit → Parser β}
    (h : w.Echoed bad₂ (s.forward 1) (s'.forward 1) (f ()) (f' ())) :
    w.Echoed bad₂ s s' (Parser.advance >>= f) (Parser.advance >>= f') := h

theorem skipSpacing {f f' : Unit → Parser β} (hs : w.Abreast s s')
    (h : w.Abreast s.pastSpacing s'.pastSpacing →
      w.Echoed bad₂ s.pastSpacing s'.pastSpacing (f ()) (f' ())) :
    w.Echoed bad₂ s s' (Parser.skipSpacing >>= f) (Parser.skipSpacing >>= f') :=
  (h hs.pastSpacing).of_step rfl rfl

theorem ite {c : Prop} [Decidable c] {m₁ m₁' m₂ m₂' : Parser α}
    (h₁ : c → w.Echoed bad s s' m₁ m₁') (h₂ : ¬ c → w.Echoed bad s s' m₂ m₂') :
    w.Echoed bad s s' (if c then m₁ else m₂) (if c then m₁' else m₂') := by
  by_cases h : c
  · rw [if_pos h, if_pos h]
    exact h₁ h
  · rw [if_neg h, if_neg h]
    exact h₂ h

/-- A delimiter is waited for on both sides. -/
theorem awaiting {limit : Nat} {close : String} (hs : w.Abreast s s') (hm : Keeps limit m')
    (h : ∀ t t', w.Abreast t t' → w.Echoed Doomed t t' m m') :
    w.Echoed Doomed s s' (Parser.awaiting close m) (Parser.awaiting close m') := by
  intro a u hu
  obtain ⟨t', ht', rfl⟩ := runs_awaiting.mp hu
  have hawait : w.Abreast { s with closers := close :: s.closers }
      { s' with closers := close :: s'.closers } :=
    { hs with closers := by simp [hs.closers] }
  rcases h _ _ hawait a t' ht' with ⟨t, ht, habreast⟩ | hbad
  · refine .inl ⟨_, runs_awaiting.mpr ⟨t, ht, rfl⟩, { habreast with closers := ?_ }⟩
    simp [habreast.closers, (hm.follows ht').closers]
  · exact .inr hbad

/-- What is taken back in the source is taken back between the delimiters as well. -/
theorem attempt {m m' : Parser (Option α)} {bad bad' : Option α → State → Prop} (hs : w.Abreast s s')
    (h : w.Echoed bad s s' m m') (hsome : ∀ a t, bad (some a) t → bad' (some a) t)
    (hnone : ∀ t, Runs m' s' none t → bad none t → bad' none s') :
    w.Echoed bad' s s' (Parser.attempt m) (Parser.attempt m') := by
  intro o t' ht'
  rcases runs_attempt.mp ht' with ⟨rfl, rfl, u', hu'⟩ | ⟨hfound, ht'⟩
  · rcases h none u' hu' with ⟨u, hu, -⟩ | hbad
    · exact .inl ⟨s, runs_attempt.mpr (.inl ⟨rfl, rfl, u, hu⟩), hs⟩
    · exact .inr (hnone u' hu' hbad)
  · obtain ⟨a, rfl⟩ := Option.isSome_iff_exists.mp hfound
    rcases h (some a) t' ht' with ⟨t, ht, habreast⟩ | hbad
    · exact .inl ⟨t, runs_attempt.mpr (.inr ⟨rfl, ht⟩), habreast⟩
    · exact .inr (hsome a t' hbad)

theorem orElse {m m' m₂ m₂' : Parser (Option α)} {bad bad' : Option α → State → Prop}
    (h : w.Echoed bad s s' m m') (hsome : ∀ a t, bad (some a) t → bad' (some a) t)
    (hnone : ∀ t, bad none t → Ensures bad' t m₂')
    (h₂ : ∀ t t', Runs m' s' none t' → w.Abreast t t' → w.Echoed bad' t t' m₂ m₂') :
    w.Echoed bad' s s' (Parser.orElse m m₂) (Parser.orElse m' m₂') := by
  refine h.bind_of_runs (fun o t hbad => ?_) fun o t t' _ ho ht => ?_
  · cases o with
    | none => exact hnone t hbad
    | some a => exact .pure (hsome a t hbad)
  · cases o with
    | none => exact h₂ t t' ho ht
    | some a => exact pure ht (some a)

end Echoed

end Enclosure

end TexFormula.Parser
