import TexFormula.Token.Lexer

/-!
# Balanced delimiters

Parentheses, braces and brackets are properly nested and all matched in some tokens (`Balanced`) just
if a stack of those that are open says so (`closes`): `balanced_iff_closes`.
-/

namespace TexFormula

/-- The delimiters that stand in pairs. -/
inductive Delimiter where
  | parenthesis
  | brace
  | bracket
deriving DecidableEq, Repr

namespace Token

/-- The delimiter that a token of this kind opens. -/
def Kind.opens? : Kind → Option Delimiter
  | .punct c => if c = '(' then some .parenthesis else none
  | .groupOpen => some .brace
  | .optionalOpen => some .bracket
  | _ => none

/-- The delimiter that a token of this kind closes. -/
def Kind.closes? : Kind → Option Delimiter
  | .punct c => if c = ')' then some .parenthesis else none
  | .groupClose => some .brace
  | .optionalClose => some .bracket
  | _ => none

theorem Kind.opens?_punct (c : Char) :
    (Kind.punct c).opens? = if c = '(' then some .parenthesis else none := rfl

theorem Kind.closes?_punct (c : Char) :
    (Kind.punct c).closes? = if c = ')' then some .parenthesis else none := rfl

/-- A token of this kind is no delimiter. -/
def Kind.isPlain (kind : Kind) : Bool :=
  kind.opens?.isNone && kind.closes?.isNone

/-- The delimiters are properly nested, and all of them are matched. -/
inductive Balanced : List Token → Prop where
  | nil : Balanced []
  | plain {t : Token} {rest : List Token} (ht : t.kind.isPlain) (hrest : Balanced rest) :
    Balanced (t :: rest)
  | pair {delimiter : Delimiter} {opening closing : Token} {inner rest : List Token}
    (hopen : opening.kind.opens? = some delimiter) (hinner : Balanced inner)
    (hclose : closing.kind.closes? = some delimiter) (hrest : Balanced rest) :
    Balanced (opening :: (inner ++ closing :: rest))

/-- The tokens close the delimiters that are open, the innermost first, and all that they open. -/
def closes : (opened : List Delimiter) → List Token → Bool
  | opened, [] => opened.isEmpty
  | opened, t :: rest =>
    match t.kind.opens?, t.kind.closes?, opened with
    | some delimiter, _, opened => closes (delimiter :: opened) rest
    | none, some _, [] => false
    | none, some delimiter, top :: below => top == delimiter && closes below rest
    | none, none, opened => closes opened rest

variable {t : Token} {rest tokens : List Token} {opened below : List Delimiter}
  {delimiter : Delimiter}

theorem Kind.opens?_of_closes? {kind : Kind} (h : kind.closes? = some delimiter) :
    kind.opens? = none := by
  cases kind with
  | punct c =>
    rw [closes?_punct] at h
    split at h
    · next hc =>
      rw [hc]
      rfl
    · cases h
  | groupClose => rfl
  | optionalClose => rfl
  | _ => cases h

theorem closes_of_plain (h : t.kind.isPlain) : closes opened (t :: rest) = closes opened rest := by
  obtain ⟨hopen, hclose⟩ := Bool.and_eq_true_iff.mp h
  rw [Option.isNone_iff_eq_none] at hopen hclose
  cases opened <;> simp [closes, hopen, hclose]

theorem closes_of_opens? (h : t.kind.opens? = some delimiter) :
    closes opened (t :: rest) = closes (delimiter :: opened) rest := by
  simp only [closes, h]

theorem closes_of_closes? (h : t.kind.closes? = some delimiter) :
    closes (delimiter :: opened) (t :: rest) = closes opened rest := by
  simp [closes, h, Kind.opens?_of_closes? h]

/-- The three sorts of tokens that close what is open. -/
theorem closes_cons_cases (h : closes opened (t :: rest) = true) :
    (∃ delimiter, t.kind.opens? = some delimiter ∧ closes (delimiter :: opened) rest = true) ∨
      (∃ delimiter below, t.kind.closes? = some delimiter ∧ opened = delimiter :: below ∧
        closes below rest = true) ∨
      t.kind.isPlain ∧ closes opened rest = true := by
  cases hopen : t.kind.opens? with
  | some delimiter =>
    rw [closes_of_opens? hopen] at h
    exact .inl ⟨delimiter, rfl, h⟩
  | none =>
    cases hclose : t.kind.closes? with
    | some delimiter =>
      cases opened with
      | nil => simp [closes, hopen, hclose] at h
      | cons top below =>
        simp only [closes, hopen, hclose] at h
        obtain ⟨htop, hbelow⟩ := Bool.and_eq_true_iff.mp h
        exact .inr (.inl ⟨delimiter, below, rfl, by rw [eq_of_beq htop], hbelow⟩)
    | none =>
      have hplain : t.kind.isPlain := by simp [Kind.isPlain, hopen, hclose]
      rw [closes_of_plain hplain] at h
      exact .inr (.inr ⟨hplain, h⟩)

/-- Balanced tokens leave alone what is open. -/
theorem Balanced.closes_append (h : Balanced tokens) (opened : List Delimiter) (rest : List Token) :
    closes opened (tokens ++ rest) = closes opened rest := by
  induction h generalizing opened rest with
  | nil => rfl
  | plain ht _ ih => rw [List.cons_append, closes_of_plain ht, ih]
  | pair hopen _ hclose _ ihinner ihrest =>
    rw [List.cons_append, List.append_assoc, List.cons_append, closes_of_opens? hopen, ihinner,
      closes_of_closes? hclose, ihrest]

/-- What closes a delimiter first is balanced up to there. -/
theorem balanced_of_closes (h : closes opened tokens = true) :
    (opened = [] → Balanced tokens) ∧ ∀ delimiter below, opened = delimiter :: below →
      ∃ inner closing rest, tokens = inner ++ closing :: rest ∧ Balanced inner ∧
        closing.kind.closes? = some delimiter ∧ closes below rest = true := by
  induction hlength : tokens.length using Nat.strongRecOn generalizing opened tokens with
  | ind n ih =>
    subst hlength
    cases tokens with
    | nil =>
      refine ⟨fun _ => .nil, fun delimiter below hopened => ?_⟩
      rw [hopened] at h
      cases h
    | cons t rest =>
      rcases closes_cons_cases h with ⟨delimiter, hopen, hrest⟩ |
        ⟨delimiter, below, hclose, rfl, hrest⟩ | ⟨hplain, hrest⟩
      · -- what is opened here is closed later on, and then the rest closes what was open before
        obtain ⟨inner, closing, after, rfl, hinner, hclose, hafter⟩ :=
          (ih _ (Nat.lt_succ_self _) hrest rfl).2 delimiter opened rfl
        have hshort : after.length < (t :: (inner ++ closing :: after)).length := by
          simp only [List.length_cons, List.length_append]
          omega
        obtain ⟨hnil, hcons⟩ := ih _ hshort hafter rfl
        refine ⟨fun hopened => .pair hopen hinner hclose (hnil hopened), fun outer below hopened => ?_⟩
        obtain ⟨more, last, others, rfl, hmore, hlast, hothers⟩ := hcons outer below hopened
        exact ⟨t :: (inner ++ closing :: more), last, others, by simp,
          .pair hopen hinner hclose hmore, hlast, hothers⟩
      · refine ⟨nofun, fun _ _ hopened => ?_⟩
        cases hopened
        exact ⟨[], t, rest, rfl, .nil, hclose, hrest⟩
      · obtain ⟨hnil, hcons⟩ := ih _ (Nat.lt_succ_self _) hrest rfl
        refine ⟨fun hopened => .plain hplain (hnil hopened), fun delimiter below hopened => ?_⟩
        obtain ⟨inner, closing, others, rfl, hinner, hclose, hothers⟩ := hcons delimiter below hopened
        exact ⟨t :: inner, closing, others, rfl, .plain hplain hinner, hclose, hothers⟩

theorem balanced_iff_closes : Balanced tokens ↔ closes [] tokens = true := by
  constructor
  · intro h
    have hall := h.closes_append [] []
    rwa [List.append_nil] at hall
  · exact fun h => (balanced_of_closes h).1 rfl

theorem Balanced.of_forall_plain (h : ∀ t ∈ tokens, t.kind.isPlain) : Balanced tokens := by
  induction tokens with
  | nil => exact .nil
  | cons t rest ih =>
    obtain ⟨ht, hrest⟩ := List.forall_mem_cons.mp h
    exact .plain ht (ih hrest)

theorem Balanced.append (h : Balanced tokens) (hrest : Balanced rest) :
    Balanced (tokens ++ rest) := by
  rw [balanced_iff_closes, h.closes_append, ← balanced_iff_closes]
  exact hrest

/-- Tokens that are no delimiters can be left out. -/
theorem closes_filter {p : Token → Bool} (h : ∀ t ∈ tokens, p t = false → t.kind.isPlain)
    (opened : List Delimiter) : closes opened (tokens.filter p) = closes opened tokens := by
  induction tokens generalizing opened with
  | nil => rfl
  | cons t rest ih =>
    obtain ⟨ht, hrest⟩ := List.forall_mem_cons.mp h
    cases hp : p t with
    | false => rw [List.filter_cons_of_neg (by rw [hp]; nofun), ih hrest, closes_of_plain (ht hp)]
    | true =>
      rw [List.filter_cons_of_pos hp]
      cases hopen : t.kind.opens? with
      | some delimiter => rw [closes_of_opens? hopen, closes_of_opens? hopen, ih hrest]
      | none =>
        cases opened <;> simp only [closes, hopen, ih hrest]

theorem balanced_meaningful_iff {source : String} :
    Balanced (meaningful source) ↔ Balanced (ofSource source) := by
  rw [balanced_iff_closes, balanced_iff_closes, meaningful, closes_filter]
  intro t _ hp
  simp only [Bool.and_eq_false_iff, Bool.not_eq_false', bne_eq_false_iff_eq] at hp
  rcases hp with hseparator | hending
  · unfold Kind.isSeparator at hseparator
    split at hseparator
    · next hkind =>
      rw [hkind]
      rfl
    · next hkind =>
      rw [hkind]
      rfl
    · cases hseparator
  · rw [hending]
    rfl

instance : DecidablePred Balanced := fun _ => decidable_of_iff _ balanced_iff_closes.symm

example : Balanced (ofSource "[(x+1)^\x7b2\x7d]") := by decide +kernel

end Token

end TexFormula
