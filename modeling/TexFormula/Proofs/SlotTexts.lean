import TexFormula.Proofs.Factors
import TexFormula.Proofs.OpenPlaces
import TexFormula.Proofs.Outcome
import TexFormula.Proofs.VerbatimText

/-!
# Slots as they are written

The texts of letters and open places, and of several of them with a glyph in between, which is how the
serializer writes sums, chains of operators and lists of arguments. The tokens of these texts are the
slots and the operators.
-/

open TexFormula.Parser

namespace TexFormula

variable {levels : Nat} {x : Slot} {slots : List Slot} {kind : Token.Kind} {glyph written : String}

theorem Text.startsWith_backslash_of_isLetter {text : String}
    (h : ∀ c ∈ text.toList, isLetter c = true) : startsWith text '\\' = false := by
  rw [startsWith]
  cases hlist : text.toList with
  | nil => rfl
  | cons c cs =>
    have hc : isLetter c = true := h c (by simp [hlist])
    refine beq_false_of_ne fun heq => ?_
    rw [Option.some.inj heq] at hc
    exact absurd hc (by decide)

namespace Slot

def text : Slot → String
  | letter c _ => String.singleton c
  | vacant => "\\placeholder"

theorem spells (x : Slot) : Spells x.text.toList (Token.one x.kind) := by
  cases x with
  | letter c h =>
    rw [text, String.toList_singleton]
    exact .letter h
  | vacant => exact .command (List.cons_ne_nil 'p' _) (List.all_eq_true.mp (by decide))

theorem opens (x : Slot) : ∃ c ∈ x.text.toList.head?, c.isDigit = false ∧ c ≠ '-' := by
  cases x with
  | letter c h =>
    refine ⟨c, by simp [text], Text.isDigit_of_isLetter h, ?_⟩
    rintro rfl
    exact absurd h (by decide)
  | vacant => exact ⟨'\\', rfl, rfl, by decide⟩

theorem toList_ne_nil (x : Slot) : x.text.toList ≠ [] := by
  obtain ⟨c, hc, -⟩ := x.opens
  exact ne_nil_of_head? hc

theorem startsWith_minus (x : Slot) : Text.startsWith x.text '-' = false := by
  obtain ⟨c, hc, -, hne⟩ := x.opens
  rw [Text.startsWith, hc]
  exact beq_false_of_ne fun heq => hne (Option.some.inj heq)

theorem serialize (x : Slot) (levels : Nat) :
    (Scribe.standard (levels + 1)).serialize x.expression = .ok x.text := by
  cases x with
  | letter c h =>
    show Except.ok ((Serializer.mk .standard {}).symbol (String.singleton c)) = _
    rw [Serializer.symbol, lookup_standard_singleton, Option.filter_none]
    refine congrArg Except.ok (if_pos ?_)
    rw [String.length_singleton, decide_eq_true rfl, Bool.or_true]
  | vacant => rfl

/-- A slot is never put in parentheses. -/
theorem wrap (x : Slot) (levels : Nat) (loosest : Precedence) :
    (Scribe.standard (levels + 1)).wrap x.expression loosest = .ok x.text := by
  have hatomic : (Scribe.standard (levels + 1)).precedence x.expression = .atomic := by
    cases x <;> rfl
  have hnot : ¬Precedence.atomic < loosest := Nat.not_lt_of_le loosest.rank_le
  rw [Scribe.wrap, x.serialize, hatomic]
  exact congrArg Except.ok (if_neg hnot)

end Slot

/-- A slot as a factor. -/
def Factor.slot (x : Slot) : Factor where
  expression := x.expression
  text := x.text
  tokens := Token.one x.kind
  writes := x.wrap 62 _
  spells := x.spells
  opens := by
    obtain ⟨c, hc, hdigit, -⟩ := x.opens
    exact ⟨c, hc, hdigit⟩
  number? := by cases x <;> rfl
  reciprocal? := by cases x <;> rfl
  reads := .slot x
  symbol? := by
    cases x with
    | letter c h =>
      intro heq
      have hlength := congrArg String.length (Option.some.inj heq)
      rw [String.length_singleton] at hlength
      exact absurd hlength (by decide)
    | vacant => nofun
  sum h := by cases x <;> cases h

/-! ### Glyphs between slots -/

/-- The glyph is one token, whatever slots stand next to it. -/
structure Separates (glyph : String) (kind : Token.Kind) : Prop where
  spells : Spells glyph.toList (Token.one kind)
  opens : ∃ c ∈ glyph.toList.head?, c.isAlpha = false ∧ c.isDigit = false
  closes : ∃ c ∈ glyph.toList.getLast?, c.isAlpha = false ∧ c.isDigit = false

theorem Separates.ofMark {c : Char} (h : Lexeme.Mark [c] kind) :
    Separates (String.singleton c) kind := by
  obtain ⟨d, ds, heq, halpha, hdigit⟩ := h.opens
  obtain ⟨rfl, -⟩ := List.cons.inj heq
  exact ⟨by rw [String.toList_singleton]; exact h.spells,
    ⟨c, by rw [String.toList_singleton]; rfl, halpha, hdigit⟩,
    ⟨c, by rw [String.toList_singleton]; rfl, halpha, hdigit⟩⟩

theorem separates_plus : Separates "+" (.punct '+') :=
  .ofMark (c := '+') (.punct fun _ => rfl)

theorem separates_minus : Separates "-" (.punct '-') :=
  .ofMark (c := '-') (.punct fun _ => rfl)

theorem separates_equals : Separates "=" (.punct '=') :=
  .ofMark (c := '=') (.punct fun _ => rfl)

/-- The glyph of a list. -/
theorem separates_comma : Separates ", " (.punct ',') := by
  refine ⟨?_, ⟨',', rfl, rfl, rfl⟩, ⟨' ', rfl, rfl, rfl⟩⟩
  have hcomma : Spells [','] (Token.one (.punct ',')) := .of_single rfl fun _ => rfl
  have hspells := hcomma.mul (Spells.blank (c := ' ') rfl) (.of_not rfl rfl _ _)
  rwa [mul_one] at hspells

namespace Separates

variable (h : Separates glyph kind)

include h

theorem toList_ne_nil : glyph.toList ≠ [] := by
  obtain ⟨c, hc, -⟩ := h.opens
  exact ne_nil_of_head? hc

theorem severs_left (l : List Char) : Text.Severs l glyph.toList := by
  obtain ⟨c, hc, halpha, hdigit⟩ := h.opens
  obtain ⟨cs, hcs⟩ := List.head?_eq_some_iff.mp hc
  rw [hcs]
  exact .of_not halpha hdigit l cs

theorem severs_right (l r : List Char) : Text.Severs (l ++ glyph.toList) r := by
  obtain ⟨c, hc, halpha, hdigit⟩ := h.closes
  obtain ⟨cs, hcs⟩ := List.getLast?_eq_some_iff.mp hc
  rw [hcs, ← List.append_assoc]
  exact .of_sign halpha hdigit _ r

theorem join_left (left : String) : Text.join left glyph = left ++ glyph := by
  unfold Text.join
  cases hletter : Text.startsWithLetter glyph.toList with
  | false => rfl
  | true => rw [(h.severs_left left.toList).word hletter]; rfl

theorem join_right (left right : String) :
    Text.join (left ++ glyph) right = left ++ glyph ++ right := by
  have hsevers := h.severs_right left.toList right.toList
  rw [← String.toList_append] at hsevers
  unfold Text.join
  cases hletter : Text.startsWithLetter right.toList with
  | false => rfl
  | true => rw [hsevers.word hletter]; rfl

/-- Texts with the glyph between them. -/
theorem spells_intercalate {α : Type} {text : α → String} {tokens : α → Language Token} (x : α)
    (xs : List α) (hxs : ∀ y ∈ x :: xs, Spells (text y).toList (tokens y)) :
    Spells (String.intercalate glyph ((x :: xs).map text)).toList
      (tokens x * (xs.map fun y => Token.one kind * tokens y).prod) := by
  induction xs generalizing x with
  | nil => simpa using hxs
  | cons y ys ih =>
    obtain ⟨hx, hys⟩ := List.forall_mem_cons.mp hxs
    have hstart := hx.mul h.spells (h.severs_left _)
    have hboth := hstart.mul (ih y hys) (h.severs_right _ _)
    rw [List.map_cons, List.map_cons, String.intercalate_cons_cons, String.toList_append,
      String.toList_append, List.map_cons, List.prod_cons]
    simpa only [mul_assoc, List.map_cons] using hboth

end Separates

/-- The texts of slots with a glyph between them. -/
def joined (glyph : String) (x : Slot) (slots : List Slot) : String :=
  String.intercalate glyph ((x :: slots).map Slot.text)

theorem intercalate_append (glyph a b : String) (texts : List String) :
    String.intercalate glyph ((a ++ glyph ++ b) :: texts) =
      String.intercalate glyph (a :: b :: texts) := by
  cases texts with
  | nil => simp [String.intercalate_cons_cons]
  | cons c cs => simp [String.intercalate_cons_cons, String.append_assoc]

theorem foldl_eq_intercalate {α : Type} {text : α → String} (glyph written : String) (xs : List α) :
    xs.foldl (fun start y => start ++ glyph ++ text y) written =
      String.intercalate glyph (written :: xs.map text) := by
  induction xs generalizing written with
  | nil => simp
  | cons y xs ih => rw [List.foldl_cons, ih, intercalate_append, List.map_cons]

theorem Separates.spells_joined (h : Separates glyph kind) (x : Slot) (slots : List Slot) :
    Spells (joined glyph x slots).toList (Token.one x.kind * operations kind slots) :=
  h.spells_intercalate x slots fun y _ => y.spells

/-! ### Writing -/

theorem sum_slots (levels : Nat) (x : Slot) (slots : List Slot) :
    Writers.sum (.standard (levels + 1)) ((x :: slots).map Slot.expression) =
      .ok (joined "+" x slots) := by
  have hterm (sum : String) (y : Slot) :
      Writers.addTerm (.standard (levels + 1)) sum y.expression = .ok (sum ++ "+" ++ y.text) := by
    have hpositive : Writers.isNegativeTerm y.expression = false := by cases y <;> rfl
    rw [Writers.addTerm, hpositive, if_neg Bool.false_ne_true, y.wrap]
    show Except.ok (if _ then _ else _) = _
    rw [y.startsWith_minus, if_neg Bool.false_ne_true]
  rw [List.map_cons, Writers.sum, x.wrap]
  show (slots.map Slot.expression).foldlM (Writers.addTerm (.standard (levels + 1))) x.text = _
  rw [List.foldlM_map, foldlM_eq_ok slots (fun sum y _ => hterm sum y), foldl_eq_intercalate]
  rfl

theorem list_slots (levels : Nat) (x : Slot) (slots : List Slot) :
    (Scribe.standard (levels + 1)).list ((x :: slots).map Slot.expression) =
      .ok (joined ", " x slots) := by
  have htexts (slots : List Slot) :
      (slots.map Slot.expression).mapM (Scribe.standard (levels + 1)).serialize =
        .ok (slots.map Slot.text) := by
    induction slots with
    | nil => rfl
    | cons y slots ih =>
      rw [List.map_cons, List.mapM_cons, y.serialize, ih]
      rfl
  rw [Scribe.list, htexts]
  rfl

/-! ### Lists of arguments -/

/-- The text of arguments in parentheses. -/
def argumentText : List Slot → String
  | [] => ""
  | x :: slots => joined ", " x slots

theorem spells_argumentText (slots : List Slot) :
    Spells (argumentText slots).toList (argumentTokens slots) := by
  cases slots with
  | nil => exact .nil
  | cons x slots => exact separates_comma.spells_joined x slots

theorem application_slots {name : String} (h : Text.startsWith name '\\' = false) (levels : Nat)
    (slots : List Slot) :
    (Scribe.standard (levels + 1)).application name (slots.map Slot.expression) =
      .ok ((Serializer.mk .standard {}).symbol name ++ Text.parenthesized (argumentText slots)) := by
  have hlist : (Scribe.standard (levels + 1)).list (slots.map Slot.expression) =
      .ok (argumentText slots) := by
    cases slots with
    | nil => rfl
    | cons x slots => exact list_slots levels x slots
  rw [Scribe.application, h, if_neg Bool.false_ne_true, hlist]
  rfl

theorem chain_slots {n : Notation} (h : Separates n.glyph kind) (levels : Nat) (x : Slot)
    (slots : List Slot) :
    Serializer.chain (.standard (levels + 1)) n ((x :: slots).map Slot.expression) =
      .ok (joined n.glyph x slots) := by
  have hmore (last index : Nat) (written : String) (slots : List Slot) :
      ((slots.map Slot.expression).zipIdx (index + 1)).foldlM
        (Serializer.addOperand (.standard (levels + 1)) n last) written =
      .ok (slots.foldl (fun text y => text ++ n.glyph ++ y.text) written) := by
    induction slots generalizing index written with
    | nil => rfl
    | cons y slots ih =>
      have hoperand : Serializer.addOperand (.standard (levels + 1)) n last written
          (y.expression, index + 1) = .ok (written ++ n.glyph ++ y.text) := by
        rw [Serializer.addOperand, y.wrap]
        show Except.ok (Text.join (if index + 1 = 0 then _ else _) y.text) = _
        rw [if_neg (Nat.succ_ne_zero index), h.join_left, h.join_right]
      rw [List.map_cons, List.zipIdx_cons, List.foldlM_cons, hoperand]
      exact ih (index + 1) _
  have hfirst (last : Nat) : Serializer.addOperand (.standard (levels + 1)) n last ""
      (x.expression, 0) = .ok x.text := by
    rw [Serializer.addOperand, x.wrap]
    exact congrArg Except.ok (Text.join_empty_left x.text)
  rw [Serializer.chain, List.map_cons, List.zipIdx_cons, List.foldlM_cons, hfirst]
  exact (hmore _ 0 x.text slots).trans (congrArg Except.ok (foldl_eq_intercalate _ _ _))

end TexFormula
