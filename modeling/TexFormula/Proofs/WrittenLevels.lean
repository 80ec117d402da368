import Mathlib.Data.List.Basic
import TexFormula.Dictionary.Standard
import TexFormula.Serializer

/-!
# Levels of writing

Every level of a tree takes one level of the serializer, but not all parts of a tree are visited:
texts in raw LaTeX are copied, a reciprocal factor stands under the bar with its exponent made
positive, and the exponents of roots are words. `Expression.writtenLevels` counts the levels that
the standard notations take.

`Expression.Plain` holds of the trees without dictionaries.
-/

namespace TexFormula

namespace Expression

/-- The tree holds no dictionary. -/
inductive Plain : Expression → Prop where
  | number (value : Number) : Plain (.number value)
  | symbol (name : String) : Plain (.symbol name)
  | text (content : String) : Plain (.text content)
  | apply {head : Expression} {arguments : List Expression} (hhead : Plain head)
      (harguments : ∀ a ∈ arguments, Plain a) : Plain (.apply head arguments)
  | missing : Plain .missing

/-- The greatest of some numbers; zero for none. -/
def greatest (counts : List Nat) : Nat :=
  counts.foldr max 0

/-- The levels below a power whose base and exponent take `base` and `top` levels. A reciprocal is
written by the power with the opposite exponent, one level down. -/
def levelsBelowPower (exponent : Expression) (base top : Nat) : Nat :=
  match Product.negativeNumber? exponent with
  | some n => if n.neg.toInt? = some 1 then base else base + 1
  | none => if (Writers.rationalParts? exponent).isSome then base else max base top

/-- The levels that a factor takes in a product. -/
def factorLevels (factor : Expression) (levels : Nat) : Nat :=
  if (Product.reciprocal? factor).isSome then levels - 1 else levels

/-- The levels that an argument of raw LaTeX takes. -/
def verbatimLevels (argument : Expression) (levels : Nat) : Nat :=
  match argument with
  | .text _ => 0
  | _ => levels

/-- The levels below an error node. -/
def levelsBelowError : List Expression → List Nat → Nat
  | .apply (.symbol "LatexString") [.text _] :: _, _ => 0
  | .text _ :: _, _ => 0
  | _ :: _, levels :: _ => levels
  | _, _ => 0

/-- The levels below the application of a name. -/
def levelsBelowName (name : String) (arguments : List Expression) (levels : List Nat) : Nat :=
  if name = "Power" then
    match arguments, levels with
    | [_, exponent], [base, top] => levelsBelowPower exponent base top
    | _, levels => greatest levels
  else if name = "Multiply" then
    greatest (List.zipWith factorLevels arguments levels)
  else if name = "Error" then
    levelsBelowError arguments levels
  else if name = "LatexString" ∨ name = "LatexTokens" then
    greatest (List.zipWith verbatimLevels arguments levels)
  else
    greatest levels

/-- The levels below an application whose head takes `head` levels. -/
def levelsBelow (operator : Expression) (arguments : List Expression) (head : Nat)
    (levels : List Nat) : Nat :=
  match operator with
  | .symbol name => levelsBelowName name arguments levels
  | _ => max head (greatest levels)

mutual

/-- The levels that writing an expression by the standard notations takes. -/
def writtenLevels : Expression → Nat
  | .apply head arguments =>
    1 + levelsBelow head arguments (writtenLevels head) (writtenLevelsOf arguments)
  | _ => 1

/-- The levels of each of some expressions. -/
def writtenLevelsOf : List Expression → List Nat
  | [] => []
  | e :: es => writtenLevels e :: writtenLevelsOf es

end

theorem writtenLevelsOf_eq_map (es : List Expression) :
    writtenLevelsOf es = es.map writtenLevels := by
  induction es with
  | nil => rfl
  | cons e es ih => rw [writtenLevelsOf, ih, List.map_cons]

variable {e head base exponent : Expression} {es arguments : List Expression} {name : String}
  {counts : List Nat} {k : Nat}

theorem greatest_le : greatest counts ≤ k ↔ ∀ l ∈ counts, l ≤ k := by
  induction counts with
  | nil => simp [greatest]
  | cons l ls ih =>
    rw [List.forall_mem_cons, ← ih]
    exact Nat.max_le

theorem greatest_map_le {f : Expression → Nat} : greatest (es.map f) ≤ k ↔ ∀ a ∈ es, f a ≤ k := by
  rw [greatest_le, List.forall_mem_map]

theorem writtenLevels_apply : (apply head arguments).writtenLevels =
    1 + levelsBelow head arguments head.writtenLevels (arguments.map writtenLevels) := by
  rw [writtenLevels, writtenLevelsOf_eq_map]

theorem one_le_writtenLevels (e : Expression) : 1 ≤ e.writtenLevels := by
  cases e with
  | apply head arguments =>
    rw [writtenLevels]
    exact Nat.le_add_right 1 _
  | _ => exact Nat.le_refl 1

theorem writtenLevels_function : (function name arguments).writtenLevels =
    1 + levelsBelowName name arguments (arguments.map writtenLevels) :=
  writtenLevels_apply

theorem zipWith_map_self (f : Expression → Nat → Nat) (g : Expression → Nat) :
    List.zipWith f es (es.map g) = es.map fun a => f a (g a) := by
  induction es with
  | nil => rfl
  | cons a as ih => rw [List.map_cons, List.zipWith_cons_cons, ih, List.map_cons]

/-- Names without a writing hook take one level more than their arguments. -/
theorem writtenLevels_function_le_iff
    (hname : name ∉ ["Power", "Multiply", "Error", "LatexString", "LatexTokens"]) :
    (function name arguments).writtenLevels ≤ k + 1 ↔ ∀ a ∈ arguments, a.writtenLevels ≤ k := by
  simp only [List.mem_cons, List.not_mem_nil, or_false, not_or] at hname
  obtain ⟨hpower, hmultiply, herror, hstring, htokens⟩ := hname
  rw [writtenLevels_function]
  unfold levelsBelowName
  rw [if_neg hpower, if_neg hmultiply, if_neg herror,
    if_neg (not_or.mpr ⟨hstring, htokens⟩), Nat.add_comm, Nat.add_le_add_iff_right,
    greatest_map_le]

theorem levelsBelowName_multiply : levelsBelowName "Multiply" es (es.map writtenLevels) ≤ k ↔
    ∀ a ∈ es, factorLevels a a.writtenLevels ≤ k := by
  unfold levelsBelowName
  rw [if_neg (by decide), if_pos rfl, zipWith_map_self, greatest_map_le]

theorem levelsBelowName_verbatim (hname : name = "LatexString" ∨ name = "LatexTokens") :
    levelsBelowName name es (es.map writtenLevels) ≤ k ↔
      ∀ a ∈ es, verbatimLevels a a.writtenLevels ≤ k := by
  unfold levelsBelowName
  have hpower : name ≠ "Power" := by rcases hname with rfl | rfl <;> decide
  have hmultiply : name ≠ "Multiply" := by rcases hname with rfl | rfl <;> decide
  have herror : name ≠ "Error" := by rcases hname with rfl | rfl <;> decide
  rw [if_neg hpower, if_neg hmultiply, if_neg herror, if_pos hname, zipWith_map_self,
    greatest_map_le]

theorem factorLevels_le (f : Expression) (levels : Nat) : factorLevels f levels ≤ levels := by
  unfold factorLevels
  split
  · exact Nat.sub_le levels 1
  · exact Nat.le_refl levels

theorem verbatimLevels_le (a : Expression) (levels : Nat) : verbatimLevels a levels ≤ levels := by
  unfold verbatimLevels
  split
  · exact Nat.zero_le levels
  · exact Nat.le_refl levels

theorem levelsBelowError_le (h : ∀ a ∈ es, a.writtenLevels ≤ k) :
    levelsBelowError es (es.map writtenLevels) ≤ k := by
  unfold levelsBelowError
  split
  · exact Nat.zero_le k
  · exact Nat.zero_le k
  · next heq =>
    obtain ⟨hfirst, -⟩ := List.cons.inj heq
    rw [← hfirst]
    exact h _ List.mem_cons_self
  · exact Nat.zero_le k

/-- Below a power with two arguments there may be one level more than in the arguments. -/
theorem levelsBelowPower_le (h : base.writtenLevels ≤ k) (hexponent : exponent.writtenLevels ≤ k) :
    levelsBelowPower exponent base.writtenLevels exponent.writtenLevels ≤
      if (Product.negativeNumber? exponent).isSome then k + 1 else k := by
  unfold levelsBelowPower
  cases Product.negativeNumber? exponent with
  | some n =>
    rw [Option.isSome_some, if_pos rfl]
    dsimp only
    split
    · exact Nat.le_succ_of_le h
    · exact Nat.succ_le_succ h
  | none =>
    dsimp only
    split
    · exact h
    · exact Nat.max_le.mpr ⟨h, hexponent⟩

/-- Only a power with two arguments takes more than one level besides those of its arguments. -/
theorem levelsBelowName_le (hname : name ≠ "Power" ∨ es.length ≠ 2)
    (h : ∀ a ∈ es, a.writtenLevels ≤ k) : levelsBelowName name es (es.map writtenLevels) ≤ k := by
  by_cases hmultiply : name = "Multiply"
  · rw [hmultiply, levelsBelowName_multiply]
    exact fun a ha => Nat.le_trans (factorLevels_le a _) (h a ha)
  by_cases hverbatim : name = "LatexString" ∨ name = "LatexTokens"
  · rw [levelsBelowName_verbatim hverbatim]
    exact fun a ha => Nat.le_trans (verbatimLevels_le a _) (h a ha)
  unfold levelsBelowName
  split
  · next hpower =>
    split
    · next hes =>
      rcases hname with hname | hname
      · exact absurd hpower hname
      · exact absurd rfl hname
    · exact greatest_map_le.mpr h
  · split
    · exact levelsBelowError_le h
    · exact greatest_map_le.mpr h

theorem levelsBelowName_le_succ (h : ∀ a ∈ es, a.writtenLevels ≤ k) :
    levelsBelowName name es (es.map writtenLevels) ≤ k + 1 := by
  by_cases hlength : es.length = 2
  · by_cases hname : name = "Power"
    · subst hname
      obtain ⟨b, x, rfl⟩ := List.length_eq_two.mp hlength
      have hle := levelsBelowPower_le (h b List.mem_cons_self)
        (h x (List.mem_cons_of_mem _ List.mem_cons_self))
      refine Nat.le_trans hle ?_
      split
      · exact Nat.le_refl _
      · exact Nat.le_succ k
    · exact Nat.le_succ_of_le (levelsBelowName_le (.inl hname) h)
  · exact Nat.le_succ_of_le (levelsBelowName_le (.inr hlength) h)

/-- One more argument behind the others. -/
theorem levelsBelowName_append_le {a : Expression} (hname : name ≠ "Power" ∧ name ≠ "Error")
    (h : levelsBelowName name es (es.map writtenLevels) ≤ k) (ha : a.writtenLevels ≤ k) :
    levelsBelowName name (es ++ [a]) ((es ++ [a]).map writtenLevels) ≤ k := by
  by_cases hmultiply : name = "Multiply"
  · subst hmultiply
    rw [levelsBelowName_multiply] at h ⊢
    refine List.forall_mem_append.mpr ⟨h, List.forall_mem_singleton.mpr ?_⟩
    exact Nat.le_trans (factorLevels_le a _) ha
  by_cases hverbatim : name = "LatexString" ∨ name = "LatexTokens"
  · rw [levelsBelowName_verbatim hverbatim] at h ⊢
    refine List.forall_mem_append.mpr ⟨h, List.forall_mem_singleton.mpr ?_⟩
    exact Nat.le_trans (verbatimLevels_le a _) ha
  unfold levelsBelowName at h ⊢
  rw [if_neg hname.1, if_neg hmultiply, if_neg hname.2, if_neg hverbatim, greatest_map_le] at h ⊢
  exact List.forall_mem_append.mpr ⟨h, List.forall_mem_singleton.mpr ha⟩

/-- The items of a sequence in the place of the sequence. -/
theorem writtenLevels_apply_sequenceItems_le (hhead : head.writtenLevels ≤ k)
    (he : e.writtenLevels ≤ k) : (apply head e.sequenceItems).writtenLevels ≤ k + 1 := by
  have hk : 1 ≤ k := Nat.le_trans (one_le_writtenLevels e) he
  rw [writtenLevels_apply, Nat.add_comm, Nat.add_le_add_iff_right]
  have hitems : (∀ a ∈ e.sequenceItems, a.writtenLevels ≤ k) ∧
      (e.sequenceItems.length ≠ 2 ∨ ∀ a ∈ e.sequenceItems, a.writtenLevels ≤ k - 1) := by
    unfold sequenceItems
    split
    · exact ⟨nofun, .inl (by decide)⟩
    · next arguments =>
      have hbelow : ∀ a ∈ arguments, a.writtenLevels ≤ k - 1 := by
        have hsequence : "Sequence" ∉ ["Power", "Multiply", "Error", "LatexString", "LatexTokens"] :=
          by decide
        rw [← writtenLevels_function_le_iff hsequence, Nat.sub_add_cancel hk]
        exact he
      exact ⟨fun a ha => Nat.le_trans (hbelow a ha) (Nat.sub_le k 1), .inr hbelow⟩
    · exact ⟨List.forall_mem_singleton.mpr he, .inl (by simp)⟩
  unfold levelsBelow
  split
  · next name =>
    rcases hitems with ⟨hitems, hcount | hbelow⟩
    · exact levelsBelowName_le (.inr hcount) hitems
    · have hle : levelsBelowName name _ _ ≤ k - 1 + 1 := levelsBelowName_le_succ hbelow
      rw [Nat.sub_add_cancel hk] at hle
      exact hle
  · exact Nat.max_le.mpr ⟨hhead, greatest_map_le.mpr hitems.1⟩

theorem Plain.sequenceItems (he : e.Plain) : ∀ a ∈ e.sequenceItems, a.Plain := by
  unfold Expression.sequenceItems
  split
  · nofun
  · cases he with
    | apply _ harguments => exact harguments
  · exact List.forall_mem_singleton.mpr he

end Expression

/-! ### Programs that a limit stops -/

/-- The program succeeds if `p` holds, and otherwise the limit of levels stops it. -/
def Gated {α : Type} (limit : Nat) (p : Prop) (x : Except WriteFault α) : Prop :=
  (p → ∃ a, x = .ok a) ∧ (¬ p → x = .error (.fatal (.depthExceeded limit)))

namespace Gated

variable {α β : Type} {limit : Nat} {p q : Prop} {x : Except WriteFault α}

theorem congr (h : Gated limit p x) (hpq : p ↔ q) : Gated limit q x :=
  ⟨fun hq => h.1 (hpq.mpr hq), fun hq => h.2 fun hp => hq (hpq.mp hp)⟩

theorem ok (a : α) (hp : p) : Gated limit p (Except.ok a : Except WriteFault α) :=
  ⟨fun _ => ⟨a, rfl⟩, fun hnot => absurd hp hnot⟩

theorem bind {f : α → Except WriteFault β} (h : Gated limit p x) (hf : ∀ a, Gated limit q (f a)) :
    Gated limit (p ∧ q) (x >>= f) := by
  by_cases hp : p
  · obtain ⟨a, rfl⟩ := h.1 hp
    exact (hf a).congr ⟨fun hq => ⟨hp, hq⟩, fun hpq => hpq.2⟩
  · rw [h.2 hp]
    exact ⟨fun hpq => absurd hpq.1 hp, fun _ => rfl⟩

/-- What comes after the last program that can be stopped. -/
theorem map {f : α → β} (h : Gated limit p x) : Gated limit p (x >>= fun a => .ok (f a)) :=
  (h.bind (q := True) fun a => .ok (f a) trivial).congr (and_iff_left trivial)

theorem cons {γ : Type} {a : γ} {as : List γ} {p : γ → Prop} {f : α → Except WriteFault β}
    (h : Gated limit (p a) x) (hf : ∀ b, Gated limit (∀ c ∈ as, p c) (f b)) :
    Gated limit (∀ c ∈ a :: as, p c) (x >>= f) :=
  (h.bind hf).congr List.forall_mem_cons.symm

theorem mapM {f : α → Except WriteFault β} {as : List α} {p : α → Prop}
    (hf : ∀ a ∈ as, Gated limit (p a) (f a)) : Gated limit (∀ a ∈ as, p a) (as.mapM f) := by
  induction as with
  | nil =>
    rw [List.mapM_nil]
    exact .ok [] nofun
  | cons a as ih =>
    rw [List.mapM_cons]
    have h := ih fun a ha => hf a (List.mem_cons_of_mem _ ha)
    exact .cons (hf a List.mem_cons_self) fun b => h.map

theorem foldlM {f : β → α → Except WriteFault β} {as : List α} {p : α → Prop}
    (hf : ∀ b, ∀ a ∈ as, Gated limit (p a) (f b a)) (b : β) :
    Gated limit (∀ a ∈ as, p a) (as.foldlM f b) := by
  induction as generalizing b with
  | nil => exact .ok b nofun
  | cons a as ih =>
    rw [List.foldlM_cons]
    have h := ih fun b a ha => hf b a (List.mem_cons_of_mem _ ha)
    exact .cons (hf b a List.mem_cons_self) h

end Gated

/-! ### The shapes that notations share -/

open Expression

/-- Below, the limit stops just the trees of more than `n` levels. -/
def Scribe.Gates (scribe : Scribe) (limit n : Nat) : Prop :=
  ∀ e : Expression, e.Plain → Gated limit (e.writtenLevels ≤ n) (scribe.serialize e)

namespace Scribe.Gates

variable {scribe : Scribe} {limit n : Nat} {e : Expression} {arguments : List Expression}
  (h : scribe.Gates limit n)

include h

theorem wrap (he : e.Plain) (loosest : Precedence) :
    Gated limit (e.writtenLevels ≤ n) (scribe.wrap e loosest) :=
  (h e he).map

theorem list (harguments : ∀ a ∈ arguments, a.Plain) :
    Gated limit (∀ a ∈ arguments, a.writtenLevels ≤ n) (scribe.list arguments) :=
  (Gated.mapM fun a ha => h a (harguments a ha)).map

theorem bracedArguments (start : String) (harguments : ∀ a ∈ arguments, a.Plain) :
    Gated limit (∀ a ∈ arguments, a.writtenLevels ≤ n) (scribe.bracedArguments start arguments) :=
  .foldlM (fun _ a ha => (h a (harguments a ha)).map) start

theorem application (name : String) (harguments : ∀ a ∈ arguments, a.Plain) :
    Gated limit (∀ a ∈ arguments, a.writtenLevels ≤ n) (scribe.application name arguments) := by
  unfold Scribe.application
  split
  · exact h.bracedArguments name harguments
  · exact (h.list harguments).map

theorem chain (m : Notation) (harguments : ∀ a ∈ arguments, a.Plain) :
    Gated limit (∀ a ∈ arguments, a.writtenLevels ≤ n) (Serializer.chain scribe m arguments) := by
  have hmem (a : Expression × Nat) (ha : a ∈ arguments.zipIdx) : a.1 ∈ arguments :=
    List.fst_mem_of_mem_zipIdx ha
  refine (Gated.foldlM (p := fun a => a.1.writtenLevels ≤ n) (fun text a ha => ?_) "").congr ?_
  · exact (h.wrap (harguments a.1 (hmem a ha)) _).map
  · have hmap := List.forall_mem_map (f := Prod.fst) (l := arguments.zipIdx)
      (P := fun a : Expression => a.writtenLevels ≤ n)
    rw [List.zipIdx_map_fst] at hmap
    exact hmap.symm

/-- A notation for one operand must not accept an application without any. -/
theorem byKind {m : Notation} (name : String) (harguments : ∀ a ∈ arguments, a.Plain)
    (hcount : m.kind = .prefixOp ∨ m.kind = .postfixOp → ∃ a, arguments = [a]) :
    Gated limit (∀ a ∈ arguments, a.writtenLevels ≤ n)
      (Serializer.byKind scribe m name arguments) := by
  unfold Serializer.byKind
  split
  · exact h.chain m harguments
  · next hkind =>
    obtain ⟨a, rfl⟩ := hcount (.inl hkind)
    rw [List.forall_mem_singleton]
    exact (h.wrap (harguments a List.mem_cons_self) _).map
  · next hkind =>
    obtain ⟨a, rfl⟩ := hcount (.inr hkind)
    rw [List.forall_mem_singleton]
    exact (h.wrap (harguments a List.mem_cons_self) _).map
  · exact (h.list harguments).map
  · exact h.bracedArguments _ harguments
  · exact (h.list harguments).map
  · exact h.application name harguments
  · exact h.application name harguments

end Scribe.Gates

end TexFormula
