import TexFormula.Dictionary.Standard
import TexFormula.Proofs.AdjoiningTexts
import TexFormula.Proofs.Outcome
import TexFormula.Serializer

/-!
# The tokens of a written node

`nodeKinds` are the tokens that a node should be written with: those of its glyph and of its
arguments, with the braces, parentheses and commas of its kind. `kinds_within_iff` says that it is,
for any dictionary, just if nothing is glued together where the serializer sets two texts side by
side without `Text.join`. That is in front of the glyph of a postfix operator and inside the delimiters
of a matchfix one (`Unglued`).
-/

namespace TexFormula

namespace Serializer

open Text (Glues Sound)

variable (scribe : Scribe) (n : Notation) (text : Expression → String)

/-- The tokens of an operand, in parentheses where it binds more loosely than `loosest`. -/
def operandKinds (e : Expression) (loosest : Precedence) : List Token.Kind :=
  if scribe.precedence e < loosest then
    .punct '(' :: (Text.kinds (text e).toList ++ [.punct ')'])
  else
    Text.kinds (text e).toList

/-- The tokens of arguments with commas between them. -/
def listKinds (arguments : List Expression) : List Token.Kind :=
  [.punct ','].intercalate (arguments.map fun e => Text.kinds (text e).toList)

/-- The tokens of operands from the place `index` on, each behind the glyph of their operator but for
the first one. -/
def chainKinds (last index : Nat) (operands : List Expression) : List Token.Kind :=
  (operands.zipIdx index).flatMap fun operand =>
    (if operand.2 = 0 then [] else Text.kinds n.glyph.toList) ++
      operandKinds scribe text operand.1 (operandPrecedence n operand.2 last)

/-- The tokens of a node. A prefix or postfix operator has its first argument as the operand. -/
def nodeKinds (arguments : List Expression) : List Token.Kind :=
  match n.kind with
  | .infixOp _ => chainKinds scribe n text (arguments.length - 1) 0 arguments
  | .prefixOp =>
    Text.kinds n.glyph.toList ++
      arguments.head?.elim [] (operandKinds scribe text · n.precedence.tighter)
  | .postfixOp =>
    arguments.head?.elim [] (operandKinds scribe text · n.precedence) ++ Text.kinds n.glyph.toList
  | .matchfix close =>
    Text.kinds n.glyph.toList ++ listKinds text arguments ++ Text.kinds close.toList
  | .command _ =>
    Text.kinds n.glyph.toList ++
      arguments.flatMap fun e => .groupOpen :: (Text.kinds (text e).toList ++ [.groupClose])
  | .function =>
    Text.kinds n.glyph.toList ++ .punct '(' :: (listKinds text arguments ++ [.punct ')'])
  | .symbol => []
  | .custom => []

/-- Nothing is glued together where texts are set side by side as they are. -/
def Unglued (arguments : List Expression) : Prop :=
  match n.kind with
  | .postfixOp => ∀ e ∈ arguments.head?, scribe.precedence e < n.precedence ∨
      ¬ Glues (text e).toList n.glyph.toList
  | .matchfix close =>
    let items := String.intercalate ", " (arguments.map text)
    ¬ Glues n.glyph.toList (items ++ close).toList ∧ ¬ Glues (n.glyph ++ items).toList close.toList
  | _ => True

/-- The arguments are written as `text` says, and these texts and those of the notation hold no
comment, no stray backslash and no digits. -/
structure Pieces (arguments : List Expression) : Prop where
  written : ∀ e ∈ arguments, scribe.serialize e = .ok (text e)
  sound : ∀ e ∈ arguments, Sound (text e).toList
  glyph : Sound n.glyph.toList
  close : ∀ close, n.kind = .matchfix close → Sound close.toList
  operand : n.kind = .prefixOp ∨ n.kind = .postfixOp → arguments ≠ []

variable {scribe n text} {e : Expression} {arguments : List Expression}

/-! ### Operands and lists -/

theorem exists_wrap (he : scribe.serialize e = .ok (text e)) (hsound : Sound (text e).toList)
    (loosest : Precedence) : ∃ t, scribe.wrap e loosest = .ok t ∧
      Lexes t (operandKinds scribe text e loosest) ∧
      t = if scribe.precedence e < loosest then Text.parenthesized (text e) else text e := by
  have htext := Lexes.of_sound hsound
  refine ⟨_, by rw [Scribe.wrap, he]; rfl, ?_, rfl⟩
  rw [operandKinds]
  split_ifs
  · exact htext.parenthesized
  · exact htext

theorem list_eq_of_forall₂ {texts : List String}
    (h : List.Forall₂ (fun e t => scribe.serialize e = .ok t) arguments texts) :
    scribe.list arguments = .ok (String.intercalate ", " texts) := by
  rw [Scribe.list, mapM_eq_ok.mpr h]
  rfl

theorem list_eq (h : ∀ e ∈ arguments, scribe.serialize e = .ok (text e)) :
    scribe.list arguments = .ok (String.intercalate ", " (arguments.map text)) :=
  list_eq_of_forall₂ (List.forall₂_map_right_iff.mpr (List.forall₂_same.mpr h))

theorem lexes_list (h : ∀ e ∈ arguments, Sound (text e).toList) :
    Lexes (String.intercalate ", " (arguments.map text)) (listKinds text arguments) := by
  have htexts : ∀ t ∈ arguments.map text, Sound t.toList := by
    simpa using h
  have hlexes := Lexes.intercalate htexts
  rwa [List.map_map] at hlexes

theorem exists_bracedArguments {written : String} {ks : List Token.Kind} (hwritten : Lexes written ks)
    (h : ∀ e ∈ arguments, scribe.serialize e = .ok (text e))
    (hsound : ∀ e ∈ arguments, Sound (text e).toList) :
    ∃ t, scribe.bracedArguments written arguments = .ok t ∧
      Lexes t (ks ++ arguments.flatMap fun e =>
        .groupOpen :: (Text.kinds (text e).toList ++ [.groupClose])) := by
  induction arguments generalizing written ks with
  | nil => exact ⟨written, rfl, by simpa using hwritten⟩
  | cons e arguments ih =>
    obtain ⟨he, harguments⟩ := List.forall_mem_cons.mp h
    obtain ⟨hes, hrest⟩ := List.forall_mem_cons.mp hsound
    obtain ⟨t, ht, hlexes⟩ := ih (hwritten.appendBraced (.of_sound hes)) harguments hrest
    refine ⟨t, ?_, ?_⟩
    · rw [Scribe.bracedArguments, List.foldlM_cons, he]
      exact ht
    · rwa [List.append_assoc] at hlexes

/-! ### Chains -/

theorem exists_addOperand {written : String} {ks : List Token.Kind} (hwritten : Lexes written ks)
    (hglyph : Sound n.glyph.toList) (he : scribe.serialize e = .ok (text e))
    (hsound : Sound (text e).toList) (last index : Nat) :
    ∃ t, addOperand scribe n last written (e, index) = .ok t ∧
      Lexes t (ks ++ ((if index = 0 then [] else Text.kinds n.glyph.toList) ++
        operandKinds scribe text e (operandPrecedence n index last))) := by
  obtain ⟨t, ht, hlexes, -⟩ := exists_wrap he hsound (operandPrecedence n index last)
  have hstart : Lexes (if index = 0 then written else Text.join written n.glyph)
      (ks ++ if index = 0 then [] else Text.kinds n.glyph.toList) := by
    split_ifs
    · rwa [List.append_nil]
    · exact hwritten.join (.of_sound hglyph)
  refine ⟨_, by rw [addOperand, ht]; rfl, ?_⟩
  rw [← List.append_assoc]
  exact hstart.join hlexes

theorem exists_foldlM_addOperand {written : String} {ks : List Token.Kind}
    (hwritten : Lexes written ks) (hglyph : Sound n.glyph.toList)
    (h : ∀ e ∈ arguments, scribe.serialize e = .ok (text e))
    (hsound : ∀ e ∈ arguments, Sound (text e).toList) (last index : Nat) :
    ∃ t, (arguments.zipIdx index).foldlM (addOperand scribe n last) written = .ok t ∧
      Lexes t (ks ++ chainKinds scribe n text last index arguments) := by
  induction arguments generalizing written ks index with
  | nil => exact ⟨written, rfl, by simpa [chainKinds] using hwritten⟩
  | cons e arguments ih =>
    obtain ⟨he, harguments⟩ := List.forall_mem_cons.mp h
    obtain ⟨hes, hrest⟩ := List.forall_mem_cons.mp hsound
    obtain ⟨t, ht, hlexes⟩ := exists_addOperand hwritten hglyph he hes last index
    obtain ⟨t', ht', hlexes'⟩ := ih hlexes harguments hrest (index + 1)
    refine ⟨t', ?_, ?_⟩
    · rw [List.zipIdx_cons, List.foldlM_cons, ht]
      exact ht'
    · rw [chainKinds, List.zipIdx_cons, List.flatMap_cons]
      rwa [List.append_assoc] at hlexes'

/-! ### Nodes -/

/-- A node by its kind: it is written, and with the tokens of its pieces unless two are glued
together. -/
theorem exists_byKind (h : Pieces scribe n text arguments) (hsymbol : n.kind ≠ .symbol)
    (hcustom : n.kind ≠ .custom) (name : String) :
    ∃ t, byKind scribe n name arguments = .ok t ∧
      (Text.kinds t.toList = nodeKinds scribe n text arguments ↔ Unglued scribe n text arguments) := by
  have hglyph := Lexes.of_sound h.glyph
  have hlist := list_eq h.written
  have hitems := lexes_list h.sound
  rw [byKind.eq_def, nodeKinds, Unglued]
  cases hkind : n.kind with
  | infixOp variadic =>
    obtain ⟨t, ht, hlexes⟩ := exists_foldlM_addOperand .empty h.glyph h.written h.sound
      (arguments.length - 1) 0
    exact ⟨t, ht, iff_true_intro hlexes.kinds_eq⟩
  | prefixOp =>
    obtain ⟨e, others, rfl⟩ := List.exists_cons_of_ne_nil (h.operand (.inl hkind))
    obtain ⟨t, ht, hlexes, -⟩ := exists_wrap (h.written e List.mem_cons_self)
      (h.sound e List.mem_cons_self) n.precedence.tighter
    exact ⟨Text.join n.glyph t, by simp only [ht]; rfl, iff_true_intro (hglyph.join hlexes).kinds_eq⟩
  | postfixOp =>
    obtain ⟨e, others, rfl⟩ := List.exists_cons_of_ne_nil (h.operand (.inr hkind))
    obtain ⟨t, ht, hlexes, htext⟩ := exists_wrap (h.written e List.mem_cons_self)
      (h.sound e List.mem_cons_self) n.precedence
    refine ⟨t ++ n.glyph, by simp only [ht]; rfl, (hlexes.append_iff hglyph).trans ?_⟩
    simp only [List.head?_cons, Option.mem_some_iff, forall_eq', htext]
    split_ifs with hloose
    · exact iff_of_true (Text.not_glues_parenthesized _ _) (.inl hloose)
    · exact (or_iff_right hloose).symm
  | matchfix close =>
    have hclose := Lexes.of_sound (h.close close hkind)
    exact ⟨_, by simp only [hlist]; rfl, hglyph.append_append_iff hitems hclose⟩
  | command count =>
    obtain ⟨t, ht, hlexes⟩ := exists_bracedArguments hglyph h.written h.sound
    exact ⟨t, ht, iff_true_intro hlexes.kinds_eq⟩
  | function =>
    exact ⟨_, by simp only [hlist]; rfl, iff_true_intro (hglyph.appendParenthesized hitems).kinds_eq⟩
  | symbol => exact absurd hkind hsymbol
  | custom => exact absurd hkind hcustom

/-- A node is written, and with the tokens of its pieces just if nothing is glued together. -/
theorem kinds_within_iff {s : Serializer} {levels : Nat} {name : String}
    (hlookup : s.dictionary.lookup name = some n) (hwriter : n.writer = none)
    (harity : n.arity.accepts arguments.length = true) (hsymbol : n.kind ≠ .symbol)
    (hcustom : n.kind ≠ .custom) (h : Pieces (s.scribe (s.within levels)) n text arguments) :
    ∃ t, s.within (levels + 1) (.apply (.symbol name) arguments) = .ok t ∧
      (Text.kinds t.toList = nodeKinds (s.scribe (s.within levels)) n text arguments ↔
        Unglued (s.scribe (s.within levels)) n text arguments) := by
  obtain ⟨t, ht, hkinds⟩ := exists_byKind h hsymbol hcustom name
  refine ⟨t, ?_, hkinds⟩
  rw [within, node, named, hlookup]
  simp only [hwriter]
  rw [if_pos harity]
  exact ht

end Serializer

/-- The name of a symbol. -/
def Expression.symbolText : Expression → String
  | .symbol name => name
  | _ => ""

theorem lexes_x : Lexes "x" [.letter 'x'] :=
  .single rfl rfl nofun trivial

/-- A conjunction of two letters. -/
theorem kinds_within_and :
    ∃ n, Dictionary.standard.lookup "And" = some n ∧ n.writer = none ∧
      n.arity.accepts 2 = true ∧ n.kind ≠ .symbol ∧ n.kind ≠ .custom ∧
      ∃ t, (Serializer.mk .standard {}).within 2 (.function "And" [.symbol "x", .symbol "x"]) = .ok t ∧
        Text.kinds t.toList = [.letter 'x', .command "land", .letter 'x'] := by
  have hlookup : Dictionary.standard.lookup "And" =
      some (Notation.ofInfix "And" "\\land" .conjunction).variadic := rfl
  have hglyph : Lexes "\\land" [.command "land"] := .single rfl rfl nofun trivial
  have hpieces : Serializer.Pieces ((Serializer.mk .standard {}).scribe
      ((Serializer.mk .standard {}).within 1))
      (Notation.ofInfix "And" "\\land" .conjunction).variadic Expression.symbolText
      [.symbol "x", .symbol "x"] :=
    { written := by simp [Expression.symbolText]; rfl
      sound := by simpa [Expression.symbolText] using lexes_x.text_sound
      glyph := hglyph.text_sound
      close := nofun
      operand := nofun }
  obtain ⟨t, ht, hkinds⟩ := Serializer.kinds_within_iff hlookup rfl rfl (by decide) (by decide) hpieces
  refine ⟨_, hlookup, rfl, rfl, by decide, by decide, t, ht, (hkinds.mpr trivial).trans ?_⟩
  show [] ++ Text.kinds "x".toList ++ (Text.kinds "\\land".toList ++ Text.kinds "x".toList ++ []) = _
  rw [lexes_x.kinds_eq, hglyph.kinds_eq]
  rfl

/-! ### A control word as a delimiter -/

/-- A norm between two control words. -/
def Notation.norm : Notation :=
  ofMatchfix "Norm" "\\lVert" "\\rVert"

/-- The delimiter and the letter behind it are written as one control word. -/
theorem not_kinds_within_norm :
    ∃ d n, Dictionary.standard.withOverrides [.norm] = .ok d ∧ d.lookup "Norm" = some n ∧
      n.writer = none ∧ n.arity.accepts 1 = true ∧
      (Serializer.mk d {}).run (.function "Norm" [.symbol "x"]) = .ok ⟨"\\lVertx\\rVert", []⟩ ∧
      Text.kinds "\\lVertx\\rVert".toList = [.command "lVertx", .command "rVert"] ∧
      Serializer.nodeKinds ((Serializer.mk d {}).scribe (Serializer.mk d {}).serialize) n
        Expression.symbolText [.symbol "x"] = [.command "lVert", .letter 'x', .command "rVert"] := by
  have hopen : Lexes "\\lVert" [.command "lVert"] := .single rfl rfl nofun trivial
  have hclose : Lexes "\\rVert" [.command "rVert"] := .single rfl rfl nofun trivial
  refine ⟨⟨Dictionary.standardEntries ++ [.norm], []⟩, .norm, rfl, rfl, rfl, rfl, ?_, ?_, ?_⟩
  · rfl
  · have hread : Lexeme.read '\\' "lVertx\\rVert".toList =
        ⟨.command "lVertx", "\\lVertx".toList, "\\rVert".toList⟩ := rfl
    show Text.kinds ('\\' :: "lVertx\\rVert".toList) = _
    rw [Text.kinds_cons, hread]
    exact congrArg _ hclose.kinds_eq
  · show Text.kinds "\\lVert".toList ++ ([Text.kinds "x".toList].flatten) ++
      Text.kinds "\\rVert".toList = _
    rw [List.flatten_singleton, hopen.kinds_eq, lexes_x.kinds_eq, hclose.kinds_eq]
    rfl

end TexFormula
