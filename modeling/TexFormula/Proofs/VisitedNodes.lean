import Mathlib.Tactic.Choose
import TexFormula.Proofs.Outcome
import TexFormula.Proofs.WriterLevels

/-!
# The nodes that are written below a node

Before any text is made, an expression says which nodes are written below it by the standard
notations, and in which order (`Expression.visited`). Not all of them are parts of it: a reciprocal
stands under the bar as a new power. The text of the node is put together from their texts in a way
that depends neither on what writes them nor on the limit of levels (`Assembles`,
`Serializer.node_eq_map_mapM`), and each of them takes fewer levels (`writtenLevels_lt_of_mem_visited`).
-/

namespace TexFormula

namespace Expression

/-- What a power writes: a reciprocal the power with the opposite exponent, a root and a quotient of
words the base alone. -/
def visitedByPower : List Expression → List Expression
  | [base, exponent] =>
    match Product.negativeNumber? exponent with
    | some n =>
      if n.neg.toInt? = some 1 then [base] else [.function "Power" [base, .number n.neg]]
    | none => if (Writers.rationalParts? exponent).isSome then [base] else [base, exponent]
  | arguments => arguments

/-- The index of a root stands in front of the radicand. -/
def visitedByRoot : List Expression → List Expression
  | [radicand, index] => [index, radicand]
  | arguments => arguments

def visitedByError : List Expression → List Expression
  | .apply (.symbol "LatexString") [.text _] :: _ => []
  | .text _ :: _ => []
  | first :: _ => [first]
  | [] => []

/-- Raw LaTeX is copied. -/
def visitedVerbatim : Expression → List Expression
  | .text _ => []
  | e => [e]

def visitedByName (name : String) (arguments : List Expression) : List Expression :=
  if name = "Power" then visitedByPower arguments
  else if name = "Multiply" then
    (Product.ofFactors arguments).numerator ++ (Product.ofFactors arguments).denominator
  else if name = "Root" then visitedByRoot arguments
  else if name = "Error" then visitedByError arguments
  else if name = "LatexString" ∨ name = "LatexTokens" then arguments.flatMap visitedVerbatim
  else arguments

/-- The nodes that the standard notations write below a node, in this order. -/
def visited : Expression → List Expression
  | .apply (.symbol name) arguments => visitedByName name arguments
  | .apply head arguments => head :: arguments
  | _ => []

end Expression

/-- The same notations and options, with other means to write the nodes below and another limit. -/
def Scribe.over (scribe : Scribe) (below : Expression → Except WriteFault String) (limit : Nat) :
    Scribe :=
  { scribe with serialize := below, options := { scribe.options with maxDepth := limit } }

/-! ### Programs that write a list of nodes -/

/-- The program writes the nodes one after the other, whatever their texts are, and puts the texts
together in the same way by all means of writing the nodes and with all limits of levels. -/
def Assembles {α : Type} (scribe : Scribe) (nodes : List Expression)
    (program : Scribe → Except WriteFault α) : Prop :=
  ∃ assemble : List String → α, ∀ below limit,
    program (scribe.over below limit) = (nodes.mapM below).map assemble

namespace Assembles

variable {α β γ : Type} {scribe : Scribe} {e : Expression} {es es' : List Expression}
  {program : Scribe → Except WriteFault α}

theorem congr {program' : Scribe → Except WriteFault α} (h : Assembles scribe es program)
    (heq : ∀ below limit, program' (scribe.over below limit) = program (scribe.over below limit)) :
    Assembles scribe es program' := by
  obtain ⟨assemble, h⟩ := h
  exact ⟨assemble, fun below limit => (heq below limit).trans (h below limit)⟩

theorem ok {a : Scribe → α} (ha : ∀ below limit, a (scribe.over below limit) = a scribe) :
    Assembles scribe [] fun t => .ok (a t) :=
  ⟨fun _ => a scribe, fun below limit => congrArg Except.ok (ha below limit)⟩

theorem write (e : Expression) : Assembles scribe [e] fun t => t.serialize e := by
  refine ⟨fun texts => texts.headD "", fun below limit => ?_⟩
  show below e = _
  rw [List.mapM_cons, List.mapM_nil]
  cases below e <;> rfl

theorem bind {next : Scribe → α → Except WriteFault β} (h : Assembles scribe es program)
    (hnext : ∀ a, Assembles scribe es' fun t => next t a) :
    Assembles scribe (es ++ es') fun t => program t >>= next t := by
  obtain ⟨first, hfirst⟩ := h
  choose second hsecond using hnext
  refine ⟨fun texts => second (first (texts.take es.length)) (texts.drop es.length),
    fun below limit => ?_⟩
  dsimp only at hsecond ⊢
  rw [hfirst, List.mapM_append]
  cases htexts : es.mapM below with
  | error fault => rfl
  | ok texts =>
    show next (scribe.over below limit) (first texts) = _
    rw [hsecond]
    cases hrest : es'.mapM below with
    | error fault => rfl
    | ok rest =>
      have hlength : es.length = texts.length := (mapM_eq_ok.mp htexts).length_eq
      show Except.ok (second (first texts) rest) = .ok (second
        (first ((texts ++ rest).take es.length)) ((texts ++ rest).drop es.length))
      rw [hlength, List.take_left, List.drop_left]

theorem cons {next : Scribe → α → Except WriteFault β} (h : Assembles scribe [e] program)
    (hnext : ∀ a, Assembles scribe es fun t => next t a) :
    Assembles scribe (e :: es) fun t => program t >>= next t :=
  h.bind hnext

/-- What comes after the last node. -/
theorem map {f : Scribe → α → β} (h : Assembles scribe es program)
    (hf : ∀ below limit, f (scribe.over below limit) = f scribe) :
    Assembles scribe es fun t => program t >>= fun a => .ok (f t a) := by
  have hbind := h.bind fun a => ok (a := fun t => f t a) fun below limit =>
    congrFun (hf below limit) a
  rw [List.append_nil] at hbind
  exact hbind

theorem foldlM {step : Scribe → β → γ → Except WriteFault β} {nodes : γ → List Expression}
    (as : List γ) (hstep : ∀ b a, Assembles scribe (nodes a) fun t => step t b a) (b : β) :
    Assembles scribe (as.flatMap nodes) fun t => as.foldlM (step t) b := by
  induction as generalizing b with
  | nil => exact ok (a := fun _ => b) fun _ _ => rfl
  | cons a as ih =>
    simp only [List.foldlM_cons, List.flatMap_cons]
    exact (hstep b a).bind ih

/-- A fold that writes one node at every step. -/
theorem foldlM_map {step : Scribe → β → γ → Except WriteFault β} (node : γ → Expression)
    (as : List γ) (hstep : ∀ b a, Assembles scribe [node a] fun t => step t b a) (b : β) :
    Assembles scribe (as.map node) fun t => as.foldlM (step t) b := by
  rw [List.map_eq_flatMap]
  exact foldlM as hstep b

end Assembles

/-! ### The shapes that notations share -/

namespace Scribe

variable (scribe : Scribe)

theorem assembles_wrap (e : Expression) (loosest : Precedence) :
    Assembles scribe [e] fun t => t.wrap e loosest :=
  (Assembles.write e).map fun _ _ => rfl

theorem assembles_list (es : List Expression) : Assembles scribe es fun t => t.list es := by
  refine ⟨String.intercalate ", ", fun below limit => ?_⟩
  show es.mapM below >>= _ = _
  cases es.mapM below <;> rfl

theorem assembles_bracedArguments (start : String) (es : List Expression) :
    Assembles scribe es fun t => t.bracedArguments start es := by
  have h : Assembles scribe _ _ := .foldlM_map id es
    (fun text e => (Assembles.write e).map (f := fun _ written => text ++ Text.braced written)
      fun _ _ => rfl) start
  rw [List.map_id] at h
  exact h

theorem assembles_application (name : String) (es : List Expression) :
    Assembles scribe es fun t => t.application name es := by
  unfold application
  split
  · exact scribe.assembles_bracedArguments name es
  · exact (scribe.assembles_list es).map fun _ _ => rfl

theorem assembles_chain (n : Notation) (es : List Expression) :
    Assembles scribe es fun t => Serializer.chain t n es := by
  have h : Assembles scribe _ fun t =>
      es.zipIdx.foldlM (Serializer.addOperand t n (es.length - 1)) "" :=
    .foldlM_map Prod.fst es.zipIdx
      (fun _ operand => (scribe.assembles_wrap operand.1 _).map fun _ _ => rfl) ""
  rw [List.zipIdx_map_fst] at h
  exact h

/-- A notation for one operand must not accept an application to more or fewer. -/
theorem assembles_byKind {n : Notation} (name : String) {es : List Expression}
    (hcount : n.kind = .prefixOp ∨ n.kind = .postfixOp → ∃ e, es = [e]) :
    Assembles scribe es fun t => Serializer.byKind t n name es := by
  unfold Serializer.byKind
  cases hkind : n.kind with
  | infixOp _ => exact scribe.assembles_chain n es
  | prefixOp =>
    obtain ⟨e, rfl⟩ := hcount (.inl hkind)
    exact (scribe.assembles_wrap e _).map fun _ _ => rfl
  | postfixOp =>
    obtain ⟨e, rfl⟩ := hcount (.inr hkind)
    exact (scribe.assembles_wrap e _).map fun _ _ => rfl
  | matchfix _ => exact (scribe.assembles_list es).map fun _ _ => rfl
  | command _ => exact scribe.assembles_bracedArguments _ es
  | function => exact (scribe.assembles_list es).map fun _ _ => rfl
  | symbol => exact scribe.assembles_application name es
  | custom => exact scribe.assembles_application name es

end Scribe

/-! ### Writing hooks -/

namespace Writers

open Expression

variable (scribe : Scribe) (es : List Expression)

theorem assembles_sum : Assembles scribe es fun t => sum t es := by
  cases es with
  | nil => exact .ok fun _ _ => rfl
  | cons first rest =>
    have hterm (text : String) (term : Expression) :
        Assembles scribe [id term] fun t => addTerm t text term := by
      unfold addTerm
      split
      · exact (Assembles.write term).map fun _ _ => rfl
      · exact (scribe.assembles_wrap term _).map fun _ _ => rfl
    have hrest := Assembles.foldlM_map _ rest hterm
    rw [List.map_id] at hrest
    exact (scribe.assembles_wrap first _).cons hrest

theorem assembles_moreFactors (previous : Expression) (written : String) :
    Assembles scribe es fun t => moreFactors t previous written es := by
  induction es generalizing previous written with
  | nil => exact .ok fun _ _ => rfl
  | cons factor rest ih =>
    refine (scribe.assembles_wrap factor _).cons fun text => ?_
    let glyph := if needsGlyph previous factor text then scribe.options.multiply
      else scribe.options.invisibleMultiply
    have hrest := ih factor (Text.join (Text.join written glyph) text)
    exact hrest.congr fun _ _ => rfl

theorem assembles_factors : Assembles scribe es fun t => factors t es := by
  cases es with
  | nil => exact .ok fun _ _ => rfl
  | cons first rest =>
    exact (scribe.assembles_wrap first _).cons (assembles_moreFactors scribe rest first)

theorem assembles_product :
    Assembles scribe ((Product.ofFactors es).numerator ++ (Product.ofFactors es).denominator)
      fun t => product t es := by
  cases es with
  | nil => exact .ok fun _ _ => rfl
  | cons first rest =>
    refine (assembles_factors scribe _).bind fun top => ?_
    split
    · next hnone =>
      rw [List.isEmpty_iff.mp hnone]
      exact .ok fun _ _ => rfl
    · exact (assembles_factors scribe _).map fun _ _ => rfl

theorem assembles_scriptBase (base : Expression) :
    Assembles scribe [base] fun t => scriptBase t base :=
  (scribe.assembles_wrap base _).map fun _ _ => rfl

theorem assembles_power : Assembles scribe (visitedByPower es) fun t => power t es := by
  match es with
  | [] | [_] | _ :: _ :: _ :: _ => exact scribe.assembles_application "Power" _
  | [base, exponent] =>
    dsimp only [power, visitedByPower]
    cases Product.negativeNumber? exponent with
    | some n =>
      dsimp only
      split
      · exact (Assembles.write base).map fun _ _ => rfl
      · exact (Assembles.write _).map fun _ _ => rfl
    | none =>
      cases rationalParts? exponent with
      | some parts =>
        dsimp only
        rw [Option.isSome_some, if_pos rfl]
        split
        · exact (Assembles.write base).map fun _ _ => rfl
        · exact (Assembles.write base).map fun _ _ => rfl
        · exact (assembles_scriptBase scribe base).map fun _ _ => rfl
        · next hparts => cases hparts
      | none =>
        exact (assembles_scriptBase scribe base).cons fun _ =>
          (Assembles.write exponent).map fun _ _ => rfl

theorem assembles_subscript : Assembles scribe es fun t => subscript t es := by
  match es with
  | [] | [_] | _ :: _ :: _ :: _ => exact scribe.assembles_application "Subscript" _
  | [base, index] =>
    exact (assembles_scriptBase scribe base).cons fun _ =>
      (Assembles.write index).map fun _ _ => rfl

theorem assembles_root : Assembles scribe (visitedByRoot es) fun t => root t es := by
  match es with
  | [] | [_] | _ :: _ :: _ :: _ => exact scribe.assembles_application "Root" _
  | [radicand, index] =>
    exact (Assembles.write index).cons fun _ => (Assembles.write radicand).map fun _ _ => rfl

theorem assembles_error : Assembles scribe (visitedByError es) fun t => error t es := by
  unfold visitedByError
  split
  · exact .ok fun _ _ => rfl
  · exact .ok fun _ _ => rfl
  · next first rest hstring htext =>
    have herror (t : Scribe) : error t (first :: rest) =
        t.serialize first >>= fun text => .ok ("\\error" ++ Text.braced text) := by
      rw [error]
      · rfl
      · exact hstring
      · exact htext
    simp only [herror]
    exact (Assembles.write first).map fun _ _ => rfl
  · exact .ok fun _ _ => rfl

theorem assembles_verbatim (spell : String → String) :
    Assembles scribe (es.flatMap visitedVerbatim) fun t => verbatim spell t es := by
  refine .foldlM es (fun written argument => ?_) ""
  cases argument with
  | text content => exact .ok fun _ _ => rfl
  | _ => exact (Assembles.write _).map fun _ _ => rfl

end Writers

/-! ### Nodes -/

namespace Serializer

open Expression

/-- The same serializer with another limit of levels. -/
def limited (s : Serializer) (limit : Nat) : Serializer :=
  { s with options := { s.options with maxDepth := limit } }

variable {s : Serializer} (hd : s.dictionary = .standard)

include hd

theorem assembles_named (scribe : Scribe) (name : String) (arguments : List Expression) :
    Assembles scribe (visitedByName name arguments) fun t => s.named t name arguments := by
  by_cases hname : name ∈ Dictionary.hookedNames
  · have hook {name : String} (writer : WritingHook) {nodes : List Expression}
        (hwriter : (Dictionary.standard.lookup name).bind (·.writer) = some writer)
        (hnodes : visitedByName name arguments = nodes)
        (h : Assembles scribe nodes fun t => writer t arguments) :
        Assembles scribe (visitedByName name arguments) fun t => s.named t name arguments := by
      have heq (t : Scribe) : s.named t name arguments = writer t arguments :=
        named_of_writer (by rw [hd]; exact hwriter)
      simp only [heq, hnodes]
      exact h
    simp only [Dictionary.hookedNames, List.mem_cons, List.not_mem_nil, or_false] at hname
    rcases hname with rfl | rfl | rfl | rfl | rfl | rfl | rfl | rfl
    · exact hook Writers.sum rfl (by simp [visitedByName]) (Writers.assembles_sum scribe _)
    · exact hook Writers.product rfl (by simp [visitedByName]) (Writers.assembles_product scribe _)
    · exact hook Writers.power rfl (by simp [visitedByName]) (Writers.assembles_power scribe _)
    · exact hook Writers.subscript rfl (by simp [visitedByName])
        (Writers.assembles_subscript scribe _)
    · exact hook Writers.root rfl (by simp [visitedByName]) (Writers.assembles_root scribe _)
    · exact hook Writers.error rfl (by simp [visitedByName]) (Writers.assembles_error scribe _)
    · exact hook Writers.latexString rfl (by simp [visitedByName])
        (Writers.assembles_verbatim scribe _ id)
    · exact hook Writers.latexTokens rfl (by simp [visitedByName])
        (Writers.assembles_verbatim scribe _ Writers.spellToken)
  · have hvisited : visitedByName name arguments = arguments := by
      simp only [Dictionary.hookedNames, List.mem_cons, List.not_mem_nil, or_false, not_or] at hname
      obtain ⟨-, hmultiply, hpower, -, hroot, herror, hstring, htokens⟩ := hname
      unfold visitedByName
      rw [if_neg hpower, if_neg hmultiply, if_neg hroot, if_neg herror,
        if_neg (not_or.mpr ⟨hstring, htokens⟩)]
    rw [hvisited]
    unfold named
    rw [hd]
    cases hlookup : Dictionary.standard.lookup name with
    | none => exact scribe.assembles_application name arguments
    | some n =>
      dsimp only
      rw [Dictionary.writer_eq_none_of_lookup hlookup hname]
      dsimp only
      split
      · next haccepts =>
        exact scribe.assembles_byKind name fun hkind =>
          Dictionary.arguments_eq_singleton hlookup hkind haccepts
      · exact scribe.assembles_application name arguments

/-- By the standard notations the text of any node but a dictionary is put together from the texts of
the nodes that are written below it. -/
theorem node_eq_map_mapM {e : Expression} (he : ∀ entries, e ≠ .dictionary entries) :
    ∃ assemble : List String → String, ∀ below limit,
      (s.limited limit).node below e = (e.visited.mapM below).map assemble := by
  cases e with
  | number value => exact ⟨fun _ => s.options.number.write value, fun _ _ => rfl⟩
  | symbol name => exact ⟨fun _ => s.symbol name, fun _ _ => rfl⟩
  | text content =>
    exact ⟨fun _ => s.options.textCommand ++ Text.braced (Text.escape content), fun _ _ => rfl⟩
  | missing => exact ⟨fun _ => "\\placeholder", fun _ _ => rfl⟩
  | dictionary entries => exact absurd rfl (he entries)
  | apply head arguments =>
    have hcompound : Assembles s.topScribe (head :: arguments) fun t => do
        let text ← t.wrap head .atomic
        let items ← t.list arguments
        return text ++ Text.parenthesized items :=
      (s.topScribe.assembles_wrap head _).cons fun text =>
        (s.topScribe.assembles_list arguments).map fun _ _ => rfl
    cases head with
    | symbol name => exact assembles_named hd s.topScribe name arguments
    | _ => exact hcompound

end Serializer

/-! ### Levels of the nodes below -/

namespace Expression

variable {name : String} {arguments : List Expression} {e v : Expression} {k : Nat}

theorem writtenLevels_le_of_mem_visitedByPower (hv : v ∈ visitedByPower arguments) :
    v.writtenLevels ≤ levelsBelowName "Power" arguments (arguments.map writtenLevels) := by
  unfold visitedByPower at hv
  split at hv
  · next base exponent =>
    show _ ≤ levelsBelowPower exponent base.writtenLevels exponent.writtenLevels
    unfold levelsBelowPower
    cases hn : Product.negativeNumber? exponent with
    | some n =>
      obtain ⟨-, hnegative⟩ := Product.eq_of_negativeNumber? hn
      rw [hn] at hv
      dsimp only at hv ⊢
      split at hv
      · next hone =>
        refine Nat.le_of_eq ?_
        rw [if_pos hone, List.mem_singleton.mp hv]
      · next hone =>
        refine Nat.le_of_eq ?_
        rw [if_neg hone, List.mem_singleton.mp hv, Product.levels_power_neg hnegative]
    | none =>
      rw [hn] at hv
      dsimp only at hv ⊢
      split at hv
      · next hparts =>
        refine Nat.le_of_eq ?_
        rw [if_pos hparts, List.mem_singleton.mp hv]
      · next hparts =>
        rw [if_neg hparts]
        rcases List.mem_pair.mp hv with rfl | rfl
        · exact Nat.le_max_left _ _
        · exact Nat.le_max_right _ _
  · next hcount =>
    have hlevels : levelsBelowName "Power" arguments (arguments.map writtenLevels) =
        greatest (arguments.map writtenLevels) := by
      unfold levelsBelowName
      rw [if_pos rfl]
      split
      · next base exponent _ _ _ => exact absurd rfl (hcount base exponent)
      · rfl
    rw [hlevels]
    exact greatest_map_le.mp (Nat.le_refl _) v hv

theorem mem_of_mem_visitedByRoot (hv : v ∈ visitedByRoot arguments) : v ∈ arguments := by
  unfold visitedByRoot at hv
  split at hv
  · rcases List.mem_pair.mp hv with rfl | rfl
    · exact List.mem_cons_of_mem _ List.mem_cons_self
    · exact List.mem_cons_self
  · exact hv

theorem writtenLevels_le_of_mem_visitedByError (hv : v ∈ visitedByError arguments) :
    v.writtenLevels ≤ levelsBelowError arguments (arguments.map writtenLevels) := by
  unfold visitedByError at hv
  split at hv
  · cases hv
  · cases hv
  · next first rest hstring htext =>
    refine Nat.le_of_eq ?_
    rw [List.mem_singleton.mp hv, List.map_cons, levelsBelowError]
    · exact hstring
    · exact htext
  · cases hv

theorem mem_visitedVerbatim (hv : v ∈ visitedVerbatim e) :
    v = e ∧ verbatimLevels e e.writtenLevels = e.writtenLevels := by
  cases e with
  | text content => cases hv
  | _ => exact ⟨List.mem_singleton.mp hv, rfl⟩

theorem writtenLevels_le_of_mem_visitedByName (hv : v ∈ visitedByName name arguments) :
    v.writtenLevels ≤ levelsBelowName name arguments (arguments.map writtenLevels) := by
  by_cases hpower : name = "Power"
  · subst hpower
    exact writtenLevels_le_of_mem_visitedByPower hv
  by_cases hmultiply : name = "Multiply"
  · subst hmultiply
    have hparts := Product.forall_parts_le.mpr (levelsBelowName_multiply.mp
      (Nat.le_refl (levelsBelowName "Multiply" arguments (arguments.map writtenLevels))))
    rcases List.mem_append.mp hv with htop | hbottom
    · exact hparts.1 v htop
    · exact hparts.2 v hbottom
  by_cases herror : name = "Error"
  · subst herror
    exact writtenLevels_le_of_mem_visitedByError hv
  by_cases hverbatim : name = "LatexString" ∨ name = "LatexTokens"
  · have hall := (levelsBelowName_verbatim hverbatim).mp
      (Nat.le_refl (levelsBelowName name arguments (arguments.map writtenLevels)))
    have hroot : name ≠ "Root" := by rcases hverbatim with rfl | rfl <;> decide
    unfold visitedByName at hv
    rw [if_neg hpower, if_neg hmultiply, if_neg hroot, if_neg herror, if_pos hverbatim] at hv
    obtain ⟨a, ha, hv⟩ := List.mem_flatMap.mp hv
    obtain ⟨rfl, hlevels⟩ := mem_visitedVerbatim hv
    rw [← hlevels]
    exact hall v ha
  · have hmem : v ∈ arguments := by
      unfold visitedByName at hv
      rw [if_neg hpower, if_neg hmultiply, if_neg herror, if_neg hverbatim] at hv
      split at hv
      · exact mem_of_mem_visitedByRoot hv
      · exact hv
    unfold levelsBelowName
    rw [if_neg hpower, if_neg hmultiply, if_neg herror, if_neg hverbatim]
    exact greatest_map_le.mp (Nat.le_refl _) v hmem

/-- Each node written below a node takes fewer levels, be it a part of the node or not. -/
theorem writtenLevels_lt_of_mem_visited (hv : v ∈ e.visited) : v.writtenLevels < e.writtenLevels := by
  cases e with
  | apply head arguments =>
    rw [writtenLevels_apply, Nat.add_comm, Nat.lt_succ_iff]
    cases head with
    | symbol name => exact writtenLevels_le_of_mem_visitedByName hv
    | _ =>
      rcases List.mem_cons.mp hv with rfl | hv
      · exact Nat.le_max_left _ _
      · exact Nat.le_trans (greatest_map_le.mp (Nat.le_refl _) v hv) (Nat.le_max_right _ _)
  | _ => cases hv

end Expression

end TexFormula
