import TexFormula.Dictionary.Standard
import TexFormula.Proofs.AliasChains
import TexFormula.Serializer

/-!
# Relations between writing programs

A `WritingCongruence` is a relation between programs that write, which putting programs together
keeps. If two scribes are related in what they make of the symbols that are allowed to occur
(`Scribe.Related`), so are the rules of all kinds of notations and the hooks of the standard ones
(`Writers.Standard.keeps`), and from node to node whatever is written (`Serializer.Related.node`).
-/

namespace TexFormula

/-! ### Symbols -/

/-- All symbols of an expression, be they leaves or heads, satisfy `p`. -/
inductive Expression.AllSymbols (p : String → Prop) : Expression → Prop where
  | number (value : Number) : AllSymbols p (.number value)
  | symbol {name : String} (h : p name) : AllSymbols p (.symbol name)
  | text (content : String) : AllSymbols p (.text content)
  | apply {head : Expression} {arguments : List Expression} (hhead : AllSymbols p head)
      (harguments : ∀ a ∈ arguments, AllSymbols p a) : AllSymbols p (.apply head arguments)
  | dictionary {entries : List (String × Expression)}
      (hentries : ∀ x ∈ entries, AllSymbols p x.2) : AllSymbols p (.dictionary entries)
  | missing : AllSymbols p .missing

namespace Expression.AllSymbols

variable {p : String → Prop} {name : String} {e head : Expression} {arguments : List Expression}

theorem of_headName? (h : e.AllSymbols p) (hname : e.headName? = some name) : p name := by
  cases h with
  | apply hhead _ =>
    cases hhead with
    | symbol h =>
      cases hname
      exact h
    | _ => cases hname
  | _ => cases hname

theorem function (hname : p name) (h : ∀ a ∈ arguments, a.AllSymbols p) :
    (Expression.function name arguments).AllSymbols p :=
  .apply (.symbol hname) h

end Expression.AllSymbols

/-! ### The parts of a product -/

namespace Product

variable {p : Expression → Prop} {f r : Expression} {fs : List Expression}

/-- The property passes from a power to its base and to the powers of it by other numbers. -/
structure Hereditary (p : Expression → Prop) : Prop where
  number (n : Number) : p (.number n)
  base {b x : Expression} : p (.function "Power" [b, x]) → p b
  power {b x : Expression} (n : Number) :
    p (.function "Power" [b, x]) → p (.function "Power" [b, .number n])

namespace Hereditary

variable (hp : Hereditary p)

include hp

theorem unsigned (h : p f) : p (unsigned f) := by
  unfold Product.unsigned
  split
  · exact hp.number _
  · exact h

theorem magnitudes (h : ∀ f ∈ fs, p f) : ∀ f ∈ magnitudes fs, p f := by
  have hmap (gs : List Expression) (hgs : ∀ f ∈ gs, p f) :
      ∀ f ∈ gs.map Product.unsigned, p f :=
    List.forall_mem_map.mpr fun f hf => hp.unsigned (hgs f hf)
  unfold Product.magnitudes
  split
  · split
    · exact hmap _ fun f hf => h f (List.mem_cons_of_mem _ hf)
    · exact hmap _ h
  · exact hmap _ h

theorem of_reciprocal? (h : reciprocal? f = some r) (hf : p f) : p r := by
  unfold reciprocal? at h
  split at h
  · obtain ⟨n, -, rfl⟩ := Option.map_eq_some_iff.mp h
    split
    · exact hp.base hf
    · exact hp.power _ hf
  · cases h

theorem numerator (h : ∀ f ∈ fs, p f) : ∀ f ∈ (ofFactors fs).numerator, p f :=
  fun f hf => hp.magnitudes h f (List.mem_filter.mp hf).1

theorem denominator (h : ∀ f ∈ fs, p f) : ∀ f ∈ (ofFactors fs).denominator, p f := by
  intro r hr
  obtain ⟨f, hmem, hf⟩ := List.mem_filterMap.mp hr
  exact hp.of_reciprocal? hf (hp.magnitudes h f hmem)

end Hereditary

end Product

/-! ### Related programs -/

/-- A relation that programs put together inherit, and the names that may occur in what is written.
Hooks write some names of their own accord. -/
structure WritingCongruence where
  rel : {α : Type} → Except WriteFault α → Except WriteFault α → Prop
  refl {α : Type} (x : Except WriteFault α) : rel x x
  bind {α β : Type} {x x' : Except WriteFault α} {f f' : α → Except WriteFault β} :
    rel x x' → (∀ a, rel (f a) (f' a)) → rel (x >>= f) (x' >>= f')
  names : String → Prop
  power : names "Power"
  subscript : names "Subscript"
  root : names "Root"

namespace WritingCongruence

variable {α β : Type} (c : WritingCongruence)

/-- The expressions that may be written. -/
def Allows (e : Expression) : Prop :=
  e.AllSymbols c.names

theorem hereditary : Product.Hereditary c.Allows where
  number := .number
  base h := by
    cases h with
    | apply _ harguments => exact harguments _ (.head _)
  power n h := by
    cases h with
    | apply hhead harguments =>
      refine .apply hhead ?_
      simp only [List.forall_mem_cons]
      exact ⟨harguments _ (.head _), .number n, nofun⟩

/-- What comes after the last program that can differ. -/
theorem map {x x' : Except WriteFault α} (f : α → β) (h : c.rel x x') :
    c.rel (x >>= fun a => .ok (f a)) (x' >>= fun a => .ok (f a)) :=
  c.bind h fun _ => c.refl _

theorem mapM {f f' : α → Except WriteFault β} {as : List α} (h : ∀ a ∈ as, c.rel (f a) (f' a)) :
    c.rel (as.mapM f) (as.mapM f') := by
  induction as with
  | nil => exact c.refl _
  | cons a as ih =>
    obtain ⟨ha, has⟩ := List.forall_mem_cons.mp h
    rw [List.mapM_cons, List.mapM_cons]
    exact c.bind ha fun b => c.map (b :: ·) (ih has)

theorem foldlM {f f' : β → α → Except WriteFault β} {as : List α}
    (h : ∀ a ∈ as, ∀ b, c.rel (f b a) (f' b a)) (b : β) :
    c.rel (as.foldlM f b) (as.foldlM f' b) := by
  induction as generalizing b with
  | nil => exact c.refl _
  | cons a as ih =>
    obtain ⟨ha, has⟩ := List.forall_mem_cons.mp h
    rw [List.foldlM_cons, List.foldlM_cons]
    exact c.bind (ha b) (ih has)

end WritingCongruence

/-- The scribes are related where they write what is allowed, and know the same about it. -/
structure Scribe.Related (c : WritingCongruence) (scribe scribe' : Scribe) : Prop where
  serialize {e : Expression} : c.Allows e → c.rel (scribe.serialize e) (scribe'.serialize e)
  precedence {e : Expression} : c.Allows e → scribe'.precedence e = scribe.precedence e
  symbol {name : String} : c.names name → scribe'.symbol name = scribe.symbol name
  options : scribe'.options = scribe.options

/-- With related scribes the hook makes related texts of a node. -/
def WritingHook.Keeps (hook : WritingHook) : Prop :=
  ∀ ⦃c : WritingCongruence⦄ ⦃scribe scribe' : Scribe⦄, scribe.Related c scribe' →
    ∀ arguments, (∀ a ∈ arguments, c.Allows a) →
      c.rel (hook scribe arguments) (hook scribe' arguments)

namespace Scribe.Related

variable {c : WritingCongruence} {scribe scribe' : Scribe} {e : Expression}
  {arguments : List Expression} (h : scribe.Related c scribe')

include h

theorem wrap (he : c.Allows e) (loosest : Precedence) :
    c.rel (scribe.wrap e loosest) (scribe'.wrap e loosest) := by
  unfold Scribe.wrap
  rw [h.precedence he]
  exact c.map _ (h.serialize he)

variable (harguments : ∀ a ∈ arguments, c.Allows a)

include harguments

theorem list : c.rel (scribe.list arguments) (scribe'.list arguments) :=
  c.map _ (c.mapM fun a ha => h.serialize (harguments a ha))

theorem bracedArguments (start : String) :
    c.rel (scribe.bracedArguments start arguments) (scribe'.bracedArguments start arguments) :=
  c.foldlM (fun a ha _ => c.map _ (h.serialize (harguments a ha))) start

theorem application {name : String} (hname : c.names name) :
    c.rel (scribe.application name arguments) (scribe'.application name arguments) := by
  unfold Scribe.application
  split
  · exact h.bracedArguments harguments name
  · rw [h.symbol hname]
    exact c.map _ (h.list harguments)

theorem chain (n : Notation) :
    c.rel (Serializer.chain scribe n arguments) (Serializer.chain scribe' n arguments) := by
  unfold Serializer.chain
  refine c.foldlM (fun operand hoperand _ => c.map _ ?_) ""
  exact h.wrap (harguments _ (List.fst_mem_of_mem_zipIdx hoperand)) _

theorem byKind (n : Notation) {name : String} (hname : c.names name) :
    c.rel (Serializer.byKind scribe n name arguments)
      (Serializer.byKind scribe' n name arguments) := by
  unfold Serializer.byKind
  cases n.kind with
  | infixOp _ => exact h.chain harguments n
  | prefixOp =>
    cases arguments with
    | nil => exact c.refl _
    | cons operand _ => exact c.map _ (h.wrap (harguments _ (.head _)) _)
  | postfixOp =>
    cases arguments with
    | nil => exact c.refl _
    | cons operand _ => exact c.map _ (h.wrap (harguments _ (.head _)) _)
  | matchfix _ => exact c.map _ (h.list harguments)
  | command _ => exact h.bracedArguments harguments _
  | function => exact c.map _ (h.list harguments)
  | symbol => exact h.application harguments hname
  | custom => exact h.application harguments hname

end Scribe.Related

/-! ### Writing hooks -/

namespace Writers

variable {c : WritingCongruence} {scribe scribe' : Scribe} {base : Expression}
  {es : List Expression}

theorem keeps_sum : WritingHook.Keeps sum := by
  intro c scribe scribe' h arguments harguments
  cases arguments with
  | nil => exact c.refl _
  | cons first rest =>
    obtain ⟨hfirst, hrest⟩ := List.forall_mem_cons.mp harguments
    refine c.bind (h.wrap hfirst _) (c.foldlM fun term hterm text => ?_)
    unfold addTerm
    split
    · exact c.map _ (h.serialize (hrest term hterm))
    · exact c.map _ (h.wrap (hrest term hterm) _)

section

variable (h : scribe.Related c scribe')

include h

theorem moreFactors_related (hes : ∀ e ∈ es, c.Allows e) (previous : Expression) (written : String) :
    c.rel (moreFactors scribe previous written es) (moreFactors scribe' previous written es) := by
  induction es generalizing previous written with
  | nil => exact c.refl _
  | cons factor rest ih =>
    obtain ⟨hfactor, hrest⟩ := List.forall_mem_cons.mp hes
    unfold moreFactors
    rw [h.options]
    exact c.bind (h.wrap hfactor _) fun text => ih hrest factor _

theorem factors_related (hes : ∀ e ∈ es, c.Allows e) :
    c.rel (factors scribe es) (factors scribe' es) := by
  cases es with
  | nil => exact c.refl _
  | cons first rest =>
    obtain ⟨hfirst, hrest⟩ := List.forall_mem_cons.mp hes
    exact c.bind (h.wrap hfirst _) fun text => moreFactors_related h hrest first text

theorem scriptBase_related (hbase : c.Allows base) :
    c.rel (scriptBase scribe base) (scriptBase scribe' base) := by
  unfold scriptBase
  rw [h.options]
  exact c.map _ (h.wrap hbase _)

end

theorem keeps_product : WritingHook.Keeps product := by
  intro c scribe scribe' h arguments harguments
  unfold product
  split
  · exact c.refl _
  · refine c.bind (factors_related h (c.hereditary.numerator harguments)) fun top => ?_
    split
    · exact c.refl _
    · exact c.map _ (factors_related h (c.hereditary.denominator harguments))

theorem keeps_power : WritingHook.Keeps power := by
  intro c scribe scribe' h arguments harguments
  unfold power
  split
  · next base exponent =>
    have hbase : c.Allows base := harguments _ (.head _)
    have hexponent : c.Allows exponent := harguments _ (.tail _ (.head _))
    have hpower := Expression.AllSymbols.function c.power harguments
    split
    · split
      · exact c.map _ (h.serialize hbase)
      · exact c.map _ (h.serialize (c.hereditary.power _ hpower))
    · split
      · exact c.map _ (h.serialize hbase)
      · exact c.map _ (h.serialize hbase)
      · exact c.map _ (scriptBase_related h hbase)
      · exact c.bind (scriptBase_related h hbase) fun _ => c.map _ (h.serialize hexponent)
  · exact h.application harguments c.power

theorem keeps_subscript : WritingHook.Keeps subscript := by
  intro c scribe scribe' h arguments harguments
  unfold subscript
  split
  · next base index =>
    exact c.bind (scriptBase_related h (harguments _ (.head _))) fun _ =>
      c.map _ (h.serialize (harguments _ (.tail _ (.head _))))
  · exact h.application harguments c.subscript

theorem keeps_root : WritingHook.Keeps root := by
  intro c scribe scribe' h arguments harguments
  unfold root
  split
  · next radicand index =>
    exact c.bind (h.serialize (harguments _ (.tail _ (.head _)))) fun _ =>
      c.map _ (h.serialize (harguments _ (.head _)))
  · exact h.application harguments c.root

theorem keeps_error : WritingHook.Keeps error := by
  intro c scribe scribe' h arguments harguments
  unfold error
  split
  · exact c.refl _
  · exact c.refl _
  · exact c.map _ (h.serialize (harguments _ (.head _)))
  · exact c.refl _

theorem keeps_verbatim (spell : String → String) : WritingHook.Keeps (verbatim spell) := by
  intro c scribe scribe' h arguments harguments
  refine c.foldlM (fun argument hargument written => ?_) ""
  have hargument := harguments argument hargument
  cases argument with
  | text content => exact c.refl _
  | _ => exact c.map _ (h.serialize hargument)

/-- The hooks by which standard notations are written. -/
inductive Standard : WritingHook → Prop where
  | sum : Standard sum
  | product : Standard product
  | power : Standard power
  | subscript : Standard subscript
  | root : Standard root
  | error : Standard error
  | verbatim (spell : String → String) : Standard (verbatim spell)

theorem Standard.keeps {hook : WritingHook} (h : Standard hook) : hook.Keeps := by
  cases h with
  | sum => exact keeps_sum
  | product => exact keeps_product
  | power => exact keeps_power
  | subscript => exact keeps_subscript
  | root => exact keeps_root
  | error => exact keeps_error
  | verbatim spell => exact keeps_verbatim spell

end Writers

/-! ### Nodes -/

/-- The notation is written by the rule of its kind, or by a hook of the standard notations. -/
def Notation.WrittenAsStandard (n : Notation) : Prop :=
  ∀ hook, n.writer = some hook → Writers.Standard hook

namespace Notation.WrittenAsStandard

variable {n : Notation} {hook : WritingHook}

theorem of_writer_eq_none (h : n.writer = none) : n.WrittenAsStandard := by
  intro hook hhook
  rw [h] at hhook
  cases hhook

theorem of_writer_eq (h : n.writer = some hook) (hhook : Writers.Standard hook) :
    n.WrittenAsStandard := by
  intro hook' hhook'
  rw [h] at hhook'
  cases hhook'
  exact hhook

end Notation.WrittenAsStandard

namespace Dictionary

open Notation.WrittenAsStandard

theorem writtenAsStandard_arithmetic : ∀ n ∈ arithmetic, n.WrittenAsStandard := by
  unfold arithmetic
  simp only [List.forall_mem_cons]
  exact ⟨of_writer_eq rfl .sum, of_writer_eq_none rfl, of_writer_eq_none rfl, of_writer_eq_none rfl,
    of_writer_eq rfl .product, of_writer_eq_none rfl, of_writer_eq_none rfl, of_writer_eq_none rfl,
    of_writer_eq_none rfl, of_writer_eq_none rfl, of_writer_eq_none rfl, of_writer_eq_none rfl,
    of_writer_eq rfl .power, of_writer_eq rfl .subscript, of_writer_eq_none rfl,
    of_writer_eq rfl .root, of_writer_eq_none rfl, List.forall_mem_nil _⟩

theorem writtenAsStandard_writtenNodes : ∀ n ∈ writtenNodes, n.WrittenAsStandard := by
  unfold writtenNodes
  simp only [List.forall_mem_cons]
  exact ⟨of_writer_eq rfl .error, of_writer_eq rfl (.verbatim _), of_writer_eq rfl (.verbatim _),
    List.forall_mem_nil _⟩

theorem writtenAsStandard_standardEntries : ∀ n ∈ standardEntries, n.WrittenAsStandard := by
  have hplain {entries : List Notation} (h : entries.all (·.writer.isNone)) :
      ∀ n ∈ entries, n.WrittenAsStandard := fun n hn =>
    of_writer_eq_none (Option.isNone_iff_eq_none.mp (List.all_eq_true.mp h n hn))
  unfold standardEntries
  simp only [List.forall_mem_append]
  refine ⟨⟨⟨⟨⟨⟨⟨⟨?_, writtenAsStandard_arithmetic⟩, ?_⟩, ?_⟩, ?_⟩, ?_⟩, ?_⟩, ?_⟩,
    writtenAsStandard_writtenNodes⟩
  all_goals exact hplain rfl

end Dictionary

namespace Serializer

variable {c : WritingCongruence} {s s' : Serializer}

/-- The serializers find the same notations for the names that may occur, with hooks that keep all
relations, and have the same options. -/
structure Related (c : WritingCongruence) (s s' : Serializer) : Prop where
  lookup {name : String} : c.names name → s'.dictionary.lookup name = s.dictionary.lookup name
  keeps {name : String} {n : Notation} : c.names name → s.dictionary.lookup name = some n →
    n.WrittenAsStandard
  options : s'.options = s.options

namespace Related

variable {below below' : Expression → Except WriteFault String} {e : Expression}
  (h : s.Related c s')

include h

theorem scribe (hbelow : ∀ e, c.Allows e → c.rel (below e) (below' e)) :
    (s.scribe below).Related c (s'.scribe below') where
  serialize he := hbelow _ he
  precedence {e} he := by
    show s'.precedenceOf e = s.precedenceOf e
    unfold precedenceOf
    cases hname : e.headName? with
    | none => rfl
    | some name => rw [Option.bind_some, Option.bind_some, h.lookup (he.of_headName? hname)]
  symbol {name} hname := by
    show s'.symbol name = s.symbol name
    rw [symbol, symbol, h.lookup hname]
  options := h.options

theorem named {scribe scribe' : Scribe} (hscribe : scribe.Related c scribe') {name : String}
    (hname : c.names name) {arguments : List Expression} (harguments : ∀ a ∈ arguments, c.Allows a) :
    c.rel (s.named scribe name arguments) (s'.named scribe' name arguments) := by
  unfold Serializer.named
  rw [h.lookup hname]
  cases hn : s.dictionary.lookup name with
  | none => exact hscribe.application harguments hname
  | some n =>
    dsimp only
    cases hhook : n.writer with
    | some hook => exact (h.keeps hname hn hook hhook).keeps hscribe arguments harguments
    | none =>
      dsimp only
      split
      · exact hscribe.byKind harguments n hname
      · exact hscribe.application harguments hname

/-- A node is written alike if the nodes below it are. -/
theorem node (hbelow : ∀ e, c.Allows e → c.rel (below e) (below' e)) (he : c.Allows e) :
    c.rel (s.node below e) (s'.node below' e) := by
  have hscribe := h.scribe hbelow
  cases he with
  | number value =>
    unfold Serializer.node
    rw [h.options]
    exact c.refl _
  | @symbol name hname =>
    have hsymbol : s'.symbol name = s.symbol name := hscribe.symbol hname
    show c.rel (pure (s.symbol name)) (pure (s'.symbol name))
    rw [hsymbol]
    exact c.refl _
  | text content =>
    unfold Serializer.node
    rw [h.options]
    exact c.refl _
  | dictionary _ => exact c.refl _
  | missing => exact c.refl _
  | @apply head arguments hhead harguments =>
    cases head with
    | symbol name =>
      cases hhead with
      | symbol hname => exact h.named hscribe hname harguments
    | _ => exact c.bind (hscribe.wrap hhead _) fun _ => c.map _ (hscribe.list harguments)

end Related

end Serializer

end TexFormula
