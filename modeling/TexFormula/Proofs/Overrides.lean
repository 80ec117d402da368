import TexFormula.Proofs.FreshNotations
import TexFormula.Proofs.SideBySide.Source
import TexFormula.Proofs.WritingCongruence

/-!
# Overrides affect only what they name

Notations of new names are added to a dictionary (`Dictionary.ExtendedBy`). Where a source has none of
their triggers it is read as before, and where an expression has none of their names it is written as
before (`parse_and_write_of_fresh`), although the new notations come first wherever they are found
and may have any hooks.
-/

namespace TexFormula

/-- The extension of the standard dictionary whose hooks are the standard ones: no notation is found
with another hook, as aliases are read and written as their targets are. -/
structure Dictionary.HooksFound (d : Dictionary) : Prop where
  readers {trigger : String} {n : Notation} {hook : ReadingHook} : n ∈ d.readAt trigger →
    n.reader = some hook → ∃ m ∈ standardEntries, m.reader = some hook
  writers {name : String} {n : Notation} : d.lookup name = some n → n.WrittenAsStandard

theorem Dictionary.hooksFound_of_withOverrides {d : Dictionary} {extensions : List Notation}
    (hd : standard.withOverrides extensions = .ok d)
    (hextensions : ∀ n ∈ extensions, n.aliasOf.isSome ∨ n.reader = none ∧ n.writer = none) :
    d.HooksFound := by
  have hentries : d.entries = standardEntries ++ extensions := (ofList_eq_ok_iff.mp hd).2.2
  have hplain : ∀ n, n ∈ d.entries ∧ n.aliasOf = none →
      n ∈ standardEntries ∨ n.reader = none ∧ n.writer = none := by
    rintro n ⟨hn, halias⟩
    rw [hentries] at hn
    rcases List.mem_append.mp hn with hn | hn
    · exact .inl hn
    · refine .inr ((hextensions n hn).resolve_left ?_)
      simp [halias]
  constructor
  · intro trigger n hook hn hhook
    rcases hplain n (plain_of_mem_readAt hn) with hstandard | ⟨hreader, -⟩
    · exact ⟨n, hstandard, hhook⟩
    · rw [hreader] at hhook
      cases hhook
  · intro name n hn
    rcases hplain n (plain_of_lastOf hn) with hstandard | ⟨-, hwriter⟩
    · exact writtenAsStandard_standardEntries n hstandard
    · exact .of_writer_eq_none hwriter

/-! ### Reading -/

/-- Dictionaries that find the same at the triggers of a source read it alike. -/
theorem parse_congr {d d' : Dictionary} (hd : d.HooksFound) (options : ParseOptions) {source : String}
    (h : ∀ t ∈ Token.meaningful source, ∀ trigger, t.trigger? = some trigger →
      d'.readAt trigger = d.readAt trigger) :
    parse d' options source = parse d options source := by
  let w : Parser.SideBySide :=
    { left := ⟨source, d, options⟩
      right := ⟨source, d', options⟩
      exact := True
      options := rfl
      source := fun _ => rfl }
  have hknown : ∀ t ∈ Token.meaningful source, ∀ trigger, t.trigger? = some trigger →
      w.Known trigger := fun t ht trigger htrigger =>
    { readAt := h t ht trigger htrigger
      admits := fun n hn hook hhook => .of_standard (hd.readers hn hhook) (.inl trivial) }
  exact Parser.SideBySide.parse_eq_of_exact (w := w) trivial
    (Parser.SideBySide.alike_ofSource (w := w) (.refl source) hknown)

/-! ### Writing -/

/-- Programs that are the same. -/
def WritingCongruence.equality (names : String → Prop)
    (h : ∀ name ∈ ["Power", "Subscript", "Root"], names name) : WritingCongruence where
  rel x x' := x' = x
  refl _ := rfl
  bind hx hf := by
    rw [hx]
    exact congrArg _ (funext hf)
  names := names
  power := h _ (by simp)
  subscript := h _ (by simp)
  root := h _ (by simp)

/-- Dictionaries that find the same for the names in an expression write it alike. -/
theorem Serializer.serialize_congr {d d' : Dictionary} (hd : d.HooksFound) {names : String → Prop}
    (hown : ∀ name ∈ ["Power", "Subscript", "Root"], names name)
    (h : ∀ name, names name → d'.lookup name = d.lookup name) (options : WriteOptions)
    {e : Expression} (he : e.AllSymbols names) :
    serialize ⟨d', options⟩ e = serialize ⟨d, options⟩ e := by
  have hs : Related (.equality names hown) ⟨d, options⟩ ⟨d', options⟩ :=
    { lookup := h _
      keeps := fun _ hn => hd.writers hn
      options := rfl }
  have hwithin (levels : Nat) : ∀ e : Expression, e.AllSymbols names →
      within ⟨d', options⟩ levels e = within ⟨d, options⟩ levels e := by
    induction levels with
    | zero => exact fun _ _ => rfl
    | succ levels ih => exact fun e he => hs.node ih he
  exact hwithin _ e he

/-! ### Both -/

/-- Added notations of new names change neither how the sources without their triggers are read nor how
the expressions without their names are written. -/
theorem parse_and_write_of_fresh {d d' : Dictionary} {extensions overrides : List Notation}
    (hd : Dictionary.standard.withOverrides extensions = .ok d)
    (hextensions : ∀ n ∈ extensions, n.aliasOf.isSome ∨ n.reader = none ∧ n.writer = none)
    (hfresh : ∀ n ∈ overrides, ∀ m ∈ d.entries, m.name ≠ n.name)
    (h : d.withOverrides overrides = .ok d') :
    (∀ options source,
      (∀ t ∈ Token.ofSource source, ∀ trigger, t.trigger? = some trigger →
        ∀ n ∈ overrides, n.trigger ≠ some trigger) →
      parse d' options source = parse d options source) ∧
    ∀ options e, Expression.AllSymbols (· ∉ overrides.map (·.name)) e →
      Serializer.serialize ⟨d', options⟩ e = Serializer.serialize ⟨d, options⟩ e ∧
      Serializer.run ⟨d', options⟩ e = Serializer.run ⟨d, options⟩ e := by
  have hentries : d.entries = Dictionary.standardEntries ++ extensions :=
    (Dictionary.ofList_eq_ok_iff.mp hd).2.2
  have hextended : d.ExtendedBy overrides d' := ⟨by rwa [hentries], h, hfresh⟩
  have hhooks := Dictionary.hooksFound_of_withOverrides hd hextensions
  constructor
  · intro options source htriggers
    refine parse_congr hhooks options fun t ht trigger htrigger => ?_
    exact hextended.readAt_of_ne (htriggers t (List.mem_filter.mp ht).1 trigger htrigger)
  · intro options e he
    have hown : ∀ name ∈ ["Power", "Subscript", "Root"], name ∉ overrides.map (·.name) := by
      have hall : ["Power", "Subscript", "Root"].all fun name =>
          Dictionary.standardEntries.any (·.name == name) := by rfl
      intro name hname
      obtain ⟨n, hn, heq⟩ := List.any_eq_true.mp (List.all_eq_true.mp hall name hname)
      rw [← eq_of_beq heq]
      exact hextended.notMem (by rw [hentries]; exact List.mem_append_left _ hn)
    have hserialize := Serializer.serialize_congr hhooks hown (fun _ => hextended.lookup) options he
    exact ⟨hserialize, by rw [Serializer.run, Serializer.run, hserialize]⟩

/-- A second notation at the trigger of powers, which reads every one of them as infinity. -/
def Notation.swallowedPower : Notation :=
  (ofInfix "Swallowed" "^" .power).withReader Readers.infinity

/-- The plus sign by another name. -/
def Notation.plusAlias : Notation :=
  (ofAlias "Plus" "Add").withTrigger "\\plus"

/-- The sum of a letter and a power, under the name of the alias. -/
def Expression.plusPower : Expression :=
  .function "Plus" [.symbol "a", .function "Power" [.symbol "b", .symbol "n"]]

theorem parse_and_write_of_fresh_swallowedPower :
    ∃ d d', Dictionary.standard.withOverrides [.plusAlias] = .ok d ∧
      d.withOverrides [.swallowedPower] = .ok d' ∧
      parse d' {} "a\\plus b_2" = parse d {} "a\\plus b_2" ∧
      Serializer.serialize ⟨d', {}⟩ .plusPower = Serializer.serialize ⟨d, {}⟩ .plusPower := by
  let d : Dictionary := ⟨Dictionary.standardEntries ++ [.plusAlias], [("Plus", "Add")]⟩
  let d' : Dictionary :=
    ⟨Dictionary.standardEntries ++ [.plusAlias] ++ [.swallowedPower], [("Plus", "Add")]⟩
  have hd : Dictionary.standard.withOverrides [.plusAlias] = .ok d := rfl
  have h : d.withOverrides [.swallowedPower] = .ok d' := rfl
  have hnames : d.entries.all (·.name != "Swallowed") := by rfl
  have hfresh : ∀ n ∈ [Notation.swallowedPower], ∀ m ∈ d.entries, m.name ≠ n.name := by
    intro n hn m hm
    rw [List.mem_singleton.mp hn]
    exact bne_iff_ne.mp (List.all_eq_true.mp hnames m hm)
  have htriggers : (Token.ofSource "a\\plus b_2").all (·.trigger? != some "^") := by decide +kernel
  have hsymbols : Expression.plusPower.AllSymbols (· ∉ [Notation.swallowedPower].map (·.name)) := by
    have hname (name : String) (hne : name ≠ "Swallowed") :
        name ∉ [Notation.swallowedPower].map (·.name) := fun hmem =>
      hne (List.mem_singleton.mp hmem)
    refine .function (hname "Plus" (by decide)) ?_
    simp only [List.forall_mem_cons]
    refine ⟨.symbol (hname "a" (by decide)), .function (hname "Power" (by decide)) ?_, nofun⟩
    simp only [List.forall_mem_cons]
    exact ⟨.symbol (hname "b" (by decide)), .symbol (hname "n" (by decide)), nofun⟩
  obtain ⟨hparse, hwrite⟩ :=
    parse_and_write_of_fresh hd (List.forall_mem_singleton.mpr (.inl rfl)) hfresh h
  refine ⟨d, d', hd, h, hparse {} _ fun t ht trigger htrigger => ?_, (hwrite {} _ hsymbols).1⟩
  rw [List.forall_mem_singleton]
  intro heq
  have hne := bne_iff_ne.mp (List.all_eq_true.mp htriggers t ht)
  rw [htrigger, ← heq] at hne
  exact hne rfl

end TexFormula
