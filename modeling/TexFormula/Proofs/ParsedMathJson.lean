import TexFormula.Proofs.Literal
import TexFormula.Proofs.MathJsonRoundTrip
import TexFormula.Proofs.Outcome
import TexFormula.Proofs.ParsedTrees.Expression

/-!
# Parsed trees in MathJSON

What a source is parsed as has a form of its own in MathJSON, unless one of its symbols is an
identifier that the source names `Missing` or puts in single quotes: then MathJSON reads a mark for
what is missing or a text (`MathJson.decode_encode_of_parse`). No zero of a parsed tree has a sign, so
nothing else is lost.
-/

namespace TexFormula

/-! ### Parsed numbers -/

namespace Number

/-- The text of a negative zero is that of zero, so no text is read as it. -/
theorem withOneZero_of_machine? {literal : String} {value : Double}
    (h : machine? literal = some value) : value ≠ .nan ∧ value.withOneZero = value := by
  unfold machine? at h
  split at h
  · next negative m hread =>
    split at h
    · next hwrite =>
      cases h
      refine ⟨nofun, ?_⟩
      cases hsign : negative && m.isZero with
      | true =>
        obtain ⟨rfl, hm⟩ := Bool.and_eq_true_iff.mp hsign
        obtain rfl := Magnitude.eq_zero_of_isZero hm
        have hzero : Double.ofText? (Layout.plain.write (.finite true .zero)) =
            some (.finite false .zero) := by decide +kernel
        rw [← hwrite, hzero] at hread
        cases hread
      | false =>
        cases negative with
        | false => rfl
        | true => rw [Double.withOneZero, show m.isZero = false from hsign]; rfl
    · cases h
  · cases h

/-- What a literal is read as has a form of its own and no sign at zero. -/
theorem encodable_of_ofLiteral? {literal : String} {value : Number}
    (h : ofLiteral? literal = some value) : value.Encodable ∧ value.withOneZero = value := by
  unfold ofLiteral? at h
  obtain ⟨d, hd, hvalue⟩ := Option.map_eq_some_iff.mp h
  have hdecimal : (Number.decimal d).Encodable ∧ (Number.decimal d).withOneZero = .decimal d :=
    ⟨Decimal.WellFormed.of_parse? hd, rfl⟩
  split at hvalue
  · split at hvalue
    · next x hx =>
      cases hvalue
      obtain ⟨hnan, hzero⟩ := withOneZero_of_machine? hx
      exact ⟨hnan, congrArg Number.machine hzero⟩
    · cases hvalue
      exact hdecimal
  · cases hvalue
    exact hdecimal

end Number

namespace Expression

theorem allEncodable_of_forall {es : List Expression} (h : ∀ e ∈ es, e.Encodable) :
    AllEncodable es := by
  induction es with
  | nil => trivial
  | cons e rest ih =>
    obtain ⟨he, hrest⟩ := List.forall_mem_cons.mp h
    exact ⟨he, ih hrest⟩

theorem allWithOneZero_of_forall {es : List Expression} (h : ∀ e ∈ es, e.withOneZero = e) :
    allWithOneZero es = es := by
  induction es with
  | nil => rfl
  | cons e rest ih =>
    obtain ⟨he, hrest⟩ := List.forall_mem_cons.mp h
    rw [allWithOneZero, he, ih hrest]

end Expression

namespace MathJson

/-- The name is read as a mark for what is missing, or as a text. -/
def Ambiguous (name : String) : Prop :=
  name = "Missing" ∨ ∃ content, name = "'" ++ content ++ "'"

variable {e : Expression} {name : String}

theorem encodable_symbol (hempty : name ≠ "") (h : ¬Ambiguous name) :
    (Expression.symbol name).Encodable :=
  ⟨hempty, fun hname => h (.inl hname), fun content hname => h (.inr ⟨content, hname⟩)⟩

/-! ### Only unambiguous names are read as they were -/

theorem not_ambiguous_of_ofString (h : ofString name = .ok (.symbol name)) : ¬Ambiguous name := by
  rintro (rfl | ⟨content, rfl⟩)
  · cases h
  · rw [ofString_text] at h
    cases h

theorem decode_of_mem_decodeItems {es : List Expression} (h : decodeItems (encodeItems es) = .ok es) :
    ∀ e ∈ es, decode (encode e) = .ok e := by
  induction es with
  | nil => exact List.forall_mem_nil _
  | cons e rest ih =>
    rw [encodeItems, decodeItems] at h
    obtain ⟨first, hfirst, h⟩ := bind_eq_ok.mp h
    obtain ⟨others, hothers, h⟩ := bind_eq_ok.mp h
    cases h
    exact List.forall_mem_cons.mpr ⟨hfirst, ih hothers⟩

theorem decode_of_mem_decodeEntries {entries : List (String × Expression)}
    (h : decodeEntries (encodeEntries entries) = .ok entries) :
    ∀ entry ∈ entries, decode (encode entry.2) = .ok entry.2 := by
  induction entries with
  | nil => exact List.forall_mem_nil _
  | cons entry rest ih =>
    obtain ⟨key, e⟩ := entry
    rw [encodeEntries, decodeEntries] at h
    obtain ⟨first, hfirst, h⟩ := bind_eq_ok.mp h
    obtain ⟨others, hothers, h⟩ := bind_eq_ok.mp h
    cases h
    exact List.forall_mem_cons.mpr ⟨hfirst, ih hothers⟩

/-- If an expression is read as it was, so is each of its nodes. -/
theorem decode_encode_of_nodeOf {n : Expression} (hn : n.NodeOf e)
    (h : decode (encode e) = .ok e) : decode (encode n) = .ok n := by
  have hfunction {head : Expression} {arguments : List Expression}
      (h : decode (encode (.apply head arguments)) = .ok (.apply head arguments)) :
      decode (encode head) = .ok head ∧ decodeItems (encodeItems arguments) = .ok arguments := by
    rw [encode, decode, decodeFunction] at h
    obtain ⟨first, hfirst, h⟩ := bind_eq_ok.mp h
    obtain ⟨others, hothers, h⟩ := bind_eq_ok.mp h
    cases h
    exact ⟨hfirst, hothers⟩
  induction hn with
  | self => exact h
  | head _ ih => exact ih (hfunction h).1
  | argument hmem _ ih => exact ih (decode_of_mem_decodeItems (hfunction h).2 _ hmem)
  | @entry key value entries hmem _ ih =>
    rw [encode, decode_dictionary] at h
    cases hread : decodeEntries (encodeEntries entries) with
    | error fault =>
      rw [hread] at h
      cases h
    | ok entries' =>
      rw [hread] at h
      cases h
      exact ih (decode_of_mem_decodeEntries hread _ hmem)

theorem not_ambiguous_of_nodeOf (hn : (Expression.symbol name).NodeOf e)
    (h : decode (encode e) = .ok e) : ¬Ambiguous name := by
  have hname := decode_encode_of_nodeOf hn h
  rw [encode, decode] at hname
  exact not_ambiguous_of_ofString hname

/-! ### Parsed trees -/

variable {env : Parser.Env} {found : List Diagnostic}

/-- An ambiguous name has several characters and starts like this. -/
theorem Ambiguous.head? (h : Ambiguous name) :
    2 ≤ name.length ∧ (name.toList.head? = some 'M' ∨ name.toList.head? = some '\'') := by
  rcases h with rfl | ⟨content, rfl⟩
  · exact ⟨by decide, .inl rfl⟩
  · refine ⟨?_, .inr (by simp)⟩
    have hquote : "'".length = 1 := rfl
    simp only [String.length_append]
    omega

theorem not_ambiguous_of_mem_names (h : name ∈ Parser.names) : name ≠ "" ∧ ¬Ambiguous name := by
  have hall : Parser.names.all fun name =>
      name != "" && name != "Missing" && name.toList.head? != some '\'' := by
    decide +kernel
  have hname := List.all_eq_true.mp hall name h
  simp only [Bool.and_eq_true, bne_iff_ne] at hname
  refine ⟨hname.1.1, ?_⟩
  rintro (hmissing | ⟨content, rfl⟩)
  · exact hname.1.2 hmissing
  · exact hname.2 (by simp)

/-- Of the names in a tree only those of identifiers are ambiguous. -/
theorem identifies_of_ambiguous (h : Parser.Tree env found (.symbol name)) :
    name ≠ "" ∧ (Ambiguous name → Parser.Identifies env.source name) := by
  rcases h.symbol_cases with ⟨c, rfl⟩ | ⟨command, rfl⟩ | hmem | ⟨hne, hidentifies⟩
  · have hlength : (String.singleton c).length = 1 := by simp
    refine ⟨fun hempty => ?_, fun hname => ?_⟩
    · rw [hempty] at hlength
      cases hlength
    · have htwo := hname.head?.1
      omega
  · refine ⟨fun hempty => ?_, fun hname => ?_⟩
    · have hlength := congrArg String.length hempty
      simp at hlength
    · have hhead := hname.head?.2
      simp at hhead
  · obtain ⟨hempty, hname⟩ := not_ambiguous_of_mem_names hmem
    exact ⟨hempty, fun h => absurd h hname⟩
  · exact ⟨hne, fun _ => hidentifies⟩

/-- A tree without ambiguous names has a form of its own, and its zeros have no sign. -/
theorem encodable_of_tree (h : Parser.Tree env found e)
    (hnames : ∀ name, (Expression.symbol name).NodeOf e → ¬Ambiguous name) :
    e.Encodable ∧ e.withOneZero = e := by
  have hsymbol {name : String} (h : Parser.Tree env found (.symbol name)) (hname : ¬Ambiguous name) :
      (Expression.symbol name).Encodable ∧ (Expression.symbol name).withOneZero = .symbol name :=
    ⟨encodable_symbol (identifies_of_ambiguous h).1 hname, rfl⟩
  induction h with
  | number hvalue =>
    obtain ⟨hencodable, hzero⟩ := Number.encodable_of_ofLiteral? hvalue
    exact ⟨hencodable, congrArg Expression.number hzero⟩
  | infinity => exact ⟨nofun, rfl⟩
  | letter c => exact hsymbol (.letter c) (hnames _ .self)
  | command name => exact hsymbol (.command name) (hnames _ .self)
  | named hmem => exact hsymbol (.named hmem) (hnames _ .self)
  | identifier hne hname => exact hsymbol (.identifier hne hname) (hnames _ .self)
  | text content => exact ⟨trivial, rfl⟩
  | apply _ _ ihhead ih =>
    obtain ⟨hhead, hheadZero⟩ := ihhead fun name hn => hnames name (.head hn)
    have hall := fun a ha => ih a ha fun name hn => hnames name (.argument ha hn)
    refine ⟨⟨hhead, Expression.allEncodable_of_forall fun a ha => (hall a ha).1⟩, ?_⟩
    rw [Expression.withOneZero, hheadZero, Expression.allWithOneZero_of_forall fun a ha => (hall a ha).2]
  | error _ =>
    have herror : (Expression.symbol "Error").Encodable :=
      encodable_symbol (by decide) fun h => absurd h.head?.2 (by decide)
    have htext : (Expression.symbol "LatexString").Encodable :=
      encodable_symbol (by decide) fun h => absurd h.head?.2 (by decide)
    exact ⟨⟨herror, ⟨htext, trivial, trivial⟩, trivial, trivial⟩, rfl⟩
  | missing => exact ⟨trivial, rfl⟩

/-- What a source is parsed as is read from MathJSON as it was just if no symbol in it has an ambiguous
name. Such a name is one that the source spells out as an identifier. No name is empty, and no
number is "not a number". -/
theorem decode_encode_of_parse {options : ParseOptions} {source : String} {p : Parsed}
    (h : parse .standard options source = .ok p) :
    (decode (encode p.expression) = .ok p.expression ↔
      ∀ name, (Expression.symbol name).NodeOf p.expression → ¬Ambiguous name) ∧
    (∀ name, (Expression.symbol name).NodeOf p.expression →
      name ≠ "" ∧ (Ambiguous name → Parser.Identifies source name)) ∧
    ¬(Expression.number (.machine .nan)).NodeOf p.expression := by
  have htree := Parser.tree_of_parse h
  refine ⟨⟨fun hread name hn => not_ambiguous_of_nodeOf hn hread, fun hnames => ?_⟩,
    fun name hn => ?_, fun hn => ?_⟩
  · obtain ⟨hencodable, hzero⟩ := encodable_of_tree htree hnames
    rw [decode_encode hencodable, hzero]
  · rcases htree.of_nodeOf hn with hsymbol | herror
    · exact identifies_of_ambiguous hsymbol
    · cases herror
      exact ⟨by decide, fun hname => absurd hname.head?.2 (by decide)⟩
  · rcases htree.of_nodeOf hn with hnumber | herror
    · cases hnumber with
      | number hvalue => exact (Number.encodable_of_ofLiteral? hvalue).1 rfl
    · cases herror

/-- An identifier applied to a sum with a decimal in it. -/
def appliedIdentifier : String :=
  "\\operatorname\x7bf g\x7d(x+1.50)"

theorem decode_encode_of_parse_appliedIdentifier :
    ∃ p, parse .standard {} appliedIdentifier = .ok p ∧
      (decode (encode p.expression) = .ok p.expression ↔
        ∀ name, (Expression.symbol name).NodeOf p.expression → ¬Ambiguous name) ∧
      (∀ name, (Expression.symbol name).NodeOf p.expression →
        name ≠ "" ∧ (Ambiguous name → Parser.Identifies appliedIdentifier name)) ∧
      ¬(Expression.number (.machine .nan)).NodeOf p.expression := by
  obtain ⟨p, hp, -⟩ := exists_eq_ok_of_any (show
    (parse .standard {} appliedIdentifier).toOption.any (·.diagnostics.isEmpty) = true by decide +kernel)
  exact ⟨p, hp, decode_encode_of_parse hp⟩

theorem eq_of_symbol? (h : e.symbol? == some name) : e = .symbol name := by
  unfold Expression.symbol? at h
  split at h
  · rw [Option.some.inj (eq_of_beq h)]
  · cases eq_of_beq h

/-- Identifiers without a form in MathJSON: one is read as what is missing, the other as a text. -/
theorem not_decode_encode_of_parse_identifier :
    (∃ p, parse .standard {} "\\operatorname\x7bMissing\x7d" = .ok p ∧
      p.expression = .symbol "Missing" ∧ decode (encode p.expression) ≠ .ok p.expression) ∧
    ∃ p, parse .standard {} "\\operatorname\x7b'a'\x7d" = .ok p ∧
      p.expression = .symbol "'a'" ∧ decode (encode p.expression) ≠ .ok p.expression := by
  have hread {source name : String}
      (h : (parse .standard {} source).toOption.any (·.expression.symbol? == some name) = true)
      (hname : Ambiguous name) : ∃ p, parse .standard {} source = .ok p ∧
        p.expression = .symbol name ∧ decode (encode p.expression) ≠ .ok p.expression := by
    obtain ⟨p, hp, hsymbol⟩ := exists_eq_ok_of_any h
    have heq := eq_of_symbol? hsymbol
    refine ⟨p, hp, heq, fun hread => ?_⟩
    rw [heq] at hread
    exact not_ambiguous_of_nodeOf .self hread hname
  exact ⟨hread (by decide +kernel) (.inl rfl), hread (by decide +kernel) (.inr ⟨"a", rfl⟩)⟩

end MathJson

end TexFormula
