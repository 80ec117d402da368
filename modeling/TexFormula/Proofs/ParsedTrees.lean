import TexFormula.Proofs.Numerals
import TexFormula.Proofs.RawGroups
import TexFormula.Proofs.StandardHooks
import TexFormula.Proofs.Yields

/-!
# The trees that are read

`Tree env found e` lists what a source can be read as with the standard notations, when `found` are the
diagnostics in the end. Names in a tree are letters, commands, the names of standard notations, and the
identifiers that the source spells out (`Identifies`); every error node stands beside a diagnostic
(`Reported`), and that of an unknown command is what such a command is read as somewhere in the source
(`ReadsUnknown`).

Here are the groups, the arguments and the hooks of the standard notations.
-/

namespace TexFormula

/-- The node is the expression itself or a node of its head, of an argument or of an entry. -/
inductive Expression.NodeOf (n : Expression) : Expression → Prop where
  | self : NodeOf n n
  | head {head : Expression} {arguments : List Expression} (h : NodeOf n head) :
    NodeOf n (.apply head arguments)
  | argument {head argument : Expression} {arguments : List Expression} (hmem : argument ∈ arguments)
    (h : NodeOf n argument) : NodeOf n (.apply head arguments)
  | entry {key : String} {value : Expression} {entries : List (String × Expression)}
    (hmem : (key, value) ∈ entries) (h : NodeOf n value) : NodeOf n (.dictionary entries)

namespace Parser

variable {α : Type} {env : Env} {inner : Inner} {found : List Diagnostic} {s t : State}
  {e lhs rhs : Expression} {name : String}

/-! ### Trees -/

/-- The text of the group that a brace opens in front of the given tokens: up to the brace that closes
it, or else up to the end of the source. -/
def groupText (source : String) (opening : Token) (rest : List Token) : String :=
  Text.slice source opening.stop <|
    match (closing? 0 rest).bind (rest[·]?) with
    | some closing => closing.start
    | none => source.utf8ByteSize

/-- The source spells the name out in a group behind `\operatorname` or `\mathrm`. Blanks in the group
do not count. -/
def Identifies (source name : String) : Prop :=
  ∃ command spacing opening rest,
    command :: (spacing ++ opening :: rest) <:+ Token.meaningful source ∧
    (command.isCommand "operatorname" ∨ command.isCommand "mathrm") ∧
    (∀ t ∈ spacing, State.isSpacing t) ∧ opening.kind = .groupOpen ∧
    name.toList = Text.withoutBlanks (groupText source opening rest).toList

/-- The names that the parser gives by itself: those of the standard notations that are read, of roots
with an index and of the texts in error nodes. -/
def names : List String :=
  "Root" :: "LatexString" :: (Dictionary.standardEntries.filter (·.trigger.isSome)).map (·.name)

/-- The token that is next is one that only the reader of unknown tokens is left for. -/
structure AtUnknown (env : Env) (inner : Inner) (s : State) : Prop where
  spaced : State.isSpacing (s.current env) = false
  goes : s.atTerminator env = false
  known : ∃ t, Runs (orElse (builtin env inner) (notated env inner)) s none t
  operator : (s.current env).trigger?.any env.dictionary.hasOperator = false

/-- An unknown command of the source is next, at the depth that goes with the levels left. One level is
taken at least. -/
structure AtCommand (env : Env) (levels : Nat) (name : String) (s : State) : Prop where
  source : s.OfSource env
  depth : s.depth + levels = env.options.maxDepth
  below : levels < env.options.maxDepth
  unknown : AtUnknown env (within env levels) s
  command : (s.current env).kind = .command name

/-- The error node of an unknown command with this source text. -/
def unknownError (literal : String) : Operand :=
  { expression := .error Problem.Cause.unknownCommand.code literal }

/-- Somewhere in the source an unknown command is read as the error node for this text. -/
def ReadsUnknown (env : Env) (literal : String) : Prop :=
  ∃ levels name s t, AtCommand env levels name s ∧
    Runs (unknownCommand env (within env levels) (s.current env) name) s
      (some (unknownError literal)) t

/-- An error node for this text is reported by one of the diagnostics, and that of an unknown command is
read as one. -/
inductive Reported (env : Env) (found : List Diagnostic) : (code literal : String) → Prop where
  | unexpectedToken {literal : String} {span : Option Span}
    (h : .of ⟨.unexpectedToken, literal⟩ span ∈ found) :
    Reported env found Problem.Cause.unexpectedToken.code literal
  | unknownSymbol {c : Char} {span : Option Span}
    (hpolicy : env.options.unknownTokens.disposition (String.singleton c) = .error)
    (h : .of ⟨.unknownSymbol, String.singleton c⟩ span ∈ found) :
    Reported env found Problem.Cause.unknownSymbol.code (String.singleton c)
  | unknownCommand {command : String} {start stop : Nat}
    (hreads : ReadsUnknown env (env.slice start stop))
    (h : .of ⟨.unknownCommand, command⟩ (some (.between start stop)) ∈ found) :
    Reported env found Problem.Cause.unknownCommand.code (env.slice start stop)

theorem Reported.readsUnknown {code literal : String} (h : Reported env found code literal)
    (hcode : code = Problem.Cause.unknownCommand.code) : ReadsUnknown env literal := by
  cases h with
  | unexpectedToken => exact absurd hcode (by decide)
  | unknownSymbol => exact absurd hcode (by decide)
  | unknownCommand hreads => exact hreads

/-- What can be read from the source with the standard notations. -/
inductive Tree (env : Env) (found : List Diagnostic) : Expression → Prop where
  | number {literal : String} {value : Number} (h : Number.ofLiteral? literal = some value) :
    Tree env found (.number value)
  | infinity : Tree env found (.ofDouble (.infinity false))
  | letter (c : Char) : Tree env found (.symbol (String.singleton c))
  | command (name : String) : Tree env found (.symbol ("\\" ++ name))
  | named {name : String} (h : name ∈ names) : Tree env found (.symbol name)
  | identifier {name : String} (hne : name ≠ "") (h : Identifies env.source name) :
    Tree env found (.symbol name)
  | text (content : String) : Tree env found (.text content)
  | apply {head : Expression} {arguments : List Expression} (hhead : Tree env found head)
    (h : ∀ e ∈ arguments, Tree env found e) : Tree env found (.apply head arguments)
  | error {code literal : String} (h : Reported env found code literal) :
    Tree env found (.error code literal)
  | missing : Tree env found .missing

theorem mem_names {n : Notation} {trigger : String} (hn : n ∈ Dictionary.standardEntries)
    (htrigger : n.trigger = some trigger) : n.name ∈ names := by
  refine List.mem_cons_of_mem _ (List.mem_cons_of_mem _ (List.mem_map_of_mem ?_))
  rw [List.mem_filter, htrigger]
  exact ⟨hn, rfl⟩

theorem error_notMem_names : "Error" ∉ names := by
  decide +kernel

namespace Tree

theorem function {arguments : List Expression} (hname : name ∈ names)
    (h : ∀ e ∈ arguments, Tree env found e) : Tree env found (.function name arguments) :=
  .apply (.named hname) h

theorem pair (hlhs : Tree env found lhs) (hrhs : Tree env found rhs) :
    ∀ e ∈ [lhs, rhs], Tree env found e := by
  simp only [List.forall_mem_cons]
  exact ⟨hlhs, hrhs, List.forall_mem_nil _⟩

theorem digit (run : String) :
    Tree env found
      (((Number.ofLiteral? (String.ofList (run.toList.take 1))).map .number).getD .missing) := by
  cases h : Number.ofLiteral? (String.ofList (run.toList.take 1)) with
  | none => exact .missing
  | some value => exact .number h

/-- A tree under a name of a notation is an application, and no error node. -/
theorem arguments_of_headName? (h : Tree env found e) (hname : e.headName? = some name)
    (hmem : name ∈ names) : ∃ arguments, e = .apply (.symbol name) arguments ∧
      ∀ a ∈ arguments, Tree env found a := by
  cases h with
  | @apply head arguments hhead harguments =>
    cases head with
    | symbol head =>
      cases hname
      exact ⟨arguments, rfl, harguments⟩
    | _ => cases hname
  | error =>
    cases hname
    exact absurd hmem error_notMem_names
  | _ => cases hname

theorem sequenceItems (h : Tree env found e) : ∀ a ∈ e.sequenceItems, Tree env found a := by
  unfold Expression.sequenceItems
  split
  · exact List.forall_mem_nil _
  · obtain ⟨_, heq, harguments⟩ := h.arguments_of_headName? rfl (by decide +kernel)
    cases heq
    exact harguments
  · exact List.forall_mem_singleton.mpr h

/-- What names there are in a tree. -/
theorem symbol_cases (h : Tree env found (.symbol name)) :
    (∃ c, name = String.singleton c) ∨ (∃ command, name = "\\" ++ command) ∨ name ∈ names ∨
      name ≠ "" ∧ Identifies env.source name := by
  cases h with
  | letter c => exact .inl ⟨c, rfl⟩
  | command name => exact .inr (.inl ⟨name, rfl⟩)
  | named h => exact .inr (.inr (.inl h))
  | identifier hne h => exact .inr (.inr (.inr ⟨hne, h⟩))

/-- An application of `Error` is a reported error node, unless the source names an identifier so. -/
theorem of_headName?_error (h : Tree env found e) (hname : e.headName? = some "Error") :
    Identifies env.source "Error" ∨
      ∃ code literal, e = .error code literal ∧ Reported env found code literal := by
  cases h with
  | @apply head arguments hhead _ =>
    cases head with
    | symbol head =>
      cases hname
      rcases hhead.symbol_cases with ⟨c, hc⟩ | ⟨command, hcommand⟩ | hmem | ⟨-, hidentifies⟩
      · have hlist := congrArg String.toList hc
        rw [String.toList_singleton] at hlist
        cases hlist
      · have hlist := congrArg String.toList hcommand
        rw [String.toList_append] at hlist
        cases hlist
      · exact absurd hmem error_notMem_names
      · exact .inl hidentifies
    | _ => cases hname
  | error h => exact .inr ⟨_, _, rfl, h⟩
  | _ => cases hname

/-- The nodes of a tree are trees, but for the heads of error nodes. -/
theorem of_nodeOf {n : Expression} (hn : n.NodeOf e) (h : Tree env found e) :
    Tree env found n ∨ n = .symbol "Error" := by
  induction hn with
  | self => exact .inl h
  | head hhead ih =>
    cases h with
    | apply htree _ => exact ih htree
    | error _ =>
      cases hhead
      exact .inr rfl
  | argument hmem _ ih =>
    cases h with
    | apply _ htrees => exact ih (htrees _ hmem)
    | error _ =>
      refine ih (List.forall_mem_cons.mpr ⟨?_, List.forall_mem_singleton.mpr (.text _)⟩ _ hmem)
      exact .function (by decide +kernel) (List.forall_mem_singleton.mpr (.text _))
  | entry hmem _ ih => cases h

/-- A chain that may grow is one of the operator itself. -/
theorem extend (hlhs : Tree env found lhs) (hrhs : Tree env found rhs) (hname : name ∈ names)
    {grows : Bool} (hgrows : grows → lhs.headName? = some name) :
    Tree env found (extend name grows lhs rhs) ∧
      (Parser.extend name grows lhs rhs).headName? = some name := by
  cases grows with
  | false => exact ⟨.function hname (pair hlhs hrhs), rfl⟩
  | true =>
    obtain ⟨arguments, rfl, harguments⟩ := hlhs.arguments_of_headName? (hgrows rfl) hname
    refine ⟨.function hname (List.forall_mem_append.mpr ⟨harguments, ?_⟩), rfl⟩
    exact List.forall_mem_singleton.mpr hrhs

end Tree

/-! ### Numerals and single digits -/

theorem yields_number (negative : Bool) (s : State) :
    Yields env found (fun e _ => Tree env found e) s (number env negative) := by
  unfold number
  refine .current fun _ => .after (advancing env).wholeDigits fun whole _ => ?_
  refine .after ((advancing env).fractionDigits whole) fun fraction _ => ?_
  refine .after (advancing env).exponent fun exponent _ => ?_
  dsimp only
  split
  · next h => exact .pure (.number h)
  · exact .get fun _ => .record fun _ => .pure fun h => .error (.unexpectedToken h)

theorem yields_firstDigit (run : String) (s : State) :
    Yields env found (fun e _ => Tree env found e) s (firstDigit run) := by
  unfold firstDigit
  split
  · exact .pure .missing
  · exact .advance (.pure (.digit run))
  · exact .cutDigit (.pure (.digit run))

/-! ### Groups and arguments -/

/-- The readers of the next level read trees. -/
structure Inner.Trees (env : Env) (found : List Diagnostic) (inner : Inner) : Prop where
  expression (loosest : Precedence) (s : State) :
    Yields env found (fun e _ => Tree env found e) s (inner.expression loosest)
  operand (s : State) : Yields env found (fun o _ => ∀ e ∈ o, Tree env found e) s inner.operand

theorem forall_mem_none {P : α → Prop} : ∀ a ∈ (none : Option α), P a :=
  nofun

theorem forall_mem_some {P : α → Prop} {a : α} (h : P a) : ∀ b ∈ some a, P b := by
  intro b hb
  cases hb
  exact h

section

variable (hi : inner.Trees env found)

include hi

theorem yields_body (close : String) (s : State) :
    Yields env found (fun e _ => Tree env found e) s (awaiting close (inner.expression .loosest)) :=
  .awaiting (hi.expression .loosest _) fun _ _ h => h

theorem yields_groupBody (close : String) (closing : Token.Kind) (s : State) :
    Yields env found (fun e _ => Tree env found e) s (groupBody env inner close closing) := by
  refine .bind (yields_body hi close s) fun body t => .current fun _ => ?_
  dsimp only
  split
  · exact .advance (.pure id)
  · exact .recordHere fun _ => .pure id

theorem yields_braceGroup (s : State) :
    Yields env found (fun o _ => ∀ e ∈ o, Tree env found e) s (braceGroup env inner) := by
  refine .skipSpacing (.current fun _ => .ite (fun _ => .advance ?_) fun _ => .pure forall_mem_none)
  exact .bind (yields_groupBody hi _ _ _) fun body _ => .pure forall_mem_some

theorem yields_bracketGroup (s : State) :
    Yields env found (fun o _ => ∀ e ∈ o, Tree env found e) s (bracketGroup env inner) := by
  refine .skipSpacing (.current fun _ => .ite (fun _ => .advance ?_) fun _ => .pure forall_mem_none)
  exact .bind (yields_groupBody hi _ _ _) fun body _ => .pure forall_mem_some

theorem yields_argument (command : String) (s : State) :
    Yields env found (fun e _ => Tree env found e) s (argument env inner command) := by
  unfold argument
  refine .bind (yields_braceGroup hi s) fun group t => ?_
  split
  · next group => exact .pure fun h => h group rfl
  · refine .current fun _ => ?_
    split
    · exact (yields_firstDigit _ t).mono fun _ _ he _ => he
    · refine .bind (hi.operand t) fun operand u => ?_
      split
      · next operand => exact .pure fun h _ => h operand rfl
      · exact .recordHere fun _ => .pure fun _ _ => .missing

end

/-! ### Names and texts -/

/-- The group that a hook reads the text of. -/
def ReadsGroup (env : Env) (s : State) (raw : String) : Prop :=
  ∃ opening rest, s.rest.drop (s.rest.takeWhile State.isSpacing).length = opening :: rest ∧
    opening.kind = .groupOpen ∧ raw = groupText env.source opening rest

theorem readsGroup_rawGroup (s : State) :
    Yields env found (fun o _ => ∀ raw ∈ o, ReadsGroup env s raw) s (rawGroup env) := by
  refine .skipSpacing (.get fun _ => ?_)
  have hrest := State.rest_forward s (s.rest.takeWhile State.isSpacing).length
  generalize s.forward (s.rest.takeWhile State.isSpacing).length = u at hrest
  split
  · exact .pure forall_mem_none
  · next opening rest hu =>
    rw [hu] at hrest
    refine .ite (fun _ => .pure forall_mem_none) fun hopen => ?_
    have hkind : opening.kind = .groupOpen := by simpa using hopen
    have hgroup {raw : String} (hraw : raw = groupText env.source opening rest) :
        ∀ raw' ∈ some raw, ReadsGroup env s raw' :=
      forall_mem_some ⟨opening, rest, hrest.symm, hkind, hraw⟩
    split
    · next count hcount =>
      refine .skip (.get fun _ => .pure (hgroup ?_))
      obtain ⟨closing, hclosing, -⟩ := getElem?_of_closing? hcount
      have hplace : u.rest[count + 1]? = some closing := by
        rw [hu]
        exact hclosing
      rw [State.previous_forward_succ hplace, groupText, hcount, Option.bind_some, hclosing]
      rfl
    · next hnone =>
      refine .skip (.recordHere fun _ => .pure (hgroup ?_))
      rw [groupText, hnone]
      rfl

/-! ### Reading hooks -/

/-- The token right before the state is one of the source and has the trigger. -/
def Behind (env : Env) (trigger : String) (s : State) : Prop :=
  ∃ token, token.trigger? = some trigger ∧ token :: s.rest <:+ Token.meaningful env.source

theorem State.OfSource.behind {trigger : String} (hs : s.OfSource env)
    (h : (s.current env).trigger? = some trigger) : Behind env trigger (s.forward 1) := by
  cases hrest : s.rest with
  | nil =>
    rw [State.current_of_rest_nil hrest] at h
    cases h
  | cons t rest =>
    rw [State.current_of_rest hrest] at h
    rw [State.OfSource, hrest] at hs
    have hdigits : t.digits? = none := by
      unfold Token.digits?
      split
      · next hkind =>
        rw [Token.trigger?, hkind] at h
        cases h
      · rfl
    refine ⟨t, h, ?_⟩
    rw [State.rest_forward, hrest]
    exact LeftOf.cons_suffix hs hdigits

/-- The tokens that have triggers. -/
theorem trigger?_cases {token : Token} {trigger : String} (h : token.trigger? = some trigger) :
    (∃ name, token.kind = .command name ∧ "\\" ++ name = trigger) ∨
      (∃ c, (token.kind = .letter c ∨ token.kind = .punct c) ∧ String.singleton c = trigger) ∨
      token.kind = .optionalOpen ∧ "[" = trigger ∨ token.kind = .optionalClose ∧ "]" = trigger := by
  rw [Token.trigger?] at h
  cases hkind : token.kind with
  | command name =>
    rw [hkind] at h
    exact .inl ⟨name, rfl, Option.some.inj h⟩
  | letter c =>
    rw [hkind] at h
    exact .inr (.inl ⟨c, .inl rfl, Option.some.inj h⟩)
  | punct c =>
    rw [hkind] at h
    exact .inr (.inl ⟨c, .inr rfl, Option.some.inj h⟩)
  | optionalOpen =>
    rw [hkind] at h
    exact .inr (.inr (.inl ⟨rfl, Option.some.inj h⟩))
  | optionalClose =>
    rw [hkind] at h
    exact .inr (.inr (.inr ⟨rfl, Option.some.inj h⟩))
  | _ =>
    rw [hkind] at h
    cases h

/-- A trigger of a backslash and several letters is the one of a command. -/
theorem isCommand_of_trigger? {token : Token} (name : String) (hname : name ≠ "")
    (h : token.trigger? = some ("\\" ++ name)) : token.isCommand name := by
  have hlength {c : Char} (h : String.singleton c = "\\" ++ name) : False := by
    have hlist := congrArg String.toList h
    simp only [String.toList_singleton, String.toList_append] at hlist
    obtain ⟨-, hnil⟩ := List.cons.inj hlist
    exact hname (String.toList_inj.mp hnil.symm)
  rcases trigger?_cases h with ⟨name', hkind, hname'⟩ | ⟨c, -, hc⟩ | ⟨-, hc⟩ | ⟨-, hc⟩
  · have hsame : name' = name := by simpa using hname'
    rw [Token.isCommand, hkind, hsame]
    exact beq_self_eq_true _
  · exact (hlength hc).elim
  · exact (hlength (c := '[') hc).elim
  · exact (hlength (c := ']') hc).elim

/-- The hook, behind its trigger, reads trees from trees. -/
def HookTrees (env : Env) (found : List Diagnostic) (inner : Inner) (trigger : String)
    (hook : ReadingHook) : Prop :=
  ∀ (lhs : Option Expression) (s : State), Behind env trigger s →
    Yields env found (fun o _ => (∀ e ∈ lhs, Tree env found e) → ∀ e ∈ o, Tree env found e) s
      (run env inner (hook lhs))

section

variable (hi : inner.Trees env found)

include hi

theorem hookTrees_unaryPlus : HookTrees env found inner "+" Readers.unaryPlus := by
  refine fun lhs s _ => .bind (hi.expression _ s) fun operand t => .pure fun he _ => ?_
  split
  · exact forall_mem_none
  · exact forall_mem_some he

theorem hookTrees_script {trigger : String} (hname : name ∈ names) (command : String) :
    HookTrees env found inner trigger (Readers.script name command) := by
  refine fun lhs s _ => .bind (yields_argument hi command s) fun argument t => .pure fun he hlhs => ?_
  have hbase : Tree env found (lhs.getD .missing) := by
    cases lhs with
    | none => exact .missing
    | some lhs => exact hlhs lhs rfl
  exact forall_mem_some (.function hname (.pair hbase he))

theorem hookTrees_squareRoot : HookTrees env found inner "\\sqrt" Readers.squareRoot := by
  refine fun lhs s _ => .bind (yields_bracketGroup hi s) fun index t => ?_
  refine .bind (yields_argument hi "\\sqrt" t) fun radicand u => .pure fun hradicand hindex _ => ?_
  cases index with
  | none =>
    have hname : "Sqrt" ∈ names := by decide +kernel
    exact forall_mem_some (.function hname (List.forall_mem_singleton.mpr hradicand))
  | some index =>
    have hname : "Root" ∈ names := by decide +kernel
    exact forall_mem_some (.function hname (.pair hradicand (hindex index rfl)))

theorem hookTrees_placeholder : HookTrees env found inner "\\placeholder" Readers.placeholder := by
  refine fun lhs s _ => .bind (yields_bracketGroup hi s) fun index t => ?_
  exact .bind (readsGroup_rawGroup t) fun raw u => .pure fun _ _ _ => forall_mem_some .missing

end

theorem yields_missingArgument (command : String) (s : State) :
    Yields env found (fun o _ => ∀ e ∈ o, Tree env found e) s
      (run env inner (Readers.missingArgument command)) :=
  .recordHere fun _ => .pure (forall_mem_some .missing)

/-- The group is read right behind the command, up to spacing. -/
theorem identifies_of_readsGroup {raw : String} {c : Char} {cs : List Char}
    (hcommand : Behind env "\\operatorname" s ∨ Behind env "\\mathrm" s)
    (hraw : ReadsGroup env s raw) (hname : Text.withoutBlanks raw.toList = c :: cs) :
    String.ofList (c :: cs) ≠ "" ∧ Identifies env.source (String.ofList (c :: cs)) := by
  obtain ⟨opening, rest, hrest, hopen, rfl⟩ := hraw
  have hsplit : s.rest = s.rest.takeWhile State.isSpacing ++ opening :: rest := by
    rw [← hrest]
    exact (List.prefix_iff_eq_append.mp (List.takeWhile_prefix _)).symm
  obtain ⟨command, hkind, hsuffix⟩ : ∃ command : Token,
      (command.isCommand "operatorname" ∨ command.isCommand "mathrm") ∧
        command :: s.rest <:+ Token.meaningful env.source := by
    rcases hcommand with ⟨command, htrigger, hsuffix⟩ | ⟨command, htrigger, hsuffix⟩
    · exact ⟨command, .inl (isCommand_of_trigger? "operatorname" (by decide) htrigger), hsuffix⟩
    · exact ⟨command, .inr (isCommand_of_trigger? "mathrm" (by decide) htrigger), hsuffix⟩
  rw [hsplit] at hsuffix
  refine ⟨fun hempty => ?_, command, _, opening, rest, hsuffix, hkind,
    fun t ht => List.mem_takeWhile_imp ht, hopen, ?_⟩
  · have hlist := congrArg String.toList hempty
    rw [String.toList_ofList] at hlist
    cases hlist
  · rw [String.toList_ofList, hname]

theorem hookTrees_identifier {trigger : String}
    (htrigger : trigger = "\\operatorname" ∨ trigger = "\\mathrm") :
    HookTrees env found inner trigger Readers.identifier := by
  intro lhs s hs
  have hcommand : Behind env "\\operatorname" s ∨ Behind env "\\mathrm" s := by
    rcases htrigger with rfl | rfl
    · exact .inl hs
    · exact .inr hs
  refine .bind (readsGroup_rawGroup s) fun raw t => ?_
  cases raw with
  | none => exact (yields_missingArgument _ t).mono fun _ _ he _ _ => he
  | some raw =>
    dsimp only [Reading.bind]
    split
    · exact (yields_missingArgument _ t).mono fun _ _ he _ _ => he
    · next hne =>
      cases hname : Text.withoutBlanks raw.toList with
      | nil => exact absurd hname hne
      | cons c cs =>
        refine .pure fun hraw _ => ?_
        obtain ⟨hempty, hidentifies⟩ := identifies_of_readsGroup hcommand (hraw raw rfl) hname
        exact forall_mem_some (.identifier hempty hidentifies)

theorem hookTrees_text : HookTrees env found inner "\\text" Readers.text := by
  refine fun lhs s _ => .bind (readsGroup_rawGroup s) fun raw t => ?_
  cases raw with
  | none => exact (yields_missingArgument _ t).mono fun _ _ he _ _ => he
  | some raw => exact .pure fun _ _ => forall_mem_some (.text _)

theorem hookTrees_standard (hi : inner.Trees env found) {follows : Bool} {trigger : String}
    {hook : ReadingHook} (h : Readers.Standard follows trigger hook) :
    HookTrees env found inner trigger hook := by
  cases h with
  | unaryPlus => exact hookTrees_unaryPlus hi
  | power => exact hookTrees_script hi (by decide +kernel) "^"
  | subscript => exact hookTrees_script hi (by decide +kernel) "_"
  | squareRoot => exact hookTrees_squareRoot hi
  | operatorname => exact hookTrees_identifier (.inl rfl)
  | mathrm => exact hookTrees_identifier (.inr rfl)
  | text => exact hookTrees_text
  | placeholder => exact hookTrees_placeholder hi
  | infinity => exact fun lhs s _ => .pure fun _ => forall_mem_some .infinity

end Parser

end TexFormula
