import TexFormula.Proofs.Excerpt.Groups
import TexFormula.Proofs.ParsedTrees.Expression
import TexFormula.Proofs.Places
import TexFormula.Proofs.Reads
import TexFormula.Serializer

/-!
# Unknown commands on their own

An unknown command becomes an error node that holds its source text, with the groups behind it that are
closed. Read as a source of its own that text is the same error node, and it is what the node is written
as (`parse_of_unknownCommand`): wherever the command stands, nothing around it has a part in how its
groups are read. So it is with the error nodes of unknown commands in the tree of a source
(`exists_parse_eq_of_nodeOf`).
-/

namespace TexFormula

/-! ### Where nothing else is read -/

/-- Hooks in front of operands answer something, but for plus signs. -/
theorem Readers.Standard.gives_operand {trigger : String} {hook : ReadingHook}
    (h : Standard false trigger hook) (hplus : trigger ≠ "+") (lhs : Option Expression) :
    (hook lhs).Gives fun o => o.isSome := by
  have hmissing (command : String) : (missingArgument command).Gives fun o => o.isSome :=
    .ask fun _ => .done rfl
  have hidentifier : (identifier lhs).Gives fun o => o.isSome := by
    refine .ask fun raw => ?_
    cases raw with
    | none => exact hmissing _
    | some raw =>
      simp only [Reading.bind]
      split
      · exact hmissing _
      · exact .done rfl
  cases h with
  | unaryPlus => exact absurd rfl hplus
  | squareRoot => exact .ask fun _ => .ask fun _ => .done rfl
  | operatorname => exact hidentifier
  | mathrm => exact hidentifier
  | text =>
    refine .ask fun raw => ?_
    cases raw with
    | none => exact hmissing _
    | some raw => exact .done rfl
  | placeholder => exact .ask fun _ => .ask fun _ => .done rfl
  | infinity => exact .done rfl

namespace Parser

variable {env : Env} {inner : Inner} {s t : State}

theorem isSome_applyNotation {n : Notation} {trigger : String}
    (hn : n ∈ Dictionary.standard.operands trigger) (hplus : trigger ≠ "+") (s : State) :
    Ensures (fun o _ => o.isSome) s (applyNotation env inner n) := by
  obtain ⟨hmem, htrigger⟩ := Dictionary.entry_of_mem_operands hn
  have hfollows : n.followsOperand = false := by
    have hkept := (List.mem_filter.mp hn).2
    simpa using hkept
  unfold applyNotation
  split
  · next hook hreader =>
    have hhook := Dictionary.standard_of_reader_eq hmem htrigger hreader
    rw [hfollows] at hhook
    exact .map (ensures_run (hhook.gives_operand hplus none) s) fun o t ho => Option.isSome_map.trans ho
  · next hreader =>
    cases hkind : n.kind with
    | symbol => exact .pure rfl
    | prefixOp => exact ensures_of_value fun _ _ => .pure rfl
    | matchfix close => exact ensures_of_value fun _ _ => .pure rfl
    | command count => exact ensures_of_value fun _ _ => .pure rfl
    | function => exact ensures_of_value fun _ _ => .pure rfl
    | infixOp variadic => rw [Notation.followsOperand, hkind] at hfollows; cases hfollows
    | postfixOp => rw [Notation.followsOperand, hkind] at hfollows; cases hfollows
    | custom =>
      have hread : (Dictionary.standardEntries.all fun n => match n.kind with
          | .custom => n.reader.isSome || n.trigger.isNone
          | _ => true) = true := rfl
      have hhooked := List.all_eq_true.mp hread n hmem
      rw [hkind, hreader, htrigger] at hhooked
      cases hhooked

/-- Where nothing else is left an operand is read as an unknown token. -/
theorem runs_operandWithin_of_atUnknown (hd : env.dictionary = .standard) (h : AtUnknown env inner s)
    {fuel : Nat} {o : Option Operand} :
    Runs (operandWithin env inner (fuel + 1)) s o t ↔
      Runs (orElse (unknown env inner) (operandWithin env inner fuel)) s o t := by
  obtain ⟨u, hknown⟩ := h.known
  rw [runs_operandWithin_iff hd, pastSpacing_of_current h.spaced]
  constructor
  · rintro (⟨hstop, -⟩ | ⟨-, hsome, hfound⟩ | ⟨-, hoperator, -⟩ | ⟨-, hruns⟩)
    · rw [h.goes] at hstop
      cases hstop
    · obtain ⟨rfl, -⟩ := hfound.det hknown
      cases hsome
    · rw [h.operator] at hoperator
      cases hoperator
    · exact hruns
  · exact fun hruns => .inr (.inr (.inr ⟨h, hruns⟩))

/-! ### The command and its groups -/

/-- Where a command is known to nobody. -/
theorem AtUnknown.of_command {name : String} (hd : env.dictionary = .standard)
    (hkind : (s.current env).kind = .command name)
    (hspaced : State.isSpacing (s.current env) = false) (hgoes : s.atTerminator env = false)
    (hoperands : Dictionary.standard.operands ("\\" ++ name) = [])
    (hoperator : Dictionary.standard.hasOperator ("\\" ++ name) = false) (hleft : name ≠ "left") :
    AtUnknown env inner s where
  spaced := hspaced
  goes := hgoes
  known := by
    have hbuiltin : Runs (builtin env inner) s none s := by
      rw [builtin, runs_get]
      simp only [hkind, beq_eq_false_iff_ne.mpr hleft]
      exact .pure none s
    refine ⟨s, runs_orElse.mpr (.inr ⟨s, hbuiltin, ?_⟩)⟩
    rw [notated, runs_current, Token.trigger?, hkind]
    show Runs (firstNotation env inner (env.dictionary.operands ("\\" ++ name))) s none s
    rw [hd, hoperands]
    exact .pure none s
  operator := by
    rw [Token.trigger?, hkind, hd]
    exact hoperator

/-- No notation is filed under the name of an unknown command. -/
theorem AtUnknown.operands_eq_nil {name : String} (hd : env.dictionary = .standard)
    (h : AtUnknown env inner s) (hkind : (s.current env).kind = .command name) :
    Dictionary.standard.operands ("\\" ++ name) = [] := by
  obtain ⟨u, hknown⟩ := h.known
  rcases runs_orElse.mp hknown with ⟨hsome, -⟩ | ⟨v, hbuiltin, hnotated⟩
  · cases hsome
  · rw [(begun_builtin s none v hbuiltin).eq_of_none rfl, notated, runs_current, Token.trigger?,
      hkind] at hnotated
    change Runs (firstNotation env inner (env.dictionary.operands ("\\" ++ name))) s none u at hnotated
    rw [hd] at hnotated
    cases hoperands : Dictionary.standard.operands ("\\" ++ name) with
    | nil => rfl
    | cons n others =>
      rw [hoperands] at hnotated
      rcases runs_orElse.mp hnotated with ⟨hsome, -⟩ | ⟨x, hnone, -⟩
      · cases hsome
      · rcases runs_attempt.mp hnone with ⟨-, -, y, hy⟩ | ⟨hsome, -⟩
        · have hplus : "\\" ++ name ≠ "+" := fun heq => by
            have hlist := congrArg String.toList heq
            simp at hlist
          have hn : n ∈ Dictionary.standard.operands ("\\" ++ name) := hoperands ▸ List.mem_cons_self
          rw [runs_advance] at hy
          cases isSome_applyNotation hn hplus _ _ _ hy
        · cases hsome

theorem AtUnknown.ne_left {name : String} (h : AtUnknown env inner s)
    (hkind : (s.current env).kind = .command name) : name ≠ "left" := by
  rintro rfl
  obtain ⟨u, hknown⟩ := h.known
  rcases runs_orElse.mp hknown with ⟨hsome, -⟩ | ⟨v, hbuiltin, -⟩
  · cases hsome
  · rw [builtin, runs_get] at hbuiltin
    simp only [hkind] at hbuiltin
    obtain ⟨x, y, -, hend⟩ := runs_bind.mp hbuiltin
    cases (runs_pure.mp hend).1

/-- No delimiter has to be waited for where the same command stands elsewhere. -/
theorem AtUnknown.elsewhere {env' : Env} {inner' : Inner} {s' : State} {name : String}
    (hd : env.dictionary = .standard) (hd' : env'.dictionary = .standard) (h : AtUnknown env inner s)
    (hkind : (s.current env).kind = .command name) (hkind' : (s'.current env').kind = .command name)
    (hclosers : s'.closers = []) : AtUnknown env' inner' s' := by
  have hspaced := h.spaced
  have hgoes := h.goes
  have hoperator := h.operator
  rw [State.isSpacing, hkind] at hspaced
  rw [State.atTerminator, hkind] at hgoes
  rw [Token.trigger?, hkind, hd] at hoperator
  refine .of_command hd' hkind' ?_ ?_ (h.operands_eq_nil hd hkind) hoperator (h.ne_left hkind)
  · rw [State.isSpacing, hkind']
    exact hspaced
  · rw [State.atTerminator, hkind', hclosers]
    exact Bool.or_eq_false_iff.mpr ⟨(Bool.or_eq_false_iff.mp hgoes).1, rfl⟩

theorem disposition_command (name : String) :
    UnknownTokenPolicy.standard.disposition ("\\" ++ name) = .error := by
  show UnknownTokenPolicy.standardDisposition ("\\" ++ name) = .error
  rw [UnknownTokenPolicy.standardDisposition, String.toList_append]
  rfl

/-- With the default options an unknown command is an error node with its source text, up to the end of
its last closed group. -/
theorem runs_unknownCommand_standard {source name : String} {x : Token} {o : Option Operand} :
    Runs (unknownCommand (.standard source) inner x name) s o t ↔ ∃ found u,
      Runs (unknownArguments (.standard source) inner (s.forward 1).rest.length x.stop) (s.forward 1)
        found u ∧
      o = some (unknownError ((Env.standard source).slice x.start found.2)) ∧
      t = u.record ⟨.unknownCommand, "\\" ++ name⟩ x.start found.2 := by
  have hdisposed (found : List Expression × Nat) : disposed (.standard source) x name found = (do
      record .unknownCommand ("\\" ++ name) x.start found.2
      return some (unknownError ((Env.standard source).slice x.start found.2))) := by
    unfold disposed
    rw [show (Env.standard source).options.unknownTokens.disposition ("\\" ++ name) = .error from
      disposition_command name]
    rfl
  have htaken : (Env.standard source).options.argumentsOfUnknownCommands = true := rfl
  rw [unknownCommand_eq, runs_advance, if_pos htaken, runs_get, runs_bind]
  refine exists_congr fun found => exists_congr fun u => and_congr_right fun _ => ?_
  rw [hdisposed]
  exact runs_pure

/-- A piece of a source and the source that consists of it. -/
def Excerpt.ofPiece {source piece : String} {front back : List Char}
    (h : source.toList = front ++ (piece.toList ++ back)) (before after : List Token)
    (outside : List String) : Excerpt where
  whole := .standard source
  part := .standard piece
  offset := Text.byteLength front
  before := before
  after := after
  outside := outside
  dictionary := rfl
  dictionary' := rfl
  options := rfl
  leavesNothingOut := leavesNothingOut_standard source
  slice := by
    intro start stop hstart hstop
    have hsize : (Env.standard piece).source.utf8ByteSize = Text.byteLength piece.toList :=
      (Text.byteLength_toList piece).symm
    rw [hsize] at hstart hstop
    show Text.slice source _ _ = Text.slice piece _ _
    rw [Text.slice, Text.slice, h, Text.slice?_inside front back hstart hstop]

/-- The tokens of a piece are inside of it. -/
theorem Excerpt.inside_of_mem {w : Excerpt} {x : Token}
    (h : x ∈ Token.meaningful w.part.source) : w.Inside x := by
  obtain ⟨-, text, hcovers, hslice⟩ := Token.exists_covers_of_mem_meaningful h
  obtain ⟨hle, -, hstop⟩ := Text.bounds_of_slice? hslice
  have hbound := hstop.le
  rw [Text.byteLength_toList] at hbound
  refine ⟨fun _ => Nat.le_trans hle hbound, hbound, fun hplus => ?_⟩
  have heq {c : Char} (h : some (String.singleton c) = some "+") : c = '+' :=
    @eq_of_trigger?_eq c '+' h
  unfold Token.trigger? at hplus
  rw [Token.isPunct, beq_iff_eq]
  cases hkind : x.kind with
  | punct c => rw [hkind] at hplus; rw [heq hplus]
  | letter c =>
    rw [hkind] at hplus hcovers
    obtain ⟨-, hletter⟩ := hcovers
    rw [heq hplus] at hletter
    exact absurd hletter (by decide)
  | command name =>
    rw [hkind] at hplus
    have hlist := congrArg String.toList (Option.some.inj hplus)
    simp at hlist
  | optionalOpen | optionalClose => rw [hkind] at hplus; revert hplus; decide
  | _ => rw [hkind] at hplus; cases hplus

theorem slice_standard {source : String} {front text back : List Char} {start stop : Nat}
    (h : source.toList = front ++ (text ++ back)) (hstart : Text.byteLength front = start)
    (hstop : start + Text.byteLength text = stop) :
    (Env.standard source).slice start stop = String.ofList text := by
  have hsome := Text.slice?_eq_some_iff.mpr ⟨front, back, h, hstart, hstop⟩
  show String.ofList ((Text.slice? source.toList start stop).getD []) = _
  rw [hsome]
  rfl

/-- The command and the groups behind it are tokens of the source up to where the last group ends. -/
theorem exists_own_of_groups {source name : String} {levels stop : Nat} {bodies : List Expression}
    (hs : s.OfSource (.standard source)) (hkind : (s.current (.standard source)).kind = .command name)
    (h : Groups (.standard source) (nested (.standard source) levels) (s.forward 1)
      (s.current (.standard source)).stop bodies t stop) :
    ∃ x own before init y, s.rest = x :: (own ++ t.rest) ∧
      Token.meaningful source = before ++ (x :: own ++ t.rest) ∧ x :: own = init ++ [y] ∧
      y.stop = stop ∧ (own ≠ [] → Closed own) := by
  obtain ⟨x, rest, hrest⟩ := List.exists_cons_of_ne_nil
    (@State.rest_ne_nil_of_current (.standard source) s fun hending => by
      rw [hending] at hkind
      cases hkind)
  have hcurrent : s.current (.standard source) = x := State.current_of_rest hrest
  rw [hcurrent] at hkind h
  have hsuffix : x :: rest <:+ Token.meaningful source := by
    rw [State.OfSource, hrest] at hs
    exact hs.cons_suffix (by rw [Token.digits?, hkind])
  have hnext : (s.forward 1).rest = rest := by
    rw [State.rest_forward, hrest]
    rfl
  obtain ⟨own, hown, hlast⟩ := h.exists_tokens Dictionary.hasStandardHooks_standard (by
    rw [hnext]
    exact (List.suffix_cons x rest).trans hsuffix)
  rw [hnext] at hown
  obtain ⟨before, hbefore⟩ := hsuffix
  rw [hown] at hrest hbefore
  rcases hlast with ⟨rfl, hstop⟩ | ⟨init, y, rfl, hy, hstop⟩
  · exact ⟨x, [], before, [], x, hrest, hbefore.symm, rfl, hstop.symm, fun hne => absurd rfl hne⟩
  · exact ⟨x, init ++ [y], before, x :: init, y, hrest, hbefore.symm, rfl, hstop,
      fun _ => .concat hy init⟩

/-- A command and the groups behind it are a piece of the source, and in it they are the same and all
there is. -/
theorem exists_groups_of_piece {source name : String} {levels : Nat} {found : List Expression × Nat}
    (hs : s.OfSource (.standard source)) (hkind : (s.current (.standard source)).kind = .command name)
    (h : Runs (unknownArguments (.standard source) (nested (.standard source) levels)
      (s.forward 1).rest.length (s.current (.standard source)).stop) (s.forward 1) found t) :
    ∃ piece x rest bodies u,
      (Env.standard source).slice (s.current (.standard source)).start found.2 = piece ∧
      (State.ofSource piece).rest = x :: rest ∧ x.kind = .command name ∧ x.start = 0 ∧
      Groups (.standard piece) (nested (.standard piece) levels) ((State.ofSource piece).forward 1)
        x.stop bodies u piece.utf8ByteSize ∧ u.rest = [] := by
  obtain ⟨bodies, v, hgroups⟩ := exists_groups_of_unknownArguments h
  obtain ⟨x, own, before, init, y, hrest, hbefore, hinit, hstop, hclosed⟩ :=
    exists_own_of_groups hs hkind hgroups
  have hcurrent : s.current (.standard source) = x := State.current_of_rest hrest
  rw [hcurrent] at hkind hgroups
  obtain ⟨front, text, back, hsource, hstart, hend, hpiece⟩ := Token.exists_piece hbefore hinit
  have htext : (String.ofList text).toList = text := String.toList_ofList
  have hslice : (Env.standard source).slice x.start found.2 = String.ofList text :=
    slice_standard hsource hstart (hend.trans hstop)
  rw [← htext] at hsource
  -- the state behind the command and the state behind the first token of the piece
  let w := Excerpt.ofPiece hsource s.seen v.rest s.closers
  have hplace : w.place = Token.shift x.start := hstart ▸ rfl
  obtain ⟨x₀, own₀, hmeaningful, hx, hown₀⟩ := List.map_eq_cons_iff.mp hpiece
  rw [← hplace] at hx hown₀
  have hnext₀ : (State.ofSource (String.ofList text)).forward 1 =
      { State.ofSource (String.ofList text) with seen := [x₀], rest := own₀ } :=
    (State.forward_succ hmeaningful 0).trans (State.forward_zero _)
  have halong : w.Along (s.forward 1) ((State.ofSource (String.ofList text)).forward 1) := by
    rw [State.forward_succ hrest 0, State.forward_zero, hnext₀]
    refine ⟨congrArg (· :: s.seen) hx.symm, ?_, rfl, fun t ht => ?_, List.cons_ne_nil _ _⟩
    · exact congrArg (· ++ v.rest) hown₀.symm
    · exact @Excerpt.inside_of_mem w t (hmeaningful ▸ .tail _ ht)
  have hclosed₀ : own₀ ≠ [] → Closed own₀ := fun hne => by
    refine @Excerpt.closed_of_place w own₀ ?_
    rw [hown₀]
    exact hclosed fun hnil => hne (List.map_eq_nil_iff.mp (hown₀.trans hnil))
  obtain ⟨u, stop, hgroups', hnil, hfound⟩ := @Groups.mirror levels _ _ _ _ _ w _ x₀.stop hgroups halong
    (by rw [hnext₀]; rfl) (by rw [hnext₀]; exact hclosed₀) rfl (congrArg Token.stop hx).symm
  have hoffset : w.offset = x.start := hstart
  obtain rfl : stop = (String.ofList text).utf8ByteSize := by
    rw [← Text.byteLength_toList, htext]
    omega
  have hzero : x₀.start = 0 := by
    have hplaced : x₀.start + w.offset = x.start := congrArg Token.start hx
    omega
  exact ⟨String.ofList text, x₀, own₀, bodies, u, hcurrent ▸ hslice, hmeaningful,
    (congrArg Token.kind hx).trans hkind, hzero, hgroups', hnil⟩

/-- Where a command and its groups are a whole source it is their error node. -/
theorem exists_parse_eq_of_groups {piece name : String} {x : Token} {rest : List Token} {levels : Nat}
    {bodies : List Expression} {u : State} (hrest : (State.ofSource piece).rest = x :: rest)
    (hkind : x.kind = .command name) (hstart : x.start = 0) (hlevels : levels ≤ 63)
    (hat : AtUnknown (.standard piece) (nested (.standard piece) 63) (.ofSource piece))
    (h : Groups (.standard piece) (nested (.standard piece) levels) ((State.ofSource piece).forward 1)
      x.stop bodies u piece.utf8ByteSize) (hnil : u.rest = []) :
    ∃ diagnostics, parse .standard {} piece = .ok ⟨(unknownError piece).expression, diagnostics⟩ := by
  have hwhole : (Env.standard piece).slice x.start piece.utf8ByteSize = piece := by
    have hpiece : piece.toList = [] ++ (piece.toList ++ []) := (List.append_nil _).symm
    have hstop : x.start + Text.byteLength piece.toList = piece.utf8ByteSize := by
      rw [hstart, Nat.zero_add, Text.byteLength_toList]
    exact (slice_standard hpiece hstart.symm hstop).trans String.ofList_toList
  have hcurrent : (State.ofSource piece).current (.standard piece) = x := State.current_of_rest hrest
  have harguments := (h.of_le Dictionary.hasStandardHooks_standard hlevels).runs_unknownArguments
    Dictionary.hasStandardHooks_standard hnil (Nat.le_refl _)
  have hcommand : Runs (unknownCommand (.standard piece) (nested (.standard piece) 63) x name)
      (.ofSource piece) (some (unknownError piece))
      (u.record ⟨.unknownCommand, "\\" ++ name⟩ x.start piece.utf8ByteSize) :=
    runs_unknownCommand_standard.mpr ⟨_, u, harguments, by rw [hwhole], rfl⟩
  have hunknown : Runs (unknown (.standard piece) (nested (.standard piece) 63)) (.ofSource piece)
      (some (unknownError piece))
      (u.record ⟨.unknownCommand, "\\" ++ name⟩ x.start piece.utf8ByteSize) := by
    unfold unknown
    rw [runs_current, hcurrent]
    simp only [hkind]
    exact hcommand
  have hoperand : Runs (operand (.standard piece) (nested (.standard piece) 63)) (.ofSource piece)
      (some (unknownError piece))
      (u.record ⟨.unknownCommand, "\\" ++ name⟩ x.start piece.utf8ByteSize) := by
    unfold operand
    rw [runs_get, hrest, List.length_cons, runs_operandWithin_of_atUnknown rfl hat]
    exact runs_orElse.mpr (.inl ⟨rfl, hunknown⟩)
  exact ⟨_, parse_eq_of_runs_expression rfl rfl
    ((leadsTo_of_operand hoperand).runs (stops_of_nil hnil)) hnil⟩

theorem run_unknownError (literal : String) :
    Serializer.run ⟨.standard, {}⟩ (unknownError literal).expression = .ok ⟨literal, []⟩ :=
  rfl

/-- An unknown command is read in the same way where the levels are counted in the state. -/
theorem runs_unknownCommand_within {name : String} {x : Token} {levels : Nat} {o : Option Operand}
    (hdepth : s.depth + levels = env.options.maxDepth) :
    Runs (unknownCommand env (within env levels) x name) s o t ↔
      Runs (unknownCommand env (nested env levels) x name) s o t := by
  have hsame : SameAtDepths env.options.maxDepth levels
      (unknownCommand env (within env levels) x name)
      (unknownCommand env (nested env levels) x name) :=
    (inners_within env levels).unknownCommand x name
  rw [Runs, Runs, hsame.apply_eq hdepth]

/-- What is read where an unknown command is next is the error node for a text that is parsed as this
error node. -/
theorem AtCommand.exists_parse_eq {source name : String} {levels : Nat} {o : Option Operand}
    (hat : AtCommand (.standard source) levels name s)
    (h : Runs (unknownCommand (.standard source) (within (.standard source) levels)
      (s.current (.standard source)) name) s o t) :
    ∃ literal diagnostics, o = some (unknownError literal) ∧
      parse .standard {} literal = .ok ⟨(unknownError literal).expression, diagnostics⟩ := by
  rw [runs_unknownCommand_within hat.depth] at h
  obtain ⟨found, u, harguments, rfl, -⟩ := runs_unknownCommand_standard.mp h
  obtain ⟨piece, x, rest, bodies, v, hslice, hrest, hx, hstart, hgroups, hnil⟩ :=
    exists_groups_of_piece hat.source hat.command harguments
  have hat' : AtUnknown (.standard piece) (nested (.standard piece) 63) (.ofSource piece) :=
    hat.unknown.elsewhere rfl rfl hat.command (by rw [State.current_of_rest hrest, hx]) rfl
  obtain ⟨diagnostics, hparse⟩ := exists_parse_eq_of_groups hrest hx hstart
    (Nat.le_of_lt_succ hat.below) hat' hgroups hnil
  exact ⟨piece, diagnostics, by rw [hslice], hparse⟩

/-- The error node of an unknown command anywhere in the tree of a source is what its own text is parsed
as, and it is written as this text. -/
theorem exists_parse_eq_of_nodeOf {source literal : String} {p : Parsed}
    (h : parse .standard {} source = .ok p) (hidentifies : ¬Identifies source "Error")
    (hn : (unknownError literal).expression.NodeOf p.expression) :
    ∃ diagnostics,
      parse .standard {} literal = .ok ⟨(unknownError literal).expression, diagnostics⟩ ∧
      Serializer.run ⟨.standard, {}⟩ (unknownError literal).expression = .ok ⟨literal, []⟩ := by
  obtain ⟨levels, name, s, t, hat, hruns⟩ := readsUnknown_of_parse h hidentifies hn
  obtain ⟨literal', diagnostics, hsame, hparse⟩ := hat.exists_parse_eq hruns
  cases hsame
  exact ⟨diagnostics, hparse, run_unknownError literal⟩

/-- Wherever an unknown command stands in a source, the text of its error node is parsed as this error
node, and the node is written as this text. The states are those of `AtCommand`, from which the error
nodes in the tree of a source come (`readsUnknown_of_parse`). -/
theorem parse_of_unknownCommand {source name : String} {levels : Nat} {o : Option Operand}
    (hs : s.OfSource (.standard source)) (hdepth : s.depth + levels = 64) (hlevels : levels < 64)
    (hat : AtUnknown (.standard source) (within (.standard source) levels) s)
    (hkind : (s.current (.standard source)).kind = .command name)
    (h : Runs (unknownCommand (.standard source) (within (.standard source) levels)
      (s.current (.standard source)) name) s o t) :
    ∃ literal diagnostics, o = some (unknownError literal) ∧
      parse .standard {} literal = .ok ⟨(unknownError literal).expression, diagnostics⟩ ∧
      Serializer.run ⟨.standard, {}⟩ (unknownError literal).expression = .ok ⟨literal, []⟩ := by
  obtain ⟨literal, diagnostics, ho, hparse⟩ :=
    AtCommand.exists_parse_eq ⟨hs, hdepth, hlevels, hat, hkind⟩ h
  exact ⟨literal, diagnostics, ho, hparse, run_unknownError literal⟩

/-- A source with an unknown command inside of parentheses. -/
def enclosedCommand : String :=
  "(\\foo\x7ba)[b]\x7dc)"

/-- The state behind the opening parenthesis, one level down. -/
def behindParenthesis : State :=
  { (State.ofSource enclosedCommand).forward 1 with closers := [")"], depth := 2 }

theorem parse_of_unknownCommand_enclosed : ∃ t o,
    behindParenthesis.OfSource (.standard enclosedCommand) ∧ behindParenthesis.depth + 62 = 64 ∧
    AtUnknown (.standard enclosedCommand) (within (.standard enclosedCommand) 62) behindParenthesis ∧
    (behindParenthesis.current (.standard enclosedCommand)).kind = .command "foo" ∧
    Runs (unknownCommand (.standard enclosedCommand) (within (.standard enclosedCommand) 62)
      (behindParenthesis.current (.standard enclosedCommand)) "foo") behindParenthesis o t ∧
    ∃ literal diagnostics, o = some (unknownError literal) ∧
      parse .standard {} literal = .ok ⟨(unknownError literal).expression, diagnostics⟩ ∧
      Serializer.run ⟨.standard, {}⟩ (unknownError literal).expression = .ok ⟨literal, []⟩ := by
  have hs : behindParenthesis.OfSource (.standard enclosedCommand) := by
    show LeftOf _ ((State.ofSource enclosedCommand).forward 1).rest
    rw [State.rest_forward]
    exact .drop (.suffix (List.suffix_refl _)) 1
  have hkind : (behindParenthesis.current (.standard enclosedCommand)).kind = .command "foo" := by
    decide +kernel
  have hat : AtUnknown (.standard enclosedCommand) (within (.standard enclosedCommand) 62)
      behindParenthesis :=
    .of_command rfl hkind (by decide +kernel) (by decide +kernel) (by decide +kernel)
      (by decide +kernel) (by decide)
  have hread : ((unknownCommand (.standard enclosedCommand) (within (.standard enclosedCommand) 62)
      (behindParenthesis.current (.standard enclosedCommand)) "foo").run' behindParenthesis).isSome :=
    by decide +kernel
  obtain ⟨o, ho⟩ := Option.isSome_iff_exists.mp hread
  obtain ⟨t, ht⟩ := exists_runs_of_eq_some ho
  exact ⟨t, o, hs, rfl, hat, hkind, ht, parse_of_unknownCommand hs rfl (by decide) hat hkind ht⟩

end Parser

end TexFormula
