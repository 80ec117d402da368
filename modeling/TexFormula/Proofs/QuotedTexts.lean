import TexFormula.Proofs.NestingLimit
import TexFormula.Proofs.Places
import TexFormula.Proofs.RawGroups
import TexFormula.Proofs.StandardHooks

/-!
# Texts from the source

`Quoting env e`: the names and texts in a tree are those of the notations and codes of problems, or
else pieces of the source and what is made of them. Whatever the dictionary, numerals, groups and the
hooks of the standard notations are read as such trees, and the parser stays in place.
-/

namespace TexFormula.Parser

variable {α : Type} {env : Env} {inner : Inner} {reports : List Problem} {s t : State}
  {e lhs rhs : Expression} {name : String}

/-! ### Trees -/

/-- The names that the parser and the standard hooks give. -/
def givenNames : List String :=
  ["Sequence", "Multiply", "Power", "Subscript", "Sqrt", "Root"]

/-- The names in a tree. A letter or a command is a name as it stands in the source. -/
inductive Env.Names (env : Env) : String → Prop where
  | given {name : String} (h : name ∈ givenNames) : Names env name
  | entry {n : Notation} (h : n ∈ env.dictionary.entries) : Names env n.name
  | quoted {name : String} (h : env.Quotes name) : Names env name
  | identifier {raw : String} (h : env.Encloses raw) :
    Names env (String.ofList (Text.withoutBlanks raw.toList))

/-- The text of an error: a piece of the source, which is not empty, or the plain form of a numeral that
stands there and is no number. -/
def Env.HoldsText (env : Env) (cause : Problem.Cause) (literal : String) : Prop :=
  env.Quotes literal ∨
    cause = .unexpectedToken ∧ ∃ start stop, env.Spans start stop ∧ env.Numeral literal start stop

/-- The names of the tree are such ones, its texts are those of groups, and its errors hold what they
are about. Where a notation has the name of errors, an error may grow by operands as any chain does. -/
inductive Quoting (env : Env) : Expression → Prop where
  | number (value : Number) : Quoting env (.number value)
  | symbol {name : String} (h : env.Names name) : Quoting env (.symbol name)
  | text {raw : String} (h : env.Encloses raw) : Quoting env (.text (Text.unescape raw))
  | apply {head : Expression} {arguments : List Expression} (hhead : Quoting env head)
    (h : ∀ e ∈ arguments, Quoting env e) : Quoting env (.apply head arguments)
  | error {cause : Problem.Cause} {literal : String} {more : List Expression}
    (hheld : env.HoldsText cause literal) (hmore : ∀ e ∈ more, Quoting env e) :
    Quoting env (.function "Error"
      (.function "LatexString" [.text literal] :: .text cause.code :: more))
  | missing : Quoting env .missing

namespace Quoting

theorem function {arguments : List Expression} (hname : env.Names name)
    (h : ∀ e ∈ arguments, Quoting env e) : Quoting env (.function name arguments) :=
  .apply (.symbol hname) h

theorem pair (hlhs : Quoting env lhs) (hrhs : Quoting env rhs) :
    ∀ e ∈ [lhs, rhs], Quoting env e := by
  simp [hlhs, hrhs]

theorem held {cause : Problem.Cause} {literal : String} (h : env.HoldsText cause literal) :
    Quoting env (.error cause.code literal) :=
  .error h (List.forall_mem_nil _)

theorem sequenceItems (h : Quoting env e) : ∀ a ∈ e.sequenceItems, Quoting env a := by
  unfold Expression.sequenceItems
  split
  · simp
  · next items =>
    generalize he : Expression.apply (.symbol "Sequence") items = e at h
    cases h with
    | apply _ h =>
      obtain ⟨-, rfl⟩ := Expression.apply.inj he
      exact h
    | error => simp [Expression.function] at he
    | _ => cases he
  · simpa using h

/-- A chain grows by an operand, whatever it is a chain of. -/
theorem extend (hname : env.Names name) (grows : Bool) (hlhs : Quoting env lhs)
    (hrhs : Quoting env rhs) : Quoting env (extend name grows lhs rhs) := by
  have hone := List.forall_mem_singleton.mpr hrhs
  unfold Parser.extend
  split
  · cases hlhs with
    | apply hhead h => exact .apply hhead (List.forall_mem_append.mpr ⟨h, hone⟩)
    | error hheld hmore => exact .error hheld (List.forall_mem_append.mpr ⟨hmore, hone⟩)
  · exact .function hname (.pair hlhs hrhs)

end Quoting

/-! ### Numerals -/

theorem mem_of_mem_digitGroups {isMark : Token → Bool} {group : Token} {stop : Nat} :
    ∀ {tokens : List Token}, group ∈ digitGroups isMark stop tokens → group ∈ tokens
  | [], h => by cases h
  | [_], h => by cases h
  | mark :: first :: rest, h => by
    unfold digitGroups at h
    split at h
    · rcases List.mem_cons.mp h with rfl | h
      · simp
      · simp [mem_of_mem_digitGroups h]
    · cases h

theorem places_thinSpaceGroups (run : String) (s : State) :
    Places env reports (fun _ _ => True) s (thinSpaceGroups env run) :=
  .get fun _ => .skip (.pure trivial)

theorem places_commaGroups (run : String) (s : State) :
    Places env reports (fun _ _ => True) s (commaGroups env run) := by
  refine .get fun hs => ?_
  dsimp only
  split
  · exact .pure trivial
  · next last hlast =>
    refine .ite (fun _ => .skip (.pure trivial)) fun _ => .ite (fun _ => ?_) fun _ => .pure trivial
    have hmem := mem_of_mem_digitGroups (List.mem_of_getLast? hlast)
    have hfirst := hs.fits_previous.bounds
    have hbounds := (hs.fits_of_mem hmem).bounds
    exact .record ⟨Nat.le_trans (hs.previous_le hmem) hbounds.1, hfirst.2.1, hbounds.2.2⟩ rfl
      (.pure trivial)

theorem State.exists_rest_of_digits? {run : String} (h : (s.current env).digits? = some run) :
    ∃ t rest, s.rest = t :: rest := by
  cases hrest : s.rest with
  | nil => rw [State.current_of_rest_nil hrest] at h; cases h
  | cons t rest => exact ⟨t, rest, rfl⟩

theorem places_wholeDigits (s : State) :
    Places env reports (fun _ _ => True) s (wholeDigits env) := by
  refine .current fun _ => ?_
  split
  · exact .pure trivial
  · next run _ =>
    refine .advance (.get fun _ => ?_)
    exact .ite (fun _ => places_commaGroups run _) fun _ => places_thinSpaceGroups run _

theorem places_barredDigits (s : State) :
    Places env reports (fun _ _ => True) s barredDigits := by
  refine .get fun _ => ?_
  split
  · refine .ite (fun _ => ?_) fun _ => .pure trivial
    split
    · exact .skip (.pure trivial)
    · exact .pure trivial
  · exact .pure trivial

theorem places_fractionDigits (whole : String) (s : State) :
    Places env reports (fun _ _ => True) s (fractionDigits env whole) := by
  have hbarred (fraction : String) (t : State) : Places env reports (fun _ _ => True) t
      (do return (fraction, ← barredDigits)) :=
    .bind (places_barredDigits t) fun _ _ _ _ _ => .pure trivial
  refine .get fun _ => ?_
  dsimp only
  refine .ite (fun _ => .pure trivial) fun _ =>
    .ite (fun _ => .advance (.current fun _ => ?_)) fun _ => ?_
  · split
    · exact .advance (.bind (places_thinSpaceGroups _ _) fun _ t _ _ _ => hbarred _ t)
    · exact hbarred _ _
  · exact .ite (fun _ => .advance (.pure trivial)) fun _ => .pure trivial

theorem places_exponent (s : State) : Places env reports (fun _ _ => True) s exponent := by
  refine .get fun _ => ?_
  split
  · exact .skip (.pure trivial)
  · exact .pure trivial

/-- The tokens that a number takes stand over the source from the first one to the last. -/
theorem spans_and_numeral_of_takes {negative : Bool} {tokens : List Token}
    (hs : s.Placed env reports) (htakes : s.Takes tokens t) (hstarts : startsNumber tokens)
    (hsign : negative = true → ∃ sign, sign.isPunct '-' ∧ env.Leaves (sign :: s.rest))
    (hnone : Number.ofLiteral? (plainForm negative tokens) = none) :
    env.Spans (s.current env).start (t.previous env).stop ∧
      env.Numeral (plainForm negative tokens) (s.current env).start (t.previous env).stop := by
  obtain ⟨first, more, rfl⟩ : ∃ first more, tokens = first :: more :=
    List.exists_cons_of_ne_nil (by rintro rfl; cases hstarts)
  obtain ⟨init, last, hlast⟩ : ∃ init last, first :: more = init ++ [last] :=
    ⟨_, _, (List.dropLast_append_getLast (List.cons_ne_nil first more)).symm⟩
  have hrest : s.rest = first :: (more ++ t.rest) := htakes.rest
  have hprevious : t.previous env = last := State.Takes.previous_eq (hlast ▸ htakes)
  have hmem : last ∈ s.rest := by
    rw [htakes.rest, hlast]
    simp
  have hleaves := hs.leaves
  rw [htakes.rest] at hleaves
  have hown := hleaves.tokensOf_eq hlast
  rw [State.current_of_rest hrest, hprevious]
  have hfits := hs.fits_of_mem (show first ∈ s.rest by simp [hrest])
  have hfits' := hs.fits_of_mem hmem
  refine ⟨⟨?_, hfits.bounds.2.1, hfits'.bounds.2.2⟩, hnone, by rwa [hown], negative, by rw [hown], ?_⟩
  · exact Nat.le_trans (hs.beyond_start hrest last hmem) hfits'.bounds.1
  · intro hnegative
    obtain ⟨sign, hminus, hbefore⟩ := hsign hnegative
    rw [htakes.rest] at hbefore
    refine ⟨sign, hminus, ?_⟩
    rw [hown]
    have hlast' : sign :: (first :: more) = (sign :: init) ++ [last] := by rw [hlast]; rfl
    exact Env.Leaves.tokensOf_eq hbefore hlast'

/-- A numeral that is no number is about the tokens from the first one to the last. -/
theorem places_number (negative : Bool) (hstarts : startsNumber s.rest = true)
    (hsign : negative = true → ∃ sign, sign.isPunct '-' ∧ env.Leaves (sign :: s.rest)) :
    Places env reports (fun e _ => Quoting env e) s (number env negative) := by
  refine fun hs => Places.current (fun _ => ?_) hs
  refine .bind ((places_wholeDigits s).ensuring (ensures_wholeDigits s)) ?_
  rintro whole t - - ⟨-, own, htakes, hown, rfl, hwhole⟩
  refine .bind ((places_fractionDigits _ t).ensuring (ensures_fractionDigits _ t)) ?_
  rintro ⟨fraction, repeating⟩ u - - ⟨-, decimals, htakes', hpoint, hdecimals, heq, hbehind⟩
  obtain ⟨rfl, rfl⟩ := Prod.mk.inj heq
  refine .bind ((places_exponent u).ensuring (ensures_exponent u)) ?_
  rintro exponent v - - ⟨-, power, htakes'', htimes, rfl⟩
  have hall := htakes.trans (htakes'.trans htakes'')
  have hnumber : startsNumber (own ++ (decimals ++ power)) := by
    rcases hwhole with ⟨hnone, rfl⟩ | hwhole
    · have hsame : s.rest = t.rest := htakes.rest
      obtain ⟨hdot, hdigits⟩ := point_of_startsNumber hnone hstarts
      unfold State.current at hdot
      unfold State.following at hdigits
      rw [hsame] at hdot hdigits
      exact startsNumber_append (hbehind hdot hdigits) power
    · exact startsNumber_append hwhole _
  dsimp only
  rw [← plainForm_parts negative hown hpoint hdecimals htimes]
  split
  · exact .pure (.number _)
  · next hnone =>
    obtain ⟨hspans, hnumeral⟩ := spans_and_numeral_of_takes hs hall hnumber hsign hnone
    refine .get fun _ => ?_
    exact .record hspans (.inr hnumeral) (.pure (.held (.inr ⟨rfl, _, _, hspans, hnumeral⟩)))

theorem Quoting.digit (run : String) : Quoting env
    (((Number.ofLiteral? (String.ofList (run.toList.take 1))).map .number).getD .missing) := by
  cases Number.ofLiteral? (String.ofList (run.toList.take 1)) with
  | none => exact .missing
  | some value => exact .number value

theorem places_firstDigit {run : String} (h : (s.current env).digits? = some run) :
    Places env reports (fun e _ => Quoting env e) s (firstDigit run) := by
  unfold firstDigit
  split
  · exact .pure .missing
  · exact .advance (.pure (.digit run))
  · next hnil hone =>
    cases hrun : run.toList with
    | nil => exact absurd hrun hnil
    | cons c cs =>
      cases cs with
      | nil => exact absurd hrun (hone c)
      | cons d ds =>
        rw [← hrun]
        exact .cutDigit h hrun (.pure (.digit run))

/-! ### Groups and arguments -/

/-- The readers of the next level read such trees. -/
structure Inner.Placing (env : Env) (reports : List Problem) (inner : Inner) : Prop where
  expression (loosest : Precedence) (s : State) :
    Places env reports (fun e _ => Quoting env e) s (inner.expression loosest)
  operand (s : State) : Places env reports (fun o _ => ∀ e ∈ o, Quoting env e) s inner.operand

section

variable (hi : inner.Placing env reports)

include hi

theorem places_body (close : String) (s : State) :
    Places env reports (fun e _ => Quoting env e) s (awaiting close (inner.expression .loosest)) :=
  .awaiting (hi.expression .loosest _) fun _ h => h

theorem places_groupBody (close : String) (closing : Token.Kind) (s : State) :
    Places env reports (fun e _ => Quoting env e) s (groupBody env inner close closing) := by
  refine .bind (places_body hi close s) fun body t _ _ hbody => .current fun _ => ?_
  dsimp only
  exact .ite (fun _ => .advance (.pure hbody)) fun _ =>
    .recordHere (fun _ _ => trivial) fun _ => .pure hbody

theorem places_braceGroup (s : State) :
    Places env reports (fun o _ => ∀ e ∈ o, Quoting env e) s (braceGroup env inner) := by
  refine .skipSpacing (.current fun _ => .ite (fun _ => .advance ?_) fun _ => .pure (by simp))
  exact .bind (places_groupBody hi _ _ _) fun body _ _ _ hbody => .pure (by simpa using hbody)

theorem places_bracketGroup (s : State) :
    Places env reports (fun o _ => ∀ e ∈ o, Quoting env e) s (bracketGroup env inner) := by
  refine .skipSpacing (.current fun _ => .ite (fun _ => .advance ?_) fun _ => .pure (by simp))
  exact .bind (places_groupBody hi _ _ _) fun body _ _ _ hbody => .pure (by simpa using hbody)

theorem places_argument (command : String) (s : State) :
    Places env reports (fun e _ => Quoting env e) s (argument env inner command) := by
  unfold argument
  refine .bind (places_braceGroup hi s) fun group t _ _ hgroup => ?_
  split
  · next group => exact .pure (hgroup group rfl)
  refine .current fun _ => ?_
  split
  · next run hrun => exact places_firstDigit hrun
  refine .bind (hi.operand t) fun operand u _ _ hoperand => ?_
  split
  · next operand => exact .pure (hoperand operand rfl)
  · exact .recordHere (fun _ _ => trivial) fun _ => .pure .missing

end

/-- The text of a group reaches from one brace to the other, or to the end of the source. -/
theorem encloses_of_fits {opening : Token} {stop : Nat} (hopening : opening.Fits env.source)
    (hkind : opening.kind = .groupOpen) (hspans : env.Spans opening.stop stop)
    (hclosing : stop = env.source.utf8ByteSize ∨
      ∃ closing : Token, closing.start = stop ∧ closing.kind = .groupClose ∧ closing.Fits env.source) :
    env.Encloses (env.slice opening.stop stop) := by
  obtain ⟨text, hbrace, hcovers⟩ := hopening
  rw [hkind] at hcovers
  obtain rfl : text = ['\x7b'] := hcovers
  have hgroup := Text.slice?_append hbrace hspans.slice?
  rcases hclosing with hend | ⟨closing, rfl, hkind, text, hslice, hcovers⟩
  · exact ⟨opening.start, stop, [], by simp, by simpa using hgroup, fun _ => hend⟩
  · rw [hkind] at hcovers
    obtain rfl : text = ['\x7d'] := hcovers
    exact ⟨opening.start, closing.stop, ['\x7d'], by simp, Text.slice?_append hgroup hslice, nofun⟩

theorem places_rawGroup (s : State) :
    Places env reports (fun o _ => ∀ raw ∈ o, env.Encloses raw) s (rawGroup env) := by
  refine .skipSpacing (.get fun hu => ?_)
  generalize s.forward (s.rest.takeWhile State.isSpacing).length = u at hu
  split
  · exact .pure (by simp)
  next opening rest hrest =>
  refine .ite (fun _ => .pure (by simp)) fun hopen => ?_
  have hkind : opening.kind = .groupOpen := by simpa using hopen
  have hfits : opening.Fits env.source := hu.fits_of_mem (by simp [hrest])
  split
  · next count hcount =>
    obtain ⟨closing, hclosing, hclose⟩ := getElem?_of_closing? hcount
    have hplace : u.rest[count + 1]? = some closing := by
      rw [hrest]
      exact hclosing
    have hmem : closing ∈ (u.forward 1).rest := by
      rw [State.rest_forward, hrest]
      exact List.mem_of_getElem? hclosing
    refine .skip (.get fun _ => .pure ?_)
    rw [State.previous_forward_succ hplace]
    have hfits' := hu.fits_of_mem (List.mem_of_getElem? hplace)
    have hspans : env.Spans opening.stop closing.start :=
      ⟨hu.beyond_stop hrest closing hmem, hfits.bounds.2.2, hfits'.bounds.2.1⟩
    simpa using encloses_of_fits hfits hkind hspans (.inr ⟨closing, rfl, hclose, hfits'⟩)
  · refine .skip (.recordHere (fun _ _ => trivial) fun _ => .pure ?_)
    have hending := (fits_ending : env.ending.Fits env.source).bounds
    have hle := hfits.bounds.2.2.le
    rw [Text.byteLength_toList] at hle
    have hspans : env.Spans opening.stop env.ending.start := ⟨hle, hfits.bounds.2.2, hending.2.1⟩
    simpa using encloses_of_fits hfits hkind hspans (.inl rfl)

/-! ### Hooks -/

theorem places_missingArgument (command : String) (s : State) :
    Places env reports (fun o _ => ∀ e ∈ o, Quoting env e) s
      (run env inner (Readers.missingArgument command)) :=
  .recordHere (fun _ _ => trivial) fun _ => .pure (by simpa using Quoting.missing)

/-- From such a tree the hook reads such trees. -/
def HookPlaces (env : Env) (reports : List Problem) (inner : Inner) (hook : ReadingHook) : Prop :=
  ∀ (lhs : Option Expression) (s : State), (∀ e ∈ lhs, Quoting env e) →
    Places env reports (fun o _ => ∀ e ∈ o, Quoting env e) s (run env inner (hook lhs))

theorem hookPlaces_identifier : HookPlaces env reports inner Readers.identifier := by
  intro lhs s _
  refine .bind (places_rawGroup s) fun raw t _ _ hraw => ?_
  cases raw with
  | none => exact places_missingArgument _ t
  | some raw =>
    dsimp only [Reading.bind]
    split
    · exact places_missingArgument _ t
    · exact .pure (by simpa using Quoting.symbol (.identifier (hraw raw rfl)))

theorem hookPlaces_text : HookPlaces env reports inner Readers.text := by
  intro lhs s _
  refine .bind (places_rawGroup s) fun raw t _ _ hraw => ?_
  cases raw with
  | none => exact places_missingArgument _ t
  | some raw => exact .pure (by simpa using Quoting.text (hraw raw rfl))

section

variable (hi : inner.Placing env reports)

include hi

theorem hookPlaces_script (hname : name ∈ givenNames) (command : String) :
    HookPlaces env reports inner (Readers.script name command) := by
  intro lhs s hlhs
  refine .bind (places_argument hi command s) fun argument t _ _ hargument => .pure ?_
  have hbase : Quoting env (lhs.getD .missing) := by
    cases lhs with
    | none => exact .missing
    | some lhs => exact hlhs lhs rfl
  simpa using Quoting.function (.given hname) (.pair hbase hargument)

theorem hookPlaces_squareRoot : HookPlaces env reports inner Readers.squareRoot := by
  intro lhs s _
  refine .bind (places_bracketGroup hi s) fun index t _ _ hindex => ?_
  refine .bind (places_argument hi "\\sqrt" t) fun radicand u _ _ hradicand => .pure ?_
  cases index with
  | none =>
    have hroot : Quoting env (.function "Sqrt" [radicand]) :=
      .function (.given (by decide)) (List.forall_mem_singleton.mpr hradicand)
    simpa using hroot
  | some index =>
    have hroot : Quoting env (.function "Root" [radicand, index]) :=
      .function (.given (by decide)) (.pair hradicand (hindex index rfl))
    simpa using hroot

theorem hookPlaces_standard {follows : Bool} {trigger : String} {hook : ReadingHook}
    (h : Readers.Standard follows trigger hook) : HookPlaces env reports inner hook := by
  cases h with
  | unaryPlus =>
    refine fun lhs s _ => .bind (hi.expression _ s) fun operand t _ _ hoperand => .pure ?_
    split
    · simp
    · simpa using hoperand
  | power => exact hookPlaces_script hi (by decide) "^"
  | subscript => exact hookPlaces_script hi (by decide) "_"
  | squareRoot => exact hookPlaces_squareRoot hi
  | operatorname => exact hookPlaces_identifier
  | mathrm => exact hookPlaces_identifier
  | text => exact hookPlaces_text
  | placeholder =>
    refine fun lhs s _ => .bind (places_bracketGroup hi s) fun index t _ _ _ => ?_
    exact .bind (places_rawGroup t) fun raw u _ _ _ => .pure (by simpa using Quoting.missing)
  | infinity => exact fun lhs s _ => .pure (by simpa [Expression.ofDouble] using Quoting.number _)

/-- The hooks of a dictionary that has standard ones only. -/
theorem hookPlaces_of_mem (hd : env.dictionary.HasStandardHooks) {trigger : String} {n : Notation}
    {hook : ReadingHook} (hn : n ∈ env.dictionary.readAt trigger) (hhook : n.reader = some hook) :
    HookPlaces env reports inner hook := by
  obtain ⟨m, hm, hreader⟩ := hd n (Dictionary.mem_entries_of_mem_readAt hn) hook hhook
  obtain ⟨_, -, hstandard⟩ := Dictionary.hookedAsStandard_standardEntries m hm hook hreader
  exact hookPlaces_standard hi hstandard

end

/-- What a request is answered with is taken from the source, too. -/
def Env.Answers (env : Env) : (request : Request) → request.Answer → Prop
  | .expression _, e => Quoting env e
  | .argument _, e => Quoting env e
  | .braceGroup, o => ∀ e ∈ o, Quoting env e
  | .bracketGroup, o => ∀ e ∈ o, Quoting env e
  | .rawGroup, o => ∀ raw ∈ o, env.Encloses raw
  | .skipSpacing, _ => True
  | .report _, _ => True
  | .glyph _, _ => True

/-- Only what is reported from outside need not quote the source. -/
theorem places_answer (hi : inner.Placing env reports) (request : Request)
    (hreport : ∀ problem, request = .report problem → problem ∈ reports) (s : State) :
    Places env reports (fun a _ => env.Answers request a) s (answer env inner request) := by
  cases request with
  | expression loosest => exact hi.expression loosest s
  | argument command => exact places_argument hi command s
  | braceGroup => exact places_braceGroup hi s
  | bracketGroup => exact places_bracketGroup hi s
  | rawGroup => exact places_rawGroup s
  | skipSpacing => exact fun hs => ⟨hs.forward _, .forward s _, trivial⟩
  | report problem =>
    exact fun hs => ⟨hs.record hs.fits_current.bounds (.inl (hreport problem rfl)),
      ⟨id⟩, trivial⟩
  | glyph name => exact .pure trivial

end TexFormula.Parser
