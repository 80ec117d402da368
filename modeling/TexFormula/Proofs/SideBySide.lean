import TexFormula.Notation.Readers
import TexFormula.Proofs.Nesting
import TexFormula.Proofs.Tokenization

/-!
# Two parses side by side

`SideBySide` are two parses whose sources have the same tokens but may be laid out in other ways, or
else are the same (`exact`). Their states are `Alike` if the tokens match one by one, runs of digits
touch their neighbours on both sides or on none, and the same problems were found. `Twin` programs
end in states that are alike, with values that match, or with the same fault.

What has no effect on how a parse goes on may differ: the text of an unknown command and its groups
shows the layout. Values therefore match in what the parser looks at (`Same`), and they are equal as
long as no such command has been reported (`Clear`).
-/

namespace TexFormula.Parser

section

variable {t t' : Token}

theorem digits?_congr (h : t'.kind = t.kind) : t'.digits? = t.digits? := by
  simp only [Token.digits?, h]

theorem isPunct_congr (h : t'.kind = t.kind) (c : Char) : t'.isPunct c = t.isPunct c := by
  simp only [Token.isPunct, h]

theorem isCommand_congr (h : t'.kind = t.kind) (name : String) :
    t'.isCommand name = t.isCommand name := by
  simp only [Token.isCommand, h]

end

/-- Two parses with the same options. If they are `exact`, the sources are the same. -/
structure SideBySide where
  left : Env
  right : Env
  exact : Prop
  options : right.options = left.options
  source : exact → right.source = left.source

/-- What the parser finds out about an expression. -/
def look (e : Expression) : Bool × Option String :=
  (e.isMissing, e.symbol?)

namespace SideBySide

variable (w : SideBySide)

/-! ### Tokens and states -/

/-- Hooks that make the same of tokens that match. The source text of a group is the same for sure only
if the sources are. -/
inductive Admits : ReadingHook → Prop
  | unaryPlus : Admits Readers.unaryPlus
  | power : Admits Readers.power
  | subscript : Admits Readers.subscript
  | squareRoot : Admits Readers.squareRoot
  | placeholder : Admits Readers.placeholder
  | infinity : Admits Readers.infinity
  | identifier (h : w.exact) : Admits Readers.identifier
  | text (h : w.exact) : Admits Readers.text

/-- Both dictionaries have the same notations at a trigger. -/
structure Known (trigger : String) : Prop where
  readAt : w.right.dictionary.readAt trigger = w.left.dictionary.readAt trigger
  admits : ∀ n ∈ w.left.dictionary.readAt trigger, ∀ hook, n.reader = some hook → w.Admits hook

/-- The tokens are of one kind and stand over the same text. -/
structure Match (t t' : Token) : Prop where
  kind : t'.kind = t.kind
  text : ∃ text, t.kind.Covers text ∧
    Text.slice? w.left.source.toList t.start t.stop = some text ∧
    Text.slice? w.right.source.toList t'.start t'.stop = some text
  same : w.exact → t' = t
  known : ∀ trigger, t.trigger? = some trigger → w.Known trigger

/-- Between a token and the next one: the tokens do not overlap, and where one of them is a run of
digits, they touch on both sides or on none. -/
structure Gap (p q : Token × Token) : Prop where
  left : p.1.stop ≤ q.1.start
  right : p.2.stop ≤ q.2.start
  touch : p.1.digits?.isSome ∨ q.1.digits?.isSome → (p.2.stop = q.2.start ↔ p.1.stop = q.1.start)

/-- The states are at the same place among tokens that match. -/
structure Beside (before after : List (Token × Token)) (s s' : State) : Prop where
  seen : s.seen = before.map (·.1)
  seen' : s'.seen = before.map (·.2)
  rest : s.rest = after.map (·.1)
  rest' : s'.rest = after.map (·.2)
  pairs : ∀ p ∈ before ++ after, w.Match p.1 p.2
  gaps : (before.reverse ++ after).IsChain Gap
  closers : s'.closers = s.closers
  depth : s'.depth = s.depth
  problems : s'.diagnostics.map (·.problem) = s.diagnostics.map (·.problem)
  diagnostics : w.exact → s'.diagnostics = s.diagnostics

def Alike (s s' : State) : Prop :=
  ∃ before after, w.Beside before after s s'

/-- Nothing has been read of which the text may depend on the layout. -/
def Clear (s : State) : Prop :=
  w.exact ∨ ∀ d ∈ s.diagnostics, d.problem.cause ≠ .unknownCommand

/-- The values look the same, and are the same unless they may show the layout. -/
structure Same {α β : Type} (view : α → β) (t : State) (a a' : α) : Prop where
  view : view a' = view a
  eq : w.Clear t → a' = a

/-- From the two states the programs end alike, with values in the relation `R` to each other, or with
the same fault. -/
def Twin {α : Type} (R : State → α → α → Prop) (s s' : State) (m m' : Parser α) : Prop :=
  (∃ a t a' t', Runs m s a t ∧ Runs m' s' a' t' ∧ w.Alike t t' ∧ (w.Clear t → w.Clear s) ∧
    R t a a') ∨
  ∃ fault t t', m s = .error fault t ∧ m' s' = .error fault t'

/-- Programs with the same value. -/
def Equal {α : Type} (_ : State) (a a' : α) : Prop :=
  a' = a

variable {w} {α β γ : Type} {s s' t t' : State} {x x' : Token} {p q : Token × Token}
  {before after : List (Token × Token)}

/-! ### Tokens that match -/

/-- What is left of a run of digits behind the first one. -/
def leftover (t : Token) (run : String) : Token :=
  ⟨.digits (String.ofList (run.toList.drop 1)), t.start + 1, t.stop⟩

theorem cutDigit_of_rest {t : Token} {rest : List Token} {run : String} (h : s.rest = t :: rest)
    (hrun : t.digits? = some run) :
    s.cutDigit =
      { s with rest := leftover t run :: rest, cuts := (s.position, t) :: s.cuts } := by
  unfold State.cutDigit
  simp only [h, hrun]
  rfl

namespace Match

theorem trigger? (h : w.Match x x') : x'.trigger? = x.trigger? := by
  simp only [Token.trigger?, h.kind]

theorem digits? (h : w.Match x x') : x'.digits? = x.digits? :=
  digits?_congr h.kind

theorem isPunct (h : w.Match x x') (c : Char) : x'.isPunct c = x.isPunct c :=
  isPunct_congr h.kind c

theorem isCommand (h : w.Match x x') (name : String) : x'.isCommand name = x.isCommand name :=
  isCommand_congr h.kind name

theorem isSpacing (h : w.Match x x') : State.isSpacing x' = State.isSpacing x := by
  simp only [State.isSpacing, h.kind]

/-- The text of a token is the same on both sides. -/
theorem slice (h : w.Match x x') :
    w.right.slice x'.start x'.stop = w.left.slice x.start x.stop := by
  obtain ⟨text, -, hleft, hright⟩ := h.text
  simp only [Env.slice, Text.slice, hleft, hright]

theorem ending : w.Match w.left.ending w.right.ending where
  kind := rfl
  text := by
    have hslice (source : String) : Text.slice? source.toList source.utf8ByteSize source.utf8ByteSize =
        some [] := by
      rw [Text.slice?_eq_some_iff]
      exact ⟨source.toList, [], by simp, Text.byteLength_toList source, rfl⟩
    exact ⟨[], rfl, hslice _, hslice _⟩
  same h := by simp only [Env.ending, w.source h]
  known _ h := by cases h

theorem leftover {run : String} (h : w.Match x x') (hrun : x.digits? = some run)
    (hlong : 2 ≤ run.toList.length) :
    w.Match (SideBySide.leftover x run) (SideBySide.leftover x' run) := by
  have hkind : x.kind = .digits run := by
    unfold Token.digits? at hrun
    split at hrun
    · next hx => rw [hx, Option.some.inj hrun]
    · cases hrun
  obtain ⟨text, hcovers, hleft, hright⟩ := h.text
  rw [hkind] at hcovers
  obtain ⟨rfl, -, hdigits⟩ := hcovers
  obtain ⟨c, cs, hcs⟩ := List.exists_cons_of_length_pos (Nat.lt_of_lt_of_le Nat.two_pos hlong)
  rw [hcs] at hdigits hleft hright hlong
  have hsize : c.utf8Size = 1 := by
    have hc := Text.toNat_mem_of_isDigit (hdigits c (.head _))
    rw [List.mem_range'_1] at hc
    have hval : c.val ≤ 0x7f := UInt32.le_iff_toNat_le.mpr (by
      have : c.val.toNat = c.toNat := rfl
      rw [this]
      show c.toNat ≤ 127
      omega)
    simp [Char.utf8Size, hval]
  refine ⟨rfl, ⟨cs, ⟨by simp [hcs], ?_, fun d hd => hdigits d (.tail _ hd)⟩, ?_, ?_⟩,
    fun hexact => ?_, ?_⟩
  · rintro rfl
    simp at hlong
  · have htail := Text.slice?_tail hleft
    rwa [hsize] at htail
  · have htail := Text.slice?_tail hright
    rwa [hsize] at htail
  · rw [h.same hexact]
  · intro trigger htrigger
    cases htrigger

end Match

/-! ### States that are alike -/

namespace Beside

theorem pair_before (h : w.Beside before after s s') (hp : p ∈ before) : w.Match p.1 p.2 :=
  h.pairs p (List.mem_append_left _ hp)

theorem pair_after (h : w.Beside before after s s') (hp : p ∈ after) : w.Match p.1 p.2 :=
  h.pairs p (List.mem_append_right _ hp)

/-- One token is read on each side. -/
theorem forward_one (h : w.Beside before (p :: after) s s') :
    w.Beside (p :: before) after (s.forward 1) (s'.forward 1) := by
  obtain ⟨hseen, hseen', hrest, hrest', hpairs, hgaps, hclosers, hdepth, hproblems, hdiagnostics⟩ := h
  rw [State.forward_succ hrest, State.forward_succ hrest', State.forward_zero, State.forward_zero]
  exact
    { seen := by simp [hseen]
      seen' := by simp [hseen']
      rest := rfl
      rest' := rfl
      pairs := by
        intro q hq
        exact hpairs q (by simp at hq ⊢; tauto)
      gaps := by simpa using hgaps
      closers := hclosers
      depth := hdepth
      problems := hproblems
      diagnostics := hdiagnostics }

theorem current (h : w.Beside before after s s') :
    w.Match (s.current w.left) (s'.current w.right) := by
  cases after with
  | nil =>
    rw [State.current_of_rest_nil h.rest, State.current_of_rest_nil h.rest']
    exact .ending
  | cons p after =>
    rw [State.current_of_rest h.rest, State.current_of_rest h.rest']
    exact h.pair_after (.head _)

theorem following (h : w.Beside before after s s') :
    w.Match (s.following w.left) (s'.following w.right) := by
  rcases after with - | ⟨p, - | ⟨q, after⟩⟩
  · simp [State.following, h.rest, h.rest', Match.ending]
  · simp [State.following, h.rest, h.rest', Match.ending]
  · simpa [State.following, h.rest, h.rest'] using h.pair_after (p := q) (.tail _ (.head _))

theorem previous (h : w.Beside before after s s') :
    w.Match (s.previous w.left) (s'.previous w.right) := by
  cases before with
  | nil => simpa [State.previous, h.seen, h.seen'] using h.current
  | cons p before =>
    simpa [State.previous, h.seen, h.seen'] using h.pair_before (p := p) (.head _)

end Beside

namespace Alike

theorem current (h : w.Alike s s') : w.Match (s.current w.left) (s'.current w.right) := by
  obtain ⟨before, after, h⟩ := h
  exact h.current

theorem following (h : w.Alike s s') : w.Match (s.following w.left) (s'.following w.right) := by
  obtain ⟨before, after, h⟩ := h
  exact h.following

theorem previous (h : w.Alike s s') : w.Match (s.previous w.left) (s'.previous w.right) := by
  obtain ⟨before, after, h⟩ := h
  exact h.previous

theorem forward (h : w.Alike s s') (count : Nat) : w.Alike (s.forward count) (s'.forward count) := by
  induction count generalizing s s' with
  | zero => simpa using h
  | succ count ih =>
    obtain ⟨before, after, h⟩ := h
    cases after with
    | nil =>
      rw [State.forward_of_rest_nil h.rest, State.forward_of_rest_nil h.rest']
      exact ⟨before, [], h⟩
    | cons p after =>
      have hnext := ih ⟨p :: before, after, h.forward_one⟩
      rwa [State.forward_forward, State.forward_forward, Nat.add_comm] at hnext

theorem length_rest (h : w.Alike s s') : s'.rest.length = s.rest.length := by
  obtain ⟨before, after, h⟩ := h
  rw [h.rest, h.rest', List.length_map, List.length_map]

theorem isEmpty_rest (h : w.Alike s s') : s'.rest.isEmpty = s.rest.isEmpty := by
  obtain ⟨before, after, h⟩ := h
  rw [h.rest, h.rest', List.isEmpty_map, List.isEmpty_map]

theorem position (h : w.Alike s s') : s'.position = s.position := by
  obtain ⟨before, after, h⟩ := h
  rw [State.position, State.position, h.seen, h.seen', List.length_map, List.length_map]

theorem depth (h : w.Alike s s') : s'.depth = s.depth := by
  obtain ⟨before, after, h⟩ := h
  exact h.depth

theorem problems (h : w.Alike s s') :
    s'.diagnostics.map (·.problem) = s.diagnostics.map (·.problem) := by
  obtain ⟨before, after, h⟩ := h
  exact h.problems

theorem diagnostics (h : w.Alike s s') (hexact : w.exact) : s'.diagnostics = s.diagnostics := by
  obtain ⟨before, after, h⟩ := h
  exact h.diagnostics hexact

/-- The tokens still to be read are of the same kinds. -/
theorem kinds (h : w.Alike s s') : s'.rest.map (·.kind) = s.rest.map (·.kind) := by
  obtain ⟨before, after, h⟩ := h
  rw [h.rest, h.rest', List.map_map, List.map_map]
  exact List.map_congr_left fun p hp => (h.pair_after hp).kind

theorem length_spacing (h : w.Alike s s') :
    (s'.rest.takeWhile State.isSpacing).length = (s.rest.takeWhile State.isSpacing).length := by
  obtain ⟨before, after, h⟩ := h
  have hpairs : ∀ p ∈ after, w.Match p.1 p.2 := fun p hp => h.pair_after hp
  rw [h.rest, h.rest']
  clear h
  induction after with
  | nil => rfl
  | cons p after ih =>
    rw [List.forall_mem_cons] at hpairs
    simp only [List.map_cons, List.takeWhile_cons, hpairs.1.isSpacing]
    split
    · rw [List.length_cons, List.length_cons, ih hpairs.2]
    · rfl

theorem atTerminator (h : w.Alike s s') :
    s'.atTerminator w.right = s.atTerminator w.left := by
  have hcurrent := h.current
  obtain ⟨before, after, h⟩ := h
  simp only [State.atTerminator, hcurrent.kind, hcurrent.trigger?, h.closers]

theorem record (h : w.Alike s s') (problem : Problem) {start stop start' stop' : Nat}
    (hspan : w.exact → start' = start ∧ stop' = stop) :
    w.Alike (s.record problem start stop) (s'.record problem start' stop') := by
  obtain ⟨before, after, h⟩ := h
  refine ⟨before, after, { h with problems := ?_, diagnostics := fun hexact => ?_ }⟩
  · exact congrArg (problem :: ·) h.problems
  · obtain ⟨rfl, rfl⟩ := hspan hexact
    simp [State.record, h.diagnostics hexact]

theorem await (h : w.Alike s s') (close : String) :
    w.Alike { s with closers := close :: s.closers } { s' with closers := close :: s'.closers } := by
  obtain ⟨before, after, h⟩ := h
  exact ⟨before, after, { h with closers := by simp [h.closers] }⟩

theorem dismiss (h : w.Alike s s') :
    w.Alike { s with closers := s.closers.tail } { s' with closers := s'.closers.tail } := by
  obtain ⟨before, after, h⟩ := h
  exact ⟨before, after, { h with closers := by simp [h.closers] }⟩

theorem atDepth (h : w.Alike s s') (f : Nat → Nat) :
    w.Alike { s with depth := f s.depth } { s' with depth := f s'.depth } := by
  obtain ⟨before, after, h⟩ := h
  exact ⟨before, after, { h with depth := by simp [h.depth] }⟩

/-- A digit is taken off the same run on both sides. What is left does not touch the token before
it. -/
theorem cutDigit {run : String} (h : w.Alike s s')
    (hrun : (s.current w.left).digits? = some run) (hlong : 2 ≤ run.toList.length) :
    w.Alike s.cutDigit s'.cutDigit := by
  obtain ⟨before, after, h⟩ := h
  cases after with
  | nil =>
    rw [State.current_of_rest_nil h.rest] at hrun
    cases hrun
  | cons p after =>
    rw [State.current_of_rest h.rest] at hrun
    have hp := h.pair_after (p := p) (.head _)
    have hrun' : p.2.digits? = some run := hp.digits?.trans hrun
    have hgaps := h.gaps
    rw [cutDigit_of_rest h.rest hrun, cutDigit_of_rest h.rest' hrun']
    refine ⟨before, (leftover p.1 run, leftover p.2 run) :: after,
      { h with rest := rfl, rest' := rfl, pairs := fun q hq => ?_, gaps := ?_ }⟩
    · rcases List.mem_append.mp hq with hq | hq
      · exact h.pair_before hq
      · rcases List.mem_cons.mp hq with rfl | hq
        · exact hp.leftover hrun hlong
        · exact h.pair_after (.tail _ hq)
    · rw [List.isChain_append, List.isChain_cons] at hgaps ⊢
      obtain ⟨hbefore, ⟨hnext, hafter⟩, hprevious⟩ := hgaps
      refine ⟨hbefore, ⟨fun q hq => ?_, hafter⟩, fun q hq r hr => ?_⟩
      · have hgap := hnext q hq
        exact ⟨hgap.left, hgap.right, fun _ => hgap.touch (.inl (by rw [hrun]; rfl))⟩
      · cases hr
        have hgap := hprevious q hq p rfl
        have hleft := hgap.left
        have hright := hgap.right
        refine ⟨Nat.le_succ_of_le hleft, Nat.le_succ_of_le hright, fun _ => ?_⟩
        simp only [leftover]
        omega

end Alike

/-! ### Values -/

theorem Clear.of_diagnostics (ht : w.Clear t) (h : t.diagnostics = s.diagnostics) : w.Clear s := by
  rwa [Clear, h] at ht

theorem Clear.of_forward {count : Nat} (h : w.Clear (s.forward count)) : w.Clear s :=
  h.of_diagnostics (State.diagnostics_forward s count)

namespace Same

variable {view : α → β} {a a' : α} {e e' : Expression} {o o' : Option α}

theorem refl (t : State) (a : α) : w.Same view t a a :=
  ⟨rfl, fun _ => rfl⟩

theorem mono (h : w.Same view s a a') (hclear : w.Clear t → w.Clear s) : w.Same view t a a' :=
  ⟨h.view, fun ht => h.eq (hclear ht)⟩

theorem isMissing (h : w.Same look t e e') : e'.isMissing = e.isMissing :=
  congrArg Prod.fst h.view

theorem symbol? (h : w.Same look t e e') : e'.symbol? = e.symbol? :=
  congrArg Prod.snd h.view

theorem some (h : w.Same view t a a') : w.Same (Option.map view) t (some a) (some a') :=
  ⟨by simp [h.view], fun ht => by rw [h.eq ht]⟩

theorem none_or_some (h : w.Same (Option.map view) t o o') :
    o = none ∧ o' = none ∨ ∃ a a', o = Option.some a ∧ o' = Option.some a' ∧ w.Same view t a a' := by
  have hview := h.view
  cases o with
  | none =>
    cases o' with
    | none => exact .inl ⟨rfl, rfl⟩
    | some a' => cases hview
  | some a =>
    cases o' with
    | none => cases hview
    | some a' =>
      exact .inr ⟨a, a', rfl, rfl, by simpa using hview, fun ht => Option.some.inj (h.eq ht)⟩

/-- Applications look the same, whatever their arguments are. -/
theorem function {name : String} {es es' : List Expression} (h : w.Clear t → es' = es) :
    w.Same look t (.function name es) (.function name es') :=
  ⟨rfl, fun ht => by rw [h ht]⟩

end Same

/-! ### Programs -/

namespace Twin

variable {R Q : State → α → α → Prop} {P : State → β → β → Prop} {m m' : Parser α}

theorem pure {a a' : α} (hs : w.Alike s s') (h : R s a a') :
    w.Twin R s s' (Pure.pure a) (Pure.pure a') :=
  .inl ⟨a, s, a', s', .pure a s, .pure a' s', hs, id, h⟩

theorem throw (fault : Fault) : w.Twin R s s' (MonadExcept.throw fault) (MonadExcept.throw fault) :=
  .inr ⟨fault, s, s', rfl, rfl⟩

theorem bind_of_runs {f f' : α → Parser β} (h : w.Twin R s s' m m')
    (hf : ∀ a a' t t', Runs m s a t → w.Alike t t' → (w.Clear t → w.Clear s) → R t a a' →
      w.Twin P t t' (f a) (f' a')) : w.Twin P s s' (m >>= f) (m' >>= f') := by
  rcases h with ⟨a, t, a', t', hm, hm', ht, hclear, ha⟩ | ⟨fault, t, t', hm, hm'⟩
  · rcases hf a a' t t' hm ht hclear ha with ⟨b, u, b', u', hb, hb', hu, hclear', hR⟩ |
      ⟨fault, u, u', hb, hb'⟩
    · exact .inl ⟨b, u, b', u', hm.bind hb, hm'.bind hb', hu, fun h => hclear (hclear' h), hR⟩
    · refine .inr ⟨fault, u, u', ?_, ?_⟩
      · rw [← hb]
        exact bind_eq_of_ok hm
      · rw [← hb']
        exact bind_eq_of_ok hm'
  · exact .inr ⟨fault, t, t', bind_eq_of_error hm, bind_eq_of_error hm'⟩

theorem bind {f f' : α → Parser β} (h : w.Twin R s s' m m')
    (hf : ∀ a a' t t', w.Alike t t' → (w.Clear t → w.Clear s) → R t a a' →
      w.Twin P t t' (f a) (f' a')) : w.Twin P s s' (m >>= f) (m' >>= f') :=
  h.bind_of_runs fun a a' t t' _ ht hclear ha => hf a a' t t' ht hclear ha

/-- Programs whose values are equal. -/
theorem bind_equal {f f' : α → Parser β} (h : w.Twin Equal s s' m m')
    (hf : ∀ a t t', w.Alike t t' → (w.Clear t → w.Clear s) → w.Twin P t t' (f a) (f' a)) :
    w.Twin P s s' (m >>= f) (m' >>= f') := by
  refine h.bind fun a a' t t' ht hclear ha => ?_
  cases ha
  exact hf a t t' ht hclear

theorem mono (h : w.Twin R s s' m m') (hR : ∀ t a a', R t a a' → Q t a a') : w.Twin Q s s' m m' := by
  rcases h with ⟨a, t, a', t', hm, hm', ht, hclear, ha⟩ | h
  · exact .inl ⟨a, t, a', t', hm, hm', ht, hclear, hR t a a' ha⟩
  · exact .inr h

/-- The states before may be changed as long as what is reported is kept. -/
theorem of_step {u u' : State} {k k' : Parser α} (h : w.Twin R u u' k k') (hm : m s = k u)
    (hm' : m' s' = k' u') (hclear : w.Clear u → w.Clear s) : w.Twin R s s' m m' := by
  rcases h with ⟨a, t, a', t', hk, hk', ht, hclear', ha⟩ | ⟨fault, t, t', hk, hk'⟩
  · exact .inl ⟨a, t, a', t', hm.trans hk, hm'.trans hk', ht, fun h => hclear (hclear' h), ha⟩
  · exact .inr ⟨fault, t, t', hm.trans hk, hm'.trans hk'⟩

theorem get {f f' : State → Parser β} (h : w.Twin P s s' (f s) (f' s')) :
    w.Twin P s s' (MonadState.get >>= f) (MonadState.get >>= f') := h

theorem current {f f' : Token → Parser β}
    (h : w.Twin P s s' (f (s.current w.left)) (f' (s'.current w.right))) :
    w.Twin P s s' (Parser.current w.left >>= f) (Parser.current w.right >>= f') := h

theorem atTerminator {f f' : Bool → Parser β} (hs : w.Alike s s')
    (h : w.Twin P s s' (f (s.atTerminator w.left)) (f' (s.atTerminator w.left))) :
    w.Twin P s s' (Parser.atTerminator w.left >>= f) (Parser.atTerminator w.right >>= f') := by
  show w.Twin P s s' (f (s.atTerminator w.left)) (f' (s'.atTerminator w.right))
  rw [hs.atTerminator]
  exact h

theorem skip {count : Nat} {f f' : Unit → Parser β} (hs : w.Alike s s')
    (h : w.Alike (s.forward count) (s'.forward count) →
      w.Twin P (s.forward count) (s'.forward count) (f ()) (f' ())) :
    w.Twin P s s' (Parser.skip count >>= f) (Parser.skip count >>= f') :=
  (h (hs.forward count)).of_step rfl rfl Clear.of_forward

theorem advance {f f' : Unit → Parser β} (hs : w.Alike s s')
    (h : w.Alike (s.forward 1) (s'.forward 1) →
      w.Twin P (s.forward 1) (s'.forward 1) (f ()) (f' ())) :
    w.Twin P s s' (Parser.advance >>= f) (Parser.advance >>= f') :=
  skip hs h

theorem skipSpacing {f f' : Unit → Parser β} (hs : w.Alike s s')
    (h : ∀ t t', w.Alike t t' → (w.Clear t → w.Clear s) → w.Twin P t t' (f ()) (f' ())) :
    w.Twin P s s' (Parser.skipSpacing >>= f) (Parser.skipSpacing >>= f') := by
  refine (h _ _ (hs.forward (s.rest.takeWhile State.isSpacing).length) Clear.of_forward).of_step rfl ?_
    Clear.of_forward
  rw [← hs.length_spacing]
  rfl

theorem record {cause : Problem.Cause} {text : String} {start stop start' stop' : Nat}
    {f f' : Unit → Parser β} (hs : w.Alike s s')
    (hspan : w.exact → start' = start ∧ stop' = stop)
    (h : ∀ t t', w.Alike t t' → (w.Clear t → w.Clear s) →
      (w.Clear t → ¬ w.exact → cause ≠ .unknownCommand) → w.Twin P t t' (f ()) (f' ())) :
    w.Twin P s s' (Parser.record cause text start stop >>= f)
      (Parser.record cause text start' stop' >>= f') := by
  have hclear : w.Clear (s.record ⟨cause, text⟩ start stop) → w.Clear s := fun h =>
    h.imp_right fun hall d hd => hall d (.tail _ hd)
  refine (h _ _ (hs.record ⟨cause, text⟩ hspan) hclear fun ht hexact => ?_).of_step rfl rfl hclear
  exact ht.resolve_left hexact _ (.head _)

theorem recordAt {cause : Problem.Cause} {text : String} {f f' : Unit → Parser β}
    (hs : w.Alike s s') (hx : w.Match x x')
    (h : ∀ t t', w.Alike t t' → (w.Clear t → w.Clear s) → w.Twin P t t' (f ()) (f' ())) :
    w.Twin P s s' (Parser.recordAt x cause text >>= f) (Parser.recordAt x' cause text >>= f') :=
  record hs (fun hexact => by rw [hx.same hexact]; exact ⟨rfl, rfl⟩)
    fun t t' ht hclear _ => h t t' ht hclear

theorem recordHere {cause : Problem.Cause} {text : String} {f f' : Unit → Parser β}
    (hs : w.Alike s s')
    (h : ∀ t t', w.Alike t t' → (w.Clear t → w.Clear s) → w.Twin P t t' (f ()) (f' ())) :
    w.Twin P s s' (Parser.recordHere w.left cause text >>= f)
      (Parser.recordHere w.right cause text >>= f') :=
  recordAt hs hs.current h

theorem ite {c : Prop} [Decidable c] {m₁ m₁' m₂ m₂' : Parser α} (h₁ : c → w.Twin R s s' m₁ m₁')
    (h₂ : ¬ c → w.Twin R s s' m₂ m₂') :
    w.Twin R s s' (if c then m₁ else m₂) (if c then m₁' else m₂') := by
  by_cases h : c
  · simpa [h] using h₁ h
  · simpa [h] using h₂ h

/-- The same closing delimiter is waited for on both sides, and no longer afterwards. -/
theorem awaiting {view : α → γ} {close : String} (hs : w.Alike s s')
    (h : ∀ t t', w.Alike t t' → (w.Clear t → w.Clear s) → w.Twin (w.Same view) t t' m m') :
    w.Twin (w.Same view) s s' (Parser.awaiting close m) (Parser.awaiting close m') := by
  have hclosers (t : State) (closers : List String) :
      w.Clear { t with closers := closers } ↔ w.Clear t := Iff.rfl
  rcases h _ _ (hs.await close) (hclosers _ _).mp with
    ⟨a, t, a', t', hm, hm', ht, hclear, ha⟩ | ⟨fault, t, t', hm, hm'⟩
  · exact .inl ⟨a, _, a', _, runs_awaiting.mpr ⟨t, hm, rfl⟩, runs_awaiting.mpr ⟨t', hm', rfl⟩,
      ht.dismiss, hclear, ha.mono id⟩
  · exact .inr ⟨fault, { t with closers := t.closers.tail }, { t' with closers := t'.closers.tail },
      by rw [Parser.awaiting, hm], by rw [Parser.awaiting, hm']⟩

/-- One level is taken on both sides or on none. -/
theorem descend {view : α → γ} (hs : w.Alike s s')
    (h : ∀ t t', w.Alike t t' → (w.Clear t → w.Clear s) → w.Twin (w.Same view) t t' m m') :
    w.Twin (w.Same view) s s' (Parser.descend w.left m) (Parser.descend w.right m') := by
  have hdepth (t : State) (depth : Nat) : w.Clear { t with depth := depth } ↔ w.Clear t := Iff.rfl
  by_cases hlimit : w.left.options.maxDepth ≤ s.depth
  · refine .inr ⟨.depthExceeded w.left.options.maxDepth, s, s', ?_, ?_⟩
    · rw [Parser.descend, if_pos hlimit]
    · rw [Parser.descend, w.options, hs.depth, if_pos hlimit]
  · have hlimit' : ¬ w.right.options.maxDepth ≤ s'.depth := by
      rw [w.options, hs.depth]
      exact hlimit
    rcases h _ _ (hs.atDepth (· + 1)) (hdepth _ _).mp with
      ⟨a, t, a', t', hm, hm', ht, hclear, ha⟩ | ⟨fault, t, t', hm, hm'⟩
    · refine .inl ⟨a, { t with depth := t.depth - 1 }, a', { t' with depth := t'.depth - 1 }, ?_, ?_,
        ht.atDepth (· - 1), hclear, ha.mono id⟩
      · rw [Runs, Parser.descend, if_neg hlimit, hm]
      · rw [Runs, Parser.descend, if_neg hlimit', hm']
    · refine .inr ⟨fault, { t with depth := t.depth - 1 }, { t' with depth := t'.depth - 1 }, ?_, ?_⟩
      · rw [Parser.descend, if_neg hlimit, hm]
      · rw [Parser.descend, if_neg hlimit', hm']

/-- What declines on one side declines on the other. -/
theorem attempt {view : α → γ} {m m' : Parser (Option α)} (hs : w.Alike s s')
    (h : w.Twin (w.Same (Option.map view)) s s' m m') :
    w.Twin (w.Same (Option.map view)) s s' (Parser.attempt m) (Parser.attempt m') := by
  rcases h with ⟨o, t, o', t', hm, hm', ht, hclear, ho⟩ | ⟨fault, t, t', hm, hm'⟩
  · rcases ho.none_or_some with ⟨rfl, rfl⟩ | ⟨a, a', rfl, rfl, ha⟩
    · exact .inl ⟨none, s, none, s', runs_attempt.mpr (.inl ⟨rfl, rfl, t, hm⟩),
        runs_attempt.mpr (.inl ⟨rfl, rfl, t', hm'⟩), hs, id, .refl s none⟩
    · exact .inl ⟨some a, t, some a', t', runs_attempt.mpr (.inr ⟨rfl, hm⟩),
        runs_attempt.mpr (.inr ⟨rfl, hm'⟩), ht, hclear, ha.some⟩
  · exact .inr ⟨fault, t, t', by rw [Parser.attempt, hm], by rw [Parser.attempt, hm']⟩

theorem orElse {view : α → γ} {m m' m₂ m₂' : Parser (Option α)}
    (h : w.Twin (w.Same (Option.map view)) s s' m m')
    (h₂ : ∀ t t', w.Alike t t' → (w.Clear t → w.Clear s) →
      w.Twin (w.Same (Option.map view)) t t' m₂ m₂') :
    w.Twin (w.Same (Option.map view)) s s' (Parser.orElse m m₂) (Parser.orElse m' m₂') := by
  refine h.bind fun o o' t t' ht hclear ho => ?_
  rcases ho.none_or_some with ⟨rfl, rfl⟩ | ⟨a, a', rfl, rfl, ha⟩
  · exact h₂ t t' ht hclear
  · exact pure ht ha.some

end Twin

end SideBySide

end TexFormula.Parser
