import TexFormula.Proofs.Stranded

/-!
# A piece of a source read on its own

An `Excerpt` is a piece of a source that ends with a closing brace or bracket, and a source of its own
with the same tokens. States are `Beside` each other if they are at the same place of the piece and wait
for the same delimiters there; what stands around the piece is the same all the time.

`Mirrored`: whatever the first program does in the whole source the second one does in the piece, as
long as the first one does not leave it. A program that comes past the end of the piece (`Past`) stays
there (`ensures_past`), so only those runs have to be compared that are given as staying inside.
-/

namespace TexFormula.Parser

/-- A token that closes a group. -/
def Closes (t : Token) : Prop :=
  t.kind = .groupClose ∨ t.kind = .optionalClose

/-- The tokens end with one that closes a group. -/
inductive Closed : List Token → Prop
  | last {t : Token} (h : Closes t) : Closed [t]
  | cons (t : Token) {ts : List Token} (h : Closed ts) : Closed (t :: ts)

namespace Closed

variable {t u : Token} {ts : List Token}

theorem ne_nil (h : Closed ts) : ts ≠ [] := by
  cases h <;> exact List.cons_ne_nil _ _

theorem tail_of_not (h : Closed (t :: ts)) (ht : ¬ Closes t) : Closed ts := by
  cases h with
  | last hlast => exact absurd hlast ht
  | cons _ h => exact h

theorem tail (h : Closed (t :: u :: ts)) : Closed (u :: ts) := by
  cases h with
  | cons _ h => exact h

theorem drop (h : Closed ts) {n : Nat} (hn : n < ts.length) : Closed (ts.drop n) := by
  induction h generalizing n with
  | last hlast =>
    obtain rfl : n = 0 := by simpa using hn
    exact .last hlast
  | cons t h ih =>
    cases n with
    | zero => exact .cons t h
    | succ n => exact ih (Nat.lt_of_succ_lt_succ hn)

theorem concat (h : Closes t) (ts : List Token) : Closed (ts ++ [t]) := by
  induction ts with
  | nil => exact .last h
  | cons u ts ih => exact .cons u ih

end Closed

/-- A piece of a source, from byte `offset` on, and a source of its own. -/
structure Excerpt where
  whole : Env
  part : Env
  offset : Nat
  /-- The tokens in front of the piece, the latest first. -/
  before : List Token
  /-- The tokens behind the piece. -/
  after : List Token
  /-- The delimiters that are waited for around the piece. -/
  outside : List String
  dictionary : whole.dictionary = .standard
  dictionary' : part.dictionary = .standard
  options : part.options = whole.options
  leavesNothingOut : whole.LeavesNothingOut
  slice {start stop : Nat} : start ≤ part.source.utf8ByteSize → stop ≤ part.source.utf8ByteSize →
    whole.slice (start + offset) (stop + offset) = part.slice start stop

namespace Excerpt

variable (w : Excerpt)

/-- Where a token of the piece stands in the whole source. -/
def place (t : Token) : Token :=
  ⟨t.kind, t.start + w.offset, t.stop + w.offset⟩

/-- The token ends inside the piece, and it starts there unless it is what a cut has left. No letter is
a plus sign. -/
structure Inside (t : Token) : Prop where
  start_le : t.digits? = none → t.start ≤ w.part.source.utf8ByteSize
  stop_le : t.stop ≤ w.part.source.utf8ByteSize
  plus : t.trigger? = some "+" → t.isPunct '+'

/-- The states are at the same place. -/
structure Along (s s' : State) : Prop where
  seen : s.seen = s'.seen.map w.place ++ w.before
  rest : s.rest = s'.rest.map w.place ++ w.after
  closers : s.closers = s'.closers ++ w.outside
  inside : ∀ t ∈ s'.rest, w.Inside t
  begun : s'.seen ≠ []

/-- The states are at the same place inside of groups, before the end of the piece. -/
structure Beside (s s' : State) : Prop extends Along w s s' where
  closed : Closed s'.rest
  waits : s'.closers ≠ []
  plain : ∀ closer ∈ s'.closers, closer ∉ ["+", "-", "."]

/-- The piece has been read, and perhaps more. -/
def Past (s : State) : Prop :=
  s.rest.length ≤ w.after.length

/-- What a run of the first program comes to the second one comes to as well, or it is `bad`. -/
def Mirrored {α : Type} (bad : α → State → Prop) (s s' : State) (m m' : Parser α) : Prop :=
  ∀ a t, Runs m s a t → (∃ t', Runs m' s' a t' ∧ w.Beside t t') ∨ bad a t

/-- The program leaves the piece. -/
def Leaves {α : Type} (_ : α) (s : State) : Prop :=
  w.Past s

variable {w} {α β : Type} {s s' t t' : State}

section

variable (w) (x : Token)

@[simp] theorem kind_place : (w.place x).kind = x.kind := rfl

@[simp] theorem start_place : (w.place x).start = x.start + w.offset := rfl

@[simp] theorem stop_place : (w.place x).stop = x.stop + w.offset := rfl

@[simp] theorem trigger?_place : (w.place x).trigger? = x.trigger? := rfl

@[simp] theorem digits?_place : (w.place x).digits? = x.digits? := rfl

@[simp] theorem isPunct_place (c : Char) : (w.place x).isPunct c = x.isPunct c := rfl

@[simp] theorem isCommand_place (name : String) : (w.place x).isCommand name = x.isCommand name := rfl

@[simp] theorem isSpacing_place : State.isSpacing (w.place x) = State.isSpacing x := rfl

end

theorem closed_of_place {ts : List Token} (h : Closed (ts.map w.place)) : Closed ts := by
  generalize hplaced : ts.map w.place = placed at h
  induction h generalizing ts with
  | last hlast =>
    obtain ⟨t, rfl, rfl⟩ := List.map_eq_singleton_iff.mp hplaced
    exact .last hlast
  | cons x _ ih =>
    obtain ⟨t, us, rfl, -, hus⟩ := List.map_eq_cons_iff.mp hplaced
    exact .cons t (ih hus)

/-! ### States at the same place -/

namespace Along

theorem forward (h : w.Along s s') {n : Nat} (hn : n ≤ s'.rest.length) :
    w.Along (s.forward n) (s'.forward n) := by
  induction n generalizing s s' with
  | zero => simpa using h
  | succ n ih =>
    obtain ⟨x, xs, hrest'⟩ := List.exists_cons_of_length_pos (Nat.lt_of_lt_of_le n.succ_pos hn)
    have hrest : s.rest = w.place x :: (xs.map w.place ++ w.after) := by rw [h.rest, hrest']; rfl
    rw [State.forward_succ hrest, State.forward_succ hrest']
    refine ih ⟨?_, rfl, h.closers, fun t ht => h.inside t ?_, List.cons_ne_nil _ _⟩ ?_
    · simp [h.seen]
    · rw [hrest']
      exact .tail _ ht
    · rw [hrest', List.length_cons] at hn
      exact Nat.le_of_succ_le_succ hn

theorem previous (h : w.Along s s') : s.previous w.whole = w.place (s'.previous w.part) := by
  obtain ⟨x, xs, hseen⟩ := List.exists_cons_of_ne_nil h.begun
  simp [State.previous, h.seen, hseen]

/-- What has been recorded does not matter. -/
theorem noting (h : w.Along s s') (diagnostics diagnostics' : List Diagnostic) :
    w.Along (s.noting diagnostics) (s'.noting diagnostics') :=
  ⟨h.seen, h.rest, h.closers, h.inside, h.begun⟩

/-- As far as the piece goes. -/
theorem past_of_length_le (h : w.Along s s') {n : Nat} (hn : s'.rest.length ≤ n) :
    w.Past (s.forward n) := by
  rw [Past, State.rest_forward, h.rest, List.length_drop, List.length_append, List.length_map]
  omega

end Along

namespace Beside

theorem exists_rest (h : w.Beside s s') : ∃ x xs, s'.rest = x :: xs ∧
    s.rest = w.place x :: (xs.map w.place ++ w.after) := by
  obtain ⟨x, xs, hrest⟩ := List.exists_cons_of_ne_nil h.closed.ne_nil
  exact ⟨x, xs, hrest, by rw [h.rest, hrest]; rfl⟩

theorem current (h : w.Beside s s') : s.current w.whole = w.place (s'.current w.part) := by
  obtain ⟨x, xs, hrest', hrest⟩ := h.exists_rest
  rw [State.current_of_rest hrest, State.current_of_rest hrest']

theorem closes_iff (h : w.Beside s s') : Closes (s.current w.whole) ↔ Closes (s'.current w.part) := by
  rw [h.current]
  exact Iff.rfl

theorem current_mem (h : w.Beside s s') : s'.current w.part ∈ s'.rest := by
  obtain ⟨x, xs, hrest, -⟩ := h.exists_rest
  rw [State.current_of_rest hrest, hrest]
  exact .head _

theorem not_past (h : w.Beside s s') : ¬ w.Past s := by
  obtain ⟨x, xs, -, hrest⟩ := h.exists_rest
  rw [Past, hrest, List.length_cons, List.length_append]
  omega

theorem length_rest (h : w.Beside s s') : s.rest.length = s'.rest.length + w.after.length := by
  rw [h.rest, List.length_append, List.length_map]

theorem position (h : w.Beside s s') : s.position = s'.position + w.before.length := by
  rw [State.position, State.position, h.seen, List.length_append, List.length_map]

theorem head?_closers (h : w.Beside s s') : s.closers.head? = s'.closers.head? := by
  obtain ⟨closer, closers, hclosers⟩ := List.exists_cons_of_ne_nil h.waits
  rw [h.closers, hclosers]
  rfl

theorem signless (h : w.Beside s s') : s.Signless := by
  intro closer hcloser
  rw [h.head?_closers] at hcloser
  exact h.plain closer (List.mem_of_mem_head? hcloser)

theorem atTerminator (h : w.Beside s s') : s.atTerminator w.whole = s'.atTerminator w.part := by
  simp only [State.atTerminator, h.current, h.head?_closers, kind_place, trigger?_place]

theorem forward (h : w.Beside s s') {n : Nat} (hn : n < s'.rest.length) :
    w.Beside (s.forward n) (s'.forward n) where
  toAlong := h.toAlong.forward (Nat.le_of_lt hn)
  closed := by
    rw [State.rest_forward]
    exact h.closed.drop hn
  waits := by
    rw [State.closers_forward]
    exact h.waits
  plain := by
    rw [State.closers_forward]
    exact h.plain

theorem forward_or_past (h : w.Beside s s') (n : Nat) :
    w.Beside (s.forward n) (s'.forward n) ∨ w.Past (s.forward n) := by
  rcases Nat.lt_or_ge n s'.rest.length with hn | hn
  · exact .inl (h.forward hn)
  · exact .inr (h.past_of_length_le hn)

/-- A token that closes no group is not the last one of the piece. -/
theorem forward_one (h : w.Beside s s') (hcurrent : ¬ Closes (s'.current w.part)) :
    w.Beside (s.forward 1) (s'.forward 1) := by
  obtain ⟨x, xs, hrest, -⟩ := h.exists_rest
  refine h.forward ?_
  rw [State.current_of_rest hrest] at hcurrent
  have hclosed := h.closed
  rw [hrest] at hclosed ⊢
  have hpos := List.length_pos_iff.mpr (hclosed.tail_of_not hcurrent).ne_nil
  simpa using hpos

theorem following (h : w.Beside s s') (hcurrent : ¬ Closes (s'.current w.part)) :
    s.following w.whole = w.place (s'.following w.part) := by
  have hnext := (h.forward_one hcurrent).current
  simpa [State.current, State.following] using hnext

theorem length_spacing (h : w.Beside s s') :
    (s.rest.takeWhile State.isSpacing).length = (s'.rest.takeWhile State.isSpacing).length ∧
      (s'.rest.takeWhile State.isSpacing).length < s'.rest.length := by
  have hclosed := h.closed
  rw [h.rest]
  generalize s'.rest = own at hclosed
  induction hclosed with
  | @last x hx =>
    have hspacing : State.isSpacing x = false := by
      rcases hx with hx | hx <;> simp only [State.isSpacing, hx]
    simp [hspacing]
  | cons x _ ih =>
    simp only [List.map_cons, List.cons_append, List.takeWhile_cons, isSpacing_place]
    by_cases hx : State.isSpacing x
    · simp only [hx, if_true, List.length_cons]
      omega
    · simp only [hx]
      exact ⟨rfl, Nat.succ_pos _⟩

theorem pastSpacing (h : w.Beside s s') : w.Beside s.pastSpacing s'.pastSpacing := by
  obtain ⟨heq, hlt⟩ := h.length_spacing
  rw [State.pastSpacing, heq]
  exact h.forward hlt

theorem noting (h : w.Beside s s') (diagnostics diagnostics' : List Diagnostic) :
    w.Beside (s.noting diagnostics) (s'.noting diagnostics') :=
  ⟨h.toAlong.noting .., h.closed, h.waits, h.plain⟩

end Beside

/-! ### Past the end -/

theorem past_of_follows (hs : w.Past s) (h : Follows s t) : w.Past t :=
  Nat.le_trans h.length_rest_le hs

theorem ensures_past {limit : Nat} {m : Parser α} (hm : Keeps limit m) (hs : w.Past s) :
    Ensures w.Leaves s m :=
  fun _ _ h => past_of_follows hs (hm.follows h)

/-! ### Programs -/

namespace Mirrored

variable {bad bad' : α → State → Prop} {bad₂ : β → State → Prop} {m m' : Parser α}

theorem pure (hs : w.Beside s s') (a : α) :
    w.Mirrored bad s s' (Pure.pure a) (Pure.pure a) := by
  intro b t h
  obtain ⟨rfl, rfl⟩ := runs_pure.mp h
  exact .inl ⟨s', .pure b s', hs⟩

theorem of_ensures (h : Ensures bad s m) : w.Mirrored bad s s' m m' :=
  fun a t ht => .inr (h a t ht)

theorem mono (h : w.Mirrored bad s s' m m') (hbad : ∀ a t, bad a t → bad' a t) :
    w.Mirrored bad' s s' m m' :=
  fun a t ht => (h a t ht).imp_right (hbad a t)

theorem and_runs (h : w.Mirrored bad s s' m m') :
    w.Mirrored (fun a t => Runs m s a t ∧ bad a t) s s' m m' :=
  fun a t ht => (h a t ht).imp_right fun hbad => ⟨ht, hbad⟩

theorem bind_of_runs {f f' : α → Parser β} (h : w.Mirrored bad s s' m m')
    (hbad : ∀ a t, bad a t → Ensures bad₂ t (f a))
    (hf : ∀ a t t', Runs m s a t → w.Beside t t' → w.Mirrored bad₂ t t' (f a) (f' a)) :
    w.Mirrored bad₂ s s' (m >>= f) (m' >>= f') := by
  intro b u hb
  obtain ⟨a, t, ha, hb⟩ := runs_bind.mp hb
  rcases h a t ha with ⟨t', ha', ht⟩ | hat
  · rcases hf a t t' ha ht b u hb with ⟨u', hb', hu⟩ | hbu
    · exact .inl ⟨u', ha'.bind hb', hu⟩
    · exact .inr hbu
  · exact .inr (hbad a t hat b u hb)

theorem bind {f f' : α → Parser β} (h : w.Mirrored bad s s' m m')
    (hbad : ∀ a t, bad a t → Ensures bad₂ t (f a))
    (hf : ∀ a t t', w.Beside t t' → w.Mirrored bad₂ t t' (f a) (f' a)) :
    w.Mirrored bad₂ s s' (m >>= f) (m' >>= f') :=
  h.bind_of_runs hbad fun a t t' _ ht => hf a t t' ht

theorem map {f : α → β} (h : w.Mirrored bad s s' m m') (hbad : ∀ a t, bad a t → bad₂ (f a) t) :
    w.Mirrored bad₂ s s' (f <$> m) (f <$> m') := by
  rw [map_eq_pure_bind, map_eq_pure_bind]
  exact h.bind (fun a t ht => .pure (hbad a t ht)) fun a t t' ht => pure ht (f a)

theorem of_step {u u' : State} {k k' : Parser α} (h : w.Mirrored bad u u' k k') (hm : m s = k u)
    (hm' : m' s' = k' u') : w.Mirrored bad s s' m m' := by
  intro a t ht
  rcases h a t (hm.symm.trans ht) with ⟨t', ht', hbeside⟩ | hbad
  · exact .inl ⟨t', hm'.trans ht', hbeside⟩
  · exact .inr hbad

theorem get {f f' : State → Parser β} (h : w.Mirrored bad₂ s s' (f s) (f' s')) :
    w.Mirrored bad₂ s s' (MonadState.get >>= f) (MonadState.get >>= f') := h

theorem current {f f' : Token → Parser β}
    (h : w.Mirrored bad₂ s s' (f (s.current w.whole)) (f' (s'.current w.part))) :
    w.Mirrored bad₂ s s' (Parser.current w.whole >>= f) (Parser.current w.part >>= f') := h

theorem atTerminator {f f' : Bool → Parser β} (hs : w.Beside s s')
    (h : w.Mirrored bad₂ s s' (f (s'.atTerminator w.part)) (f' (s'.atTerminator w.part))) :
    w.Mirrored bad₂ s s' (Parser.atTerminator w.whole >>= f) (Parser.atTerminator w.part >>= f') := by
  show w.Mirrored bad₂ s s' (f (s.atTerminator w.whole)) (f' (s'.atTerminator w.part))
  rw [hs.atTerminator]
  exact h

theorem skip {count : Nat} {f f' : Unit → Parser β} (hs : w.Beside s s')
    (h : w.Beside (s.forward count) (s'.forward count) →
      w.Mirrored bad₂ (s.forward count) (s'.forward count) (f ()) (f' ()))
    (hpast : w.Past (s.forward count) → Ensures bad₂ (s.forward count) (f ())) :
    w.Mirrored bad₂ s s' (Parser.skip count >>= f) (Parser.skip count >>= f') := by
  rcases hs.forward_or_past count with hbeside | hgone
  · exact (h hbeside).of_step rfl rfl
  · exact of_ensures (.skip (hpast hgone))

/-- A token is read that may be the last one of the piece. -/
theorem advance_any {f f' : Unit → Parser β} (hs : w.Beside s s')
    (h : w.Beside (s.forward 1) (s'.forward 1) →
      w.Mirrored bad₂ (s.forward 1) (s'.forward 1) (f ()) (f' ()))
    (hpast : w.Past (s.forward 1) → Ensures bad₂ (s.forward 1) (f ())) :
    w.Mirrored bad₂ s s' (Parser.advance >>= f) (Parser.advance >>= f') :=
  skip hs h hpast

theorem advance {f f' : Unit → Parser β} (hs : w.Beside s s')
    (hcurrent : ¬ Closes (s'.current w.part))
    (h : w.Beside (s.forward 1) (s'.forward 1) →
      w.Mirrored bad₂ (s.forward 1) (s'.forward 1) (f ()) (f' ())) :
    w.Mirrored bad₂ s s' (Parser.advance >>= f) (Parser.advance >>= f') :=
  (h (hs.forward_one hcurrent)).of_step rfl rfl

theorem skipSpacing {f f' : Unit → Parser β} (hs : w.Beside s s')
    (h : w.Beside s.pastSpacing s'.pastSpacing →
      w.Mirrored bad₂ s.pastSpacing s'.pastSpacing (f ()) (f' ())) :
    w.Mirrored bad₂ s s' (Parser.skipSpacing >>= f) (Parser.skipSpacing >>= f') :=
  (h hs.pastSpacing).of_step rfl rfl

/-- Nothing depends on what is recorded, so the two sides may record different things. -/
theorem record {cause cause' : Problem.Cause} {text text' : String} {start stop start' stop' : Nat}
    {f f' : Unit → Parser β} (hs : w.Beside s s')
    (h : ∀ t t', w.Beside t t' → t.rest = s.rest → w.Mirrored bad₂ t t' (f ()) (f' ())) :
    w.Mirrored bad₂ s s' (Parser.record cause text start stop >>= f)
      (Parser.record cause' text' start' stop' >>= f') :=
  (h (s.record ⟨cause, text⟩ start stop) (s'.record ⟨cause', text'⟩ start' stop') (hs.noting _ _)
    rfl).of_step rfl rfl

/-- Both sides go on in the same way, whether or not they record something before. -/
theorem record_if {c c' : Prop} [Decidable c] [Decidable c'] {cause cause' : Problem.Cause}
    {text text' : String} {start stop start' stop' : Nat} {f f' : Unit → Parser β}
    (hs : w.Beside s s') (h : ∀ t t', w.Beside t t' → w.Mirrored bad₂ t t' (f ()) (f' ())) :
    w.Mirrored bad₂ s s' (if c then Parser.record cause text start stop >>= f else f ())
      (if c' then Parser.record cause' text' start' stop' >>= f' else f' ()) := by
  by_cases hc : c
  · rw [if_pos hc]
    split
    · exact (h _ _ (hs.noting _ _)).of_step rfl rfl
    · exact (h _ _ (hs.noting _ s'.diagnostics)).of_step rfl rfl
  · rw [if_neg hc]
    split
    · exact (h _ _ (hs.noting s.diagnostics _)).of_step rfl rfl
    · exact h s s' hs

theorem recordAt {x x' : Token} {cause : Problem.Cause} {text : String}
    {f f' : Unit → Parser β} (hs : w.Beside s s')
    (h : ∀ t t', w.Beside t t' → t.rest = s.rest → w.Mirrored bad₂ t t' (f ()) (f' ())) :
    w.Mirrored bad₂ s s' (Parser.recordAt x cause text >>= f)
      (Parser.recordAt x' cause text >>= f') :=
  record hs h

theorem recordHere {cause : Problem.Cause} {text : String} {f f' : Unit → Parser β}
    (hs : w.Beside s s')
    (h : ∀ t t', w.Beside t t' → t.rest = s.rest → w.Mirrored bad₂ t t' (f ()) (f' ())) :
    w.Mirrored bad₂ s s' (Parser.recordHere w.whole cause text >>= f)
      (Parser.recordHere w.part cause text >>= f') :=
  record hs h

theorem ite {c : Prop} [Decidable c] {m₁ m₁' m₂ m₂' : Parser α}
    (h₁ : c → w.Mirrored bad s s' m₁ m₁') (h₂ : ¬ c → w.Mirrored bad s s' m₂ m₂') :
    w.Mirrored bad s s' (if c then m₁ else m₂) (if c then m₁' else m₂') := by
  by_cases h : c
  · rw [if_pos h, if_pos h]
    exact h₁ h
  · rw [if_neg h, if_neg h]
    exact h₂ h

/-- A delimiter is waited for on both sides. -/
theorem awaiting {limit : Nat} {close : String} (hs : w.Beside s s') (hm : Keeps limit m)
    (hclose : close ∉ ["+", "-", "."])
    (h : ∀ t t', w.Beside t t' → w.Mirrored w.Leaves t t' m m') :
    w.Mirrored w.Leaves s s' (Parser.awaiting close m) (Parser.awaiting close m') := by
  intro a u hu
  obtain ⟨t, ht, rfl⟩ := runs_awaiting.mp hu
  have hawait : w.Beside { s with closers := close :: s.closers }
      { s' with closers := close :: s'.closers } :=
    { hs with
      closers := by simp [hs.closers]
      waits := List.cons_ne_nil _ _
      plain := by
        rw [List.forall_mem_cons]
        exact ⟨hclose, hs.plain⟩ }
  rcases h _ _ hawait a t ht with ⟨t', ht', hbeside⟩ | hpast
  · refine .inl ⟨_, runs_awaiting.mpr ⟨t', ht', rfl⟩, ?_⟩
    have hclosers : t'.closers = close :: s'.closers := by
      have heq := hbeside.closers
      rw [(hm.follows ht).closers, hs.closers, ← List.cons_append] at heq
      exact (List.append_cancel_right heq).symm
    exact
      { hbeside with
        closers := by simp [hbeside.closers, hclosers]
        waits := by
          rw [hclosers]
          exact hs.waits
        plain := by
          rw [hclosers]
          exact hs.plain }
  · exact .inr hpast

/-- What is taken back in the whole source is taken back in the piece, unless it had left the piece. -/
theorem attempt {m m' : Parser (Option α)} {bad bad' : Option α → State → Prop} (hs : w.Beside s s')
    (h : w.Mirrored bad s s' m m') (hsome : ∀ a t, bad (some a) t → bad' (some a) t)
    (hnone : ∀ t, Runs m s none t → bad none t → bad' none s) :
    w.Mirrored bad' s s' (Parser.attempt m) (Parser.attempt m') := by
  intro o t ht
  rcases runs_attempt.mp ht with ⟨rfl, rfl, u, hu⟩ | ⟨hfound, ht⟩
  · rcases h none u hu with ⟨u', hu', -⟩ | hbad
    · exact .inl ⟨s', runs_attempt.mpr (.inl ⟨rfl, rfl, u', hu'⟩), hs⟩
    · exact .inr (hnone u hu hbad)
  · obtain ⟨a, rfl⟩ := Option.isSome_iff_exists.mp hfound
    rcases h (some a) t ht with ⟨t', ht', hbeside⟩ | hbad
    · exact .inl ⟨t', runs_attempt.mpr (.inr ⟨rfl, ht'⟩), hbeside⟩
    · exact .inr (hsome a t hbad)

theorem orElse {m m' m₂ m₂' : Parser (Option α)} {bad bad' : Option α → State → Prop}
    (h : w.Mirrored bad s s' m m') (hsome : ∀ a t, bad (some a) t → bad' (some a) t)
    (hnone : ∀ t, bad none t → Ensures bad' t m₂)
    (h₂ : ∀ t t', Runs m s none t → w.Beside t t' → w.Mirrored bad' t t' m₂ m₂') :
    w.Mirrored bad' s s' (Parser.orElse m m₂) (Parser.orElse m' m₂') := by
  refine h.bind_of_runs (fun o t hbad => ?_) fun o t t' ho ht => ?_
  · cases o with
    | none => exact hnone t hbad
    | some a => exact .pure (hsome a t hbad)
  · cases o with
    | none => exact h₂ t t' ho ht
    | some a => exact pure ht (some a)

end Mirrored

end Excerpt

end TexFormula.Parser
