import TexFormula.Proofs.Nesting
import TexFormula.Proofs.PlainNumerals
import TexFormula.Proofs.SourcePieces

/-!
# Places in the source

`State.Placed`: the tokens of a state, those read and those still to be read, stand over pieces of the
source one behind the other, those still to be read are the tokens of what is left of the source, and
what has been recorded is located in the source. `Places P s m` says that the program `m` keeps to that
from state `s`, whether it succeeds or fails, and that a value which it gives satisfies `P`. As spans
reach from one token to another, it also says that what is left moves on in the source only
(`State.Reaches`).
-/

namespace TexFormula

namespace Text

variable {cs text : List Char} {start stop n : Nat}

/-- A text can be cut at byte `n`: no character is split, and there are as many bytes. -/
def IsBoundary (cs : List Char) (n : Nat) : Prop :=
  ∃ as bs, cs = as ++ bs ∧ byteLength as = n

theorem IsBoundary.le (h : IsBoundary cs n) : n ≤ byteLength cs := by
  obtain ⟨as, bs, rfl, rfl⟩ := h
  simp

theorem isBoundary_byteLength (cs : List Char) : IsBoundary cs (byteLength cs) :=
  ⟨cs, [], by simp, rfl⟩

theorem bounds_of_slice? (h : slice? cs start stop = some text) :
    start ≤ stop ∧ IsBoundary cs start ∧ IsBoundary cs stop := by
  obtain ⟨as, rest, rfl, rfl, rfl⟩ := slice?_eq_some_iff.mp h
  exact ⟨by omega, ⟨as, text ++ rest, rfl, rfl⟩, ⟨as ++ text, rest, by simp, by simp⟩⟩

theorem exists_slice? (hle : start ≤ stop) (hstart : IsBoundary cs start)
    (hstop : IsBoundary cs stop) : ∃ text, slice? cs start stop = some text := by
  obtain ⟨as, bs, rfl, rfl⟩ := hstart
  obtain ⟨cs, ds, hsplit, rfl⟩ := hstop
  rcases List.append_eq_append_iff.mp hsplit with ⟨text, rfl, rfl⟩ | ⟨text, rfl, rfl⟩
  · exact ⟨text, slice?_eq_some_iff.mpr ⟨as, ds, rfl, rfl, by simp⟩⟩
  · -- the second cut is not before the first one
    obtain rfl : text = [] := by
      by_contra hne
      have := byteLength_pos hne
      simp at hle
      omega
    exact ⟨[], slice?_eq_some_iff.mpr ⟨cs, bs, by simp, by simp, by simp⟩⟩

end Text

namespace Token

/-- The token stands over a piece of the source that its kind covers. -/
def Fits (source : String) (t : Token) : Prop :=
  ∃ text, Text.slice? source.toList t.start t.stop = some text ∧ t.kind.Covers text

variable {source : String} {t : Token}

theorem Fits.bounds (h : t.Fits source) : t.start ≤ t.stop ∧
    Text.IsBoundary source.toList t.start ∧ Text.IsBoundary source.toList t.stop := by
  obtain ⟨text, hslice, -⟩ := h
  exact Text.bounds_of_slice? hslice

theorem Fits.lt (h : t.Fits source) (hkind : t.kind ≠ .ending) : t.start < t.stop := by
  obtain ⟨text, hslice, hcovers⟩ := h
  obtain ⟨as, rest, -, -, hstop⟩ := Text.slice?_eq_some_iff.mp hslice
  have := Text.byteLength_pos (hcovers.ne_nil hkind)
  omega

theorem kind_of_digits? {run : String} (h : t.digits? = some run) : t.kind = .digits run := by
  unfold digits? at h
  split at h
  · next hkind => rw [hkind, Option.some.inj h]
  · cases h

/-- A digit takes one byte. -/
theorem utf8Size_of_isDigit {c : Char} (h : c.isDigit = true) : c.utf8Size = 1 := by
  have hsizes : ∀ v ∈ List.range' 48 10, (Char.ofNat v).utf8Size = 1 := by decide
  have hc := hsizes c.toNat (Text.toNat_mem_of_isDigit h)
  rwa [Char.ofNat_toNat] at hc

/-- What is left of a digit run without its first digit. -/
theorem Fits.cutDigit {c d : Char} {ds : List Char} {run : String} (h : t.Fits source)
    (hdigits : t.digits? = some run) (hrun : run.toList = c :: d :: ds) :
    Fits source ⟨.digits (String.ofList (run.toList.drop 1)), t.start + 1, t.stop⟩ := by
  obtain ⟨text, hslice, hcovers⟩ := h
  rw [kind_of_digits? hdigits] at hcovers
  obtain ⟨rfl, -, hall⟩ := hcovers
  rw [hrun] at hslice hall ⊢
  refine ⟨d :: ds, ?_, by simp, by simp, fun x hx => hall x (List.mem_cons_of_mem c hx)⟩
  have htail := Text.slice?_tail hslice
  rwa [utf8Size_of_isDigit (hall c List.mem_cons_self)] at htail

/-- The first digit of a run can be cut off: the tokens behind it stay the same. -/
theorem Tiles.cutDigit {c d : Char} {ds cs : List Char} {offset : Nat} {tokens : List Token}
    {run : String} (h : Tiles offset cs (t :: tokens)) (hdigits : t.digits? = some run)
    (hrun : run.toList = c :: d :: ds) :
    ∃ rest, cs = c :: rest ∧ c.utf8Size = 1 ∧ t.start = offset ∧ Tiles (offset + 1) rest
      (⟨.digits (String.ofList (run.toList.drop 1)), t.start + 1, t.stop⟩ :: tokens) := by
  have hkind := kind_of_digits? hdigits
  cases h with
  | ending => cases hkind
  | @token offset kind text rest tokens _ covers stops tiles =>
    obtain rfl : kind = .digits run := hkind
    obtain ⟨rfl, -, hall⟩ := covers
    rw [hrun] at hall tiles ⊢
    have hsize := utf8Size_of_isDigit (hall c List.mem_cons_self)
    have hlength : offset + Text.byteLength (c :: d :: ds) = offset + 1 + Text.byteLength (d :: ds) := by
      rw [Text.byteLength_cons, hsize]
      omega
    have hcovers : Kind.Covers (.digits (String.ofList (d :: ds))) (d :: ds) :=
      ⟨by simp, by simp, fun x hx => hall x (List.mem_cons_of_mem c hx)⟩
    rw [hlength] at tiles
    refine ⟨d :: ds ++ rest, rfl, hsize, rfl, ?_⟩
    rw [hlength]
    exact .token nofun hcovers stops tiles

end Token

namespace Parser

variable {α β : Type} {env : Env} {reports : List Problem} {s t u : State} {start stop n : Nat}

/-! ### Pieces of the source -/

/-- The bytes are a piece of the source. -/
def Env.Spans (env : Env) (start stop : Nat) : Prop :=
  start ≤ stop ∧ Text.IsBoundary env.source.toList start ∧ Text.IsBoundary env.source.toList stop

/-- The text is a piece of the source, and not empty. -/
def Env.Quotes (env : Env) (text : String) : Prop :=
  text ≠ "" ∧ ∃ start stop, Text.slice? env.source.toList start stop = some text.toList

/-- The text, which may be empty, stands in the source behind an opening brace, and in front of a closing
one or at the end. -/
def Env.Encloses (env : Env) (raw : String) : Prop :=
  ∃ start stop, ∃ closing ∈ [['\x7d'], []],
    Text.slice? env.source.toList start stop = some ('\x7b' :: raw.toList ++ closing) ∧
      (closing = [] → stop = env.source.utf8ByteSize)

theorem Env.Spans.slice? (h : env.Spans start stop) :
    Text.slice? env.source.toList start stop = some (env.slice start stop).toList := by
  obtain ⟨text, hslice⟩ := Text.exists_slice? h.1 h.2.1 h.2.2
  simp [slice, Text.slice, hslice]

theorem Env.Spans.quotes (h : env.Spans start stop) (hlt : start < stop) :
    env.Quotes (env.slice start stop) := by
  refine ⟨fun hempty => ?_, start, stop, h.slice?⟩
  obtain ⟨as, rest, -, -, hstop⟩ := Text.slice?_eq_some_iff.mp h.slice?
  simp [hempty] at hstop
  omega

theorem fits_ending : env.ending.Fits env.source := by
  have hend : Text.IsBoundary env.source.toList env.source.utf8ByteSize := by
    rw [← Text.byteLength_toList]
    exact Text.isBoundary_byteLength _
  obtain ⟨text, hslice⟩ := Text.exists_slice? (Nat.le_refl _) hend hend
  obtain ⟨as, rest, -, -, hlength⟩ := Text.slice?_eq_some_iff.mp hslice
  obtain rfl : text = [] := by
    by_contra hne
    have := Text.byteLength_pos hne
    omega
  exact ⟨[], hslice, rfl⟩

/-- The tokens that stand over a piece of the source. -/
def Env.tokensOf (env : Env) (start stop : Nat) : List Token :=
  (Token.scan start (env.slice start stop).toList).filter Token.hasMeaning

/-- Over the bytes stands a numeral that is no number, and the text is its plain form. A minus sign that
belongs to it is the token in front. -/
def Env.Numeral (env : Env) (text : String) (start stop : Nat) : Prop :=
  Number.ofLiteral? text = none ∧ startsNumber (env.tokensOf start stop) ∧
    ∃ negative, text = plainForm negative (env.tokensOf start stop) ∧
      (negative = true → ∃ sign, sign.isPunct '-' ∧
        env.tokensOf sign.start stop = sign :: env.tokensOf start stop)

/-- What the text of a problem says of the bytes that it is about: a text that is taken from the source
is the piece itself, or the plain form of a numeral that is no number. -/
def Env.Cites (env : Env) (problem : Problem) (start stop : Nat) : Prop :=
  match problem.cause with
  | .unexpectedToken =>
    problem.text = env.slice start stop ∨ env.Numeral problem.text start stop
  | .ambiguousDigitGroup => problem.text = env.slice start stop
  | _ => True

/-- The diagnostic is about a piece of the source and quotes it, if it is one that quotes at all; only
the span is known of `reports` from outside. -/
def Env.Locates (env : Env) (reports : List Problem) (x : Diagnostic) : Prop :=
  ∃ start stop, x.span = some (.between start stop) ∧ env.Spans start stop ∧
    (x.problem ∈ reports ∨ env.Cites x.problem start stop)

/-- The tokens are those of what is left of the source from some place on. -/
def Env.Leaves (env : Env) (tokens : List Token) : Prop :=
  ∃ as bs, env.source.toList = as ++ bs ∧
    tokens = (Token.scan (Text.byteLength as) bs).filter Token.hasMeaning

namespace Env.Leaves

variable {token last : Token} {rest init own after : List Token}

theorem meaningful (env : Env) : env.Leaves (Token.meaningful env.source) :=
  ⟨[], env.source.toList, rfl, rfl⟩

/-- The tokens from the first one on cut a text without separators in front. -/
theorem exists_tiles (h : env.Leaves (token :: rest)) : ∃ as bs others,
    env.source.toList = as ++ bs ∧ Token.Tiles (Text.byteLength as) bs (token :: others) ∧
      rest = others.filter Token.hasMeaning ∧ others ≠ [] := by
  obtain ⟨as, bs, hsource, htokens⟩ := h
  obtain ⟨skipped, others, hscan, -, htoken, rfl⟩ := List.filter_eq_cons_iff.mp htokens.symm
  have htiles := Token.tiles_scan (Text.byteLength as) bs
  rw [hscan] at htiles
  obtain ⟨front, back, rfl, htail⟩ := htiles.behind (List.cons_ne_nil _ _)
  refine ⟨as ++ front, back, others, by rw [hsource, List.append_assoc], ?_, rfl, ?_⟩
  · rwa [Text.byteLength_append]
  · -- the last token of a text is its end
    rintro rfl
    obtain rfl : token = _ := Option.some.inj htail.getLast?
    cases htoken

theorem tail (h : env.Leaves (token :: rest)) : env.Leaves rest := by
  obtain ⟨as, bs, others, hsource, htiles, rfl, hne⟩ := h.exists_tiles
  have htiles' : Token.Tiles _ _ ([token] ++ others) := List.singleton_append ▸ htiles
  obtain ⟨front, back, rfl, htail⟩ := htiles'.behind hne
  refine ⟨as ++ front, back, by rw [hsource, List.append_assoc], ?_⟩
  rw [Text.byteLength_append, ← htail.eq_scan]

theorem drop (h : env.Leaves rest) (count : Nat) : env.Leaves (rest.drop count) := by
  induction count generalizing rest with
  | zero => exact h
  | succ count ih =>
    cases rest with
    | nil => exact h
    | cons token rest => exact ih h.tail

theorem cutDigit {c d : Char} {ds : List Char} {run : String} (h : env.Leaves (token :: rest))
    (hdigits : token.digits? = some run) (hrun : run.toList = c :: d :: ds) :
    env.Leaves (⟨.digits (String.ofList (run.toList.drop 1)), token.start + 1, token.stop⟩ ::
      rest) := by
  obtain ⟨as, bs, others, hsource, htiles, rfl, -⟩ := h.exists_tiles
  obtain ⟨back, rfl, hsize, -, htiles⟩ := htiles.cutDigit hdigits hrun
  refine ⟨as ++ [c], back, by rw [hsource, List.append_assoc]; rfl, ?_⟩
  have hlength : Text.byteLength (as ++ [c]) = Text.byteLength as + 1 := by simp [hsize]
  rw [hlength, ← htiles.eq_scan]
  rfl

/-- Tokens side by side are those of the piece of the source that they stand over. -/
theorem tokensOf_eq (h : env.Leaves (token :: own ++ after)) (hlast : token :: own = init ++ [last]) :
    env.tokensOf token.start last.stop = token :: own := by
  obtain ⟨as, bs, hsource, htokens⟩ := h
  obtain ⟨front, text, back, rfl, hstart, hstop, hpiece⟩ :=
    Token.exists_piece_of_scan (htokens.symm.trans (List.nil_append _).symm) hlast
  have hsome : Text.slice? env.source.toList token.start last.stop = some text := by
    refine Text.slice?_eq_some_iff.mpr ⟨as ++ front, back, ?_, ?_, hstop⟩
    · rw [hsource, List.append_assoc]
    · rw [Text.byteLength_append, hstart]
  rw [tokensOf, slice, Text.slice, hsome, Option.getD_some, String.toList_ofList, hpiece]

end Env.Leaves

/-! ### Tokens in order -/

namespace State

/-- All that is still to be read starts at byte `n` or later. -/
def Beyond (n : Nat) (s : State) : Prop :=
  ∀ t ∈ s.rest, n ≤ t.start

/-- What is left moves on in the source only. -/
structure Reaches (s t : State) : Prop where
  beyond {n : Nat} : s.Beyond n → t.Beyond n

namespace Reaches

theorem refl (s : State) : s.Reaches s :=
  ⟨id⟩

theorem trans (h : s.Reaches t) (h' : t.Reaches u) : s.Reaches u :=
  ⟨fun hn => h'.beyond (h.beyond hn)⟩

theorem forward (s : State) (count : Nat) : s.Reaches (s.forward count) := by
  refine ⟨fun {n} hn u hu => ?_⟩
  rw [rest_forward] at hu
  exact hn u (List.mem_of_mem_drop hu)

theorem cutDigit (s : State) : s.Reaches s.cutDigit := by
  unfold State.cutDigit
  split
  · exact refl s
  · next t rest h =>
    split
    · exact refl s
    · refine ⟨fun {n} hn u hu => ?_⟩
      have ht : n ≤ t.start := hn t (by simp [h])
      rcases List.mem_cons.mp hu with rfl | hu
      · exact Nat.le_succ_of_le ht
      · exact hn u (by simp [h, hu])

end Reaches

/-! ### States in place -/

theorem tokens_forward (s : State) (count : Nat) : (s.forward count).tokens = s.tokens := by
  induction count generalizing s with
  | zero => simp
  | succ count ih =>
    cases h : s.rest with
    | nil => rw [forward_of_rest_nil h]
    | cons t rest =>
      rw [forward_succ h, ih]
      simp [tokens, h]

/-- The tokens stand over the source one behind the other, those that are left are the tokens of what is
left of the source, and all diagnostics are located. -/
structure Placed (env : Env) (reports : List Problem) (s : State) : Prop where
  fits : ∀ t ∈ s.tokens, t.kind ≠ .ending ∧ t.Fits env.source
  ordered : s.tokens.Pairwise fun t u => t.stop ≤ u.start
  leaves : env.Leaves s.rest
  located : ∀ x ∈ s.diagnostics, env.Locates reports x

namespace Placed

variable {token : Token} {rest : List Token}

theorem ofSource (env : Env) (reports : List Problem) : (ofSource env.source).Placed env reports where
  fits _ ht := by
    obtain ⟨-, text, hcovers, hslice⟩ := Token.exists_covers_of_mem_meaningful ht
    have hmeaning := (List.mem_filter.mp ht).2
    exact ⟨by simp_all, text, hslice, hcovers⟩
  ordered := (Token.tiles_scan 0 env.source.toList).pairwise.filter _
  leaves := .meaningful env
  located := nofun

theorem forward (h : s.Placed env reports) (count : Nat) : (s.forward count).Placed env reports := by
  refine ⟨?_, ?_, ?_, ?_⟩
  · rw [tokens_forward]
    exact h.fits
  · rw [tokens_forward]
    exact h.ordered
  · rw [rest_forward]
    exact h.leaves.drop count
  · rw [diagnostics_forward]
    exact h.located

theorem record {problem : Problem} (h : s.Placed env reports)
    (hspans : env.Spans start stop)
    (hcites : problem ∈ reports ∨ env.Cites problem start stop) :
    (s.record problem start stop).Placed env reports :=
  ⟨h.fits, h.ordered, h.leaves,
    List.forall_mem_cons.mpr ⟨⟨start, stop, rfl, hspans, hcites⟩, h.located⟩⟩

theorem fits_of_mem (h : s.Placed env reports) (ht : token ∈ s.rest) : token.Fits env.source :=
  (h.fits token (List.mem_append_right _ ht)).2

theorem fits_current (h : s.Placed env reports) : (s.current env).Fits env.source := by
  unfold State.current
  cases hrest : s.rest with
  | nil => exact fits_ending
  | cons t rest => exact h.fits_of_mem (by simp [hrest])

theorem current_ne_ending (h : s.Placed env reports) (hrest : s.rest ≠ []) :
    (s.current env).kind ≠ .ending := by
  cases hcons : s.rest with
  | nil => exact absurd hcons hrest
  | cons t rest =>
    rw [current_of_rest hcons]
    exact (h.fits t (List.mem_append_right _ (by simp [hcons]))).1

theorem fits_previous (h : s.Placed env reports) : (s.previous env).Fits env.source := by
  unfold previous
  cases hseen : s.seen with
  | nil => exact h.fits_current
  | cons t seen => exact (h.fits t (by simp [tokens, hseen])).2

theorem ordered_rest (h : s.Placed env reports) : s.rest.Pairwise fun t u => t.stop ≤ u.start :=
  (List.pairwise_append.mp h.ordered).2.1

/-- Where a token has been read, the others start behind it. -/
theorem beyond_stop (h : s.Placed env reports) (hrest : s.rest = token :: rest) :
    (s.forward 1).Beyond token.stop := by
  have hordered := h.ordered_rest
  rw [hrest] at hordered
  intro u hu
  rw [rest_forward, hrest] at hu
  exact List.rel_of_pairwise_cons hordered hu

theorem beyond_start (h : s.Placed env reports) (hrest : s.rest = token :: rest) :
    s.Beyond token.start := by
  have hordered := h.ordered_rest
  rw [hrest] at hordered
  intro u hu
  rw [hrest] at hu
  rcases List.mem_cons.mp hu with rfl | hu
  · exact Nat.le_refl _
  · exact Nat.le_trans (h.fits_of_mem (by simp [hrest])).bounds.1
      (List.rel_of_pairwise_cons hordered hu)

/-- The token read last comes before all that is still to be read. -/
theorem previous_le (h : s.Placed env reports) (ht : token ∈ s.rest) :
    (s.previous env).start ≤ token.start := by
  unfold previous
  cases hseen : s.seen with
  | nil =>
    cases hrest : s.rest with
    | nil => simp [hrest] at ht
    | cons t rest =>
      rw [List.headD_nil, current_of_rest hrest]
      exact h.beyond_start hrest token ht
  | cons t seen =>
    have hbefore := (List.pairwise_append.mp h.ordered).2.2 t (by simp [hseen]) token ht
    exact Nat.le_trans (h.fits t (by simp [tokens, hseen])).2.bounds.1 hbefore

theorem cutDigit {c d : Char} {ds : List Char} {run : String} (h : s.Placed env reports)
    (hdigits : (s.current env).digits? = some run) (hrun : run.toList = c :: d :: ds) :
    s.cutDigit.Placed env reports := by
  unfold State.cutDigit
  cases hrest : s.rest with
  | nil => exact h
  | cons t rest =>
    rw [current_of_rest hrest] at hdigits
    have hfits := h.fits
    have hordered := h.ordered
    rw [tokens, hrest] at hfits hordered
    simp only [hdigits]
    have hleaves := h.leaves
    rw [hrest] at hleaves
    refine ⟨fun u hu => ?_, ?_, hleaves.cutDigit hdigits hrun, h.located⟩
    · rcases List.mem_append.mp hu with hu | hu
      · exact hfits u (List.mem_append_left _ hu)
      rcases List.mem_cons.mp hu with rfl | hu
      · exact ⟨nofun, (hfits t (by simp)).2.cutDigit hdigits hrun⟩
      · exact hfits u (by simp [hu])
    · rw [List.pairwise_append, List.pairwise_cons] at hordered
      obtain ⟨hseen, ⟨hnext, hmore⟩, hbefore⟩ := hordered
      refine List.pairwise_append.mpr ⟨hseen, List.pairwise_cons.mpr ⟨hnext, hmore⟩, ?_⟩
      intro x hx y hy
      rcases List.mem_cons.mp hy with rfl | hy
      · exact Nat.le_succ_of_le (hbefore x hx t (by simp))
      · exact hbefore x hx y (by simp [hy])

end Placed

end State

/-! ### Programs -/

/-- From state `s` the program stays in place on every way out, and a value that it gives satisfies
`P` with the last state. -/
def Places (env : Env) (reports : List Problem) (P : α → State → Prop) (s : State)
    (m : Parser α) : Prop :=
  s.Placed env reports →
    match m s with
    | .ok a t => t.Placed env reports ∧ s.Reaches t ∧ P a t
    | .error _ t => t.Placed env reports

namespace Places

variable {P R : α → State → Prop} {Q : β → State → Prop} {m : Parser α}

theorem of_runs (h : Places env reports P s m) (hs : s.Placed env reports) {a : α}
    (hm : Runs m s a t) : t.Placed env reports ∧ s.Reaches t ∧ P a t := by
  have hend := h hs
  rwa [hm] at hend

theorem pure {a : α} (h : P a s) : Places env reports P s (Pure.pure a) :=
  fun hs => ⟨hs, .refl s, h⟩

theorem throw {fault : Fault} : Places env reports P s (throw fault) :=
  id

theorem mono (h : Places env reports P s m) (hP : ∀ a t, P a t → R a t) :
    Places env reports R s m := by
  intro hs
  have hm := h hs
  cases heq : m s with
  | ok a t => rw [heq] at hm; exact ⟨hm.1, hm.2.1, hP a t hm.2.2⟩
  | error fault t => rwa [heq] at hm

theorem bind {f : α → Parser β} (h : Places env reports P s m)
    (hf : ∀ a t, t.Placed env reports → s.Reaches t → P a t → Places env reports Q t (f a)) :
    Places env reports Q s (m >>= f) := by
  intro hs
  have hm := h hs
  cases heq : m s with
  | ok a t =>
    rw [heq] at hm
    obtain ⟨ht, hst, ha⟩ := hm
    have hend := hf a t ht hst ha ht
    rw [bind_eq_of_ok heq]
    cases hfa : f a t with
    | ok b u => rw [hfa] at hend; exact ⟨hend.1, hst.trans hend.2.1, hend.2.2⟩
    | error fault u => rwa [hfa] at hend
  | error fault t =>
    rw [heq] at hm
    rw [bind_eq_of_error heq]
    exact hm

theorem map {f : α → β} (h : Places env reports P s m) (hf : ∀ a t, P a t → Q (f a) t) :
    Places env reports Q s (f <$> m) := by
  rw [map_eq_pure_bind]
  exact h.bind fun a t _ _ ha => .pure (hf a t ha)

/-- What holds after every run of the program holds beside. -/
theorem ensuring (h : Places env reports P s m) (h' : Ensures R s m) :
    Places env reports (fun a t => P a t ∧ R a t) s m := by
  intro hs
  have hm := h hs
  cases heq : m s with
  | ok a t => rw [heq] at hm; exact ⟨hm.1, hm.2.1, hm.2.2, h' a t heq⟩
  | error fault t => rwa [heq] at hm

/-- A program that starts with a step to another state. -/
theorem of_step {m' : Parser α} (ht : s.Placed env reports → t.Placed env reports)
    (hst : s.Reaches t) (h : Places env reports P t m') (heq : m s = m' t) :
    Places env reports P s m := by
  intro hs
  have hend := h (ht hs)
  rw [heq]
  cases hm : m' t with
  | ok a u => rw [hm] at hend; exact ⟨hend.1, hst.trans hend.2.1, hend.2.2⟩
  | error fault u => rwa [hm] at hend

theorem get {f : State → Parser β}
    (h : s.Placed env reports → Places env reports Q s (f s)) :
    Places env reports Q s (MonadState.get >>= f) :=
  fun hs => h hs hs

theorem current {f : Token → Parser β}
    (h : (s.current env).Fits env.source → Places env reports Q s (f (s.current env))) :
    Places env reports Q s (Parser.current env >>= f) :=
  fun hs => h hs.fits_current hs

theorem atTerminator {f : Bool → Parser β}
    (h : Places env reports Q s (f (s.atTerminator env))) :
    Places env reports Q s (Parser.atTerminator env >>= f) := h

theorem skip {count : Nat} {f : Unit → Parser β}
    (h : Places env reports Q (s.forward count) (f ())) :
    Places env reports Q s (Parser.skip count >>= f) :=
  .of_step (·.forward count) (.forward s count) h rfl

theorem advance {f : Unit → Parser β} (h : Places env reports Q (s.forward 1) (f ())) :
    Places env reports Q s (Parser.advance >>= f) :=
  .of_step (·.forward 1) (.forward s 1) h rfl

theorem skipSpacing {f : Unit → Parser β}
    (h : Places env reports Q (s.forward (s.rest.takeWhile State.isSpacing).length) (f ())) :
    Places env reports Q s (Parser.skipSpacing >>= f) :=
  .of_step (·.forward _) (.forward s _) h rfl

theorem cutDigit {c d : Char} {ds : List Char} {run : String} {f : Unit → Parser β}
    (hdigits : (s.current env).digits? = some run) (hrun : run.toList = c :: d :: ds)
    (h : Places env reports Q s.cutDigit (f ())) :
    Places env reports Q s ((modify (·.cutDigit) : Parser Unit) >>= f) :=
  .of_step (·.cutDigit hdigits hrun) (.cutDigit s) h rfl

theorem record {cause : Problem.Cause} {text : String} {f : Unit → Parser β}
    (hspans : env.Spans start stop) (hcites : env.Cites ⟨cause, text⟩ start stop)
    (h : Places env reports Q (s.record ⟨cause, text⟩ start stop) (f ())) :
    Places env reports Q s (Parser.record cause text start stop >>= f) :=
  .of_step (·.record hspans (.inr hcites)) ⟨id⟩ h rfl

theorem recordAt {token : Token} {cause : Problem.Cause} {text : String} {f : Unit → Parser β}
    (hfits : token.Fits env.source) (hcites : env.Cites ⟨cause, text⟩ token.start token.stop)
    (h : ∀ t, Places env reports Q t (f ())) :
    Places env reports Q s (Parser.recordAt token cause text >>= f) :=
  record hfits.bounds hcites (h _)

/-- A problem at the token that is next, which quotes nothing. -/
theorem recordHere {cause : Problem.Cause} {text : String} {f : Unit → Parser β}
    (hcites : ∀ start stop, env.Cites ⟨cause, text⟩ start stop)
    (h : ∀ t, Places env reports Q t (f ())) :
    Places env reports Q s (Parser.recordHere env cause text >>= f) :=
  fun hs => record hs.fits_current.bounds (hcites _ _) (h _) hs

theorem ite {c : Prop} [Decidable c] {m' : Parser α} (h : c → Places env reports P s m)
    (h' : ¬c → Places env reports P s m') : Places env reports P s (if c then m else m') := by
  split
  · next hc => exact h hc
  · next hc => exact h' hc

theorem awaiting {close : String} {P R : α → Prop}
    (h : Places env reports (fun a _ => P a) { s with closers := close :: s.closers } m)
    (hP : ∀ a, P a → R a) :
    Places env reports (fun a _ => R a) s (Parser.awaiting close m) := by
  intro hs
  have hm := h ⟨hs.fits, hs.ordered, hs.leaves, hs.located⟩
  unfold Parser.awaiting
  cases heq : m { s with closers := close :: s.closers } with
  | ok a t =>
    rw [heq] at hm
    obtain ⟨ht, hst, ha⟩ := hm
    exact ⟨⟨ht.fits, ht.ordered, ht.leaves, ht.located⟩, ⟨hst.beyond⟩, hP a ha⟩
  | error fault t =>
    rw [heq] at hm
    exact ⟨hm.fits, hm.ordered, hm.leaves, hm.located⟩

theorem descend {P : α → Prop}
    (h : Places env reports (fun a _ => P a) { s with depth := s.depth + 1 } m) :
    Places env reports (fun a _ => P a) s (Parser.descend env m) := by
  intro hs
  unfold Parser.descend
  by_cases hlimit : env.options.maxDepth ≤ s.depth
  · rw [if_pos hlimit]
    exact hs
  rw [if_neg hlimit]
  have hm := h ⟨hs.fits, hs.ordered, hs.leaves, hs.located⟩
  cases heq : m { s with depth := s.depth + 1 } with
  | ok a t =>
    rw [heq] at hm
    obtain ⟨ht, hst, ha⟩ := hm
    exact ⟨⟨ht.fits, ht.ordered, ht.leaves, ht.located⟩, ⟨hst.beyond⟩, ha⟩
  | error fault t =>
    rw [heq] at hm
    exact ⟨hm.fits, hm.ordered, hm.leaves, hm.located⟩

theorem attempt {m : Parser (Option α)} {P R : Option α → State → Prop}
    (h : Places env reports P s m) (hsome : ∀ a t, P (some a) t → R (some a) t) (hnone : R none s) :
    Places env reports R s (Parser.attempt m) := by
  intro hs
  have hm := h hs
  unfold Parser.attempt
  cases heq : m s with
  | ok a t =>
    cases a with
    | none => exact ⟨hs, .refl s, hnone⟩
    | some a =>
      rw [heq] at hm
      exact ⟨hm.1, hm.2.1, hsome a t hm.2.2⟩
  | error fault t => rwa [heq] at hm

theorem orElse {m m' : Parser (Option α)} {P R : Option α → State → Prop}
    (h : Places env reports P s m) (hsome : ∀ a t, P (some a) t → R (some a) t)
    (h' : ∀ t, P none t → Places env reports R t m') :
    Places env reports R s (Parser.orElse m m') := by
  refine h.bind fun a t _ _ ha => ?_
  cases a with
  | none => exact h' t ha
  | some a => exact .pure (hsome a t ha)

theorem either {m m' : Parser (Option α)} {P : Option α → State → Prop}
    (h : Places env reports P s m) (h' : ∀ t, Places env reports P t m') :
    Places env reports P s (Parser.orElse m m') :=
  h.orElse (fun _ _ ha => ha) fun t _ => h' t

/-- A notation that is taken back leaves the state to the next one. -/
theorem attempt_orElse {m m' : Parser (Option α)} {P R : Option α → State → Prop}
    (h : Places env reports P s m) (hsome : ∀ a t, P (some a) t → R (some a) t)
    (h' : Places env reports R s m') :
    Places env reports R s (Parser.orElse (Parser.attempt m) m') := by
  intro hs
  have hm := h hs
  unfold Parser.orElse
  cases heq : m s with
  | ok a t =>
    rw [heq] at hm
    cases a with
    | none =>
      have hback : Parser.attempt m s = .ok none s := by rw [Parser.attempt, heq]
      rw [bind_eq_of_ok hback]
      exact h' hs
    | some a =>
      have hgoes : Parser.attempt m s = .ok (some a) t := by rw [Parser.attempt, heq]
      rw [bind_eq_of_ok hgoes]
      exact ⟨hm.1, hm.2.1, hsome a t hm.2.2⟩
  | error fault t =>
    rw [heq] at hm
    have hends : Parser.attempt m s = .error fault t := by rw [Parser.attempt, heq]
    rw [bind_eq_of_error hends]
    exact hm

end Places

end Parser

end TexFormula
