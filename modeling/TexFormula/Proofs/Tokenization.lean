import Mathlib.Data.List.Chain
import TexFormula.Proofs.Spelling

/-!
# The cut of a text into tokens

`Kind.Covers kind text` says which texts the tokens of a kind stand over, and `Kind.GoesOn kind c`
that such a token would have taken a character `c` that follows it. `Lexeme.read` takes a text of
its kind, as long as it can be; hence the tokens of a source are its tiles (`Token.Tiles`).
-/

namespace TexFormula

namespace Text

/-- The characters that are a token of their own or start one of a special form. -/
def marks : List Char :=
  ['\x7b', '\x7d', '[', ']', '%', '\\']

end Text

namespace Token.Kind

/-- The texts that tokens of a kind cover. -/
def Covers : Kind → List Char → Prop
  | .ending, text => text = []
  | .blank, text => text ≠ [] ∧ ∀ c ∈ text, Text.isBlank c = true
  | .comment content, text =>
    ∃ cs, text = '%' :: cs ∧ '\n' ∉ cs ∧ content = String.ofList (Text.trim cs)
  | .loneBackslash, text => text = ['\\']
  | .command name, text =>
    text = '\\' :: name.toList ∧
      (name.toList ≠ [] ∧ (∀ c ∈ name.toList, c.isAlpha = true) ∨
        ∃ c, name = String.singleton c ∧ c.isAlpha = false)
  | .groupOpen, text => text = ['\x7b']
  | .groupClose, text => text = ['\x7d']
  | .optionalOpen, text => text = ['[']
  | .optionalClose, text => text = [']']
  | .digits run, text => text = run.toList ∧ text ≠ [] ∧ ∀ c ∈ text, c.isDigit = true
  | .letter c, text => text = [c] ∧ Text.isLetter c = true
  | .punct c, text =>
    text = [c] ∧ c ∉ Text.marks ∧ Text.isBlank c = false ∧ c.isDigit = false ∧
      Text.isLetter c = false

/-- Tokens of the kind take the character in when it follows them. -/
def GoesOn : Kind → Char → Prop
  | .blank, c => Text.isBlank c = true
  | .comment _, c => c ≠ '\n'
  | .loneBackslash, _ => True
  | .command name, c => (∀ d ∈ name.toList, d.isAlpha = true) ∧ c.isAlpha = true
  | .digits _, c => c.isDigit = true
  | _, _ => False

/-- Only the text of a separator may vary. -/
theorem Covers.text_eq {kind : Kind} {text text' : List Char} (h : kind.Covers text)
    (h' : kind.Covers text') (hkind : kind.isSeparator = false) : text = text' := by
  cases kind with
  | blank => cases hkind
  | comment content => cases hkind
  | ending | loneBackslash | groupOpen | groupClose | optionalOpen | optionalClose =>
    exact Eq.trans h (Eq.symm h')
  | command name | digits run | letter c | punct c => exact h.1.trans h'.1.symm

theorem Covers.ne_nil {kind : Kind} {text : List Char} (h : kind.Covers text)
    (hkind : kind ≠ .ending) : text ≠ [] := by
  rintro rfl
  cases kind <;> simp_all [Covers]

end Token.Kind

namespace Lexeme

open Token (Kind)

/-- The lexeme is a text of its kind, and what is left does not go on with it. -/
structure Maximal (l : Lexeme) : Prop where
  covers : l.kind.Covers l.text
  stops : ∀ c ∈ l.rest.head?, ¬ l.kind.GoesOn c
  kind_ne : l.kind ≠ .ending

theorem head?_dropWhile {p : Char → Bool} {c : Char} {cs : List Char}
    (h : c ∈ (cs.dropWhile p).head?) : p c = false := by
  have hp := List.head?_dropWhile_not p cs
  rw [Option.mem_def.mp h] at hp
  exact hp

theorem maximal_control (cs : List Char) : (control cs).Maximal := by
  cases cs with
  | nil => exact ⟨rfl, by simp [control], by simp [control]⟩
  | cons c cs =>
    cases hc : c.isAlpha with
    | false =>
      rw [control_of_not_isAlpha hc]
      refine ⟨⟨by simp, .inr ⟨c, rfl, hc⟩⟩, ?_, by simp⟩
      rintro d - ⟨hname, -⟩
      have hletter := hname c (by simp)
      rw [hc] at hletter
      cases hletter
    | true =>
      rw [control_of_isAlpha hc]
      refine ⟨⟨by simp [run], .inl ⟨by simp [hc], ?_⟩⟩, ?_, by simp [run]⟩
      · intro d hd
        rw [String.toList_ofList] at hd
        exact List.mem_takeWhile_imp hd
      · intro d hd hd'
        have hstop : d.isAlpha = false := head?_dropWhile hd
        rw [hd'.2] at hstop
        cases hstop

/-- One token is cut off as its kind says, and no sooner than it has to be. -/
theorem maximal_read (c : Char) (cs : List Char) : (read c cs).Maximal := by
  unfold read
  split_ifs with h₁ h₂ h₃ h₄ h₅ h₆ h₇ h₈ h₉
  · exact ⟨by simp [single, Kind.Covers, h₁], by simp [single, Kind.GoesOn], by simp [single]⟩
  · exact ⟨by simp [single, Kind.Covers, h₂], by simp [single, Kind.GoesOn], by simp [single]⟩
  · exact ⟨by simp [single, Kind.Covers, h₃], by simp [single, Kind.GoesOn], by simp [single]⟩
  · exact ⟨by simp [single, Kind.Covers, h₄], by simp [single, Kind.GoesOn], by simp [single]⟩
  · subst h₅
    refine ⟨⟨_, rfl, fun hline => ?_, rfl⟩, fun d hd hd' => ?_, by simp [run]⟩
    · simpa using List.mem_takeWhile_imp hline
    · have hstop := head?_dropWhile hd
      simp only [bne_eq_false_iff_eq] at hstop
      exact hd' hstop
  · exact maximal_control cs
  · refine ⟨⟨by simp [run], ?_⟩, fun d hd hd' => ?_, by simp [run]⟩
    · simp only [run, List.mem_cons]
      rintro d (rfl | hd)
      · exact h₇
      · exact List.mem_takeWhile_imp hd
    · have hstop := head?_dropWhile hd
      rw [show Text.isBlank d = true from hd'] at hstop
      cases hstop
  · refine ⟨⟨by simp [run], by simp [run], ?_⟩, fun d hd hd' => ?_, by simp [run]⟩
    · simp only [run, List.mem_cons]
      rintro d (rfl | hd)
      · exact h₈
      · exact List.mem_takeWhile_imp hd
    · have hstop := head?_dropWhile hd
      rw [show d.isDigit = true from hd'] at hstop
      cases hstop
  · exact ⟨⟨rfl, h₉⟩, by simp [single, Kind.GoesOn], by simp [single]⟩
  · refine ⟨⟨rfl, ?_, ?_, ?_, ?_⟩, by simp [single, Kind.GoesOn], by simp [single]⟩
    · simp [Text.marks, h₁, h₂, h₃, h₄, h₅, h₆]
    · simpa using h₇
    · simpa using h₈
    · simpa using h₉

/-! ### The text of a token tells what it is -/

/-- A text that a kind covers is read as one token of that kind, when what follows does not go on
with it. -/
theorem read_append_of_covers {kind : Kind} {c : Char} {cs rest : List Char}
    (h : kind.Covers (c :: cs)) (hstops : ∀ d ∈ rest.head?, ¬ kind.GoesOn d) :
    read c (cs ++ rest) = ⟨kind, c :: cs, rest⟩ := by
  have hrest : ∀ p : Char → Bool, (∀ d, p d = true → kind.GoesOn d) → rest.head?.any p = false := by
    intro p hp
    cases rest with
    | nil => rfl
    | cons d ds => exact Bool.eq_false_of_not_eq_true fun hd => hstops d rfl (hp d hd)
  cases kind with
  | ending => cases h
  | blank =>
    have hcs : ∀ d ∈ cs, Text.isBlank d = true := fun d hd => h.2 d (.tail _ hd)
    rw [read_of_isBlank (h.2 c (.head _)), run, Text.takeWhile_append hcs (hrest _ fun _ hd => hd),
      Text.dropWhile_append hcs (hrest _ fun _ hd => hd)]
  | comment content =>
    obtain ⟨ds, hds, hline, rfl⟩ := h
    obtain ⟨rfl, rfl⟩ := List.cons.inj hds
    have hcs : ∀ d ∈ cs, (d != '\n') = true := by
      rintro d hd
      simp only [bne_iff_ne]
      rintro rfl
      exact hline hd
    have hstop := hrest (· != '\n') fun d hd => bne_iff_ne.mp hd
    show run (fun t => .comment (String.ofList (Text.trim t))) (· != '\n') '%' (cs ++ rest) = _
    rw [run, Text.takeWhile_append hcs hstop, Text.dropWhile_append hcs hstop]
  | loneBackslash =>
    cases h
    cases rest with
    | nil => rfl
    | cons d ds => exact absurd trivial (hstops d rfl)
  | groupOpen => cases h; rfl
  | groupClose => cases h; rfl
  | optionalOpen => cases h; rfl
  | optionalClose => cases h; rfl
  | command name =>
    obtain ⟨htext, hname⟩ := h
    obtain ⟨rfl, rfl⟩ := List.cons.inj htext
    show control (name.toList ++ rest) = _
    rcases hname with ⟨hne, hword⟩ | ⟨c, rfl, hc⟩
    · have hstop := hrest Char.isAlpha fun d hd => ⟨hword, hd⟩
      have hcut := Text.takeWhile_append hword hstop
      have hleft := Text.dropWhile_append hword hstop
      obtain ⟨c, cs, hcs⟩ := List.exists_cons_of_ne_nil hne
      rw [hcs, List.cons_append, control_of_isAlpha (hword c (by simp [hcs])), ← List.cons_append,
        ← hcs, run, hcut, hleft, String.ofList_toList]
    · rw [String.toList_singleton]
      exact control_of_not_isAlpha hc rest
  | digits run =>
    obtain ⟨htext, -, hdigits⟩ := h
    have hcs : ∀ d ∈ cs, d.isDigit = true := fun d hd => hdigits d (.tail _ hd)
    rw [read_of_isDigit (hdigits c (.head _)), Lexeme.run,
      Text.takeWhile_append hcs (hrest _ fun _ hd => hd),
      Text.dropWhile_append hcs (hrest _ fun _ hd => hd), htext, String.ofList_toList]
  | letter d =>
    obtain ⟨htext, hletter⟩ := h
    obtain ⟨rfl, rfl⟩ := List.cons.inj htext
    exact read_of_isLetter hletter rest
  | punct d =>
    obtain ⟨htext, hmarks, hblank, hdigit, hletter⟩ := h
    obtain ⟨rfl, rfl⟩ := List.cons.inj htext
    simp only [Text.marks, List.mem_cons, List.not_mem_nil, or_false, not_or] at hmarks
    simp [read, hmarks, hblank, hdigit, hletter, single]

/-- A text that a kind covers is read as one token of that kind. -/
theorem read_of_covers {kind : Kind} {c : Char} {cs : List Char} (h : kind.Covers (c :: cs)) :
    read c cs = ⟨kind, c :: cs, []⟩ := by
  have hstops : ∀ d ∈ ([] : List Char).head?, ¬ kind.GoesOn d := nofun
  have hread := read_append_of_covers h hstops
  rwa [List.append_nil] at hread

end Lexeme

namespace Token

theorem Kind.Covers.kind_eq {kind kind' : Kind} {text : List Char} (h : kind.Covers text)
    (h' : kind'.Covers text) : kind = kind' := by
  cases text with
  | nil =>
    have hending : ∀ k : Kind, k.Covers [] → k = .ending := fun k hk =>
      Decidable.byContradiction fun hne => hk.ne_nil hne rfl
    rw [hending kind h, hending kind' h']
  | cons c cs =>
    have hread := (Lexeme.read_of_covers h).symm.trans (Lexeme.read_of_covers h')
    exact (Lexeme.mk.inj hread).1

/-- The tokens are the tiles of the text `cs`, which starts at byte `offset`. -/
inductive Tiles : Nat → List Char → List Token → Prop
  | ending (offset : Nat) : Tiles offset [] [⟨.ending, offset, offset⟩]
  | token {offset : Nat} {kind : Kind} {text rest : List Char} {tokens : List Token}
      (hkind : kind ≠ .ending) (covers : kind.Covers text) (stops : ∀ c ∈ rest.head?, ¬ kind.GoesOn c)
      (tiles : Tiles (offset + Text.byteLength text) rest tokens) :
      Tiles offset (text ++ rest) (⟨kind, offset, offset + Text.byteLength text⟩ :: tokens)

theorem tiles_scan (offset : Nat) (cs : List Char) : Tiles offset cs (scan offset cs) := by
  fun_induction scan offset cs with
  | case1 offset => exact .ending offset
  | case2 offset c cs ih =>
    have hread := Lexeme.maximal_read c cs
    have htiles := Tiles.token hread.kind_ne hread.covers hread.stops ih
    rw [Lexeme.text_append_rest c cs] at htiles
    exact htiles

/-- Where a token is not split: what follows `t` could not have been a part of it. -/
structure Unsplit (source : String) (t u : Token) : Prop where
  digits : ∀ run run', t.kind = .digits run → u.kind ≠ .digits run'
  blank : t.kind = .blank → u.kind ≠ .blank
  command : ∀ name, t.kind = .command name → (∀ c ∈ name.toList, c.isAlpha = true) →
    ∀ c cs, Text.slice? source.toList u.start u.stop = some (c :: cs) → c.isAlpha = false
  comment : ∀ content, t.kind = .comment content →
    u.kind = .ending ∨ ∃ cs, Text.slice? source.toList u.start u.stop = some ('\n' :: cs)
  loneBackslash : t.kind = .loneBackslash → u.kind = .ending

/-- The tokens are a cut of the whole source, without gaps, from which it can be put together. -/
structure Tokenizes (source : String) (tokens : List Token) : Prop where
  starts : ∃ t, tokens.head? = some t ∧ t.start = 0
  adjoins : tokens.IsChain fun t u => t.stop = u.start
  ends : tokens.getLast? = some ⟨.ending, source.utf8ByteSize, source.utf8ByteSize⟩
  nonempty : ∀ t ∈ tokens.dropLast, t.kind ≠ .ending ∧ t.start < t.stop
  covers : ∀ t ∈ tokens, ∃ text, Text.slice? source.toList t.start t.stop = some text ∧
    t.kind.Covers text ∧ (∀ kind : Kind, kind.Covers text → kind = t.kind) ∧
    (t.kind.isSeparator = false → ∀ text', t.kind.Covers text' → text' = text)
  unsplit : tokens.IsChain (Unsplit source)

namespace Tiles

variable {offset : Nat} {cs : List Char} {tokens : List Token}

/-- The first tile stands at the front of the text. -/
theorem head (h : Tiles offset cs tokens) : ∃ u text rest, tokens.head? = some u ∧
    cs = text ++ rest ∧ u.kind.Covers text ∧ u.start = offset ∧
    u.stop = offset + Text.byteLength text := by
  cases h with
  | ending => exact ⟨_, [], [], rfl, rfl, rfl, rfl, rfl⟩
  | token hkind covers stops tiles => exact ⟨_, _, _, rfl, rfl, covers, rfl, rfl⟩

theorem adjoins (h : Tiles offset cs tokens) : tokens.IsChain fun t u => t.stop = u.start := by
  induction h with
  | ending offset => exact .singleton _
  | token hkind covers stops tiles ih =>
    refine List.isChain_cons.mpr ⟨fun u hu => ?_, ih⟩
    obtain ⟨u', text, rest, hu', -, -, hstart, -⟩ := tiles.head
    rw [hu'] at hu
    cases hu
    exact hstart.symm

theorem getLast? (h : Tiles offset cs tokens) :
    tokens.getLast? = some ⟨.ending, offset + Text.byteLength cs, offset + Text.byteLength cs⟩ := by
  induction h with
  | ending offset => rfl
  | token hkind covers stops tiles ih =>
    rw [List.getLast?_cons, ih]
    simp [Nat.add_assoc]

theorem nonempty (h : Tiles offset cs tokens) :
    ∀ t ∈ tokens.dropLast, t.kind ≠ .ending ∧ t.start < t.stop := by
  induction h with
  | ending offset => nofun
  | token hkind covers stops tiles ih =>
    obtain ⟨u, -, -, hu, -⟩ := tiles.head
    obtain ⟨tokens, rfl⟩ := List.head?_eq_some_iff.mp hu
    rintro t (_ | ⟨_, ht⟩)
    · have hpos := Text.byteLength_pos (covers.ne_nil hkind)
      exact ⟨hkind, by simp only; omega⟩
    · exact ih t ht

theorem offset_le (h : Tiles offset cs tokens) : ∀ t ∈ tokens, offset ≤ t.start := by
  induction h with
  | ending offset => simp
  | token hkind covers stops tiles ih =>
    rintro t (_ | ⟨_, ht⟩)
    · exact Nat.le_refl _
    · have hle := ih t ht
      omega

/-- Every token ends before all later ones start. -/
theorem pairwise (h : Tiles offset cs tokens) : tokens.Pairwise fun t u => t.stop ≤ u.start := by
  induction h with
  | ending offset => simp
  | token hkind covers stops tiles ih => exact .cons tiles.offset_le ih

/-- Every tile is a slice of the text, and one its kind covers. -/
theorem slices (h : Tiles offset cs tokens) {before : List Char}
    (hbefore : Text.byteLength before = offset) :
    ∀ t ∈ tokens, ∃ text, Text.slice? (before ++ cs) t.start t.stop = some text ∧
      t.kind.Covers text := by
  induction h generalizing before with
  | ending offset =>
    simp only [List.mem_singleton, forall_eq]
    exact ⟨[], Text.slice?_eq_some_iff.mpr ⟨before, [], rfl, hbefore, rfl⟩, rfl⟩
  | @token offset kind text rest tokens hkind covers stops tiles ih =>
    rintro t (_ | ⟨_, ht⟩)
    · exact ⟨text, Text.slice?_eq_some_iff.mpr ⟨before, rest, rfl, hbefore, rfl⟩, covers⟩
    · have hbefore' : Text.byteLength (before ++ text) = offset + Text.byteLength text := by
        simp [hbefore]
      obtain ⟨text', hslice, hcovers⟩ := ih hbefore' t ht
      exact ⟨text', by simpa using hslice, hcovers⟩

theorem unsplit_of_not_goesOn {source : String} {t u : Token} {text rest : List Char}
    (hstops : ∀ c ∈ (text ++ rest).head?, ¬ t.kind.GoesOn c) (hcovers : u.kind.Covers text)
    (hslice : Text.slice? source.toList u.start u.stop = some text) : Unsplit source t u := by
  have hhead : ∀ c cs, text = c :: cs → ¬ t.kind.GoesOn c := by
    rintro c cs rfl
    exact hstops c rfl
  have hcons : u.kind ≠ .ending → ∃ c cs, text = c :: cs := fun hu =>
    List.exists_cons_of_ne_nil (hcovers.ne_nil hu)
  refine ⟨fun run run' ht hu => ?_, fun ht hu => ?_, fun name ht hname c cs hc => ?_,
    fun content ht => ?_, fun ht => ?_⟩
  · obtain ⟨c, cs, rfl⟩ := hcons (by simp [hu])
    rw [hu] at hcovers
    exact hhead c cs rfl (ht ▸ hcovers.2.2 c (.head _))
  · obtain ⟨c, cs, rfl⟩ := hcons (by simp [hu])
    rw [hu] at hcovers
    exact hhead c cs rfl (ht ▸ hcovers.2 c (.head _))
  · have htext : text = c :: cs := Option.some.inj (hslice.symm.trans hc)
    cases hletter : c.isAlpha with
    | false => rfl
    | true => exact absurd (ht ▸ ⟨hname, hletter⟩) (hhead c cs htext)
  · by_cases hu : u.kind = .ending
    · exact .inl hu
    · obtain ⟨c, cs, rfl⟩ := hcons hu
      by_cases hc : c = '\n'
      · exact .inr ⟨cs, hc ▸ hslice⟩
      · exact absurd (ht ▸ hc) (hhead c cs rfl)
  · by_contra hu
    obtain ⟨c, cs, rfl⟩ := hcons hu
    exact hhead c cs rfl (ht ▸ trivial)

theorem unsplit {source : String} (h : Tiles offset cs tokens) {before : List Char}
    (hbefore : Text.byteLength before = offset) (hsource : source.toList = before ++ cs) :
    tokens.IsChain (Unsplit source) := by
  induction h generalizing before with
  | ending offset => exact .singleton _
  | @token offset kind text rest tokens hkind covers stops tiles ih =>
    have hbefore' : Text.byteLength (before ++ text) = offset + Text.byteLength text := by
      simp [hbefore]
    have hsource' : source.toList = (before ++ text) ++ rest := by simp [hsource]
    refine List.isChain_cons.mpr ⟨fun u hu => ?_, ih hbefore' hsource'⟩
    obtain ⟨u', text', rest', hu', rfl, hcovers, hstart, hstop⟩ := tiles.head
    rw [hu'] at hu
    cases hu
    refine unsplit_of_not_goesOn stops hcovers ?_
    exact Text.slice?_eq_some_iff.mpr
      ⟨before ++ text, rest', hsource', hbefore'.trans hstart.symm, by rw [hstart, hstop]⟩

end Tiles

variable {source : String}

theorem isChain_meaningful (source : String) :
    (meaningful source).IsChain fun t u => t.stop ≤ u.start :=
  ((tiles_scan 0 source.toList).pairwise.filter _).isChain

theorem exists_covers_of_mem_meaningful {t : Token} (h : t ∈ meaningful source) :
    t.kind.isSeparator = false ∧ ∃ text, t.kind.Covers text ∧
      Text.slice? source.toList t.start t.stop = some text := by
  obtain ⟨ht, hmeaning⟩ := List.mem_filter.mp h
  obtain ⟨text, hslice, hcovers⟩ := (tiles_scan 0 source.toList).slices Text.byteLength_nil t ht
  simp only [Bool.and_eq_true, Bool.not_eq_true'] at hmeaning
  exact ⟨hmeaning.1, text, hcovers, hslice⟩

/-- A source is cut into tokens without loss, and no run of characters is split. -/
theorem tokenizes_ofSource (source : String) : Tokenizes source (ofSource source) := by
  have htiles : Tiles 0 source.toList (ofSource source) := tiles_scan 0 source.toList
  refine ⟨?_, htiles.adjoins, ?_, htiles.nonempty, fun t ht => ?_,
    htiles.unsplit Text.byteLength_nil rfl⟩
  · obtain ⟨t, -, -, ht, -, -, hstart, -⟩ := htiles.head
    exact ⟨t, ht, hstart⟩
  · rw [htiles.getLast?, Text.byteLength_toList, Nat.zero_add]
  · obtain ⟨text, hslice, hcovers⟩ := htiles.slices Text.byteLength_nil t ht
    exact ⟨text, hslice, hcovers, fun kind hkind => hkind.kind_eq hcovers,
      fun hseparator text' htext' => htext'.text_eq hcovers hseparator⟩

end Token

end TexFormula
