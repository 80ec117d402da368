import TexFormula.MathJson
import TexFormula.Proofs.Layout
import TexFormula.Proofs.SkippedLetters.Expression

/-!
# Sources without their letters

A source and the one with blanks in place of its letters (`withoutLetters`) have the same tokens but for
the letters, each with the same text under it. If letters are left out and none of them decides anything,
both are read as the same expression with the same problems (`parse_withoutLetters`). The letters are
taken away in two steps: first from the tokens (`sifted_ofSource`), where the runs with and without them
are compared, and then from the text under the tokens (`alike_withoutLetters`).

A letter behind an operand decides that a factor is read, where without it an operator may follow. So
the sign behind the letter of `2x+3` is a part of the factor, and the two sources are read as different
expressions (`not_parse_withoutLetters`).
-/

namespace TexFormula

/-! ### Letters replaced by blanks -/

namespace Text

/-- The text with blanks in place of its letters, as many as they have bytes. -/
def blankLetters (cs : List Char) : List Char :=
  cs.flatMap fun c => if isLetter c then List.replicate c.utf8Size ' ' else [c]

variable {c : Char} {cs : List Char}

@[simp] theorem blankLetters_nil : blankLetters [] = [] := rfl

@[simp] theorem blankLetters_append (cs ds : List Char) :
    blankLetters (cs ++ ds) = blankLetters cs ++ blankLetters ds :=
  List.flatMap_append

theorem blankLetters_cons_of_isLetter (h : isLetter c = true) (cs : List Char) :
    blankLetters (c :: cs) = List.replicate c.utf8Size ' ' ++ blankLetters cs := by
  rw [blankLetters, List.flatMap_cons, if_pos h]
  rfl

theorem blankLetters_cons_of_not_isLetter (h : isLetter c = false) (cs : List Char) :
    blankLetters (c :: cs) = c :: blankLetters cs := by
  rw [blankLetters, List.flatMap_cons, if_neg (by rw [h]; exact Bool.false_ne_true)]
  rfl

theorem blankLetters_of_forall (h : ∀ c ∈ cs, isLetter c = false) : blankLetters cs = cs := by
  induction cs with
  | nil => rfl
  | cons c cs ih =>
    obtain ⟨hc, hcs⟩ := List.forall_mem_cons.mp h
    rw [blankLetters_cons_of_not_isLetter hc, ih hcs]

@[simp] theorem byteLength_replicate_blank (n : Nat) : byteLength (List.replicate n ' ') = n := by
  induction n with
  | zero => rfl
  | succ n ih =>
    rw [List.replicate_succ, byteLength_cons, ih, Nat.add_comm]
    rfl

theorem byteLength_blankLetters (cs : List Char) : byteLength (blankLetters cs) = byteLength cs := by
  induction cs with
  | nil => rfl
  | cons c cs ih =>
    cases hc : isLetter c with
    | true => rw [blankLetters_cons_of_isLetter hc, byteLength_append, byteLength_replicate_blank, ih,
        byteLength_cons]
    | false => rw [blankLetters_cons_of_not_isLetter hc, byteLength_cons, ih, byteLength_cons]

theorem mem_blankLetters {d : Char} (h : d ∈ blankLetters cs) : d = ' ' ∨ d ∈ cs := by
  obtain ⟨c, hc, hd⟩ := List.mem_flatMap.mp h
  split at hd
  · exact .inl (List.eq_of_mem_replicate hd)
  · rw [List.mem_singleton.mp hd]
    exact .inr hc

/-- The first character is what it was, or it was a letter and is a blank. -/
theorem head?_blankLetters {d : Char} (h : d ∈ (blankLetters cs).head?) :
    ∃ c ∈ cs.head?, isLetter c = false ∧ d = c ∨ isLetter c = true ∧ d = ' ' := by
  cases cs with
  | nil => cases h
  | cons c cs =>
    refine ⟨c, rfl, ?_⟩
    cases hc : isLetter c with
    | false =>
      rw [blankLetters_cons_of_not_isLetter hc] at h
      exact .inl ⟨rfl, (Option.some.inj h).symm⟩
    | true =>
      obtain ⟨n, hn⟩ := Nat.exists_eq_add_of_lt c.utf8Size_pos
      rw [blankLetters_cons_of_isLetter hc, hn, Nat.zero_add, List.replicate_succ] at h
      exact .inr ⟨rfl, (Option.some.inj h).symm⟩

end Text

/-- The source with blanks in place of its letters. -/
def withoutLetters (source : String) : String :=
  String.ofList (Text.blankLetters source.toList)

namespace Token

open Text (blankLetters)

/-- The tokens that carry meaning in a text which starts at byte `offset`. -/
def meaningfulFrom (offset : Nat) (cs : List Char) : List Token :=
  (scan offset cs).filter fun t => !t.kind.isSeparator && t.kind != .ending

theorem meaningfulFrom_append {kind : Kind} {text rest : List Char} (hkind : kind ≠ .ending)
    (hcovers : kind.Covers text) (hstops : ∀ c ∈ rest.head?, ¬ kind.GoesOn c) (offset : Nat) :
    meaningfulFrom offset (text ++ rest) =
      (if kind.isSeparator then [] else [⟨kind, offset, offset + Text.byteLength text⟩]) ++
        meaningfulFrom (offset + Text.byteLength text) rest := by
  have htiles := Tiles.token hkind hcovers hstops (tiles_scan (offset + Text.byteLength text) rest)
  rw [meaningfulFrom, ← htiles.eq_scan, List.filter_cons, bne_iff_ne.mpr hkind, Bool.and_true]
  cases kind.isSeparator <;> rfl

/-- Blanks mean nothing, together with those behind them. -/
theorem meaningfulFrom_blanks {bs : List Char} (hbs : ∀ c ∈ bs, Text.isBlank c = true) (offset : Nat)
    (rest : List Char) :
    meaningfulFrom offset (bs ++ rest) = meaningfulFrom (offset + Text.byteLength bs) rest := by
  -- the run of blanks that starts here ends before `tail`
  have hrun {lead tail : List Char} (hlead : ∀ c ∈ lead, Text.isBlank c = true)
      (htail : ∀ c ∈ tail.head?, Text.isBlank c = false) (offset : Nat) :
      meaningfulFrom offset (lead ++ tail) = meaningfulFrom (offset + Text.byteLength lead) tail := by
    rcases eq_or_ne lead [] with rfl | hne
    · rfl
    · have hcovers : Kind.Covers .blank lead := ⟨hne, hlead⟩
      refine meaningfulFrom_append (by nofun) hcovers (fun c hc hgoes => ?_) offset
      exact Bool.false_ne_true ((htail c hc).symm.trans hgoes)
  have hlead : ∀ c ∈ rest.takeWhile Text.isBlank, Text.isBlank c = true :=
    fun c => List.mem_takeWhile_imp
  have htail : ∀ c ∈ (rest.dropWhile Text.isBlank).head?, Text.isBlank c = false :=
    fun c => Lexeme.head?_dropWhile
  rw [← List.takeWhile_append_dropWhile (p := Text.isBlank) (l := rest), ← List.append_assoc,
    hrun (List.forall_mem_append.mpr ⟨hbs, hlead⟩) htail, hrun hlead htail, Text.byteLength_append,
    Nat.add_assoc]

/-- A token that does not go on with a letter does not go on with a blank. -/
theorem Kind.not_goesOn_blank {kind : Kind} {c : Char} (hblank : kind ≠ .blank)
    (hletter : Text.isLetter c = true) (h : ¬ kind.GoesOn c) : ¬ kind.GoesOn ' ' := by
  intro hgoes
  cases kind with
  | blank => exact hblank rfl
  | comment content =>
    refine h ?_
    rintro rfl
    cases hletter
  | loneBackslash => exact h trivial
  | command name => cases hgoes.2
  | digits run => cases hgoes
  | _ => exact hgoes

/-- Only letters, and what is not read, have letters in their texts. -/
theorem Kind.Covers.not_isLetter {kind : Kind} {text : List Char} (h : kind.Covers text)
    (hletter : ∀ c, kind ≠ .letter c) (hcomment : ∀ content, kind ≠ .comment content)
    (hcommand : ∀ name, kind ≠ .command name) : ∀ c ∈ text, Text.isLetter c = false := by
  intro c hc
  cases kind with
  | ending =>
    cases h
    cases hc
  | blank =>
    by_contra hcontra
    have hblank := Text.isBlank_of_isLetter (Bool.eq_true_of_not_eq_false hcontra)
    rw [h.2 c hc] at hblank
    cases hblank
  | digits run =>
    by_contra hcontra
    have hdigit := Text.isDigit_of_isLetter (Bool.eq_true_of_not_eq_false hcontra)
    rw [h.2.2 c hc] at hdigit
    cases hdigit
  | letter d => exact absurd rfl (hletter d)
  | comment content => exact absurd rfl (hcomment content)
  | command name => exact absurd rfl (hcommand name)
  | punct d =>
    obtain ⟨rfl, -, -, -, hd⟩ := h
    rw [List.mem_singleton.mp hc]
    exact hd
  | _ =>
    cases h
    rw [List.mem_singleton.mp hc]
    decide +kernel

/-- In front of a text without its letters a token stops as it does in front of the text. -/
theorem stops_blankLetters {kind : Kind} {rest : List Char} (hblank : kind ≠ .blank)
    (hstops : ∀ c ∈ rest.head?, ¬ kind.GoesOn c) :
    ∀ c ∈ (blankLetters rest).head?, ¬ kind.GoesOn c := by
  intro d hd
  obtain ⟨c, hc, ⟨-, rfl⟩ | ⟨hletter, rfl⟩⟩ := Text.head?_blankLetters hd
  · exact hstops d hc
  · exact Kind.not_goesOn_blank hblank hletter (hstops c hc)

/-- Where blanks replace the letters, all other tokens are what they were. By induction on the tokens. -/
theorem Tiles.meaningfulFrom_blankLetters {offset : Nat} {cs : List Char} {tokens : List Token}
    (h : Tiles offset cs tokens) (hplain : ∀ t ∈ tokens, ∀ name, t.kind ≠ .command name) :
    meaningfulFrom offset (blankLetters cs) =
      sift (tokens.filter fun t => !t.kind.isSeparator && t.kind != .ending) := by
  induction h with
  | ending offset =>
    rw [Text.blankLetters_nil, meaningfulFrom, scan]
    rfl
  | @token offset kind text rest tokens hkind covers stops tiles ih =>
    obtain ⟨hcommand, hplain⟩ := List.forall_mem_cons.mp hplain
    have ih := ih hplain
    have hgeneral (hletter : ∀ c, kind ≠ .letter c) (hcomment : ∀ content, kind ≠ .comment content)
        (hblank : kind ≠ .blank) : meaningfulFrom offset (blankLetters text ++ blankLetters rest) =
          (if kind.isSeparator then [] else [⟨kind, offset, offset + Text.byteLength text⟩]) ++
            meaningfulFrom (offset + Text.byteLength text) (blankLetters rest) := by
      rw [Text.blankLetters_of_forall (covers.not_isLetter hletter hcomment hcommand)]
      exact meaningfulFrom_append hkind covers (stops_blankLetters hblank stops) offset
    rw [Text.blankLetters_append]
    cases kind with
    | ending => exact absurd rfl hkind
    | command name => exact absurd rfl (hcommand name)
    | blank =>
      rw [Text.blankLetters_of_forall (covers.not_isLetter (by simp) (by simp) (by simp)),
        meaningfulFrom_blanks covers.2, ih]
      rfl
    | comment content =>
      obtain ⟨cs, rfl, hline, rfl⟩ := covers
      generalize hcontent : String.ofList (Text.trim (blankLetters cs)) = content
      have hcomment : Kind.Covers (.comment content) ('%' :: blankLetters cs) := by
        rw [← hcontent]
        refine ⟨_, rfl, fun hmem => ?_, rfl⟩
        rcases Text.mem_blankLetters hmem with hcontra | hmem
        · cases hcontra
        · exact hline hmem
      have hstops : ∀ c ∈ rest.head?, ¬ Kind.GoesOn (.comment content) c := stops
      rw [Text.blankLetters_cons_of_not_isLetter (by decide +kernel),
        meaningfulFrom_append (by simp) hcomment (stops_blankLetters (by simp) hstops),
        Text.byteLength_cons, Text.byteLength_blankLetters, ← Text.byteLength_cons, ih]
      rfl
    | letter c =>
      obtain ⟨rfl, hc⟩ := covers
      rw [Text.blankLetters_cons_of_isLetter hc, Text.blankLetters_nil, List.append_nil,
        meaningfulFrom_blanks (fun d hd => by rw [List.eq_of_mem_replicate hd]; rfl),
        Text.byteLength_replicate_blank]
      exact ih
    | _ => rw [hgeneral (by simp) (by simp) (by simp), ih]; rfl

theorem meaningful_withoutLetters {source : String}
    (hplain : ∀ t ∈ meaningful source, ∀ name, t.kind ≠ .command name) :
    meaningful (withoutLetters source) = sift (meaningful source) := by
  have htokens : ∀ t ∈ scan 0 source.toList, ∀ name, t.kind ≠ .command name := by
    intro t ht name hkind
    exact hplain t (List.mem_filter.mpr ⟨ht, by rw [hkind]; rfl⟩) name hkind
  have hfrom := (tiles_scan 0 source.toList).meaningfulFrom_blankLetters htokens
  rw [meaningful, ofSource, withoutLetters, String.toList_ofList]
  exact hfrom

end Token

namespace Parser

variable {env : Env} {inner : Inner} {s s' t u : State} {token : Token}

/-! ### The parts of a source -/

theorem rest_of_runs_unexpected {x : Operand} (h : Runs (unexpected env token) t x u) :
    u.rest = (t.forward 1).rest := by
  cases h
  rfl

theorem Sifted.isEmpty_rest (h : Sifted s s') (hs : s.atLetter = false) :
    s'.rest.isEmpty = s.rest.isEmpty := by
  cases hrest : s.rest with
  | nil => rw [h.rest_nil hrest]
  | cons t rest => rw [h.rest_cons hrest ((State.atLetter_of_rest hrest).symm.trans hs)]; rfl

/-- In each round a token is read on both sides, so both have rounds enough. -/
theorem sifts_parts (hlevel : SiftsLevel env inner) (hreads : ReadsLevel env inner) {fuel fuel' : Nat}
    (h : Sifted s s') (hfuel : s.rest.length < fuel) (hfuel' : s'.rest.length < fuel') :
    Sifts (fun _ _ => True) s s' (parts env inner fuel) (parts env inner fuel') := by
  induction fuel generalizing s s' fuel' with
  | zero => cases hfuel
  | succ fuel ih =>
    obtain ⟨fuel', rfl⟩ := Nat.exists_eq_add_of_le' (Nat.zero_lt_of_lt hfuel')
    refine .bind_of_runs (hlevel.expression .loosest h) fun e t t' hruns hruns' ht hends => .get ?_
    have hletter := hends.passes (Nat.zero_le _)
    rw [ht.isEmpty_rest hletter]
    refine .ite (fun _ => .pure ht trivial) fun hne => .current ht hletter ?_
    refine .bind_of_runs (sifts_unexpected ht hletter) fun stray u u' hstray hstray' hu _ => ?_
    have hless {v v' w : State} (hv : Runs (inner.expression .loosest) v e v') (hne : v'.rest ≠ [])
        (hw : Runs (unexpected env (t.current env)) v' stray w) : w.rest.length < v.rest.length := by
      rw [rest_of_runs_unexpected hw]
      exact Nat.lt_of_lt_of_le (State.length_rest_forward_one_lt hne)
        ((hreads.keeps.expression _).follows hv).length_rest_le
    have hmore := hless hruns (by simpa using hne) hstray
    have hne' : t'.rest ≠ [] := by
      rw [← List.isEmpty_eq_false_iff, ht.isEmpty_rest hletter]
      simpa using hne
    have hmore' := hless hruns' hne' hstray'
    exact .bind (ih hu (by omega) (by omega)) fun es v v' hv _ => .pure hv trivial

theorem sifts_rootNested (henv : env.LeavesOut) (h : Sifted s s') :
    Sifts (fun _ _ => True) s s' (rootNested env) (rootNested env) :=
  .get (.bind (sifts_parts (siftsLevel_nested henv _) (readsLevel_nested henv _) h
    (Nat.lt_succ_self _) (Nat.lt_succ_self _)) fun _ _ _ ht _ => .pure ht trivial)

/-! ### From the source to the tokens -/

theorem Token.simple_of_mem {source : String} {t : Token} (ht : t ∈ Token.meaningful source)
    (hplain : ∀ name, t.kind ≠ .command name) : t.Simple := by
  obtain ⟨-, text, hcovers, hslice⟩ := Token.exists_covers_of_mem_meaningful ht
  refine ⟨fun {trigger} htrigger hhead => ?_, fun {c} hkind => ?_, fun hletter => ?_⟩
  · unfold Token.trigger? at htrigger
    cases hkind : t.kind with
    | command name => exact absurd hkind (hplain name)
    | letter c =>
      rw [hkind] at htrigger hcovers
      cases htrigger
      rw [String.toList_singleton] at hhead
      cases hhead
      exact absurd hcovers.2 (by decide +kernel)
    | punct c =>
      rw [hkind] at htrigger hcovers
      cases htrigger
      rw [String.toList_singleton] at hhead
      cases hhead
      exact absurd hcovers.2.1 (by decide)
    | optionalOpen | optionalClose =>
      rw [hkind] at htrigger
      cases htrigger
      cases hhead
    | _ =>
      rw [hkind] at htrigger
      cases htrigger
  · rw [hkind] at hcovers
    exact hcovers.2
  · refine Token.Fits.lt ⟨text, hslice, hcovers⟩ fun hkind => ?_
    rw [Token.isLetter, hkind] at hletter
    cases hletter

/-- The tokens of the source without its letters, in front of which nothing has been read. -/
def withoutLettersAhead (source : String) : State :=
  { rest := Token.sift (Token.meaningful source) }

section

variable {source : String} {options : ParseOptions}
  (hplain : ∀ t ∈ Token.meaningful source, ∀ name, t.kind ≠ .command name)

include hplain

theorem sifted_ofSource (hapart : Token.lettersApart [] (Token.meaningful source) = true) :
    Sifted (.ofSource source) (withoutLettersAhead source) where
  seen := rfl
  rest := rfl
  closers := rfl
  problems := rfl
  clear := nofun
  marks := nofun
  simple t ht := Token.simple_of_mem ht (hplain t ht)
  ordered := (Token.tiles_scan 0 source.toList).pairwise.filter _
  apart := hapart

/-- The same tokens stand in the source in which blanks replace the letters. -/
theorem alike_withoutLetters {w : SideBySide} (hleft : w.left = ⟨source, .standard, options⟩)
    (hright : w.right = ⟨withoutLetters source, .standard, options⟩) (hexact : ¬ w.exact) :
    w.Alike (withoutLettersAhead source) (.ofSource (withoutLetters source)) := by
  have htokens := Token.meaningful_withoutLetters hplain
  have hmem {t : Token} (ht : t ∈ Token.sift (Token.meaningful source)) : t ∈ Token.meaningful source :=
    List.mem_of_mem_filter ht
  have htext : Dictionary.standard.ReadsNoText source := by
    refine readsNoText_standard fun t ht hread => ?_
    simp only [List.mem_cons, List.not_mem_nil, or_false] at hread
    rcases hread with hread | hread | hread <;>
      exact (Token.simple_of_mem ht (hplain t ht)).trigger hread rfl
  refine ⟨[], (Token.sift (Token.meaningful source)).map fun t => (t, t), ?_⟩
  refine ⟨rfl, rfl, ?_, ?_, fun p hp => ?_, ?_, rfl, rfl, rfl, fun h => absurd h hexact⟩
  · rw [List.map_map]
    exact (List.map_id _).symm
  · rw [List.map_map]
    exact htokens.trans (List.map_id _).symm
  · obtain ⟨t, ht, rfl⟩ := List.mem_map.mp (by simpa using hp)
    obtain ⟨hseparator, text, hcovers, hslice⟩ := Token.exists_covers_of_mem_meaningful (hmem ht)
    have hright' : t ∈ Token.meaningful (withoutLetters source) := by rwa [htokens]
    obtain ⟨-, text', hcovers', hslice'⟩ := Token.exists_covers_of_mem_meaningful hright'
    obtain rfl := hcovers.text_eq hcovers' hseparator
    refine ⟨rfl, ⟨text, hcovers, by rw [hleft]; exact hslice, by rw [hright]; exact hslice'⟩,
      fun _ => rfl, fun trigger htrigger => ⟨by rw [hleft, hright], fun n hn hook hhook => ?_⟩⟩
    rw [hleft] at hn
    have hnot := htext t (hmem ht) trigger htrigger n hn
    rw [hhook] at hnot
    refine .of_standard ⟨n, Dictionary.mem_entries_of_mem_readAt hn, hhook⟩ (.inr ⟨?_, ?_⟩)
    · exact fun heq => hnot.1 (by rw [heq])
    · exact fun heq => hnot.2 (by rw [heq])
  · have hordered := Token.isChain_meaningful (withoutLetters source)
    rw [htokens] at hordered
    rw [List.reverse_nil, List.nil_append, List.isChain_map]
    exact hordered.imp fun t u h => ⟨h, h, fun _ => Iff.rfl⟩

/-- What is parsed with the letters is parsed without them. -/
theorem runs_rootNested_withoutLetters (hskip : options.unknownTokens = .always .skip)
    (hapart : Token.lettersApart [] (Token.meaningful source) = true) {e : Expression}
    (h : Runs (rootNested ⟨source, .standard, options⟩) (.ofSource source) e t) :
    ∃ u, Runs (rootNested ⟨withoutLetters source, .standard, options⟩)
      (.ofSource (withoutLetters source)) e u ∧
        u.diagnostics.map (·.problem) = t.diagnostics.map (·.problem) := by
  let w : SideBySide :=
    { left := ⟨source, .standard, options⟩
      right := ⟨withoutLetters source, .standard, options⟩
      exact := False
      options := rfl
      source := False.elim }
  obtain ⟨v, hsifted, htv, -⟩ := sifts_rootNested ⟨rfl, hskip⟩ (sifted_ofSource hplain hapart) e t h
  have hleft : root w.left (withoutLettersAhead source) = .ok e v :=
    (root_eq_rootNested w.left rfl).trans hsifted
  have hclear : w.Clear v := by
    refine .inr fun d hd => ?_
    have hproblem : d.problem ∈ t.diagnostics.map (·.problem) := by
      rw [← htv.problems]
      exact List.mem_map_of_mem hd
    obtain ⟨d', hd', hsame⟩ := List.mem_map.mp hproblem
    rw [← hsame]
    exact htv.clear d' hd'
  rcases SideBySide.twin_root (alike_withoutLetters hplain (w := w) rfl rfl id) with
    ⟨e', v', e'', u, hleft', hright, hvu, -, he⟩ | ⟨fault, v', u, hleft', -⟩
  · obtain ⟨rfl, rfl⟩ := Runs.det hleft' hleft
    refine ⟨u, ?_, hvu.problems.trans htv.problems⟩
    rw [← he hclear]
    exact (root_eq_rootNested w.right rfl).symm.trans hright
  · rw [hleft] at hleft'
    cases hleft'

end

end Parser

/-- If letters are left out and none of them decides anything, the source without them has the same
expression, and the same problems are reported. With more levels of nesting than there are tokens both
are parsed. -/
theorem parse_withoutLetters {options : ParseOptions} {source : String}
    (hskip : options.unknownTokens = .always .skip)
    (hplain : ∀ t ∈ Token.meaningful source, ∀ name, t.kind ≠ .command name)
    (hapart : Token.lettersApart [] (Token.meaningful source) = true) :
    (∀ p, parse .standard options source = .ok p →
      ∃ p', parse .standard options (withoutLetters source) = .ok p' ∧ p'.expression = p.expression ∧
        p'.diagnostics.map (·.problem) = p.diagnostics.map (·.problem)) ∧
      ((Token.meaningful source).length < options.maxDepth →
        ∃ p, parse .standard options source = .ok p) := by
  refine ⟨fun p hp => ?_, fun hdepth => ?_⟩
  · obtain ⟨t, hruns, hdiagnostics⟩ := Parser.runs_rootNested_of_parse hp
    obtain ⟨u, hright, hproblems⟩ :=
      Parser.runs_rootNested_withoutLetters hplain hskip hapart hruns
    refine ⟨_, Parser.parse_eq_of_runs_rootNested hright, rfl, ?_⟩
    rw [hdiagnostics, List.map_reverse, List.map_reverse, hproblems]
  · obtain ⟨p, hp, -⟩ := Parser.parse_idleExtension
      Dictionary.hasStandardHooks_standard.idleExtension hdepth
    exact ⟨p, hp⟩

/-- Unknown letters and commands are left out. -/
def withoutUnknowns : ParseOptions :=
  { unknownTokens := .always .skip }

/-- Letters in front of operands and behind them, also in a group, and a parenthesis too many. -/
def letteredProduct : String :=
  "xy2*z(3a)+b(4)c)"

theorem parse_withoutLetters_letteredProduct :
    withoutUnknowns.unknownTokens = .always .skip ∧
    (∀ t ∈ Token.meaningful letteredProduct, ∀ name, t.kind ≠ .command name) ∧
    Token.lettersApart [] (Token.meaningful letteredProduct) = true ∧
    (Token.meaningful letteredProduct).length < withoutUnknowns.maxDepth ∧
    ∃ p p', parse .standard withoutUnknowns letteredProduct = .ok p ∧
      parse .standard withoutUnknowns (withoutLetters letteredProduct) = .ok p' ∧
      p'.expression = p.expression ∧
      p'.diagnostics.map (·.problem) = p.diagnostics.map (·.problem) := by
  have hkinds : (Token.meaningful letteredProduct).map Token.kind =
      [.letter 'x', .letter 'y', .digits "2", .punct '*', .letter 'z', .punct '(', .digits "3",
        .letter 'a', .punct ')', .punct '+', .letter 'b', .punct '(', .digits "4", .punct ')',
        .letter 'c', .punct ')'] := by
    decide +kernel
  have hplain : ∀ t ∈ Token.meaningful letteredProduct, ∀ name, t.kind ≠ .command name := by
    intro t ht name hkind
    have hmem := List.mem_map_of_mem (f := Token.kind) ht
    rw [hkinds, hkind] at hmem
    simp at hmem
  have hapart : Token.lettersApart [] (Token.meaningful letteredProduct) = true := by decide +kernel
  have hskip : withoutUnknowns.unknownTokens = .always .skip := rfl
  have hdepth : (Token.meaningful letteredProduct).length < withoutUnknowns.maxDepth := by decide +kernel
  obtain ⟨hsame, hparsed⟩ := parse_withoutLetters hskip hplain hapart
  obtain ⟨p, hp⟩ := hparsed hdepth
  obtain ⟨p', hp', hexpression, hproblems⟩ := hsame p hp
  exact ⟨hskip, hplain, hapart, hdepth, p, p', hp, hp', hexpression, hproblems⟩

/-- Behind the letter the sign belongs to a factor, behind the blank it is an operator. -/
theorem not_parse_withoutLetters : '\\' ∉ "2x+3".toList ∧
    (parse .standard withoutUnknowns "2x+3").toOption.map
      (fun p => (MathJson.encode p.expression).compact) = some "[\"Multiply\",2,3]" ∧
    (parse .standard withoutUnknowns (withoutLetters "2x+3")).toOption.map
      (fun p => (MathJson.encode p.expression).compact) = some "[\"Add\",2,3]" := by
  decide +kernel

end TexFormula
