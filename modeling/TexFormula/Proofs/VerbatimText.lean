import TexFormula.Proofs.Numerals
import TexFormula.Proofs.RawGroups
import TexFormula.Text.Written

/-!
# The written form of a text

What `escapeChars` writes is read back by `unescapeChars`, and it is cut into tokens of which none
is a brace (`Spells.escapeChars`). The second holds of texts whose comments all end (`endsComments`):
a percent sign stands for itself in a text, and hides everything up to the end of its line.
-/

namespace TexFormula

namespace Text

variable {p c d : Char} {pattern replacement marks cs rest : List Char}

/-! ### Read back -/

theorem stripFront?_append (pattern cs : List Char) :
    stripFront? pattern (pattern ++ cs) = some cs := by
  induction pattern with
  | nil => rfl
  | cons p pattern ih => simp [stripFront?, ih]

theorem replace_of_some (h : stripFront? (p :: pattern) cs = some rest) :
    replace p pattern replacement cs = replacement ++ replace p pattern replacement rest := by
  rw [replace]
  split
  · next heq =>
    rw [h] at heq
    rw [Option.some.inj heq]
  · next heq => rw [h] at heq; cases heq

theorem replace_of_none (h : stripFront? (p :: pattern) (c :: cs) = none) :
    replace p pattern replacement (c :: cs) = c :: replace p pattern replacement cs := by
  rw [replace]
  split
  · next heq => rw [h] at heq; cases heq
  · rfl

theorem replace_nil : replace p pattern replacement [] = [] := by
  rw [replace]
  rfl

theorem replace_cons_of_ne (h : p ≠ c) :
    replace p pattern replacement (c :: cs) = c :: replace p pattern replacement cs :=
  replace_of_none (if_neg h)

/-- A backslash in front of the marks, and all else as it is. -/
def escapeOnly (marks : List Char) (c : Char) : List Char :=
  if c ∈ marks then ['\\', c] else [c]

theorem escapeOnly_of_mem (h : c ∈ marks) : escapeOnly marks c = ['\\', c] := if_pos h

theorem escapeOnly_of_not_mem (h : c ∉ marks) : escapeOnly marks c = [c] := if_neg h

/-- The escaped backslashes are read back first. -/
theorem replace_backslash_escapeChars (cs : List Char) :
    replace '\\' "backslash ".toList ['\\'] (escapeChars cs) =
      cs.flatMap (escapeOnly ['{', '}']) := by
  induction cs with
  | nil => exact replace_nil
  | cons c cs ih =>
    have hcons : escapeChars (c :: cs) = escapeChar c ++ escapeChars cs := List.flatMap_cons
    rw [hcons, List.flatMap_cons]
    by_cases hslash : c = '\\'
    · subst hslash
      rw [show escapeChar '\\' = '\\' :: "backslash ".toList from rfl,
        replace_of_some (stripFront?_append _ _), ih]
      rfl
    by_cases hmark : c ∈ ['{', '}']
    · have hchar : escapeChar c = ['\\', c] := by
        rcases List.mem_pair.mp hmark with rfl | rfl <;> rfl
      have hfirst : stripFront? ('\\' :: "backslash ".toList) ('\\' :: c :: escapeChars cs) = none := by
        rcases List.mem_pair.mp hmark with rfl | rfl <;> rfl
      rw [hchar, escapeOnly_of_mem hmark, List.cons_append, List.singleton_append,
        replace_of_none hfirst, replace_cons_of_ne (Ne.symm hslash), ih]
      rfl
    · have hchar : escapeChar c = [c] := by
        have hne := List.mem_pair.not.mp hmark
        rw [not_or] at hne
        simp [escapeChar, hslash, hne]
      rw [hchar, escapeOnly_of_not_mem hmark, List.singleton_append,
        replace_cons_of_ne (Ne.symm hslash), ih]
      rfl

/-- An unescaped mark never comes first. -/
theorem head?_flatMap_escapeOnly_ne (hd : d ≠ '\\') (hmark : d ∈ marks) (cs : List Char) :
    (cs.flatMap (escapeOnly marks)).head? ≠ some d := by
  cases cs with
  | nil => nofun
  | cons c cs =>
    by_cases hc : c ∈ marks
    · simpa [escapeOnly_of_mem hc] using hd.symm
    · simpa [escapeOnly_of_not_mem hc] using fun heq : c = d => hc (heq ▸ hmark)

/-- The marks of one sort are read back; the others stay as they are. -/
theorem replace_flatMap_escapeOnly (hd : d ≠ '\\') (hmarks : d ∉ marks) (hslash : '\\' ∉ marks)
    (cs : List Char) :
    replace '\\' [d] [d] (cs.flatMap (escapeOnly (d :: marks))) = cs.flatMap (escapeOnly marks) := by
  induction cs with
  | nil => exact replace_nil
  | cons c cs ih =>
    rw [List.flatMap_cons, List.flatMap_cons]
    by_cases hcd : c = d
    · subst hcd
      rw [escapeOnly_of_mem List.mem_cons_self, escapeOnly_of_not_mem hmarks,
        replace_of_some (stripFront?_append _ _), ih]
    by_cases hc : c ∈ marks
    · have hother : stripFront? ['\\', d]
          ('\\' :: c :: cs.flatMap (escapeOnly (d :: marks))) = none := by
        simp [stripFront?, Ne.symm hcd]
      have hne : '\\' ≠ c := fun heq => hslash (heq ▸ hc)
      rw [escapeOnly_of_mem (List.mem_cons_of_mem d hc), escapeOnly_of_mem hc, List.cons_append,
        List.singleton_append, replace_of_none hother, replace_cons_of_ne hne, ih]
      rfl
    · have hplain : c ∉ d :: marks := by simp [hcd, hc]
      have hfirst := head?_flatMap_escapeOnly_ne hd (List.mem_cons_self (l := marks)) cs
      have hother : stripFront? ['\\', d] (c :: cs.flatMap (escapeOnly (d :: marks))) = none := by
        cases hrest : cs.flatMap (escapeOnly (d :: marks)) with
        | nil => simp [stripFront?]
        | cons e es =>
          rw [hrest] at hfirst
          have hne : d ≠ e := fun heq => hfirst (by rw [heq]; rfl)
          simp [stripFront?, hne]
      rw [escapeOnly_of_not_mem hplain, escapeOnly_of_not_mem hc, List.singleton_append,
        replace_of_none hother, ih]
      rfl

theorem unescapeChars_escapeChars (cs : List Char) : unescapeChars (escapeChars cs) = cs := by
  have hplain : escapeOnly [] = fun c : Char => [c] := funext fun c => if_neg List.not_mem_nil
  calc unescapeChars (escapeChars cs)
      = replace '\\' ['}'] ['}'] (replace '\\' ['{'] ['{']
          (replace '\\' "backslash ".toList ['\\'] (escapeChars cs))) := rfl
    _ = replace '\\' ['}'] ['}'] (replace '\\' ['{'] ['{']
          (cs.flatMap (escapeOnly ['{', '}']))) := by rw [replace_backslash_escapeChars]
    _ = replace '\\' ['}'] ['}'] (cs.flatMap (escapeOnly ['}'])) := by
      rw [replace_flatMap_escapeOnly (by decide) (by decide) (by decide)]
    _ = cs.flatMap (escapeOnly []) :=
      replace_flatMap_escapeOnly (by decide) (by decide) (by decide) cs
    _ = cs := by rw [hplain, List.flatMap_singleton']

/-- No replacement meets a text that one before it has put in, nor one that two written forms make up
together. -/
theorem unescape_escape (text : String) : unescape (escape text) = text := by
  rw [unescape, escape, String.toList_ofList, unescapeChars_escapeChars, String.ofList_toList]

/-! ### Comments in a text -/

/-- Every comment in the text ends before the text does. -/
def endsComments : List Char → Bool
  | [] => true
  | c :: cs => (c != '%' || cs.contains '\n') && endsComments cs

theorem endsComments_cons_iff : endsComments (c :: cs) = true ↔
    (c = '%' → '\n' ∈ cs) ∧ endsComments cs = true := by
  rw [endsComments, Bool.and_eq_true, Bool.or_eq_true, bne_iff_ne, List.contains_iff_mem,
    ← imp_iff_not_or]

theorem endsComments_of_append {as bs : List Char} (h : endsComments (as ++ bs) = true) :
    endsComments bs = true := by
  induction as with
  | nil => exact h
  | cons a as ih => exact ih (endsComments_cons_iff.mp h).2

/-- The first comment that goes on to the end. -/
theorem exists_comment_of_not_endsComments (h : endsComments cs = false) :
    ∃ as bs, cs = as ++ '%' :: bs ∧ endsComments as = true ∧ '\n' ∉ bs := by
  induction cs with
  | nil => cases h
  | cons c cs ih =>
    cases hrest : endsComments cs with
    | true =>
      have hcomment : ¬ (c = '%' → '\n' ∈ cs) := fun himp => by
        rw [endsComments_cons_iff.mpr ⟨himp, hrest⟩] at h
        cases h
      obtain ⟨rfl, hline⟩ := Classical.not_imp.mp hcomment
      exact ⟨[], cs, rfl, rfl, hline⟩
    | false =>
      obtain ⟨as, bs, rfl, has, hbs⟩ := ih hrest
      by_cases hc : c = '%' → '\n' ∈ as
      · exact ⟨c :: as, bs, rfl, endsComments_cons_iff.mpr ⟨hc, has⟩, hbs⟩
      · -- this comment hides the one that is found behind it
        obtain ⟨rfl, hline⟩ := Classical.not_imp.mp hc
        exact ⟨[], as ++ '%' :: bs, rfl, rfl, by simp [hline, hbs]⟩

theorem escapeChars_cons (c : Char) (cs : List Char) :
    escapeChars (c :: cs) = escapeChar c ++ escapeChars cs :=
  List.flatMap_cons

theorem escapeChars_append (as bs : List Char) :
    escapeChars (as ++ bs) = escapeChars as ++ escapeChars bs :=
  List.flatMap_append

theorem escapeChar_of_not_mem (h : c ∉ ['\\', '{', '}']) : escapeChar c = [c] := by
  simp only [List.mem_cons, List.not_mem_nil, or_false, not_or] at h
  simp [escapeChar, h]

theorem escapeChars_of_forall (h : ∀ c ∈ cs, c ∉ ['\\', '{', '}']) : escapeChars cs = cs := by
  unfold escapeChars
  rw [List.flatMap_congr fun c hc => escapeChar_of_not_mem (h c hc)]
  exact List.flatMap_singleton' cs

/-- Digits are written as they are, and nothing else starts with one. -/
theorem any_isDigit_head?_escapeChars (h : cs.head?.any Char.isDigit = false) :
    (escapeChars cs).head?.any Char.isDigit = false := by
  cases cs with
  | nil => rfl
  | cons c cs =>
    by_cases hspecial : c ∈ ['\\', '{', '}']
    · simp only [List.mem_cons, List.not_mem_nil, or_false] at hspecial
      rcases hspecial with rfl | rfl | rfl <;> rfl
    · rw [escapeChars_cons, escapeChar_of_not_mem hspecial]
      exact h

theorem any_head?_dropWhile (p : Char → Bool) (cs : List Char) :
    (cs.dropWhile p).head?.any p = false := by
  have hp := List.head?_dropWhile_not p cs
  cases h : (cs.dropWhile p).head? with
  | none => rfl
  | some c => rwa [h] at hp

theorem endsInControlWord_of_forall (h : ∀ c ∈ cs, c.isAlpha = false) :
    endsInControlWord cs = false := by
  unfold endsInControlWord
  cases hreverse : cs.reverse with
  | nil => rfl
  | cons c ds =>
    have hc : c.isAlpha = false := h c (List.mem_reverse.mp (hreverse ▸ List.mem_cons_self))
    simp [hc]

theorem isAlpha_of_isDigit (h : c.isDigit = true) : c.isAlpha = false := by
  have hdigits : ∀ v ∈ List.range' 48 10, (Char.ofNat v).isAlpha = false := by decide
  have hc := hdigits c.toNat (toNat_mem_of_isDigit h)
  rwa [Char.ofNat_toNat] at hc

theorem not_mem_escapeChars (hc : c ∉ "\\backslash {}".toList) (h : c ∉ cs) :
    c ∉ escapeChars cs := by
  intro hmem
  obtain ⟨d, hd, hcd⟩ := List.mem_flatMap.mp hmem
  by_cases hspecial : d ∈ ['\\', '{', '}']
  · simp only [List.mem_cons, List.not_mem_nil, or_false] at hspecial
    have hsubset : escapeChar d ⊆ "\\backslash {}".toList := by
      rcases hspecial with rfl | rfl | rfl <;> simp [escapeChar]
    exact hc (hsubset hcd)
  · rw [escapeChar_of_not_mem hspecial, List.mem_singleton] at hcd
    exact h (hcd ▸ hd)

end Text

open Text (escapeChar escapeChars endsComments)

/-! ### Tokens -/

namespace Lexeme

/-- All other characters are tokens by themselves. -/
theorem exists_read_eq_single {c : Char} (hspecial : c ∉ ['\\', '{', '}']) (hpercent : c ≠ '%')
    (hblank : Text.isBlank c = false) (hdigit : c.isDigit = false) :
    ∃ kind : Token.Kind, kind ≠ .groupOpen ∧ kind ≠ .groupClose ∧
      (!kind.isSeparator && kind != .ending) = true ∧ ∀ r, read c r = single kind c r := by
  simp only [List.mem_cons, List.not_mem_nil, or_false, not_or] at hspecial
  unfold read
  simp only [hspecial, hpercent, hblank, hdigit, Bool.false_eq_true, if_false]
  split
  · exact ⟨.optionalOpen, nofun, nofun, rfl, fun _ => rfl⟩
  split
  · exact ⟨.optionalClose, nofun, nofun, rfl, fun _ => rfl⟩
  split
  · exact ⟨.letter c, nofun, nofun, rfl, fun _ => rfl⟩
  · exact ⟨.punct c, nofun, nofun, rfl, fun _ => rfl⟩

theorem read_percent (cs : List Char) : read '%' cs =
    run (fun t => .comment (String.ofList (Text.trim t))) (· != '\n') '%' cs := rfl

end Lexeme

namespace Token

theorem laid_comment {body : List Char} (h : '\n' ∉ body) (offset : Nat) (r : List Char) :
    laid offset ('%' :: (body ++ '\n' :: r)) =
      laid (offset + Text.byteLength ('%' :: body) + 1) r := by
  have hbody : ∀ c ∈ body, (c != '\n') = true := fun c hc =>
    bne_iff_ne.mpr fun heq => h (heq ▸ hc)
  have hread : Lexeme.read '%' (body ++ '\n' :: r) =
      ⟨.comment (String.ofList (Text.trim body)), '%' :: body, '\n' :: r⟩ := by
    rw [Lexeme.read_percent, Lexeme.run, Text.takeWhile_append hbody rfl,
      Text.dropWhile_append hbody rfl]
  rw [laid_cons_of_isSeparator hread rfl, laid_cons_of_isBlank rfl]
  rfl

theorem laid_comment_of_not_mem {body : List Char} (h : '\n' ∉ body) (offset : Nat) :
    laid offset ('%' :: body) = [] := by
  have hbody : ∀ c ∈ body, (c != '\n') = true := fun c hc =>
    bne_iff_ne.mpr fun heq => h (heq ▸ hc)
  have hread : Lexeme.read '%' body =
      ⟨.comment (String.ofList (Text.trim body)), '%' :: body, []⟩ := by
    rw [Lexeme.read_percent, Lexeme.run, List.takeWhile_eq_self_iff.mpr hbody,
      List.dropWhile_eq_nil_iff.mpr hbody]
  rw [laid_cons_of_isSeparator hread rfl, laid_nil]

end Token

namespace Spells

variable {c : Char} {cs l r : List Char}

theorem comment {body : List Char} (h : '\n' ∉ body) : Spells ('%' :: (body ++ ['\n'])) 1 := by
  refine fun offset r _ => ⟨[], rfl, ?_⟩
  rw [List.cons_append, List.append_assoc, List.singleton_append, Token.laid_comment h, List.nil_append,
    ← List.cons_append, Text.byteLength_append, Nat.add_assoc]
  rfl

theorem unbraced_of_one {kind : Token.Kind} (h : Spells l (Token.one kind))
    (hopen : kind ≠ .groupOpen) (hclose : kind ≠ .groupClose) : Spells l Token.unbraced :=
  h.mono fun _ => Token.mem_unbraced_of_mem_one hopen hclose

theorem unbraced_of_nil (h : Spells l 1) : Spells l Token.unbraced := by
  refine h.mono fun ts hts => ?_
  rw [show ts = [] from hts]
  exact Token.nil_mem_unbraced

theorem appendUnbraced (hl : Spells l Token.unbraced) (hr : Spells r Token.unbraced)
    (h : Text.Severs l r) : Spells (l ++ r) Token.unbraced :=
  (hl.mul hr h).mono fun _ => Token.mem_unbraced_of_mem_mul

/-- The written form of a single character. -/
theorem escapeChar (hpercent : c ≠ '%') (hdigit : c.isDigit = false) :
    Spells (escapeChar c) Token.unbraced ∧ ∀ r, Text.Severs (Text.escapeChar c) r := by
  by_cases hspecial : c ∈ ['\\', '{', '}']
  · simp only [List.mem_cons, List.not_mem_nil, or_false] at hspecial
    rcases hspecial with rfl | rfl | rfl
    · have hword : Spells "\\backslash".toList (Token.one (.command "backslash")) :=
        @command "backslash".toList (by decide) (List.all_eq_true.mp (by decide))
      exact ⟨(hword.unbraced_of_one nofun nofun).appendUnbraced (blank (c := ' ') rfl).unbraced_of_nil
        (.of_not rfl rfl _ _), fun r => .of_ends rfl rfl r⟩
    · exact ⟨(controlSymbol rfl).unbraced_of_one nofun nofun, fun r => .of_ends rfl rfl r⟩
    · exact ⟨(controlSymbol rfl).unbraced_of_one nofun nofun, fun r => .of_ends rfl rfl r⟩
  · rw [Text.escapeChar_of_not_mem hspecial]
    have hword : Text.endsInControlWord [c] = false := by
      unfold Text.endsInControlWord
      cases hc : c.isAlpha <;> simp [hc]
    refine ⟨?_, fun r => .of_ends hword hdigit r⟩
    cases hblank : Text.isBlank c with
    | true => exact (blank hblank).unbraced_of_nil
    | false =>
      obtain ⟨kind, hopen, hclose, hkind, hread⟩ :=
        Lexeme.exists_read_eq_single hspecial hpercent hblank hdigit
      exact (of_single hkind hread).unbraced_of_one hopen hclose

/-- A comment with the end of its line. -/
theorem escapeComment {body : List Char} (hbody : '\n' ∉ body)
    (hrest : Spells (Text.escapeChars cs) Token.unbraced) :
    Spells (Text.escapeChars ('%' :: (body ++ '\n' :: cs))) Token.unbraced := by
  have htext : Text.escapeChars ('%' :: (body ++ '\n' :: cs)) =
      '%' :: (Text.escapeChars body ++ ['\n']) ++ Text.escapeChars cs := by
    rw [Text.escapeChars_cons, Text.escapeChars_append, Text.escapeChars_cons]
    simp [Text.escapeChar]
  have hline := comment (Text.not_mem_escapeChars (by decide) hbody)
  rw [htext]
  refine hline.unbraced_of_nil.appendUnbraced hrest (.of_ends ?_ ?_ _)
  · simp [Text.endsInControlWord]
  · rw [← List.cons_append, Text.endsWithDigit_append _ (List.cons_ne_nil _ _)]
    rfl

/-- A run of digits. -/
theorem escapeDigits (hdigit : c.isDigit = true)
    (hrest : Spells (Text.escapeChars (cs.dropWhile Char.isDigit)) Token.unbraced) :
    Spells (Text.escapeChars (c :: cs)) Token.unbraced := by
  have hrun : ∀ d ∈ c :: cs.takeWhile Char.isDigit, d.isDigit = true :=
    List.forall_mem_cons.mpr ⟨hdigit, fun d hd => List.mem_takeWhile_imp hd⟩
  have hplain : ∀ d ∈ c :: cs.takeWhile Char.isDigit, d ∉ ['\\', '{', '}'] := by
    intro d hd hspecial
    have hdigit := hrun d hd
    simp only [List.mem_cons, List.not_mem_nil, or_false] at hspecial
    rcases hspecial with rfl | rfl | rfl <;> exact absurd hdigit (by decide)
  have htext : Text.escapeChars (c :: cs) =
      c :: cs.takeWhile Char.isDigit ++ Text.escapeChars (cs.dropWhile Char.isDigit) := by
    rw [← Text.escapeChars_of_forall hplain, ← Text.escapeChars_append, List.cons_append,
      List.takeWhile_append_dropWhile]
  rw [htext]
  refine ((digits (List.cons_ne_nil _ _) hrun).unbraced_of_one nofun nofun).appendUnbraced hrest ?_
  refine ⟨fun _ => Text.endsInControlWord_of_forall fun d hd => Text.isAlpha_of_isDigit (hrun d hd),
    fun hnext => ?_⟩
  rw [Text.any_isDigit_head?_escapeChars (Text.any_head?_dropWhile _ _)] at hnext
  cases hnext

/-- By induction on the length of the text. -/
theorem escapeChars (h : endsComments cs = true) : Spells (escapeChars cs) Token.unbraced := by
  induction hlength : cs.length using Nat.strongRecOn generalizing cs with
  | ind n ih =>
    subst hlength
    cases cs with
    | nil => exact nil.unbraced_of_nil
    | cons c cs =>
      obtain ⟨hcomment, hcs⟩ := Text.endsComments_cons_iff.mp h
      by_cases hpercent : c = '%'
      · obtain ⟨body, rest, rfl, hbody⟩ := List.eq_append_cons_of_mem (hcomment hpercent)
        rw [List.append_cons] at hcs
        subst hpercent
        exact escapeComment hbody (ih rest.length (by simp; omega) (Text.endsComments_of_append hcs) rfl)
      cases hdigit : c.isDigit with
      | true =>
        have hshort := (List.dropWhile_suffix (l := cs) Char.isDigit).length_le
        rw [← List.takeWhile_append_dropWhile (p := Char.isDigit) (l := cs)] at hcs
        exact escapeDigits hdigit (ih _ (Nat.lt_succ_of_le hshort) (Text.endsComments_of_append hcs) rfl)
      | false =>
        obtain ⟨hpiece, hsevers⟩ := escapeChar hpercent hdigit
        rw [Text.escapeChars_cons]
        exact hpiece.appendUnbraced (ih cs.length (Nat.lt_succ_self _) hcs rfl) (hsevers _)

end Spells

end TexFormula
