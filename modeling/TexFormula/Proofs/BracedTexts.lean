import TexFormula.Proofs.RawGroups
import TexFormula.Proofs.Tokenization

/-!
# Texts in braces

`Text.groupBody?` goes through a text character by character and finds what stands in front of the
brace that closes a group. It agrees with `closing?`, which goes through the tokens of the text
(`Token.agree`). So a text fills the braces around it (`Text.FillsBraces`) just if the last one closes
the group that the first one opens.
-/

namespace TexFormula

namespace Text

/-! ### Character by character -/

/-- What the next character of a text belongs to. -/
inductive Context where
  | plain
  /-- A command that the backslash right before it starts. -/
  | command
  | comment
deriving DecidableEq, Repr

/-- What the character after `c` belongs to. A line feed ends a comment. -/
def Context.after (context : Context) (c : Char) : Context :=
  match context with
  | .plain => if c = '\\' then .command else if c = '%' then .comment else .plain
  | .command => .plain
  | .comment => if c = '\n' then .plain else .comment

/-- What stands in front of the brace that closes a group, `depth` groups up from the first
character. Braces in commands and comments do not count. -/
def groupBody? (context : Context) (depth : Nat) : List Char → Option (List Char)
  | [] => none
  | c :: cs =>
    if context = .plain ∧ c = '{' then (groupBody? .plain (depth + 1) cs).map (c :: ·)
    else if context = .plain ∧ c = '}' then
      if depth = 0 then some [] else (groupBody? .plain (depth - 1) cs).map (c :: ·)
    else (groupBody? (context.after c) depth cs).map (c :: ·)

/-- The characters that have a meaning of their own in a group. -/
def groupMarks : List Char :=
  ['\x7b', '\x7d', '\\', '%']

/-- Between two braces the text is all of the group: the second brace closes what the first one
opens. -/
def FillsBraces (cs : List Char) : Prop :=
  groupBody? .plain 0 (cs ++ ['}']) = some cs

instance : DecidablePred FillsBraces :=
  fun _ => inferInstanceAs (Decidable (_ = _))

variable {context : Context} {depth : Nat} {c : Char} {cs text rest body : List Char}

theorem groupBody?_open :
    groupBody? .plain depth ('{' :: cs) = (groupBody? .plain (depth + 1) cs).map ('{' :: ·) :=
  rfl

theorem groupBody?_close_zero : groupBody? .plain 0 ('}' :: cs) = some [] :=
  rfl

theorem groupBody?_close_succ :
    groupBody? .plain (depth + 1) ('}' :: cs) = (groupBody? .plain depth cs).map ('}' :: ·) :=
  rfl

/-- A backslash takes the next character along, whatever it is. -/
theorem groupBody?_backslash :
    groupBody? .plain depth ('\\' :: c :: cs) =
      (groupBody? .plain depth cs).map ('\\' :: c :: ·) := by
  have hnext : groupBody? .command depth (c :: cs) = (groupBody? .plain depth cs).map (c :: ·) :=
    rfl
  show (groupBody? .command depth (c :: cs)).map ('\\' :: ·) = _
  rw [hnext, Option.map_map]
  rfl

theorem groupBody?_percent :
    groupBody? .plain depth ('%' :: cs) = (groupBody? .comment depth cs).map ('%' :: ·) :=
  rfl

theorem groupBody?_cons (h : context = .plain → c ∉ ['{', '}']) :
    groupBody? context depth (c :: cs) =
      (groupBody? (context.after c) depth cs).map (c :: ·) := by
  simp only [List.mem_cons, List.not_mem_nil, or_false, not_or] at h
  rw [groupBody?, if_neg fun hc => (h hc.1).1 hc.2, if_neg fun hc => (h hc.1).2 hc.2]

/-- Characters that leave the context as it is are passed over. -/
theorem groupBody?_append (h : ∀ c ∈ text, (context = .plain → c ∉ ['{', '}']) ∧
    context.after c = context) :
    groupBody? context depth (text ++ rest) =
      (groupBody? context depth rest).map (text ++ ·) := by
  induction text with
  | nil => simp
  | cons c text ih =>
    obtain ⟨⟨hc, hafter⟩, htext⟩ := List.forall_mem_cons.mp h
    rw [List.cons_append, groupBody?_cons hc, hafter, ih htext, Option.map_map]
    rfl

theorem groupBody?_append_plain (h : ∀ c ∈ text, c ∉ groupMarks) :
    groupBody? .plain depth (text ++ rest) =
      (groupBody? .plain depth rest).map (text ++ ·) := by
  refine groupBody?_append fun c hc => ?_
  have hplain := h c hc
  simp only [groupMarks, List.mem_cons, List.not_mem_nil, or_false, not_or] at hplain
  simp [Context.after, hplain]

/-- A comment ends in front of the line feed, or with the text. -/
theorem groupBody?_comment (h : ∀ c ∈ cs.head?, c = '\n') :
    groupBody? .comment depth cs = groupBody? .plain depth cs := by
  cases cs with
  | nil => rfl
  | cons c cs =>
    obtain rfl := h c rfl
    rfl

end Text

/-! ### Token by token -/

namespace Token

open Text (groupMarks groupBody? groupBody?_append_plain)

variable {depth offset : Nat} {kind : Kind} {cs text rest body : List Char}

/-- No character of the class has a meaning in a group. -/
theorem not_mem_groupMarks {p : Char → Bool} (hp : groupMarks.any p = false) {c : Char}
    (h : p c = true) : c ∉ groupMarks :=
  fun hc => List.any_eq_false.mp hp c hc h

/-- Only the braces that are tokens of their own count. -/
theorem groupBody?_of_covers (h : kind.Covers text) (hopen : kind ≠ .groupOpen)
    (hclose : kind ≠ .groupClose) (hstops : ∀ c ∈ rest.head?, ¬ kind.GoesOn c) :
    groupBody? .plain depth (text ++ rest) =
      (groupBody? .plain depth rest).map (text ++ ·) := by
  cases kind with
  | groupOpen => exact absurd rfl hopen
  | groupClose => exact absurd rfl hclose
  | ending =>
    obtain rfl : text = [] := h
    simp
  | blank => exact groupBody?_append_plain fun c hc => not_mem_groupMarks (by decide) (h.2 c hc)
  | digits run => exact groupBody?_append_plain fun c hc => not_mem_groupMarks (by decide) (h.2.2 c hc)
  | optionalOpen | optionalClose =>
    rw [show text = _ from h]
    exact groupBody?_append_plain (List.forall_mem_singleton.mpr (by decide))
  | letter c =>
    rw [h.1]
    exact groupBody?_append_plain (List.forall_mem_singleton.mpr (not_mem_groupMarks (by decide) h.2))
  | punct c =>
    rw [h.1]
    have hmarks : groupMarks.all Text.marks.contains = true := by decide
    exact groupBody?_append_plain (List.forall_mem_singleton.mpr fun hc =>
      h.2.1 (List.contains_iff_mem.mp (List.all_eq_true.mp hmarks c hc)))
  | loneBackslash =>
    have hend : rest = [] := by
      cases rest with
      | nil => rfl
      | cons c rest => exact absurd trivial (hstops c rfl)
    rw [hend, show text = _ from h]
    rfl
  | command name =>
    obtain ⟨c, cs, hname, hcs⟩ : ∃ c cs, name.toList = c :: cs ∧ ∀ d ∈ cs, d.isAlpha = true := by
      rcases h.2 with ⟨hne, hletters⟩ | ⟨c, rfl, -⟩
      · obtain ⟨c, cs, hname⟩ := List.exists_cons_of_ne_nil hne
        rw [hname] at hletters
        exact ⟨c, cs, hname, fun d hd => hletters d (List.mem_cons_of_mem c hd)⟩
      · exact ⟨c, [], String.toList_singleton c, List.forall_mem_nil _⟩
    have hword : groupBody? .plain depth (cs ++ rest) = (groupBody? .plain depth rest).map (cs ++ ·) :=
      groupBody?_append_plain fun d hd => not_mem_groupMarks (by decide) (hcs d hd)
    rw [h.1, hname, List.cons_append, List.cons_append, Text.groupBody?_backslash, hword,
      Option.map_map]
    rfl
  | comment content =>
    obtain ⟨cs, rfl, hline, -⟩ := h
    have hbody : groupBody? .comment depth (cs ++ rest) =
        (groupBody? .comment depth rest).map (cs ++ ·) :=
      Text.groupBody?_append fun c hc => ⟨nofun, if_neg fun heq : c = '\n' => hline (heq ▸ hc)⟩
    have hend : groupBody? .comment depth rest = groupBody? .plain depth rest :=
      Text.groupBody?_comment fun c hc => not_not.mp (hstops c hc)
    rw [List.cons_append, Text.groupBody?_percent, hbody, hend, Option.map_map]
    rfl

/-! ### Places of tokens -/

/-- The brace behind `body` closes the group, by the characters of the text and by its tokens. -/
structure ClosesAt (depth offset : Nat) (cs body rest : List Char) (before : List Token) : Prop where
  groupBody? : Text.groupBody? .plain depth cs = some body
  closing? : Parser.closing? depth (laid offset cs) = some before.length
  text_eq : cs = body ++ '}' :: rest
  laid_eq : laid offset cs = before ++
    ⟨.groupClose, offset + Text.byteLength body, offset + Text.byteLength body + 1⟩ ::
      laid (offset + Text.byteLength body + 1) rest

/-- Characters and tokens agree on the brace that closes the group, if there is one. -/
def Agree (depth offset : Nat) (cs : List Char) : Prop :=
  groupBody? .plain depth cs = none ∧ Parser.closing? depth (laid offset cs) = none ∨
    ∃ body rest before, ClosesAt depth offset cs body rest before

/-- In front of a text on which they agree there may stand one that both pass over. -/
theorem Agree.append {depth' : Nat} {ts : List Token}
    (hchars : groupBody? .plain depth' (text ++ cs) = (groupBody? .plain depth cs).map (text ++ ·))
    (hplace : ∀ us, Parser.closing? depth' (ts ++ us) = (Parser.closing? depth us).map (· + ts.length))
    (hlaid : laid offset (text ++ cs) = ts ++ laid (offset + Text.byteLength text) cs)
    (h : Agree depth (offset + Text.byteLength text) cs) : Agree depth' offset (text ++ cs) := by
  have hplace' := hplace (laid (offset + Text.byteLength text) cs)
  rw [← hlaid] at hplace'
  rcases h with ⟨hnone, hopen⟩ | ⟨body, rest, before, h⟩
  · exact .inl ⟨by rw [hchars, hnone]; rfl, by rw [hplace', hopen]; rfl⟩
  · refine .inr ⟨text ++ body, rest, ts ++ before, ?_⟩
    have hstart : offset + Text.byteLength (text ++ body) =
        offset + Text.byteLength text + Text.byteLength body := by
      rw [Text.byteLength_append, Nat.add_assoc]
    refine ⟨by rw [hchars, h.groupBody?]; rfl, ?_, ?_, ?_⟩
    · rw [hplace', h.closing?, List.length_append, Nat.add_comm]
      rfl
    · rw [h.text_eq, List.append_assoc]
    · rw [hlaid, h.laid_eq, List.append_assoc, hstart]

/-- By induction on the tokens of the text. -/
theorem agree (depth offset : Nat) (cs : List Char) : Agree depth offset cs := by
  induction offset, cs using scan.induct generalizing depth with
  | case1 offset => exact .inl ⟨rfl, by rw [laid_nil]; rfl⟩
  | case2 offset c cs ih =>
    obtain ⟨kind, text, rest, hread⟩ : ∃ kind text rest, Lexeme.read c cs = ⟨kind, text, rest⟩ :=
      ⟨_, _, _, rfl⟩
    have hmaximal := Lexeme.maximal_read c cs
    have htext := Lexeme.text_append_rest c cs
    replace ih (depth : Nat) : Agree depth (offset + Text.byteLength text) rest := by
      have hrest := ih depth
      simp only [next, hread] at hrest
      exact hrest
    rw [hread] at hmaximal htext
    have hlaid (hkind : (!kind.isSeparator && kind != .ending) = true) :
        laid offset (text ++ rest) = [⟨kind, offset, offset + Text.byteLength text⟩] ++
          laid (offset + Text.byteLength text) rest := by
      rw [show text ++ rest = c :: cs from htext]
      exact laid_cons hread hkind offset
    rw [← show text ++ rest = c :: cs from htext]
    by_cases hopen : kind = .groupOpen
    · subst hopen
      obtain rfl : text = ['{'] := hmaximal.covers
      exact (ih (depth + 1)).append Text.groupBody?_open (Parser.closing?_cons_open rfl depth)
        (hlaid rfl)
    by_cases hclose : kind = .groupClose
    · subst hclose
      obtain rfl : text = ['}'] := hmaximal.covers
      cases depth with
      | zero =>
        refine .inr ⟨[], rest, [], Text.groupBody?_close_zero, ?_, rfl, hlaid rfl⟩
        rw [hlaid rfl]
        exact Parser.closing?_zero_cons rfl _
      | succ depth =>
        exact (ih depth).append Text.groupBody?_close_succ (Parser.closing?_cons_close rfl depth)
          (hlaid rfl)
    have hchars : groupBody? .plain depth (text ++ rest) =
        (groupBody? .plain depth rest).map (text ++ ·) :=
      groupBody?_of_covers hmaximal.covers hopen hclose hmaximal.stops
    cases hseparator : kind.isSeparator with
    | true =>
      have hplace (us : List Token) : Parser.closing? depth ([] ++ us) =
          (Parser.closing? depth us).map (· + ([] : List Token).length) := by simp
      refine (ih depth).append hchars hplace ?_
      rw [show text ++ rest = c :: cs from htext]
      exact laid_cons_of_isSeparator hread hseparator offset
    | false =>
      refine (ih depth).append hchars (Parser.closing?_cons_of_not_brace hopen hclose depth) (hlaid ?_)
      simp [hseparator, hmaximal.kind_ne]

/-- Where a text fills its braces, the last token of the two is the one that closes the group. -/
theorem exists_closing_of_fillsBraces (h : Text.FillsBraces cs) (offset : Nat) : ∃ before,
    laid offset (cs ++ ['}']) = before ++
      [⟨.groupClose, offset + Text.byteLength cs, offset + Text.byteLength cs + 1⟩] ∧
    Parser.closing? 0 (laid offset (cs ++ ['}'])) = some before.length := by
  rcases agree 0 offset (cs ++ ['}']) with ⟨hnone, -⟩ | ⟨body, rest, before, hcloses⟩
  · rw [show groupBody? .plain 0 (cs ++ ['}']) = some cs from h] at hnone
    cases hnone
  · obtain rfl : cs = body := Option.some.inj (Eq.trans (Eq.symm h) hcloses.groupBody?)
    obtain rfl : [] = rest := (List.cons.inj (List.append_cancel_left hcloses.text_eq)).2
    have hlaid := hcloses.laid_eq
    rw [laid_nil] at hlaid
    exact ⟨before, hlaid, hcloses.closing?⟩

end Token

end TexFormula
