import TexFormula.Proofs.SlotTexts
import TexFormula.Proofs.Tokenization

/-!
# Names of several letters

Such a name is written in braces behind a command, and read back from the source between the braces
(`runs_operand_of_identifier`).
-/

open TexFormula.Parser

namespace TexFormula

/-- A name of several letters for which there is no standard notation. -/
structure IsIdentifier (name : String) : Prop where
  letters : ∀ c ∈ name.toList, Text.isLetter c = true
  several : 2 ≤ name.length
  unknown : Dictionary.standard.lookup name = none

namespace IsIdentifier

variable {name : String}

theorem exists_toList_eq (h : IsIdentifier name) : ∃ c d cs, name.toList = c :: d :: cs := by
  have hlength := h.several
  rw [← String.length_toList] at hlength
  match hname : name.toList with
  | c :: d :: cs => exact ⟨c, d, cs, rfl⟩
  | [c] => simp [hname] at hlength
  | [] => simp [hname] at hlength

theorem startsWith_backslash (h : IsIdentifier name) : Text.startsWith name '\\' = false :=
  Text.startsWith_backslash_of_isLetter h.letters

theorem disposition (h : IsIdentifier name) :
    UnknownTokenPolicy.standard.disposition name = .function := by
  obtain ⟨c, d, cs, hname⟩ := h.exists_toList_eq
  have hslash := h.startsWith_backslash
  show UnknownTokenPolicy.standardDisposition name = .function
  unfold UnknownTokenPolicy.standardDisposition
  rw [Text.startsWith, hname] at hslash
  rw [hname]
  split
  · next heq => rw [(List.cons.inj heq).1] at hslash; cases hslash
  · rfl
  · rfl
  · rfl
  · rfl
  · next hmany => exact absurd rfl (hmany c d cs)

theorem symbol_eq (h : IsIdentifier name) (s : Serializer) (hs : s.dictionary = .standard) :
    s.symbol name = "\\operatorname" ++ Text.braced name := by
  have hlong : name.length ≠ 1 := fun hone => by
    have hseveral := h.several
    omega
  rw [Serializer.symbol, hs, h.unknown, Option.filter_none]
  simp [h.startsWith_backslash, hlong]

theorem withoutBlanks (h : IsIdentifier name) : Text.withoutBlanks name.toList = name.toList :=
  Text.withoutBlanks_of_forall fun c hc => Text.isBlank_of_isLetter (h.letters c hc)

end IsIdentifier

namespace Token

/-- Letters one behind the other, from a place in the source on. -/
def letters : Nat → List Char → List Token
  | _, [] => []
  | offset, c :: cs => ⟨.letter c, offset, offset + c.utf8Size⟩ :: letters (offset + c.utf8Size) cs

/-- The tokens of letters in braces. -/
def bracedLetters (cs : List Char) : Language Token :=
  {ts | ∃ offset, ts = ⟨.groupOpen, offset, offset + 1⟩ :: (letters (offset + 1) cs ++
    [⟨.groupClose, offset + 1 + Text.byteLength cs, offset + 1 + Text.byteLength cs + 1⟩])}

theorem letters_mem_unbraced (offset : Nat) (cs : List Char) : letters offset cs ∈ unbraced := by
  induction cs generalizing offset with
  | nil => exact nil_mem_unbraced
  | cons c cs ih => exact List.forall_mem_cons.mpr ⟨⟨nofun, nofun⟩, ih _⟩

theorem laid_letters {cs : List Char} (h : ∀ c ∈ cs, Text.isLetter c = true) (offset : Nat)
    (r : List Char) :
    laid offset (cs ++ r) = letters offset cs ++ laid (offset + Text.byteLength cs) r := by
  induction cs generalizing offset with
  | nil => rfl
  | cons c cs ih =>
    obtain ⟨hc, hcs⟩ := List.forall_mem_cons.mp h
    rw [List.cons_append, laid_cons (Lexeme.read_of_isLetter hc _) rfl]
    simp [Lexeme.single, letters, ih hcs, Nat.add_assoc]

/-- What is read before the letters goes on with them in the source. -/
theorem slice?_letters {source : String} {cs as : List Char} {start offset : Nat}
    (h : ∀ t ∈ letters offset cs, t ∈ meaningful source)
    (hstart : Text.slice? source.toList start offset = some as) :
    Text.slice? source.toList start (offset + Text.byteLength cs) = some (as ++ cs) := by
  induction cs generalizing offset as with
  | nil => simpa using hstart
  | cons c cs ih =>
    obtain ⟨hfirst, hmore⟩ := List.forall_mem_cons.mp h
    obtain ⟨-, text, ⟨rfl, -⟩, hslice⟩ := exists_covers_of_mem_meaningful hfirst
    have hlonger := ih hmore (Text.slice?_append hstart hslice)
    simpa [Nat.add_assoc] using hlonger

end Token

theorem Spells.bracedLetters {name : String} (h : ∀ c ∈ name.toList, Text.isLetter c = true) :
    Spells (Text.braced name).toList (Token.bracedLetters name.toList) := by
  refine fun offset r _ => ⟨_, ⟨offset, rfl⟩, ?_⟩
  have hlist : (Text.braced name).toList = '{' :: (name.toList ++ ['}']) := by
    simp [Text.braced, String.toList_append]
  have hopen (offset : Nat) (cs : List Char) : Token.laid offset ('{' :: cs) =
      ⟨.groupOpen, offset, offset + 1⟩ :: Token.laid (offset + 1) cs :=
    Token.laid_cons rfl rfl offset
  have hclose (offset : Nat) (cs : List Char) : Token.laid offset ('}' :: cs) =
      ⟨.groupClose, offset, offset + 1⟩ :: Token.laid (offset + 1) cs :=
    Token.laid_cons rfl rfl offset
  have hlength : Text.byteLength ('{' :: (name.toList ++ ['}'])) =
      1 + Text.byteLength name.toList + 1 := by
    rw [Text.byteLength_cons, Text.byteLength_append, ← Nat.add_assoc]
    rfl
  rw [hlist, List.cons_append, List.append_assoc, List.singleton_append, hopen,
    Token.laid_letters h, hclose, hlength]
  simp [Nat.add_assoc]

namespace Parser

variable {env : Env} {inner : Inner} {s s' : State} {t : Token} {name raw : String}
  {ts after rest : List Token} {c : Char} {cs : List Char} {offset : Nat}

theorem slice_of_bracedLetters
    (h : ∀ t ∈ (⟨.groupOpen, offset, offset + 1⟩ : Token) :: Token.letters (offset + 1) cs,
      t ∈ Token.meaningful env.source) :
    env.slice (offset + 1) (offset + 1 + Text.byteLength cs) = String.ofList cs := by
  obtain ⟨hbrace, hletters⟩ := List.forall_mem_cons.mp h
  obtain ⟨-, text, rfl, hslice⟩ := Token.exists_covers_of_mem_meaningful hbrace
  have hinside := Text.slice?_tail (Token.slice?_letters hletters hslice)
  rw [Env.slice, Text.slice]
  exact congrArg (fun o => String.ofList (o.getD [])) hinside

theorem runs_rawGroup_of_bracedLetters (hs : s.rest = ts ++ after)
    (hts : ts ∈ Token.bracedLetters cs) (hctx : (located env).holds s) :
    Runs (rawGroup env) s (some (String.ofList cs)) (s.forward ts.length) := by
  obtain ⟨offset, rfl⟩ := hts
  have hrest : s.rest = ⟨.groupOpen, offset, offset + 1⟩ :: (Token.letters (offset + 1) cs ++
      ⟨.groupClose, offset + 1 + Text.byteLength cs, offset + 1 + Text.byteLength cs + 1⟩ :: after) := by
    simp [hs]
  have hslice : env.slice (offset + 1) (offset + 1 + Text.byteLength cs) = String.ofList cs :=
    slice_of_bracedLetters fun t ht =>
      hctx.2.subset (by rw [hrest, ← List.cons_append]; exact List.mem_append_left _ ht)
  have hgroup : Runs (rawGroup env) s _ _ :=
    runs_rawGroup hrest rfl (Token.letters_mem_unbraced _ _) rfl
  rw [hslice] at hgroup
  simpa using hgroup

/-- The text of the group behind the command is a name, but for its blanks. -/
theorem runs_operand_of_operatorname (hdictionary : env.dictionary = .standard)
    (hs : s.rest = t :: rest) (ht : t.kind = .command "operatorname") (hclosers : s.Delimited)
    (hname : Text.withoutBlanks raw.toList = c :: cs)
    (h : Runs (rawGroup env) (s.forward 1) (some raw) s') :
    Runs (operand env inner) s (some (ofHook env (.symbol (String.ofList (c :: cs))))) s' := by
  have htrigger : t.trigger? = some "\\operatorname" := by rw [Token.trigger?, ht]; rfl
  have hoperands : env.dictionary.operands "\\operatorname" =
      [.ofReader "Identifier" "\\operatorname" Readers.identifier] := by
    rw [hdictionary]
    rfl
  have hgoes : Continues t.kind := ht ▸ BeginsFactor.continues (.command (by decide))
  have hread : Runs (run env inner (Readers.identifier none)) (s.forward 1)
      (some (.symbol (String.ofList (c :: cs)))) s' := by
    refine h.bind ?_
    dsimp only [Reading.bind]
    rw [hname]
    exact .pure _ _
  exact runs_operand_notated hs hgoes hclosers (runs_builtin_of_command hs ht (by decide)) htrigger
    hoperands (hread.bind (.pure _ _))

theorem runs_operand_of_identifier (henv : env.IsStandard) (hname : IsIdentifier name)
    (hs : s.rest = t :: (ts ++ after)) (ht : t.kind = .command "operatorname")
    (hts : ts ∈ Token.bracedLetters name.toList) (hctx : (located env).holds s) :
    Runs (operand env inner) s (some (.ofName name)) (s.forward (ts.length + 1)) := by
  have hinside : (s.forward 1).rest = ts ++ after := by
    rw [State.rest_forward, hs]
    rfl
  have hgroup := runs_rawGroup_of_bracedLetters hinside hts ((located env).forward 1 hctx)
  rw [String.ofList_toList, State.forward_forward, Nat.add_comm] at hgroup
  obtain ⟨c, d, cs, hlist⟩ := hname.exists_toList_eq
  have hletters : Text.withoutBlanks name.toList = c :: d :: cs := by
    rw [hname.withoutBlanks, hlist]
  have hcall : ofHook env (.symbol (String.ofList (c :: d :: cs))) = .ofName name := by
    rw [← hlist, String.ofList_toList, ofHook, henv.unknownTokens]
    rfl
  rw [← hcall]
  exact runs_operand_of_operatorname henv.dictionary hs ht hctx.1 hletters hgroup

end Parser

end TexFormula
