import TexFormula.Parser
import TexFormula.Proofs.SideBySide.Expression
import TexFormula.Proofs.StandardHooks
import TexFormula.Proofs.Tokenization

/-!
# Sources side by side

Sources are laid out alike (`Token.LaidOutAlike`) if they have the same tokens, separators aside, and
if runs of digits touch the tokens beside them in both or in none. Then the states before the first
token are alike (`alike_ofSource`), and so is all that follows.
-/

namespace TexFormula

theorem eq_of_mem_zip {α β : Type} {f : α → β} {l l' : List α} (h : l'.map f = l.map f) {p : α × α}
    (hp : p ∈ l.zip l') : f p.2 = f p.1 := by
  induction l generalizing l' with
  | nil => cases hp
  | cons a l ih =>
    cases l' with
    | nil => cases h
    | cons a' l' =>
      obtain ⟨hhead, htail⟩ := List.cons.inj h
      rcases List.mem_cons.mp hp with rfl | hp
      · exact hhead
      · exact ih htail hp

namespace Token

variable {source source' : String}

/-- The sources have the same tokens, separators aside, and where one of two consecutive tokens is a
run of digits, the tokens touch in both sources or in none. -/
structure LaidOutAlike (source source' : String) : Prop where
  kinds : (meaningful source').map (·.kind) = (meaningful source).map (·.kind)
  touch : ((meaningful source).zip (meaningful source')).IsChain fun p q =>
    p.1.digits?.isSome ∨ q.1.digits?.isSome → (p.2.stop = q.2.start ↔ p.1.stop = q.1.start)

theorem LaidOutAlike.refl (source : String) : LaidOutAlike source source where
  kinds := rfl
  touch := by
    rw [List.isChain_iff_getElem]
    intro i hi _
    simp

theorem LaidOutAlike.length_eq (h : LaidOutAlike source source') :
    (meaningful source').length = (meaningful source).length := by
  simpa using congrArg List.length h.kinds

end Token

namespace Parser.SideBySide

open Token (LaidOutAlike meaningful)

variable {w : SideBySide}

/-- Standard hooks are admitted, and those of names and texts only if the sources are the same. -/
theorem Admits.of_standard {hook : ReadingHook}
    (h : ∃ m ∈ Dictionary.standardEntries, m.reader = some hook)
    (htext : w.exact ∨ hook ≠ Readers.identifier ∧ hook ≠ Readers.text) : w.Admits hook := by
  obtain ⟨m, hm, hreader⟩ := h
  obtain ⟨trigger, -, hstandard⟩ := Dictionary.hookedAsStandard_standardEntries m hm hook hreader
  generalize m.followsOperand = follows at hstandard
  cases hstandard with
  | unaryPlus => exact .unaryPlus
  | power => exact .power
  | subscript => exact .subscript
  | squareRoot => exact .squareRoot
  | operatorname | mathrm => exact .identifier (htext.resolve_right fun h => h.1 rfl)
  | text => exact .text (htext.resolve_right fun h => h.2 rfl)
  | placeholder => exact .placeholder
  | infinity => exact .infinity

theorem match_of_mem (h : LaidOutAlike w.left.source w.right.source)
    (hknown : ∀ t ∈ meaningful w.left.source, ∀ trigger, t.trigger? = some trigger → w.Known trigger)
    {p : Token × Token} (hp : p ∈ (meaningful w.left.source).zip (meaningful w.right.source)) :
    w.Match p.1 p.2 := by
  obtain ⟨hleft, hright⟩ := List.of_mem_zip hp
  obtain ⟨hseparator, text, hcovers, hslice⟩ := Token.exists_covers_of_mem_meaningful hleft
  obtain ⟨-, text', hcovers', hslice'⟩ := Token.exists_covers_of_mem_meaningful hright
  have hkind : p.2.kind = p.1.kind := eq_of_mem_zip h.kinds hp
  rw [hkind] at hcovers'
  obtain rfl : text = text' := hcovers.text_eq hcovers' hseparator
  refine ⟨hkind, ⟨text, hcovers, hslice, hslice'⟩, fun hexact => ?_, hknown p.1 hleft⟩
  rw [w.source hexact] at hp
  exact eq_of_mem_zip (f := id) rfl hp

theorem isChain_gap (h : LaidOutAlike w.left.source w.right.source) :
    ((meaningful w.left.source).zip (meaningful w.right.source)).IsChain Gap := by
  have hleft := Token.isChain_meaningful w.left.source
  have hright := Token.isChain_meaningful w.right.source
  have htouch := h.touch
  rw [List.isChain_iff_getElem] at hleft hright htouch ⊢
  intro i hi
  have hlength := h.length_eq
  have hzip := hi
  rw [List.length_zip] at hzip
  have hgap := htouch i hi
  rw [List.getElem_zip, List.getElem_zip] at hgap ⊢
  exact ⟨hleft i (by omega), hright i (by omega), hgap⟩

theorem alike_ofSource (h : LaidOutAlike w.left.source w.right.source)
    (hknown : ∀ t ∈ meaningful w.left.source, ∀ trigger, t.trigger? = some trigger →
      w.Known trigger) :
    w.Alike (.ofSource w.left.source) (.ofSource w.right.source) := by
  refine ⟨[], (meaningful w.left.source).zip (meaningful w.right.source), ?_⟩
  exact
    { seen := rfl
      seen' := rfl
      rest := (List.map_fst_zip h.length_eq.ge).symm
      rest' := (List.map_snd_zip h.length_eq.le).symm
      pairs := fun p hp => match_of_mem h hknown hp
      gaps := isChain_gap h
      closers := rfl
      depth := rfl
      problems := rfl
      diagnostics := fun _ => rfl }

/-- Both parses end with the same fault, or both with a result, and then from states that are alike
and with expressions that are the same if nothing that was read depends on the layout. -/
theorem parse_alike (hs : w.Alike (.ofSource w.left.source) (.ofSource w.right.source)) :
    (∃ e t e' t', w.Alike t t' ∧ (w.Clear t → e' = e) ∧
      parse w.left.dictionary w.left.options w.left.source = .ok ⟨e, t.diagnostics.reverse⟩ ∧
      parse w.right.dictionary w.right.options w.right.source = .ok ⟨e', t'.diagnostics.reverse⟩) ∨
    ∃ fault, parse w.left.dictionary w.left.options w.left.source = .error fault ∧
      parse w.right.dictionary w.right.options w.right.source = .error fault := by
  have hparse (env : Env) (e : Expression) (t : State)
      (h : Runs (root env) (.ofSource env.source) e t) :
      parse env.dictionary env.options env.source = .ok ⟨e, t.diagnostics.reverse⟩ := by
    rw [parse, show root ⟨env.source, env.dictionary, env.options⟩ _ = _ from h]
  have hfault (env : Env) (fault : Fault) (t : State)
      (h : root env (.ofSource env.source) = .error fault t) :
      parse env.dictionary env.options env.source = .error fault := by
    rw [parse, show root ⟨env.source, env.dictionary, env.options⟩ _ = _ from h]
  rcases twin_root hs with ⟨e, t, e', t', h, h', ht, -, he⟩ | ⟨fault, t, t', h, h'⟩
  · exact .inl ⟨e, t, e', t', ht, he, hparse _ e t h, hparse _ e' t' h'⟩
  · exact .inr ⟨fault, hfault _ fault t h, hfault _ fault t' h'⟩

theorem parse_eq_of_exact (hexact : w.exact)
    (hs : w.Alike (.ofSource w.left.source) (.ofSource w.right.source)) :
    parse w.right.dictionary w.right.options w.right.source =
      parse w.left.dictionary w.left.options w.left.source := by
  rcases parse_alike hs with ⟨e, t, e', t', ht, he, hleft, hright⟩ | ⟨fault, hleft, hright⟩
  · rw [hleft, hright, ht.diagnostics hexact, he (.inl hexact)]
  · rw [hleft, hright]

end Parser.SideBySide

end TexFormula
