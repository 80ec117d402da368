import TexFormula.Proofs.Tokenization

/-!
# Pieces of a source

The text from the start of one token to the end of another is cut into the same tokens as it is in the
source (`exists_piece`): no token depends on what stands before it, and none is longer where less text
follows it.
-/

namespace TexFormula

namespace Text

variable {cs rest : List Char} {start stop n : Nat}

theorem splitAt?_append_left (as cs : List Char) (n : Nat) :
    splitAt? (as ++ cs) (n + byteLength as) = (splitAt? cs n).map fun p => (as ++ p.1, p.2) := by
  induction as generalizing n with
  | nil => simp
  | cons a as ih =>
    have ha : 0 < a.utf8Size := Char.utf8Size_pos a
    obtain ⟨m, hm⟩ : ∃ m, n + byteLength (a :: as) = m + 1 :=
      ⟨n + byteLength (a :: as) - 1, by simp only [byteLength_cons]; omega⟩
    have hle : a.utf8Size ≤ m + 1 := by simp only [byteLength_cons] at hm; omega
    have hsub : m + 1 - a.utf8Size = n + byteLength as := by simp only [byteLength_cons] at hm; omega
    rw [hm, List.cons_append, splitAt?, if_pos hle, hsub, ih, Option.map_map]
    rfl

theorem splitAt?_append_right (rest : List Char) (h : n ≤ byteLength cs) :
    splitAt? (cs ++ rest) n = (splitAt? cs n).map fun p => (p.1, p.2 ++ rest) := by
  induction cs generalizing n with
  | nil =>
    obtain rfl : n = 0 := Nat.le_zero.mp h
    simp [splitAt?]
  | cons c cs ih =>
    cases n with
    | zero => simp [splitAt?]
    | succ n =>
      rw [List.cons_append, splitAt?, splitAt?]
      split
      · rw [ih (by simp only [byteLength_cons] at h; omega), Option.map_map, Option.map_map]
        rfl
      · rfl

/-- Inside of a piece nothing depends on what stands around it. -/
theorem slice?_inside (as rest : List Char) (hstart : start ≤ byteLength cs)
    (hstop : stop ≤ byteLength cs) :
    slice? (as ++ (cs ++ rest)) (start + byteLength as) (stop + byteLength as) =
      slice? cs start stop := by
  unfold slice?
  by_cases hle : start ≤ stop
  · rw [if_pos hle, if_pos (by omega), splitAt?_append_left, splitAt?_append_right rest hstart,
      Nat.add_sub_add_right, Option.map_map, Option.bind_map]
    refine Option.bind_congr fun p hp => ?_
    obtain ⟨rfl, rfl⟩ := splitAt?_eq_some_iff.mp hp
    rw [byteLength_append] at hstop
    show (splitAt? (p.2 ++ rest) _).map _ = _
    rw [splitAt?_append_right rest (by omega), Option.map_map]
    rfl
  · rw [if_neg hle, if_neg (by omega)]

end Text

namespace Token

/-- The token further behind. -/
def shift (offset : Nat) (t : Token) : Token :=
  ⟨t.kind, t.start + offset, t.stop + offset⟩

namespace Tiles

variable {offset : Nat} {cs : List Char} {tokens tokens' ts us : List Token} {u : Token}

theorem shift (h : Tiles offset cs tokens) (count : Nat) :
    Tiles (offset + count) cs (tokens.map (Token.shift count)) := by
  induction h with
  | ending offset => exact .ending _
  | @token offset kind text rest tokens hkind covers stops tiles ih =>
    rw [Nat.add_right_comm] at ih
    rw [List.map_cons, Token.shift, Nat.add_right_comm]
    exact .token hkind covers stops ih

/-- There is one way to cut a text into tokens. -/
theorem eq_scan (h : Tiles offset cs tokens) : tokens = scan offset cs := by
  induction h with
  | ending offset => rw [scan]
  | @token offset kind text rest tokens hkind covers stops tiles ih =>
    obtain ⟨c, cs, rfl⟩ := List.exists_cons_of_ne_nil (covers.ne_nil hkind)
    rw [List.cons_append, scan, next, Lexeme.read_append_of_covers covers stops, ih]

theorem behind (h : Tiles offset cs (ts ++ us)) (hus : us ≠ []) :
    ∃ as bs, cs = as ++ bs ∧ Tiles (offset + Text.byteLength as) bs us := by
  induction ts generalizing offset cs with
  | nil => exact ⟨[], cs, rfl, h⟩
  | cons t ts ih =>
    generalize htokens : t :: ts ++ us = tokens at h
    cases h with
    | ending =>
      obtain ⟨-, hnil⟩ := List.cons.inj htokens
      exact absurd (List.append_eq_nil_iff.mp hnil).2 hus
    | @token offset kind text rest tokens hkind covers stops tiles =>
      obtain ⟨-, rfl⟩ := List.cons.inj htokens
      obtain ⟨as, bs, rfl, htiles⟩ := ih tiles
      refine ⟨text ++ as, bs, (List.append_assoc ..).symm, ?_⟩
      rw [Text.byteLength_append, ← Nat.add_assoc]
      exact htiles

theorem front (h : Tiles offset cs (ts ++ u :: us)) (hu : u.kind ≠ .ending) :
    ∃ text rest, cs = text ++ rest ∧ offset + Text.byteLength text = u.stop ∧
      Tiles offset text (ts ++ [u, ⟨.ending, u.stop, u.stop⟩]) := by
  induction ts generalizing offset cs with
  | nil =>
    generalize htokens : [] ++ u :: us = tokens at h
    cases h with
    | ending =>
      obtain ⟨rfl, -⟩ := List.cons.inj htokens
      exact absurd rfl hu
    | @token offset kind text rest tokens hkind covers stops tiles =>
      obtain ⟨rfl, -⟩ := List.cons.inj htokens
      have hstops : ∀ c ∈ ([] : List Char).head?, ¬ kind.GoesOn c := fun c hc => by cases hc
      have htile := Tiles.token hkind covers hstops (.ending (offset + Text.byteLength text))
      rw [List.append_nil] at htile
      exact ⟨text, rest, rfl, rfl, htile⟩
  | cons t ts ih =>
    generalize htokens : t :: ts ++ u :: us = tokens at h
    cases h with
    | ending =>
      obtain ⟨-, hnil⟩ := List.cons.inj htokens
      cases ts <;> cases hnil
    | @token offset kind text rest tokens hkind covers stops tiles =>
      obtain ⟨rfl, rfl⟩ := List.cons.inj htokens
      obtain ⟨text', rest', rfl, hstop, htiles⟩ := ih tiles
      have hstops : ∀ c ∈ text'.head?, ¬ kind.GoesOn c := fun c hc => stops c (by
        rw [List.head?_append, hc]
        rfl)
      refine ⟨text ++ text', rest', (List.append_assoc ..).symm, ?_, .token hkind covers hstops htiles⟩
      rw [Text.byteLength_append, ← Nat.add_assoc, hstop]

end Tiles

/-- The token is neither a separator nor the end of the text. -/
def hasMeaning (t : Token) : Bool :=
  !t.kind.isSeparator && t.kind != .ending

theorem meaningful_eq (source : String) :
    meaningful source = (scan 0 source.toList).filter hasMeaning := rfl

/-- From the start of the token `t` to the end of the token `u` the text is one with the same tokens. -/
theorem exists_piece_of_scan {offset : Nat} {cs : List Char} {before init own after : List Token}
    {t u : Token} (h : (scan offset cs).filter hasMeaning = before ++ (t :: own ++ after))
    (hlast : t :: own = init ++ [u]) :
    ∃ as text rest, cs = as ++ (text ++ rest) ∧ offset + Text.byteLength as = t.start ∧
      t.start + Text.byteLength text = u.stop ∧ (scan t.start text).filter hasMeaning = t :: own := by
  obtain ⟨front, all, hall, -, hbehind⟩ := List.filter_eq_append_iff.mp h
  obtain ⟨skipped, others, rfl, -, ht, hothers⟩ := List.filter_eq_cons_iff.mp hbehind
  have htiles := tiles_scan offset cs
  rw [hall, ← List.append_assoc] at htiles
  obtain ⟨as, bs, hsource, htiles⟩ := htiles.behind (List.cons_ne_nil _ _)
  obtain ⟨_, _, _, hhead, -, -, hstart, -⟩ := htiles.head
  obtain rfl : t = _ := Option.some.inj hhead
  -- and where the last one of the tokens ends
  have hkept : (t :: others).filter hasMeaning = init ++ (u :: after) := by
    have happend : t :: own ++ after = init ++ (u :: after) := by
      rw [hlast, List.append_assoc, List.singleton_append]
    rw [← happend, List.filter_cons_of_pos ht, hothers]
    rfl
  obtain ⟨middle, all', hmiddle, hinit, hend⟩ := List.filter_eq_append_iff.mp hkept
  obtain ⟨skipped', others', rfl, hskipped, hu, -⟩ := List.filter_eq_cons_iff.mp hend
  rw [hmiddle, ← List.append_assoc] at htiles
  have hne : u.kind ≠ .ending := bne_iff_ne.mp (Bool.and_eq_true_iff.mp hu).2
  obtain ⟨text, rest, rfl, hstop, htiles⟩ := htiles.front hne
  refine ⟨as, text, rest, hsource, hstart.symm, hstart ▸ hstop, ?_⟩
  rw [hstart, ← htiles.eq_scan, hlast, ← hinit, List.filter_append, List.filter_append,
    List.filter_eq_nil_iff.mpr hskipped, List.append_nil, List.filter_cons_of_pos hu]
  rfl

/-- The same of a source, with the tokens of the piece as if it stood for itself. -/
theorem exists_piece {source : String} {before init own after : List Token} {t u : Token}
    (h : meaningful source = before ++ (t :: own ++ after)) (hlast : t :: own = init ++ [u]) :
    ∃ as text rest, source.toList = as ++ (text ++ rest) ∧ Text.byteLength as = t.start ∧
      t.start + Text.byteLength text = u.stop ∧
        (meaningful (String.ofList text)).map (shift t.start) = t :: own := by
  rw [meaningful_eq] at h
  obtain ⟨as, text, rest, hsource, hstart, hstop, htokens⟩ := exists_piece_of_scan h hlast
  rw [Nat.zero_add] at hstart
  refine ⟨as, text, rest, hsource, hstart, hstop, ?_⟩
  have hshifted := ((tiles_scan 0 text).shift t.start).eq_scan
  rw [Nat.zero_add] at hshifted
  rw [← htokens, ← hshifted, meaningful_eq, String.toList_ofList, List.filter_map]
  rfl

end Token

end TexFormula
