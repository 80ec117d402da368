/-!
# Byte offsets

Places in a text are counted in bytes of its UTF-8 form. `splitAt?` cuts a text at an offset that
is a character boundary, `slice` is the text between two offsets, and `lineAndColumn` is the place
of an offset as an editor shows it.
-/

namespace TexFormula.Text

/-- The number of bytes of a text. -/
def byteLength : List Char → Nat
  | [] => 0
  | c :: cs => c.utf8Size + byteLength cs

@[simp] theorem byteLength_nil : byteLength [] = 0 := rfl

@[simp] theorem byteLength_cons (c : Char) (cs : List Char) :
    byteLength (c :: cs) = c.utf8Size + byteLength cs := rfl

@[simp] theorem byteLength_append (cs ds : List Char) :
    byteLength (cs ++ ds) = byteLength cs + byteLength ds := by
  induction cs with
  | nil => simp
  | cons c cs ih => simp [ih, Nat.add_assoc]

theorem byteLength_eq_utf8ByteSize (cs : List Char) :
    byteLength cs = (String.ofList cs).utf8ByteSize := by
  induction cs with
  | nil => rfl
  | cons c cs ih =>
    rw [byteLength_cons, ih, ← List.singleton_append, String.ofList_append,
      String.utf8ByteSize_append]
    simp

theorem byteLength_toList (s : String) : byteLength s.toList = s.utf8ByteSize := by
  rw [byteLength_eq_utf8ByteSize, String.ofList_toList]

theorem byteLength_pos {cs : List Char} (h : cs ≠ []) : 0 < byteLength cs := by
  cases cs with
  | nil => exact absurd rfl h
  | cons c cs =>
    have hc : 0 < c.utf8Size := Char.utf8Size_pos c
    simp only [byteLength_cons]
    omega

/-- Cuts a text at a byte offset; nothing if the offset falls inside a character or past the end. -/
def splitAt? : List Char → Nat → Option (List Char × List Char)
  | cs, 0 => some ([], cs)
  | [], _ + 1 => none
  | c :: cs, n + 1 =>
    if c.utf8Size ≤ n + 1 then
      (splitAt? cs (n + 1 - c.utf8Size)).map fun p => (c :: p.1, p.2)
    else
      none

/-- The text from byte `start` up to byte `stop`; nothing if one of them is no boundary. -/
def slice? (cs : List Char) (start stop : Nat) : Option (List Char) :=
  if start ≤ stop then
    (splitAt? cs start).bind fun p => (splitAt? p.2 (stop - start)).map (·.1)
  else
    none

/-- The text from byte `start` up to byte `stop`, empty if there is none. -/
def slice (source : String) (start stop : Nat) : String :=
  String.ofList ((slice? source.toList start stop).getD [])

theorem splitAt?_byteLength (cs ds : List Char) :
    splitAt? (cs ++ ds) (byteLength cs) = some (cs, ds) := by
  induction cs with
  | nil => cases ds <;> rfl
  | cons c cs ih =>
    have hc : 0 < c.utf8Size := Char.utf8Size_pos c
    obtain ⟨n, hn⟩ : ∃ n, c.utf8Size + byteLength cs = n + 1 :=
      ⟨c.utf8Size + byteLength cs - 1, by omega⟩
    have hle : c.utf8Size ≤ n + 1 := by omega
    have hsub : n + 1 - c.utf8Size = byteLength cs := by omega
    simp [hn, splitAt?, hle, hsub, ih]

/-- Where a text is cut, its parts make it up and the first one has as many bytes as the offset. -/
theorem splitAt?_eq_some_iff {cs as bs : List Char} {n : Nat} :
    splitAt? cs n = some (as, bs) ↔ cs = as ++ bs ∧ byteLength as = n := by
  constructor
  · intro h
    induction cs generalizing as n with
    | nil => cases n <;> simp_all [splitAt?]
    | cons c cs ih =>
      cases n with
      | zero => simp_all [splitAt?]
      | succ n =>
        simp only [splitAt?, Option.ite_none_right_eq_some, Option.map_eq_some_iff, Prod.mk.injEq] at h
        obtain ⟨hle, ⟨ds, rest⟩, hsplit, rfl, rfl⟩ := h
        obtain ⟨rfl, hlength⟩ := ih hsplit
        refine ⟨rfl, ?_⟩
        simp only [byteLength_cons, hlength]
        omega
  · rintro ⟨rfl, rfl⟩
    exact splitAt?_byteLength as bs

/-- A slice is what lies between two cuts. -/
theorem slice?_eq_some_iff {cs bs : List Char} {start stop : Nat} :
    slice? cs start stop = some bs ↔
      ∃ as rest, cs = as ++ (bs ++ rest) ∧ byteLength as = start ∧ start + byteLength bs = stop := by
  simp only [slice?, Option.ite_none_right_eq_some, Option.bind_eq_some_iff, Option.map_eq_some_iff,
    Prod.exists, splitAt?_eq_some_iff]
  constructor
  · rintro ⟨hle, as, ds, ⟨rfl, hstart⟩, bs', rest, ⟨rfl, hstop⟩, rfl⟩
    exact ⟨as, rest, rfl, hstart, by omega⟩
  · rintro ⟨as, rest, rfl, hstart, hstop⟩
    exact ⟨by omega, as, bs ++ rest, ⟨rfl, hstart⟩, bs, rest, ⟨rfl, by omega⟩, rfl⟩

/-- Two slices of which the second starts where the first stops make up one. -/
theorem slice?_append {cs bs ds : List Char} {start middle stop : Nat}
    (h : slice? cs start middle = some bs) (h' : slice? cs middle stop = some ds) :
    slice? cs start stop = some (bs ++ ds) := by
  obtain ⟨as, rest, hcs, hstart, hmiddle⟩ := slice?_eq_some_iff.mp h
  obtain ⟨as', rest', hcs', hmiddle', hstop⟩ := slice?_eq_some_iff.mp h'
  -- both say where the text is cut in the middle
  have hcut := splitAt?_eq_some_iff.mpr ⟨hcs', hmiddle'⟩
  rw [splitAt?_eq_some_iff.mpr ⟨hcs.trans (List.append_assoc ..).symm, by simp; omega⟩] at hcut
  simp only [Option.some.injEq, Prod.mk.injEq] at hcut
  refine slice?_eq_some_iff.mpr ⟨as, rest', ?_, hstart, by simp; omega⟩
  rw [hcs, hcut.2, List.append_assoc]

theorem slice?_tail {cs bs : List Char} {c : Char} {start stop : Nat}
    (h : slice? cs start stop = some (c :: bs)) :
    slice? cs (start + c.utf8Size) stop = some bs := by
  obtain ⟨as, rest, rfl, rfl, rfl⟩ := slice?_eq_some_iff.mp h
  exact slice?_eq_some_iff.mpr ⟨as ++ [c], rest, by simp, by simp, by simp [Nat.add_assoc]⟩

/-- One step of the way through a text: a line feed starts a line, all else takes one column. -/
def nextPlace (place : Nat × Nat) (c : Char) : Nat × Nat :=
  if c = '\n' then (place.1 + 1, 1) else (place.1, place.2 + 1)

/-- Line and column after the characters that start before byte `offset`. -/
def placeFrom (place : Nat × Nat) : List Char → Nat → Nat × Nat
  | _, 0 => place
  | [], _ + 1 => place
  | c :: cs, n + 1 => placeFrom (nextPlace place c) cs (n + 1 - c.utf8Size)

/-- Line and column of a byte offset, both counted from one; columns count characters. -/
def lineAndColumn (source : String) (offset : Nat) : Nat × Nat :=
  placeFrom (1, 1) source.toList offset

end TexFormula.Text
