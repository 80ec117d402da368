/-!
# Blanks

White space, in the sense of the Unicode standard: the six ASCII characters, U+0085, U+00A0 and the
space separators and line separators of the other scripts.
-/

namespace TexFormula.Text

/-- The code points of white space. -/
def blanks : List Nat :=
  [0x9, 0xA, 0xB, 0xC, 0xD, 0x20, 0x85, 0xA0, 0x1680, 0x2000, 0x2001, 0x2002, 0x2003, 0x2004,
    0x2005, 0x2006, 0x2007, 0x2008, 0x2009, 0x200A, 0x2028, 0x2029, 0x202F, 0x205F, 0x3000]

/-- The character is white space. -/
def isBlank (c : Char) : Bool :=
  blanks.contains c.toNat

/-- Drops the blanks at both ends. -/
def trim (cs : List Char) : List Char :=
  ((cs.dropWhile isBlank).reverse.dropWhile isBlank).reverse

/-- Drops all blanks. -/
def withoutBlanks (cs : List Char) : List Char :=
  cs.filter (!isBlank ·)

theorem withoutBlanks_of_forall {cs : List Char} (h : ∀ c ∈ cs, isBlank c = false) :
    withoutBlanks cs = cs :=
  List.filter_eq_self.mpr fun c hc => by rw [h c hc]; rfl

theorem withoutBlanks_withoutBlanks (cs : List Char) :
    withoutBlanks (withoutBlanks cs) = withoutBlanks cs := by
  simp [withoutBlanks]

end TexFormula.Text
