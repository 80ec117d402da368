/-!
# Precedences

How tightly a notation binds its operands, from 0, the loosest, to 65535, the tightest.
-/

namespace TexFormula

structure Precedence where
  rank : Nat
  rank_le : rank ≤ 65535 := by decide
deriving DecidableEq, Repr

namespace Precedence

instance : LE Precedence := ⟨fun p q => p.rank ≤ q.rank⟩

instance : LT Precedence := ⟨fun p q => p.rank < q.rank⟩

instance (p q : Precedence) : Decidable (p ≤ q) :=
  inferInstanceAs (Decidable (p.rank ≤ q.rank))

instance (p q : Precedence) : Decidable (p < q) :=
  inferInstanceAs (Decidable (p.rank < q.rank))

theorem le_def {p q : Precedence} : p ≤ q ↔ p.rank ≤ q.rank := Iff.rfl

theorem lt_def {p q : Precedence} : p < q ↔ p.rank < q.rank := Iff.rfl

/-- The precedence of a rank, if there is one. -/
def ofNat? (rank : Nat) : Option Precedence :=
  if h : rank ≤ 65535 then some ⟨rank, h⟩ else none

/-- The next tighter precedence. The tightest one is its own successor. -/
def tighter (p : Precedence) : Precedence :=
  if h : p.rank + 1 ≤ 65535 then ⟨p.rank + 1, h⟩ else p

/-- The loosest precedence, which every operator satisfies. -/
def loosest : Precedence := { rank := 0 }

def sequence : Precedence := { rank := 20 }

def disjunction : Precedence := { rank := 230 }

def conjunction : Precedence := { rank := 235 }

def ordering : Precedence := { rank := 245 }

def inequality : Precedence := { rank := 255 }

def equality : Precedence := { rank := 260 }

def addition : Precedence := { rank := 275 }

def multiplication : Precedence := { rank := 390 }

def division : Precedence := { rank := 660 }

def power : Precedence := { rank := 720 }

/-- Operators that stand after their operand. -/
def trailing : Precedence := { rank := 810 }

def negation : Precedence := { rank := 880 }

/-- What has no operands that another operator could take away. -/
def atomic : Precedence := { rank := 65535 }

end Precedence

end TexFormula
