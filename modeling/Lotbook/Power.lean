/-
# Lotbook.Power -- powers of ten and of two

Places of a decimal count powers of ten, exponents of a binary magnitude powers of two. Both turn
sums into products, which is the law that moving a point by so many places rests on (`tenTo_add`).
-/

namespace Lotbook

/-- Ten to the power `n`. -/
def tenTo (n : Nat) : Nat := Nat.pow 10 n

/-- Two to the power `n`. -/
def twoTo (n : Nat) : Nat := Nat.pow 2 n

@[simp] theorem tenTo_zero : tenTo 0 = 1 := rfl

theorem tenTo_add (m n : Nat) : tenTo (m + n) = tenTo m * tenTo n := Nat.pow_add 10 m n

theorem tenTo_pos (n : Nat) : 0 < tenTo n := Nat.pow_pos (n := n) (by decide : 0 < 10)

/-- A power of ten with a positive exponent is at least ten. -/
theorem ten_le_tenTo {n : Nat} (h : n ≠ 0) : 10 ≤ tenTo n := Nat.le_self_pow h 10

end Lotbook
