/-!
# Decimal digits

The decimal digits of a natural number, first digit first. Main statement: they are read back as
that number (`ofDigits_digits`).
-/

namespace Cutover.Decimal

/-- The number that digits stand for. -/
def ofDigits (ds : List Nat) : Nat := ds.foldl (fun n d => 10 * n + d) 0

/-- The digits of `n` in front of `acc`, if `n` is below the fuel. -/
def digitsGo : Nat → Nat → List Nat → List Nat
  | 0, _, acc => acc
  | fuel + 1, n, acc => if n < 10 then n :: acc else digitsGo fuel (n / 10) (n % 10 :: acc)

def digits (n : Nat) : List Nat := digitsGo (n + 1) n []

theorem digitsGo_append (fuel n : Nat) (acc : List Nat) :
    digitsGo fuel n acc = digitsGo fuel n [] ++ acc := by
  induction fuel generalizing n acc with
  | zero => rfl
  | succ fuel ih =>
    unfold digitsGo
    split
    · rfl
    · rw [ih, ih (n / 10) [n % 10], List.append_assoc]; rfl

theorem ofDigits_append_singleton (ds : List Nat) (d : Nat) :
    ofDigits (ds ++ [d]) = 10 * ofDigits ds + d := by
  simp [ofDigits, List.foldl_append]

theorem ofDigits_digitsGo {fuel n : Nat} (h : n < fuel) : ofDigits (digitsGo fuel n []) = n := by
  induction fuel generalizing n with
  | zero => omega
  | succ fuel ih =>
    unfold digitsGo
    split
    · simp [ofDigits]
    · rw [digitsGo_append, ofDigits_append_singleton, ih (by omega)]; omega

/-- The digits of a number stand for it. -/
theorem ofDigits_digits (n : Nat) : ofDigits (digits n) = n :=
  ofDigits_digitsGo (Nat.lt_succ_self n)

theorem digitsGo_lt {fuel n : Nat} {acc : List Nat} (hacc : ∀ d ∈ acc, d < 10) :
    ∀ d ∈ digitsGo fuel n acc, d < 10 := by
  induction fuel generalizing n acc with
  | zero => exact hacc
  | succ fuel ih =>
    unfold digitsGo
    split
    · intro d hd
      rcases List.mem_cons.1 hd with rfl | hd
      · assumption
      · exact hacc d hd
    · apply ih
      intro d hd
      rcases List.mem_cons.1 hd with rfl | hd
      · omega
      · exact hacc d hd

theorem digits_lt (n : Nat) : ∀ d ∈ digits n, d < 10 := digitsGo_lt (by simp)

end Cutover.Decimal
