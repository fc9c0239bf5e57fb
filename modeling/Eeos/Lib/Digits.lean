import Mathlib.Data.Nat.Digits.Lemmas
import Mathlib.Tactic.Ring

/-!
# Positional notation

* `lsd b n` — the digits of `n` in base `b`, the least significant first; zero has one digit.
* `value b ds` — the number that digits spell, the most significant first, by Horner's rule.

Principal results: `lsd_append` (a number is its last digits and the number without them),
`value_lsd_reverse` (the digits spell the number) and `value_zeros` (leading zeros do not count).
-/

namespace Digits

def lsd (b n : Nat) : List Nat := if n = 0 then [0] else b.digits n

theorem lsd_ne_nil (b n : Nat) : lsd b n ≠ [] := by
  unfold lsd
  split
  · simp
  · rename_i h
    exact Nat.digits_ne_nil_iff_ne_zero.mpr h

theorem lsd_of_lt {b n : Nat} (h : n < b) : lsd b n = [n] := by
  unfold lsd
  split
  · rename_i h0
    rw [h0]
  · rename_i h0
    exact Nat.digits_of_lt b n h0 h

theorem lsd_of_le {b n : Nat} (hb : 1 < b) (h : b ≤ n) : lsd b n = n % b :: lsd b (n / b) := by
  have hdiv : 0 < n / b := Nat.div_pos h (by omega)
  rw [lsd, lsd, if_neg (by omega), if_neg (by omega), Nat.digits_def' hb (by omega)]

/-- The last `k` digits, leading zeros included. -/
def low (b : Nat) : Nat → Nat → List Nat
  | 0, _ => []
  | k + 1, n => n % b :: low b k (n / b)

/-- The last `k` digits of a number, and the number without them. -/
theorem lsd_append {b n : Nat} (hb : 1 < b) {k : Nat} (h : b ^ k ≤ n) :
    lsd b n = low b k n ++ lsd b (n / b ^ k) := by
  induction k generalizing n with
  | zero => rw [pow_zero, Nat.div_one, low, List.nil_append]
  | succ k ih =>
    have hpos : 0 < b ^ k := Nat.pow_pos (by omega)
    have hle : b ≤ n := Nat.le_trans (Nat.le_mul_of_pos_left b hpos) h
    have hdiv : b ^ k ≤ n / b := (Nat.le_div_iff_mul_le (by omega)).mpr h
    rw [lsd_of_le hb hle, ih hdiv, Nat.div_div_eq_div_mul, Nat.mul_comm b, ← pow_succ, low,
      List.cons_append]

theorem low_mod (b k n : Nat) : low b k (n % b ^ k) = low b k n := by
  induction k generalizing n with
  | zero => rfl
  | succ k ih =>
    rw [low, low, pow_succ, Nat.mul_comm, Nat.mod_mul_right_mod, Nat.mod_mul_right_div_self, ih]

theorem lsd_lt {b n : Nat} (hb : 1 < b) : ∀ d ∈ lsd b n, d < b := by
  intro d hd
  unfold lsd at hd
  split at hd
  · rw [List.mem_singleton.mp hd]
    omega
  · exact Nat.digits_lt_base hb hd

/-- The most significant digit of a positive number is not zero. -/
theorem lsd_getLast {b n : Nat} (hn : n ≠ 0) : (lsd b n).getLast (lsd_ne_nil b n) ≠ 0 := by
  have h : lsd b n = b.digits n := if_neg hn
  simp only [h]
  exact Nat.getLast_digit_ne_zero b hn

theorem length_lsd_le {b n k : Nat} (hb : 1 < b) (hk : k ≠ 0) (h : n < b ^ k) :
    (lsd b n).length ≤ k := by
  unfold lsd
  split
  · exact Nat.one_le_iff_ne_zero.mpr hk
  · exact (Nat.digits_length_le_iff hb n).mpr h

def value (b : Nat) (ds : List Nat) : Nat := ds.foldl (fun n d => n * b + d) 0

theorem value_snoc (b : Nat) (ds : List Nat) (d : Nat) :
    value b (ds ++ [d]) = value b ds * b + d := by
  rw [value, value, List.foldl_append]
  rfl

theorem value_zeros (b k : Nat) (ds : List Nat) :
    value b (List.replicate k 0 ++ ds) = value b ds := by
  induction k with
  | zero => rfl
  | succ k ih =>
    rw [List.replicate_succ, List.cons_append, ← ih, value, List.foldl_cons, Nat.zero_mul]
    rfl

theorem value_reverse (b : Nat) (ds : List Nat) : value b ds.reverse = Nat.ofDigits b ds := by
  induction ds with
  | nil => rfl
  | cons d ds ih =>
    rw [List.reverse_cons, value_snoc, ih, Nat.ofDigits_cons]
    ring

/-- **The digits of a number spell it.** -/
theorem value_lsd_reverse (b n : Nat) : value b (lsd b n).reverse = n := by
  rw [value_reverse]
  unfold lsd
  split
  · rename_i h0
    rw [h0]
    rfl
  · exact Nat.ofDigits_digits b n

end Digits
