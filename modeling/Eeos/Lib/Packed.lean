import Eeos.Lib.Loop

/-!
# Register banks

A device that keeps something for each of many lines shows it in banks of registers, each register
packing what belongs to `w` consecutive lines.

* `packed w f n line` — the lines after a write to register `n`, which changes the line at place `k`
  of the register by `f k`.
* `cover w lo hi f line` — the lines after all the lines from `lo` up to `hi` were written so.

Principal results: `packed_cover` (one more register) and `forStep_packed` (a loop over the registers
of a bank, by what it does to the device).
-/

namespace Packed

open CLoop

variable {α δ : Type}

def packed (w : Nat) (f : Nat → α → α) (n : Nat) (line : Nat → α) : Nat → α := fun i =>
  if i / w = n then f (i % w) (line i) else line i

def cover (w lo hi : Nat) (f : Nat → α → α) (line : Nat → α) : Nat → α := fun i =>
  if lo ≤ i ∧ i < hi then f (i % w) (line i) else line i

theorem packed_other {w n i : Nat} (h : i / w ≠ n) (f : Nat → α → α) (line : Nat → α) :
    packed w f n line i = line i := if_neg h

theorem packed_at {w n i : Nat} (h : i / w = n) (f : Nat → α → α) (line : Nat → α) :
    packed w f n line i = f (i % w) (line i) := if_pos h

theorem cover_in {w lo hi i : Nat} (h : lo ≤ i ∧ i < hi) (f : Nat → α → α) (line : Nat → α) :
    cover w lo hi f line i = f (i % w) (line i) := if_pos h

theorem cover_out {w lo hi i : Nat} (h : ¬ (lo ≤ i ∧ i < hi)) (f : Nat → α → α)
    (line : Nat → α) : cover w lo hi f line i = line i := if_neg h

theorem cover_self (w lo : Nat) (f : Nat → α → α) (line : Nat → α) :
    cover w lo lo f line = line := by
  funext i
  exact cover_out (by omega) f line

/-- The register that follows the lines covered so far. -/
theorem packed_cover {w lo n : Nat} (hw : 0 < w) (hlo : lo ≤ n * w) (f : Nat → α → α)
    (line : Nat → α) :
    packed w f n (cover w lo (n * w) f line) = cover w lo (n * w + w) f line := by
  funext i
  by_cases hi : i / w = n
  · have hdiv : n * w + i % w = i := by rw [← hi, Nat.div_add_mod']
    have hmod : i % w < w := Nat.mod_lt _ hw
    rw [packed_at hi, cover_out (by omega), cover_in (by omega)]
  · have hout : ¬ (n * w ≤ i ∧ i < n * w + w) := by
      intro h
      apply hi
      rw [Nat.div_eq_of_lt_le h.1]
      rw [Nat.succ_mul]
      exact h.2
    rw [packed_other hi]
    unfold cover
    by_cases h : lo ≤ i ∧ i < n * w
    · rw [if_pos h, if_pos (by omega)]
    · rw [if_neg h, if_neg (by omega)]

/-- A loop that writes the registers of the lines from `lo` up to `hi` one after the other; `put` is
how the device holds its lines. -/
theorem forStep_packed {w lo n : Nat} (hw : 0 < w) (f : Nat → α → α) (put : (Nat → α) → δ)
    (body : Nat → δ → δ)
    (hbody : ∀ k, lo ≤ k → k < lo + n → ∀ line, body (k * w) (put line) = put (packed w f k line))
    (line : Nat → α) :
    forStep (lo * w) ((lo + n) * w) w body (put line) =
      put (cover w (lo * w) ((lo + n) * w) f line) := by
  let Covered : Nat → δ → Prop := fun i d =>
    ∃ k, i = (lo + k) * w ∧ d = put (cover w (lo * w) i f line)
  have hlast : n ≠ 0 → lo * w + (n - 1) * w < (lo + n) * w := by
    intro hn
    rw [← Nat.add_mul]
    exact Nat.mul_lt_mul_of_pos_right (by omega) hw
  have hround : ∀ i d, i < (lo + n) * w → Covered i d → Covered (i + w) (body i d) := by
    rintro i d hi ⟨k, rfl, rfl⟩
    have hk : lo + k < lo + n := Nat.lt_of_mul_lt_mul_right hi
    refine ⟨k + 1, by ring, ?_⟩
    rw [hbody _ (by omega) hk, packed_cover hw (Nat.mul_le_mul_right w (by omega))]
  have hstart : Covered (lo * w) (put line) := ⟨0, by simp, by rw [cover_self]⟩
  obtain ⟨-, -, h⟩ := forStep_inv hw (Nat.add_mul lo n w).le hlast hround hstart
  rw [h, Nat.add_mul]

end Packed
