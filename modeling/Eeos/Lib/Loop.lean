import Mathlib.Tactic.Ring

/-!
# Counted C loops

`whileDec lo body n s` is the C loop `while (--n > lo) body`: the counter is decremented by every
test, the failing one included, and the body sees the decremented counter.  It returns the final
state and the final counter, because C code goes on to use both.

Principal results: `whileDec_eq` (the loop unfolds as C executes it), `whileDec_snd` (the counter
it leaves) and `whileDec_fst` (a body that only feeds one item per round to `f` is a left fold of
`f` over those items).

`forStep lo hi step body s` is `for (i = lo; i < hi; i += step) body`; `forStep_inv` is its invariant
rule.
-/

namespace CLoop

variable {σ β : Type}

/-- `whileDec` with structural fuel. -/
def whileDecGo (lo : Int) (body : Int → σ → σ) : Nat → Int → σ → σ × Int
  | 0, n, s => (s, n - 1)
  | fuel + 1, n, s =>
    if lo < n - 1 then whileDecGo lo body fuel (n - 1) (body (n - 1) s) else (s, n - 1)

/-- `while (--n > lo) body`. -/
def whileDec (lo : Int) (body : Int → σ → σ) (n : Int) (s : σ) : σ × Int :=
  whileDecGo lo body (n - lo).toNat n s

theorem whileDec_eq (lo : Int) (body : Int → σ → σ) (n : Int) (s : σ) :
    whileDec lo body n s =
      if lo < n - 1 then whileDec lo body (n - 1) (body (n - 1) s) else (s, n - 1) := by
  unfold whileDec
  split
  · rename_i h
    obtain ⟨k, hk⟩ : ∃ k, (n - lo).toNat = k + 1 := ⟨(n - lo).toNat - 1, by omega⟩
    rw [hk, whileDecGo, if_pos h, show (n - 1 - lo).toNat = k by omega]
  · rename_i h
    rcases (show (n - lo).toNat = 0 ∨ (n - lo).toNat = 1 by omega) with h0 | h1
    · rw [h0, whileDecGo]
    · rw [h1, whileDecGo, if_neg h]

/-- The values the body sees: `n - 1, n - 2, …, lo + 1`. -/
def rounds (lo n : Int) : List Int := (List.range (n - 1 - lo).toNat).map fun (i : Nat) => n - 1 - (i : Int)

theorem rounds_of_lt {lo n : Int} (h : lo < n - 1) : rounds lo n = (n - 1) :: rounds lo (n - 1) := by
  unfold rounds
  obtain ⟨k, hk⟩ : ∃ k, (n - 1 - lo).toNat = k + 1 := ⟨(n - 1 - lo).toNat - 1, by omega⟩
  rw [hk, List.range_succ_eq_map, show (n - 1 - 1 - lo).toNat = k by omega]
  simp only [List.map_cons, List.map_map, Int.natCast_zero, Int.sub_zero]
  congr 1
  apply List.map_congr_left
  intro i _
  simp only [Function.comp_apply, Nat.succ_eq_add_one]
  omega

theorem rounds_of_ge {lo n : Int} (h : n - 1 ≤ lo) : rounds lo n = [] := by
  simp [rounds, show (n - 1 - lo).toNat = 0 by omega]

theorem map_const_rounds (c : β) (lo n : Int) :
    (rounds lo n).map (fun _ => c) = List.replicate (n - 1 - lo).toNat c := by
  simp [rounds, Function.comp_def, List.map_const']

/-- The counter after the loop. -/
theorem whileDec_snd (lo : Int) (body : Int → σ → σ) (n : Int) (s : σ) :
    (whileDec lo body n s).2 = min (n - 1) lo := by
  obtain ⟨k, hk⟩ : ∃ k, (n - lo).toNat = k := ⟨_, rfl⟩
  induction k generalizing n s with
  | zero => rw [whileDec_eq, if_neg (by omega)]; simp only; omega
  | succ k ih =>
    rw [whileDec_eq]
    split
    · rw [ih (n - 1) _ (by omega)]; omega
    · simp only; omega

/-- The state after a loop whose body feeds one item per round to `f`. -/
theorem whileDec_fst (lo : Int) (f : σ → β → σ) (c : Int → β) (n : Int) (s : σ) :
    (whileDec lo (fun i s => f s (c i)) n s).1 = ((rounds lo n).map c).foldl f s := by
  obtain ⟨k, hk⟩ : ∃ k, (n - lo).toNat = k := ⟨_, rfl⟩
  induction k generalizing n s with
  | zero => rw [whileDec_eq, if_neg (by omega), rounds_of_ge (by omega)]; rfl
  | succ k ih =>
    rw [whileDec_eq]
    split
    · rename_i h
      rw [ih (n - 1) _ (by omega), rounds_of_lt h, List.map_cons, List.foldl_cons]
    · rw [rounds_of_ge (by omega)]; rfl

/-! ## Strides -/

/-- `forStep` with structural fuel. -/
def forStepGo (hi step : Nat) (body : Nat → σ → σ) : Nat → Nat → σ → σ
  | 0, _, s => s
  | fuel + 1, i, s => if i < hi then forStepGo hi step body fuel (i + step) (body i s) else s

/-- `for (i = lo; i < hi; i += step) body`, for a positive step. -/
def forStep (lo hi step : Nat) (body : Nat → σ → σ) (s : σ) : σ :=
  forStepGo hi step body (hi - lo) lo s

theorem forStepGo_inv {P : Nat → σ → Prop} {hi step : Nat} {body : Nat → σ → σ}
    (hbody : ∀ i s, i < hi → P i s → P (i + step) (body i s)) {n fuel i : Nat} {s : σ}
    (hfuel : n ≤ fuel) (hle : hi ≤ i + n * step) (hlt : n ≠ 0 → i + (n - 1) * step < hi)
    (h : P i s) : P (i + n * step) (forStepGo hi step body fuel i s) := by
  induction n generalizing fuel i s with
  | zero =>
    have hstop : ¬ i < hi := by omega
    rw [Nat.zero_mul, Nat.add_zero]
    cases fuel with
    | zero => exact h
    | succ fuel => rw [forStepGo, if_neg hstop]; exact h
  | succ n ih =>
    obtain ⟨fuel, rfl⟩ : ∃ f, fuel = f + 1 := ⟨fuel - 1, by omega⟩
    have hstart := hlt (by omega)
    have hgo : i < hi := by omega
    have hmul : (n + 1) * step = step + n * step := by ring
    rw [forStepGo, if_pos hgo, hmul, ← Nat.add_assoc]
    apply ih (by omega) (by omega) _ (hbody i s hgo h)
    intro hn
    have hpred : (n + 1 - 1) * step = step + (n - 1) * step := by
      obtain ⟨k, rfl⟩ : ∃ k, n = k + 1 := ⟨n - 1, by omega⟩
      show (k + 1) * step = step + k * step
      ring
    omega

/-- The invariant rule of a loop of `n` rounds. -/
theorem forStep_inv {P : Nat → σ → Prop} {lo hi step n : Nat} {body : Nat → σ → σ}
    (hstep : 0 < step) (hle : hi ≤ lo + n * step) (hlt : n ≠ 0 → lo + (n - 1) * step < hi)
    (hbody : ∀ i s, i < hi → P i s → P (i + step) (body i s)) {s : σ} (h : P lo s) :
    P (lo + n * step) (forStep lo hi step body s) := by
  apply forStepGo_inv hbody _ hle hlt h
  by_cases hn : n = 0
  · omega
  · have := hlt hn
    have : n - 1 ≤ (n - 1) * step := Nat.le_mul_of_pos_right _ hstep
    omega

end CLoop
