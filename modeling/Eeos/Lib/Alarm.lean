import Mathlib.Tactic.Common
import Mathlib.Algebra.Order.BigOperators.Group.List
import Mathlib.Algebra.Order.Ring.Nat
import Mathlib.Algebra.Group.Action.Defs

/-!
# An alarm that is set again each time it is served

An alarm rings `p` ticks after it was set, and whoever serves it sets it for another `p` ticks.  The
times at which it is served are a list of natural numbers.

* `Paced p t ts` — set at `t`, the alarm is served at the times `ts`, never before it rings.
* `lastSet t ts` — when it was last set.
* `lateness p t ts` — how long it rang each time.

Principal results: `Paced.getElem_eq` (each lateness moves all later times), `Paced.length_le` and
`Paced.le_length` (how often it is served).
-/

namespace Alarm

variable {p t u : Nat} {ts us : List Nat}

inductive Paced (p : Nat) : Nat → List Nat → Prop where
  | nil (t : Nat) : Paced p t []
  | cons {t u : Nat} {us : List Nat} (hring : t + p ≤ u) (h : Paced p u us) : Paced p t (u :: us)

def lastSet : Nat → List Nat → Nat
  | t, [] => t
  | _, u :: us => lastSet u us

def lateness (p : Nat) : Nat → List Nat → List Nat
  | _, [] => []
  | t, u :: us => (u - (t + p)) :: lateness p u us

theorem lastSet_append (t : Nat) (ts us : List Nat) :
    lastSet t (ts ++ us) = lastSet (lastSet t ts) us := by
  induction ts generalizing t with
  | nil => rfl
  | cons u ts ih => exact ih u

theorem Paced.append (h : Paced p t ts) (h' : Paced p (lastSet t ts) us) :
    Paced p t (ts ++ us) := by
  induction h with
  | nil t => exact h'
  | cons hring h ih => exact .cons hring (ih h')

theorem length_lateness (p t : Nat) (ts : List Nat) : (lateness p t ts).length = ts.length := by
  induction ts generalizing t with
  | nil => rfl
  | cons u us ih => exact congrArg Nat.succ (ih u)

/-- **Lateness adds up**: the time of one serving is the schedule's, and all the lateness so far. -/
theorem Paced.getElem_eq (h : Paced p t ts) (k : Nat) (hk : k < ts.length) :
    ts[k] = t + (k + 1) * p + ((lateness p t ts).take (k + 1)).sum := by
  induction h generalizing k with
  | nil t => exact absurd hk (Nat.not_lt_zero k)
  | @cons t u us hring h ih =>
    rw [lateness, List.take_succ_cons, List.sum_cons]
    cases k with
    | zero =>
      rw [List.getElem_cons_zero, List.take_zero, List.sum_nil]
      omega
    | succ k =>
      have hk' : k < us.length := Nat.lt_of_succ_lt_succ hk
      rw [List.getElem_cons_succ, ih k hk', Nat.succ_mul (k + 1) p]
      omega

theorem Paced.lastSet_eq (h : Paced p t ts) :
    lastSet t ts = t + ts.length * p + (lateness p t ts).sum := by
  induction h with
  | nil t =>
    rw [List.length_nil, Nat.zero_mul]
    rfl
  | @cons t u us hring h ih =>
    rw [lastSet, ih, lateness, List.sum_cons, List.length_cons, Nat.succ_mul]
    omega

/-- The alarm is not served too often, -/
theorem Paced.length_le (h : Paced p t ts) : ts.length * p ≤ lastSet t ts - t := by
  rw [h.lastSet_eq]
  omega

/-- and not too seldom, where it never rings for longer than `L`. -/
theorem Paced.le_length {L now : Nat} (h : Paced p t ts) (hlate : ∀ l ∈ lateness p t ts, l ≤ L)
    (hnow : now ≤ lastSet t ts + p + L) : now - t ≤ (ts.length + 1) * (p + L) := by
  have hsum := List.sum_le_card_nsmul _ L hlate
  rw [length_lateness, smul_eq_mul] at hsum
  rw [h.lastSet_eq] at hnow
  have hmul : (ts.length + 1) * (p + L) = ts.length * p + ts.length * L + (p + L) := by
    rw [Nat.succ_mul, Nat.mul_add]
  omega

end Alarm
