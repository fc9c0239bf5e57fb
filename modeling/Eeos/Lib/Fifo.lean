import Mathlib.Logic.Function.Iterate
import Mathlib.Tactic.Common

/-!
# A queue of bounded depth

Items are pushed at one end and popped at the other, in any order of steps; a push that finds the
queue full is lost.

* `run` — what is queued and what has come out after a list of steps.
* `contents` — all that has come out, then what is still queued.
* `NeverFull` — no push of the run finds the queue full.

Principal result: `contents_run_iff` (a run passes on exactly what is pushed if and only if it never
pushes into a full queue).
-/

namespace Fifo

variable {α : Type}

inductive Op (α : Type) where
  | push (a : α)
  | pop
  deriving DecidableEq, Repr

structure State (α : Type) where
  queued : List α
  popped : List α
  deriving DecidableEq, Repr

def push (depth : Nat) (a : α) (s : State α) : State α :=
  if s.queued.length < depth then { s with queued := s.queued ++ [a] } else s

def pop (s : State α) : State α :=
  match s.queued with
  | [] => s
  | a :: queued => ⟨queued, s.popped ++ [a]⟩

def step (depth : Nat) (s : State α) : Op α → State α
  | .push a => push depth a s
  | .pop => pop s

def run (depth : Nat) (ops : List (Op α)) (s : State α) : State α := ops.foldl (step depth) s

def State.contents (s : State α) : List α := s.popped ++ s.queued

/-- What is pushed, lost or not. -/
def pushed (ops : List (Op α)) : List α :=
  ops.filterMap fun
    | .push a => some a
    | .pop => none

def NeverFull (depth : Nat) : List (Op α) → State α → Prop
  | [], _ => True
  | .push a :: ops, s => s.queued.length < depth ∧ NeverFull depth ops (push depth a s)
  | .pop :: ops, s => NeverFull depth ops (pop s)

theorem contents_pop (s : State α) : (pop s).contents = s.contents := by
  unfold pop
  cases h : s.queued with
  | nil => rfl
  | cons a queued =>
    simp only [State.contents, h]
    exact List.append_assoc _ _ _

theorem contents_push {depth : Nat} {s : State α} (h : s.queued.length < depth) (a : α) :
    (push depth a s).contents = s.contents ++ [a] := by
  rw [push, if_pos h, State.contents, State.contents, List.append_assoc]

theorem push_full {depth : Nat} {s : State α} (h : ¬ s.queued.length < depth) (a : α) :
    push depth a s = s := if_neg h

theorem run_cons (depth : Nat) (op : Op α) (ops : List (Op α)) (s : State α) :
    run depth (op :: ops) s = run depth ops (step depth s op) := rfl

/-- What is queued comes out in the end. -/
theorem popped_iterate_pop (s : State α) : (pop^[s.queued.length] s).popped = s.contents := by
  obtain ⟨queued, popped⟩ := s
  induction queued generalizing popped with
  | nil => exact (List.append_nil _).symm
  | cons a queued ih =>
    have h := ih (popped ++ [a])
    rw [State.contents, List.append_assoc] at h
    exact h

/-- Nothing comes from nowhere. -/
theorem length_contents_run (depth : Nat) (ops : List (Op α)) (s : State α) :
    (run depth ops s).contents.length ≤ s.contents.length + (pushed ops).length := by
  induction ops generalizing s with
  | nil => exact Nat.le_refl _
  | cons op ops ih =>
    rw [run_cons]
    cases op with
    | pop =>
      have h := ih (pop s)
      rw [contents_pop] at h
      exact h
    | push a =>
      have h := ih (push depth a s)
      have hpushed : (pushed (.push a :: ops)).length = (pushed ops).length + 1 := rfl
      rw [step, hpushed]
      by_cases hfull : s.queued.length < depth
      · rw [contents_push hfull, List.length_append, List.length_singleton] at h
        omega
      · rw [push_full hfull] at h ⊢
        omega

/-- **Nothing is lost** exactly if no push finds the queue full. -/
theorem contents_run_iff (depth : Nat) (ops : List (Op α)) (s : State α) :
    (run depth ops s).contents = s.contents ++ pushed ops ↔ NeverFull depth ops s := by
  induction ops generalizing s with
  | nil => exact iff_of_true (List.append_nil _).symm trivial
  | cons op ops ih =>
    rw [run_cons]
    cases op with
    | pop =>
      have h := ih (pop s)
      rw [contents_pop] at h
      exact h
    | push a =>
      have hpushed : pushed (.push a :: ops) = a :: pushed ops := rfl
      rw [hpushed, NeverFull]
      by_cases hfull : s.queued.length < depth
      · have h := ih (push depth a s)
        rw [contents_push hfull, List.append_assoc] at h
        exact h.trans (iff_and_self.mpr fun _ => hfull)
      · -- the item is lost, and the run has too little to pass on
        refine iff_of_false (fun he => ?_) (fun hn => hfull hn.1)
        have hlen := congrArg List.length he
        have hle := length_contents_run depth ops s
        rw [step, push_full hfull, List.length_append, List.length_cons] at hlen
        omega

end Fifo
