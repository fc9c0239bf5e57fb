import Mathlib.Data.List.Count
import Mathlib.Tactic.Common

/-!
# Bracketed traces

A trace of events of which some open and some close a bracket.  What is open at a point is a stack
of labels; a closing event must name the label on top.

* `Accepts paren ok st w st'` — the trace `w` takes the stack `st` to `st'`, and every event is
  `ok` with the stack it leaves.
* `Accepts.append` and its converse `Accepts.split` — traces one after the other.
* `Accepts.above` — a trace over a deeper stack.

Principal results: `Accepts.at` (every point of a trace), `Accepts.matching` (every bracket that a
balanced trace opens is closed by the same label, what is between being balanced itself) and
`Accepts.count` (it opens and closes each label equally often).
-/

namespace Bracket

variable {E L : Type}

inductive Paren (L : Type) where
  | opens (l : L)
  | closes (l : L)
  deriving DecidableEq, Repr

/-- The stack after one event. -/
inductive Step (paren : E → Option (Paren L)) : List L → E → List L → Prop where
  | opens {e : E} {l : L} {st : List L} : paren e = some (.opens l) → Step paren st e (l :: st)
  | closes {e : E} {l : L} {st : List L} : paren e = some (.closes l) → Step paren (l :: st) e st
  | other {e : E} {st : List L} : paren e = none → Step paren st e st

inductive Accepts (paren : E → Option (Paren L)) (ok : E → List L → Prop) :
    List L → List E → List L → Prop where
  | nil {st : List L} : Accepts paren ok st [] st
  | cons {e : E} {w : List E} {st st₁ st₂ : List L} : Step paren st e st₁ → ok e st₁ →
      Accepts paren ok st₁ w st₂ → Accepts paren ok st (e :: w) st₂

variable {paren : E → Option (Paren L)} {ok : E → List L → Prop}

theorem Step.inv {e : E} {st st' : List L} (h : Step paren st e st') :
    (∃ l, paren e = some (.opens l) ∧ st' = l :: st) ∨
      (∃ l, paren e = some (.closes l) ∧ st = l :: st') ∨ (paren e = none ∧ st' = st) := by
  cases h with
  | opens he => exact Or.inl ⟨_, he, rfl⟩
  | closes he => exact Or.inr (Or.inl ⟨_, he, rfl⟩)
  | other he => exact Or.inr (Or.inr ⟨he, rfl⟩)

theorem Accepts.single {e : E} {st st' : List L} (h : Step paren st e st') (hok : ok e st') :
    Accepts paren ok st [e] st' := .cons h hok .nil

theorem Accepts.append {v w : List E} {st st₁ st₂ : List L} (hv : Accepts paren ok st v st₁)
    (hw : Accepts paren ok st₁ w st₂) : Accepts paren ok st (v ++ w) st₂ := by
  induction hv with
  | nil => exact hw
  | cons hstep hok _ ih => exact .cons hstep hok (ih hw)

theorem Accepts.split {v w : List E} {st st₂ : List L}
    (h : Accepts paren ok st (v ++ w) st₂) :
    ∃ st₁, Accepts paren ok st v st₁ ∧ Accepts paren ok st₁ w st₂ := by
  induction v generalizing st with
  | nil => exact ⟨st, .nil, h⟩
  | cons e v ih =>
    cases h with
    | cons hstep hok hrest =>
      obtain ⟨st₁, hv, hw⟩ := ih hrest
      exact ⟨st₁, .cons hstep hok hv, hw⟩

/-- **Every point of a trace** has its stack, and the event there is as it should be. -/
theorem Accepts.at {v w : List E} {e : E} {st st' : List L}
    (h : Accepts paren ok st (v ++ e :: w) st') :
    ∃ st₁ st₂, Accepts paren ok st v st₁ ∧ Step paren st₁ e st₂ ∧ ok e st₂ ∧
      Accepts paren ok st₂ w st' := by
  obtain ⟨st₁, hv, hrest⟩ := h.split
  cases hrest with
  | cons hstep hok hw => exact ⟨st₁, _, hv, hstep, hok, hw⟩

theorem Accepts.mono {ok' : E → List L → Prop} (hok : ∀ e st, ok e st → ok' e st) {w : List E}
    {st st' : List L} (h : Accepts paren ok st w st') : Accepts paren ok' st w st' := by
  induction h with
  | nil => exact .nil
  | cons hstep he _ ih => exact .cons hstep (hok _ _ he) ih

theorem Step.above {e : E} {st st' : List L} (h : Step paren st e st') (below : List L) :
    Step paren (st ++ below) e (st' ++ below) := by
  cases h with
  | opens he => exact .opens he
  | closes he => exact .closes he
  | other he => exact .other he

/-- A trace does not look below the brackets it closes. -/
theorem Accepts.above {ok' : E → List L → Prop} {below : List L}
    (hok : ∀ e st, ok e st → ok' e (st ++ below)) {w : List E} {st st' : List L}
    (h : Accepts paren ok st w st') : Accepts paren ok' (st ++ below) w (st' ++ below) := by
  induction h with
  | nil => exact .nil
  | cons hstep he _ ih => exact .cons (hstep.above below) (hok _ _ he) ih

/-- A trace that ends below an open bracket closes it, and goes on above it before that. -/
theorem Accepts.closing {w : List E} {x st st' : List L} {l : L}
    (h : Accepts paren ok (x ++ l :: st) w st') (hlen : st'.length ≤ st.length) :
    ∃ mid e post, w = mid ++ e :: post ∧
      Accepts paren (fun e above => ok e (above ++ l :: st)) x mid [] ∧
      paren e = some (.closes l) ∧ ok e st := by
  induction w generalizing x with
  | nil =>
    cases h
    simp only [List.length_append, List.length_cons] at hlen
    omega
  | cons e w ih =>
    cases h with
    | cons hstep hok hrest =>
      rcases hstep.inv with ⟨l', he, rfl⟩ | ⟨l', he, hst⟩ | ⟨he, rfl⟩
      · obtain ⟨mid, e', post, rfl, hmid, hclose⟩ := ih (x := l' :: x) hrest
        exact ⟨e :: mid, e', post, rfl, .cons (.opens he) hok hmid, hclose⟩
      · cases x with
        | nil =>
          obtain ⟨rfl, rfl⟩ := List.cons.inj hst
          exact ⟨[], e, w, rfl, .nil, he, hok⟩
        | cons l'' x =>
          obtain ⟨rfl, rfl⟩ := List.cons.inj hst
          obtain ⟨mid, e', post, rfl, hmid, hclose⟩ := ih hrest
          exact ⟨e :: mid, e', post, rfl, .cons (.closes he) hok hmid, hclose⟩
      · obtain ⟨mid, e', post, rfl, hmid, hclose⟩ := ih hrest
        exact ⟨e :: mid, e', post, rfl, .cons (.other he) hok hmid, hclose⟩

/-- **Brackets match**: a trace that ends at the empty stack closes every bracket that it opens,
and what is between is bracketed by itself. -/
theorem Accepts.matching {v w : List E} {e : E} {st : List L} {l : L}
    (h : Accepts paren ok st (v ++ e :: w) []) (he : paren e = some (.opens l)) :
    ∃ mid e' post st₁, w = mid ++ e' :: post ∧ paren e' = some (.closes l) ∧
      Accepts paren (fun _ _ => True) [] mid [] ∧ ok e (l :: st₁) ∧ ok e' st₁ := by
  obtain ⟨st₁, st₂, -, hstep, hok, hw⟩ := h.at
  rcases hstep.inv with ⟨l', he', rfl⟩ | ⟨l', he', -⟩ | ⟨he', -⟩
  · cases he.symm.trans he'
    obtain ⟨mid, e', post, rfl, hmid, hclose, hok'⟩ :=
      Accepts.closing (x := []) hw (Nat.zero_le _)
    exact ⟨mid, e', post, st₁, rfl, hclose, hmid.mono fun _ _ _ => trivial, hok, hok'⟩
  · exact absurd (he.symm.trans he') (by simp)
  · exact absurd (he.symm.trans he') (by simp)

section Count

variable [DecidableEq L]

/-- How often the trace opens the bracket `l`, and closes it. -/
def opened (paren : E → Option (Paren L)) (l : L) (w : List E) : Nat :=
  w.countP fun e => paren e = some (.opens l)

def closed (paren : E → Option (Paren L)) (l : L) (w : List E) : Nat :=
  w.countP fun e => paren e = some (.closes l)

theorem Accepts.count {w : List E} {st st' : List L} (h : Accepts paren ok st w st') (l : L) :
    st.count l + opened paren l w = st'.count l + closed paren l w := by
  unfold opened closed
  induction h with
  | nil => rfl
  | @cons e w st st₁ st₂ hstep _ _ ih =>
    rw [List.countP_cons, List.countP_cons]
    rcases hstep.inv with ⟨l', he, rfl⟩ | ⟨l', he, rfl⟩ | ⟨he, rfl⟩
    · rw [List.count_cons] at ih
      simp only [he, Option.some.injEq, Paren.opens.injEq, reduceCtorEq, decide_eq_true_eq,
        if_false]
      by_cases hl : l' = l
      · simp only [hl, beq_self_eq_true, if_true] at ih ⊢
        omega
      · simp only [hl, beq_iff_eq, if_false] at ih ⊢
        omega
    · rw [List.count_cons]
      simp only [he, Option.some.injEq, Paren.closes.injEq, reduceCtorEq, decide_eq_true_eq,
        if_false]
      by_cases hl : l' = l
      · simp only [hl, beq_self_eq_true, if_true]
        omega
      · simp only [hl, beq_iff_eq, if_false]
        omega
    · simp only [he, reduceCtorEq, decide_eq_true_eq, if_false]
      omega

end Count

end Bracket
