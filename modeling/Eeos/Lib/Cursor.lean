import Mathlib.Data.List.Basic
import Mathlib.Logic.Function.Iterate

/-!
# Loops over links that their body may change

`safeLoop link atHead body fuel pos n s` is the C loop
`for (; !atHead(pos); pos = n, n = link(n)) body` over a structure whose links the body may change:
the next cursor `n` is fetched before the body runs on `pos`, so the body may take `pos` out.

* `Prefetched link atHead body head Ahead` — `Ahead xs s` is an invariant of the state `s` in which
  the cursors `xs` are still to come; the body may change any link but theirs.
* `safeLoop_map` — the same loop over other cursors, such as pointers to an enclosing object.
* `plainLoop link atHead body fuel pos s` — the loop that reads the link of `pos` after the body.
* `Tracked` — a state of the loop shows an abstract one, with the cursors to come, and the body on
the first of them is an abstract `turn`.

Principal results: `Prefetched.safeLoop_eq` (the loop runs the body once for each cursor to come, in
order, and stops) and `Tracked.plainLoop_eq` (the plain loop takes as many turns as it takes until
no cursor is to come).
-/

namespace Cursor

variable {β γ S : Type*}

/-- `for (; !atHead(pos); pos = n, n = link(n)) body`. -/
def safeLoop (link : S → β → β) (atHead : β → Bool) (body : β → S → S) :
    Nat → β → β → S → Option S
  | 0, _, _, _ => none
  | fuel + 1, pos, n, s =>
    if atHead pos then some s
    else
      let s := body pos s
      safeLoop link atHead body fuel n (link s n) s

/-- What the loop relies on: from a cursor to come, the link leads to the one behind it. -/
structure Prefetched (link : S → β → β) (atHead : β → Bool) (body : β → S → S) (head : β)
    (Ahead : List β → S → Prop) : Prop where
  stop : atHead head = true
  go : ∀ {y ys s}, Ahead (y :: ys) s → atHead y = false
  next : ∀ {y ys s}, Ahead (y :: ys) s → link s y = ys.headD head
  step : ∀ {y ys s}, Ahead (y :: ys) s → Ahead ys (body y s)

section Rule

variable {link : S → β → β} {atHead : β → Bool} {body : β → S → S} {head : β}
  {Ahead : List β → S → Prop} (h : Prefetched link atHead body head Ahead)

include h

/-- **The loop is the body on each cursor to come, in order.** -/
theorem Prefetched.safeLoop_eq {xs : List β} {s : S} (hs : Ahead xs s) {fuel : Nat}
    (hfuel : xs.length < fuel) :
    safeLoop link atHead body fuel (xs.headD head) (link s (xs.headD head)) s =
      some (xs.foldl (fun s x => body x s) s) := by
  induction xs generalizing fuel s with
  | nil =>
      obtain ⟨fuel, rfl⟩ : ∃ k, fuel = k + 1 := ⟨fuel - 1, by omega⟩
      exact if_pos h.stop
  | cons x xs ih =>
      rw [List.length_cons] at hfuel
      obtain ⟨fuel, rfl⟩ : ∃ k, fuel = k + 1 := ⟨fuel - 1, by omega⟩
      -- the cursor fetched before the body runs is the first of those that stay
      have hnext := h.next hs
      rw [List.headD_cons, hnext, safeLoop, h.go hs, List.foldl_cons]
      exact ih (h.step hs) (by omega)

theorem Prefetched.ahead_foldl {xs : List β} {s : S} (hs : Ahead xs s) :
    Ahead [] (xs.foldl (fun s x => body x s) s) := by
  induction xs generalizing s with
  | nil => exact hs
  | cons x xs ih => exact ih (h.step hs)

end Rule

/-- The loop over the images of its cursors. -/
theorem safeLoop_map (f : β → γ) {link : S → β → β} {link' : S → γ → γ} {atHead : β → Bool}
    {atHead' : γ → Bool} {body : β → S → S} {body' : γ → S → S}
    (hlink : ∀ s e, f (link s e) = link' s (f e)) (hhead : ∀ e, atHead e = atHead' (f e))
    (hbody : ∀ e s, body e s = body' (f e) s) (fuel : Nat) (pos n : β) (s : S) :
    safeLoop link atHead body fuel pos n s = safeLoop link' atHead' body' fuel (f pos) (f n) s := by
  induction fuel generalizing pos n s with
  | zero => rfl
  | succ fuel ih => simp only [safeLoop, hhead, hbody, ih, hlink]

/-! ## Loops that read the link after the body -/

/-- `for (; !atHead(pos); pos = link(pos)) body`. -/
def plainLoop (link : S → β → β) (atHead : β → Bool) (body : β → S → S) : Nat → β → S → Option S
  | 0, _, _ => none
  | fuel + 1, pos, s =>
    if atHead pos then some s
    else
      let s := body pos s
      plainLoop link atHead body fuel (link s pos) s

/-- The abstract states `τ`, which have cursors to come and take turns.  `Ok` is what the turn that
comes next relies on. -/
structure Tracked {τ : Type*} (link : S → β → β) (atHead : β → Bool) (body : β → S → S) (head : β)
    (Shows : τ → S → Prop) (coming : τ → List β) (turn : τ → τ) (Ok : τ → Prop) : Prop where
  stop : atHead head = true
  go : ∀ {t s y ys}, Shows t s → coming t = y :: ys → atHead y = false
  step : ∀ {t s y ys}, Shows t s → Ok t → coming t = y :: ys →
    Shows (turn t) (body y s) ∧ link (body y s) y = (coming (turn t)).headD head
  rest : ∀ {t}, coming t = [] → turn t = t

section Plain

variable {τ : Type*} {link : S → β → β} {atHead : β → Bool} {body : β → S → S} {head : β}
  {Shows : τ → S → Prop} {coming : τ → List β} {turn : τ → τ} {Ok : τ → Prop}
  (h : Tracked link atHead body head Shows coming turn Ok)

include h

/-- Where no cursor is to come, none ever is. -/
theorem Tracked.rest_iterate {t : τ} (ht : coming t = []) (n : Nat) : turn^[n] t = t := by
  induction n with
  | zero => rfl
  | succ n ih => rw [Function.iterate_succ_apply, h.rest ht, ih]

/-- The loop is as far as the abstract state. -/
theorem Tracked.plainLoop_add (n : Nat) {t : τ} {s : S} (hs : Shows t s)
    (hok : ∀ i < n, Ok (turn^[i] t)) :
    ∃ s', Shows (turn^[n] t) s' ∧ ∀ fuel > 0,
      plainLoop link atHead body (n + fuel) ((coming t).headD head) s =
        plainLoop link atHead body fuel ((coming (turn^[n] t)).headD head) s' := by
  induction n generalizing t s with
  | zero =>
      refine ⟨s, hs, fun fuel _ => ?_⟩
      rw [Nat.zero_add]
      rfl
  | succ n ih =>
      cases ht : coming t with
      | nil =>
          rw [h.rest_iterate ht, ht, List.headD_nil]
          refine ⟨s, hs, fun fuel hfuel => ?_⟩
          obtain ⟨fuel, rfl⟩ : ∃ k, fuel = k + 1 := ⟨fuel - 1, by omega⟩
          rw [← Nat.add_assoc, plainLoop, plainLoop, if_pos h.stop, if_pos h.stop]
      | cons y ys =>
          obtain ⟨hs₁, hlink⟩ := h.step hs (hok 0 (Nat.succ_pos n)) ht
          obtain ⟨s', hs', hrun⟩ := ih hs₁ fun i hi => hok (i + 1) (Nat.succ_lt_succ hi)
          rw [Function.iterate_succ_apply, List.headD_cons]
          refine ⟨s', hs', fun fuel hfuel => ?_⟩
          rw [← hrun fuel hfuel, ← hlink, Nat.add_right_comm, plainLoop, h.go hs ht]
          rfl

/-- **The plain loop ends when no cursor is to come**, and not before. -/
theorem Tracked.plainLoop_eq (n : Nat) {t : τ} {s : S} (hs : Shows t s)
    (hok : ∀ i < n, Ok (turn^[i] t)) :
    (coming (turn^[n] t) = [] → ∃ s', Shows (turn^[n] t) s' ∧
      plainLoop link atHead body (n + 1) ((coming t).headD head) s = some s') ∧
    (coming (turn^[n] t) ≠ [] →
      plainLoop link atHead body (n + 1) ((coming t).headD head) s = none) := by
  obtain ⟨s', hs', hrun⟩ := h.plainLoop_add n hs hok
  rw [hrun 1 Nat.one_pos]
  constructor
  · intro ht
    rw [ht]
    exact ⟨s', hs', if_pos h.stop⟩
  · intro ht
    obtain ⟨y, ys, hy⟩ := List.exists_cons_of_ne_nil ht
    rw [hy, List.headD_cons, plainLoop, h.go hs' hy]
    rfl

end Plain

/-- A loop whose cursor comes back to itself never ends. -/
theorem plainLoop_stuck {link : S → β → β} {atHead : β → Bool} {body : β → S → S} {y : β}
    {Stuck : S → Prop} (hhead : atHead y = false)
    (hstep : ∀ s, Stuck s → Stuck (body y s) ∧ link (body y s) y = y) (fuel : Nat) {s : S}
    (hs : Stuck s) : plainLoop link atHead body fuel y s = none := by
  induction fuel generalizing s with
  | zero => rfl
  | succ fuel ih =>
      obtain ⟨hs', hlink⟩ := hstep s hs
      have hrest : plainLoop link atHead body fuel (link (body y s) y) (body y s) = none := by
        rw [hlink]
        exact ih hs'
      rw [plainLoop, hhead]
      exact hrest

/-- The loop over the images of its cursors. -/
theorem plainLoop_map (f : β → γ) {link : S → β → β} {link' : S → γ → γ} {atHead : β → Bool}
    {atHead' : γ → Bool} {body : β → S → S} {body' : γ → S → S}
    (hlink : ∀ s e, f (link s e) = link' s (f e)) (hhead : ∀ e, atHead e = atHead' (f e))
    (hbody : ∀ e s, body e s = body' (f e) s) (fuel : Nat) (pos : β) (s : S) :
    plainLoop link atHead body fuel pos s = plainLoop link' atHead' body' fuel (f pos) s := by
  induction fuel generalizing pos s with
  | zero => rfl
  | succ fuel ih => simp only [plainLoop, hhead, hbody, ih, hlink]

end Cursor
