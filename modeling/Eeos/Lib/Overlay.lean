import Mathlib.Tactic.Common

/-!
# Partial functions laid over one another

A layer says something about some indices.  Laid over a partial function it hides what that says
there, and of several layers the last one that says something counts.

* `lay`, `overAll` — one layer, and several.
* `last_or_off` — an index has a last layer, or none.
* `run_shows` — steps that lay layers over what a state shows.

Principal results: `overAll_last` (the last layer that has a place decides it) and `run_shows` (a
run whose steps each lay something on top shows all of them laid over one another).
-/

namespace Overlay

variable {ι β : Type*}

/-- Where a layer says something, and what. -/
structure Layer (ι β : Type*) where
  has : ι → Bool
  value : ι → β

def lay (f : ι → Option β) (l : Layer ι β) : ι → Option β := fun i =>
  if l.has i then some (l.value i) else f i

def overAll (f : ι → Option β) (ls : List (Layer ι β)) : ι → Option β := ls.foldl lay f

section Layers

variable {f : ι → Option β} {l : Layer ι β} {ls pre post : List (Layer ι β)} {i : ι}

theorem lay_has (h : l.has i = true) : lay f l i = some (l.value i) := if_pos h

theorem lay_off (h : l.has i = false) : lay f l i = f i := by
  rw [lay, h]
  rfl

theorem overAll_append : overAll f (pre ++ post) = overAll (overAll f pre) post :=
  List.foldl_append

theorem overAll_off (h : ∀ l ∈ ls, l.has i = false) : overAll f ls i = f i := by
  induction ls generalizing f with
  | nil => rfl
  | cons l ls ih =>
    rw [List.forall_mem_cons] at h
    rw [overAll, List.foldl_cons, ← overAll, ih h.2, lay_off h.1]

/-- **The last layer counts.** -/
theorem overAll_last (h : l.has i = true) (hpost : ∀ l' ∈ post, l'.has i = false) :
    overAll f (pre ++ l :: post) i = some (l.value i) := by
  rw [overAll_append, overAll, List.foldl_cons, ← overAll, overAll_off hpost, lay_has h]

variable (ls i) in
theorem last_or_off : (∀ l ∈ ls, l.has i = false) ∨
    ∃ pre l post, ls = pre ++ l :: post ∧ l.has i = true ∧ ∀ l' ∈ post, l'.has i = false := by
  induction ls with
  | nil => exact Or.inl fun l hl => absurd hl List.not_mem_nil
  | cons l ls ih =>
    obtain hoff | ⟨pre, l', post, rfl, hl', hpost⟩ := ih
    · cases hl : l.has i with
      | false => exact Or.inl (List.forall_mem_cons.2 ⟨hl, hoff⟩)
      | true => exact Or.inr ⟨[], l, ls, rfl, hl, hoff⟩
    · exact Or.inr ⟨l :: pre, l', post, rfl, hl', hpost⟩

/-- Where a layer says something, what is below the layers does not matter. -/
theorem overAll_hidden (h : ∃ l ∈ ls, l.has i = true) (g : ι → Option β) :
    overAll f ls i = overAll g ls i := by
  obtain hoff | ⟨pre, l, post, rfl, hl, hpost⟩ := last_or_off ls i
  · obtain ⟨l, hl, hhas⟩ := h
    exact absurd ((hoff l hl).symm.trans hhas) (by decide)
  · rw [overAll_last hl hpost, overAll_last hl hpost]

end Layers

/-- **A run shows the layers of its steps.** -/
theorem run_shows {σ ε : Type*} {step : σ → ε → Option σ} {next : σ → ε → σ}
    {layers : ε → List (Layer ι β)} {Shows : σ → (ι → Option β) → Prop} {Ok : ε → Prop}
    (hstep : ∀ s f e, Ok e → Shows s f →
      step s e = some (next s e) ∧ Shows (next s e) (overAll f (layers e)))
    {es : List ε} (hes : ∀ e ∈ es, Ok e) {s : σ} {f : ι → Option β} (hs : Shows s f) :
    es.foldlM step s = some (es.foldl next s) ∧
      Shows (es.foldl next s) (overAll f (es.flatMap layers)) := by
  induction es generalizing s f with
  | nil => exact ⟨rfl, hs⟩
  | cons e es ih =>
    rw [List.forall_mem_cons] at hes
    obtain ⟨hs₁, hshows⟩ := hstep s f e hes.1 hs
    obtain ⟨hs', hshows'⟩ := ih hes.2 hshows
    constructor
    · rw [List.foldlM_cons, hs₁]
      exact hs'
    · rw [List.flatMap_cons, overAll_append]
      exact hshows'

end Overlay
