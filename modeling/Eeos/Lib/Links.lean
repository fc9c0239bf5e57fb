import Mathlib.Data.List.Chain
import Mathlib.Data.List.Nodup
import Mathlib.Logic.Function.Basic

/-!
# Circular doubly linked lists

Over any type of nodes, given by the functions `next` and `prev` of the two links of a node.  A
circle is `head :: xs` with consecutive nodes linked both ways and the last one linked to `head`;
an edit touches the links at one seam only.

* `Follows f p xs q` — from `p`, the link `f` visits `xs` and then `q`.
* `Linked next prev l` — consecutive nodes of `l` are linked both ways.
* `Circle next prev head xs` — the circle of `head` with the members `xs`.
* `Family next prev L` — circles that share no node, each found under its head.

Principal results: `circle_iff_follows` (both directions visit the members), the edits
`Circle.link`, `Circle.unlink`, `Circle.replace` and `Circle.takeOver`, and `Family.update` (an edit
of one circle of a family).
-/

namespace Links

variable {α : Type*} {next prev next' prev' : α → α} {head x y z : α} {xs ys l : List α}

/-- From `p`, the link `f` visits `xs` and then `q`. -/
def Follows (f : α → α) (p : α) : List α → α → Prop
  | [], q => f p = q
  | x :: xs, q => f p = x ∧ Follows f x xs q

/-- `x` and `y` are linked both ways. -/
structure Joins (next prev : α → α) (x y : α) : Prop where
  forth : next x = y
  back : prev y = x

/-- Consecutive nodes are linked both ways. -/
def Linked (next prev : α → α) (l : List α) : Prop := l.IsChain (Joins next prev)

/-- The circle of `head` with the members `xs`. -/
structure Circle (next prev : α → α) (head : α) (xs : List α) : Prop where
  nodup : (head :: xs).Nodup
  linked : Linked next prev (head :: xs ++ [head])

theorem follows_iff_chain {f : α → α} {p q : α} :
    Follows f p xs q ↔ (p :: xs ++ [q]).IsChain fun x y => f x = y := by
  induction xs generalizing p with
  | nil =>
      rw [Follows, List.singleton_append, List.isChain_pair]
  | cons x xs ih =>
      unfold Follows
      rw [List.cons_append, List.cons_append, List.isChain_cons_cons, ← List.cons_append, ih]

/-- Links both ways are links in each direction. -/
theorem linked_iff : Linked next prev l ↔
    (l.IsChain fun x y => next x = y) ∧ l.reverse.IsChain fun x y => prev x = y := by
  rw [List.isChain_reverse]
  constructor
  · intro h
    exact ⟨h.imp fun _ _ h => h.forth, h.imp fun _ _ h => h.back⟩
  · rintro ⟨hnext, hprev⟩
    apply List.isChain_iff_forall_rel_of_append_cons_cons.mpr
    intro a b l₁ l₂ hl
    exact ⟨List.isChain_iff_forall_rel_of_append_cons_cons.mp hnext hl,
      List.isChain_iff_forall_rel_of_append_cons_cons.mp hprev hl⟩

/-- **A circle is what both directions visit.** -/
theorem circle_iff_follows : Circle next prev head xs ↔ (head :: xs).Nodup ∧
    Follows next head xs head ∧ Follows prev head xs.reverse head := by
  have hreverse : (head :: xs ++ [head]).reverse = head :: xs.reverse ++ [head] := by
    rw [List.reverse_append, List.reverse_singleton, List.reverse_cons, List.singleton_append,
      List.cons_append]
  rw [follows_iff_chain, follows_iff_chain, ← hreverse, ← linked_iff]
  exact ⟨fun h => ⟨h.nodup, h.linked⟩, fun h => ⟨h.1, h.2⟩⟩

/-! ## Links and seams -/

/-- Links are read at `next` of every node but the last, and `prev` of every node but the first. -/
theorem Linked.congr (h : Linked next prev l) (hnext : ∀ x ∈ l.dropLast, next' x = next x)
    (hprev : ∀ y ∈ l.tail, prev' y = prev y) : Linked next' prev' l := by
  induction l with
  | nil => exact List.isChain_nil
  | cons x l ih =>
      cases l with
      | nil => exact List.isChain_singleton x
      | cons y l =>
          obtain ⟨⟨hxy, hyx⟩, hl⟩ := List.isChain_cons_cons.mp h
          rw [List.dropLast_cons_cons] at hnext
          refine List.isChain_cons_cons.mpr ⟨⟨?_, ?_⟩, ih hl ?_ ?_⟩
          · rw [hnext x List.mem_cons_self, hxy]
          · rw [hprev y List.mem_cons_self, hyx]
          · exact fun a ha => hnext a (List.mem_cons_of_mem x ha)
          · exact fun b hb => hprev b (List.mem_cons_of_mem y hb)

/-- The node before a seam, and the one behind it. -/
theorem getLast?_cons_eq (head : α) (xs : List α) :
    (head :: xs).getLast? = some (xs.getLastD head) := by
  rw [List.getLast?_cons, List.getLastD_eq_getLast?]

theorem head?_append_singleton (ys : List α) (head : α) :
    (ys ++ [head]).head? = some (ys.headD head) := by
  cases ys with
  | nil => rfl
  | cons y ys => rfl

theorem getLastD_mem (head : α) (xs ys : List α) : xs.getLastD head ∈ head :: (xs ++ ys) := by
  rw [← List.cons_append]
  exact List.mem_append_left ys List.getLastD_mem_cons

theorem headD_mem (head : α) (xs ys : List α) : ys.headD head ∈ head :: (xs ++ ys) := by
  cases ys with
  | nil => exact List.mem_cons_self
  | cons y ys => exact List.mem_cons_of_mem head (List.mem_append_right xs List.mem_cons_self)

/-- A member of a circle and the other nodes. -/
theorem mem_node : y ∈ head :: (xs ++ x :: ys) ↔ y = x ∨ y ∈ head :: (xs ++ ys) := by
  rw [← List.cons_append, List.perm_middle.mem_iff, List.mem_cons, List.cons_append]

theorem nodup_node : (head :: (xs ++ x :: ys)).Nodup ↔
    x ∉ head :: (xs ++ ys) ∧ (head :: (xs ++ ys)).Nodup := by
  rw [← List.cons_append, List.nodup_middle, List.cons_append, List.nodup_cons]

/-- A circle cut between `xs` and `ys`. -/
theorem linked_seam : Linked next prev (head :: (xs ++ ys) ++ [head]) ↔
    Linked next prev (head :: xs) ∧ Linked next prev (ys ++ [head]) ∧
      Joins next prev (xs.getLastD head) (ys.headD head) := by
  have hsplit : head :: (xs ++ ys) ++ [head] = (head :: xs) ++ (ys ++ [head]) := by
    rw [List.cons_append, List.append_assoc, List.cons_append]
  rw [hsplit, Linked, List.isChain_append, getLast?_cons_eq, head?_append_singleton]
  simp only [Option.mem_some_iff, forall_eq', Linked]

/-- A circle cut on both sides of the member `x`. -/
theorem linked_node : Linked next prev (head :: (xs ++ x :: ys) ++ [head]) ↔
    Linked next prev (head :: xs) ∧ Linked next prev (ys ++ [head]) ∧
      Joins next prev (xs.getLastD head) x ∧ Joins next prev x (ys.headD head) := by
  have htail : Linked next prev (x :: ys ++ [head]) ↔
      Linked next prev (ys ++ [head]) ∧ Joins next prev x (ys.headD head) := by
    rw [Linked, List.cons_append, List.isChain_cons, head?_append_singleton]
    simp only [Option.mem_some_iff, forall_eq', Linked]
    exact And.comm
  rw [linked_seam, htail]
  exact ⟨fun ⟨h, ⟨h', hx⟩, hseam⟩ => ⟨h, h', hseam, hx⟩,
    fun ⟨h, h', hseam, hx⟩ => ⟨h, ⟨h', hx⟩, hseam⟩⟩

/-- A circle cut at its head. -/
theorem linked_head : Linked next prev (head :: xs ++ [head]) ↔
    Linked next prev xs ∧ Joins next prev head (xs.headD head) ∧
      Joins next prev (xs.getLastD head) head := by
  cases xs with
  | nil =>
      rw [Linked, List.singleton_append, List.isChain_pair]
      exact ⟨fun h => ⟨List.isChain_nil, h, h⟩, fun h => h.2.1⟩
  | cons x xs =>
      have hlast := getLast?_cons_eq x xs
      rw [Linked, List.cons_append, List.cons_append, List.isChain_cons_cons,
        ← List.cons_append, List.isChain_append, hlast, List.getLastD_cons]
      simp only [Option.mem_some_iff, forall_eq', List.head?_cons, List.isChain_singleton, true_and]
      exact ⟨fun ⟨hhead, h, hend⟩ => ⟨h, hhead, hend⟩, fun ⟨h, hhead, hend⟩ => ⟨hhead, h, hend⟩⟩

/-! ## Edits at a seam -/

theorem ne_getLastD_of_mem_dropLast (h : (head :: xs).Nodup) (hx : x ∈ (head :: xs).dropLast) :
    x ≠ xs.getLastD head := by
  rintro rfl
  have hsplit := List.dropLast_append_getLast? (xs.getLastD head)
    (show xs.getLastD head ∈ (head :: xs).getLast? from getLast?_cons_eq head xs)
  rw [← hsplit, List.nodup_append] at h
  exact h.2.2 _ hx _ (List.mem_singleton_self _) rfl

theorem ne_headD_of_mem_tail (h : (ys ++ [head]).Nodup) (hx : x ∈ (ys ++ [head]).tail) :
    x ≠ ys.headD head := by
  rintro rfl
  cases ys with
  | nil => contradiction
  | cons y ys => exact (List.nodup_cons.mp h).1 hx

/-- What an edit at the seam of `xs` and `ys` leaves of the circle. -/
theorem Linked.pieces (hxs : Linked next prev (head :: xs)) (hys : Linked next prev (ys ++ [head]))
    (hnodup : (head :: (xs ++ ys)).Nodup)
    (hnext : ∀ y ∈ head :: (xs ++ ys), y ≠ xs.getLastD head → next' y = next y)
    (hprev : ∀ y ∈ head :: (xs ++ ys), y ≠ ys.headD head → prev' y = prev y) :
    Linked next' prev' (head :: xs) ∧ Linked next' prev' (ys ++ [head]) := by
  rw [← List.cons_append, List.nodup_append] at hnodup
  obtain ⟨hnxs, hnys, hdisjoint⟩ := hnodup
  have hnend : (ys ++ [head]).Nodup := by
    rw [List.nodup_append]
    refine ⟨hnys, List.nodup_singleton head, fun a ha b hb => ?_⟩
    rw [List.mem_singleton] at hb
    exact hb ▸ (hdisjoint head List.mem_cons_self a ha).symm
  constructor
  · apply hxs.congr
    · intro a ha
      exact hnext a (List.mem_append_left ys (List.dropLast_subset _ ha))
        (ne_getLastD_of_mem_dropLast hnxs ha)
    · intro a ha
      apply hprev a (List.mem_append_left ys (List.mem_cons_of_mem head ha))
      rintro rfl
      cases ys with
      | nil => exact (List.nodup_cons.mp hnxs).1 ha
      | cons y ys => exact hdisjoint y (List.mem_cons_of_mem head ha) y List.mem_cons_self rfl
  · apply hys.congr
    · intro a ha
      rw [List.dropLast_concat] at ha
      exact hnext a (List.mem_append_right (head :: xs) ha)
        (hdisjoint _ List.getLastD_mem_cons a ha).symm
    · intro a ha
      have hmem : a ∈ ys ++ [head] := List.mem_of_mem_tail ha
      apply hprev a _ (ne_headD_of_mem_tail hnend ha)
      rw [List.mem_append, List.mem_singleton] at hmem
      rcases hmem with hmem | rfl
      · exact List.mem_append_right (head :: xs) hmem
      · exact List.mem_cons_self

/-- **Link a node in** at the seam of `xs` and `ys`. -/
theorem Circle.link (h : Circle next prev head (xs ++ ys)) (hx : x ∉ head :: (xs ++ ys))
    (hleft : Joins next' prev' (xs.getLastD head) x) (hright : Joins next' prev' x (ys.headD head))
    (hnext : ∀ y, y ≠ x → y ≠ xs.getLastD head → next' y = next y)
    (hprev : ∀ y, y ≠ x → y ≠ ys.headD head → prev' y = prev y) :
    Circle next' prev' head (xs ++ x :: ys) where
  nodup := nodup_node.mpr ⟨hx, h.nodup⟩
  linked := by
    obtain ⟨hxs, hys, -⟩ := linked_seam.mp h.linked
    obtain ⟨hxs', hys'⟩ := hxs.pieces hys h.nodup
      (fun y hy => hnext y (ne_of_mem_of_not_mem hy hx))
      (fun y hy => hprev y (ne_of_mem_of_not_mem hy hx))
    exact linked_node.mpr ⟨hxs', hys', hleft, hright⟩

/-- **Unlink a member.** -/
theorem Circle.unlink (h : Circle next prev head (xs ++ x :: ys))
    (hseam : Joins next' prev' (xs.getLastD head) (ys.headD head))
    (hnext : ∀ y, y ≠ xs.getLastD head → next' y = next y)
    (hprev : ∀ y, y ≠ ys.headD head → prev' y = prev y) :
    Circle next' prev' head (xs ++ ys) := by
  obtain ⟨-, hnodup⟩ := nodup_node.mp h.nodup
  obtain ⟨hxs, hys, -⟩ := linked_node.mp h.linked
  obtain ⟨hxs', hys'⟩ := hxs.pieces hys hnodup (fun y _ => hnext y) (fun y _ => hprev y)
  exact ⟨hnodup, linked_seam.mpr ⟨hxs', hys', hseam⟩⟩

/-- **Put `z` in the place of a member.** -/
theorem Circle.replace (h : Circle next prev head (xs ++ x :: ys))
    (hz : z ∉ head :: (xs ++ x :: ys)) (hleft : Joins next' prev' (xs.getLastD head) z)
    (hright : Joins next' prev' z (ys.headD head))
    (hnext : ∀ y, y ≠ z → y ≠ xs.getLastD head → next' y = next y)
    (hprev : ∀ y, y ≠ z → y ≠ ys.headD head → prev' y = prev y) :
    Circle next' prev' head (xs ++ z :: ys) := by
  have hz' : z ∉ head :: (xs ++ ys) := fun hmem => hz (mem_node.mpr (Or.inr hmem))
  obtain ⟨-, hnodup⟩ := nodup_node.mp h.nodup
  obtain ⟨hxs, hys, -⟩ := linked_node.mp h.linked
  obtain ⟨hxs', hys'⟩ := hxs.pieces hys hnodup
    (fun y hy => hnext y (ne_of_mem_of_not_mem hy hz'))
    (fun y hy => hprev y (ne_of_mem_of_not_mem hy hz'))
  exact ⟨nodup_node.mpr ⟨hz', hnodup⟩, linked_node.mpr ⟨hxs', hys', hleft, hright⟩⟩

/-- **Put `z` in the place of the head.** -/
theorem Circle.takeOver (h : Circle next prev head xs) (hz : z ∉ head :: xs)
    (hfirst : Joins next' prev' z (xs.headD z)) (hlast : Joins next' prev' (xs.getLastD z) z)
    (hnext : ∀ y, y ≠ z → y ≠ xs.getLastD z → next' y = next y)
    (hprev : ∀ y, y ≠ z → y ≠ xs.headD z → prev' y = prev y) : Circle next' prev' z xs := by
  obtain ⟨-, hnxs⟩ := List.nodup_cons.mp h.nodup
  refine ⟨List.nodup_cons.mpr ⟨mt (List.mem_cons_of_mem head) hz, hnxs⟩,
    linked_head.mpr ⟨?_, hfirst, hlast⟩⟩
  obtain ⟨hxs, -⟩ := linked_head.mp h.linked
  cases xs with
  | nil => exact List.isChain_nil
  | cons x xs =>
      have hne : ∀ y ∈ x :: xs, y ≠ z := fun y hy =>
        ne_of_mem_of_not_mem (List.mem_cons_of_mem head hy) hz
      rw [List.getLastD_cons] at hnext
      apply hxs.congr
      · intro y hy
        exact hnext y (hne y (List.dropLast_subset _ hy)) (ne_getLastD_of_mem_dropLast hnxs hy)
      · intro y hy
        apply hprev y (hne y (List.mem_cons_of_mem x hy))
        rintro rfl
        exact (List.nodup_cons.mp hnxs).1 hy

/-- A head linked to itself. -/
theorem circle_nil : Circle next prev head [] ↔ next head = head ∧ prev head = head := by
  constructor
  · intro h
    obtain ⟨-, hself, -⟩ := linked_head.mp h.linked
    exact ⟨hself.forth, hself.back⟩
  · rintro ⟨hnext, hprev⟩
    exact ⟨List.nodup_singleton head, linked_head.mpr ⟨List.isChain_nil, ⟨hnext, hprev⟩,
      ⟨hnext, hprev⟩⟩⟩

/-- A circle is read at its own nodes. -/
theorem Circle.congr (h : Circle next prev head xs) (hnext : ∀ y ∈ head :: xs, next' y = next y)
    (hprev : ∀ y ∈ head :: xs, prev' y = prev y) : Circle next' prev' head xs := by
  refine ⟨h.nodup, h.linked.congr ?_ ?_⟩
  · intro y hy
    rw [List.dropLast_concat] at hy
    exact hnext y hy
  · intro y hy
    apply hprev y
    rw [List.cons_append, List.tail_cons, List.mem_append, List.mem_singleton] at hy
    exact List.mem_cons.mpr hy.symm

/-! ## Families of circles -/

/-- Circles that share no node, each found under its head. -/
structure Family (next prev : α → α) (L : α → Option (List α)) : Prop where
  circle : ∀ {head xs}, L head = some xs → Circle next prev head xs
  unshared : ∀ {x j k xs ys}, L j = some xs → L k = some ys → x ∈ j :: xs → x ∈ k :: ys → j = k

variable [DecidableEq α] {L : α → Option (List α)}

/-- A circle that is left when the one of `k` is given up. -/
theorem of_update_none {j k : α} (hj : Function.update L k none j = some xs) :
    j ≠ k ∧ L j = some xs := by
  by_cases hjk : j = k
  · subst j
    rw [Function.update_self] at hj
    contradiction
  · exact ⟨hjk, by rwa [Function.update_of_ne hjk] at hj⟩

/-- The circle that is put in, or one that was there. -/
theorem of_update_some {j k : α} {zs : List α} (hj : Function.update L k (some zs) j = some xs) :
    j = k ∧ zs = xs ∨ j ≠ k ∧ L j = some xs := by
  by_cases hjk : j = k
  · subst j
    rw [Function.update_self] at hj
    exact Or.inl ⟨rfl, Option.some.inj hj⟩
  · rw [Function.update_of_ne hjk] at hj
    exact Or.inr ⟨hjk, hj⟩

/-- Give up a circle. -/
theorem Family.release (h : Family next prev L) (k : α) :
    Family next prev (Function.update L k none) where
  circle := fun hj => h.circle (of_update_none hj).2
  unshared := fun hj hk => h.unshared (of_update_none hj).2 (of_update_none hk).2

/-- Edit or add one circle, on nodes that no other circle has. -/
theorem Family.update (h : Family next prev L) {k : α} {zs : List α}
    (hcircle : Circle next' prev' k zs)
    (hown : ∀ {j xs}, j ≠ k → L j = some xs → ∀ x ∈ j :: xs, x ∉ k :: zs)
    (hkeep : ∀ {j xs}, j ≠ k → L j = some xs → ∀ x ∈ j :: xs,
      next' x = next x ∧ prev' x = prev x) :
    Family next' prev' (Function.update L k (some zs)) where
  circle := by
    intro j xs hj
    rcases of_update_some hj with ⟨rfl, rfl⟩ | ⟨hjk, hj⟩
    · exact hcircle
    · exact (h.circle hj).congr (fun y hy => (hkeep hjk hj y hy).1)
        (fun y hy => (hkeep hjk hj y hy).2)
  unshared := by
    intro x i j xs ys hi hj hxi hxj
    rcases of_update_some hi with ⟨rfl, rfl⟩ | ⟨hik, hLi⟩
    · rcases of_update_some hj with ⟨rfl, rfl⟩ | ⟨hjk, hLj⟩
      · rfl
      · exact absurd hxi (hown hjk hLj x hxj)
    · rcases of_update_some hj with ⟨rfl, rfl⟩ | ⟨-, hLj⟩
      · exact absurd hxj (hown hik hLi x hxi)
      · exact h.unshared hLi hLj hxi hxj

end Links
