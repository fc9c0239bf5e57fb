import Eeos.Lib.ByteMem
import Eeos.Lib.Cursor
import Eeos.Kernel.ListHead

/-!
# Iteration that survives removal (`include/eeos/list.h`)

The loops `list_for_each_safe`, `list_for_each_prev_safe` and `list_for_each_entry_safe`, each with
its body as a parameter.  The body has the heap and a state of its own; what it may do with the
current node is a `Choice`, made anew at each step from all that went before.

* `forEachSafe d` — the two loops over nodes, in the direction `d`.
* `listForEachEntrySafe_eq` — the loop over entries is the one over their members.
* `Stage L head d log rest M` — the lists when the loop has run on the nodes of `log` and `rest` is
  still to come.
* `Choice.ops_edits`, `Stage.step` — one run of the body.

Principal result: `forEach_survives` — each node is visited once, in order, whatever the body does
to the node it is at.
-/

namespace Eeos.ListHead

open Links ByteMem Cursor

variable {α σ : Type*}

/-! ## Directions -/

/-- The two directions of a list. -/
inductive Direction where
  | next
  | prev

def Heap.link (h : Heap α) : Direction → α → α
  | .next => h.next
  | .prev => h.prev

/-- The order in which a loop comes to the nodes. -/
def Direction.order : Direction → List α → List α
  | .next, xs => xs
  | .prev, xs => xs.reverse

section Directions

variable {h : Heap α} {M : Lists α} {head x : α} {xs kept rest : List α} {d : Direction}

theorem order_order (d : Direction) (xs : List α) : d.order (d.order xs) = xs := by
  cases d with
  | next => rfl
  | prev => exact List.reverse_reverse xs

/-- Picking nodes out of the list commutes with turning it around. -/
theorem order_filter (d : Direction) (p : α → Bool) (xs : List α) :
    d.order ((d.order xs).filter p) = xs.filter p := by
  cases d with
  | next => rfl
  | prev =>
      simp only [Direction.order, List.filter_reverse, List.reverse_reverse]

theorem order_length (d : Direction) (xs : List α) : (d.order xs).length = xs.length := by
  cases d with
  | next => rfl
  | prev => exact List.length_reverse

theorem order_nodup (d : Direction) (h : xs.Nodup) : (d.order xs).Nodup := by
  cases d with
  | next => exact h
  | prev => exact List.nodup_reverse.mpr h

theorem getLastD_reverse (xs : List α) (x : α) : xs.reverse.getLastD x = xs.headD x := by
  rw [List.getLastD_eq_getLast?, List.getLast?_reverse, List.headD_eq_head?_getD]

/-- The first node of a loop. -/
theorem Sequence.link_head (hs : Sequence h head (d.order xs)) :
    h.link d head = xs.headD head := by
  obtain ⟨-, hfirst, hlast⟩ := linked_head.mp (sequence_iff.mp hs).linked
  cases d with
  | next => exact hfirst.forth
  | prev => exact hlast.back.trans (getLastD_reverse xs head)

theorem reverse_node (kept rest : List α) (x : α) :
    (kept ++ x :: rest).reverse = rest.reverse ++ x :: kept.reverse := by
  rw [List.reverse_append, List.reverse_cons, List.append_assoc, List.singleton_append]

/-- The node behind a node. -/
theorem Sequence.link_node (hs : Sequence h head (d.order (kept ++ x :: rest))) :
    h.link d x = rest.headD head := by
  rw [sequence_iff] at hs
  cases d with
  | next =>
      obtain ⟨-, -, -, hright⟩ := linked_node.mp hs.linked
      exact hright.forth
  | prev =>
      rw [Direction.order, reverse_node] at hs
      obtain ⟨-, -, hleft, -⟩ := linked_node.mp hs.linked
      exact hleft.back.trans (getLastD_reverse rest head)

/-- The next node stands between those that are kept and those to come. -/
theorem order_split (d : Direction) (kept rest : List α) (x : α) :
    ∃ pre post, d.order (kept ++ x :: rest) = pre ++ x :: post ∧
      d.order (kept ++ rest) = pre ++ post := by
  cases d with
  | next => exact ⟨kept, rest, rfl, rfl⟩
  | prev => exact ⟨rest.reverse, kept.reverse, reverse_node kept rest x, List.reverse_append⟩

/-- A member of a list heads none. -/
theorem Represents.member (hr : Represents h M) (hM : M head = some xs) (hx : x ∈ xs) :
    x ≠ head ∧ M x = none := by
  have hne : x ≠ head := fun heq =>
    (List.nodup_cons.mp (hr.sequence hM).nodup).1 (heq ▸ hx)
  refine ⟨hne, ?_⟩
  cases hMx : M x with
  | none => rfl
  | some zs =>
      exact absurd (hr.unshared hMx hM List.mem_cons_self (List.mem_cons_of_mem head hx)) hne

end Directions

variable [DecidableEq α]

/-! ## The macros -/

/-- `for (pos = head->link, n = pos->link; pos != head; pos = n, n = pos->link) body`. -/
def forEachSafe (d : Direction) (body : α → σ × Heap α → σ × Heap α) (head : α) (fuel : Nat)
    (s : σ × Heap α) : Option (σ × Heap α) :=
  let pos := s.2.link d head
  let n := s.2.link d pos
  safeLoop (fun s pos => s.2.link d pos) (fun pos => pos = head) body fuel pos n s

def listForEachSafe (body : α → σ × Heap α → σ × Heap α) (head : α) (fuel : Nat)
    (s : σ × Heap α) : Option (σ × Heap α) :=
  forEachSafe .next body head fuel s

def listForEachPrevSafe (body : α → σ × Heap α → σ × Heap α) (head : α) (fuel : Nat)
    (s : σ × Heap α) : Option (σ × Heap α) :=
  forEachSafe .prev body head fuel s

/-- `container_of`, for a member at `offset`. -/
def containerOf (ptr offset : Addr) : Addr := ptr - offset

/-- `&pos->member`. -/
def memberOf (pos offset : Addr) : Addr := pos + offset

def listFirstEntry (h : Heap Addr) (ptr offset : Addr) : Addr := containerOf (h.next ptr) offset

def listNextEntry (h : Heap Addr) (pos offset : Addr) : Addr :=
  containerOf (h.next (memberOf pos offset)) offset

def listEntryIsHead (pos head offset : Addr) : Bool := memberOf pos offset = head

def listForEachEntrySafe (offset : Addr) (body : Addr → σ × Heap Addr → σ × Heap Addr)
    (head : Addr) (fuel : Nat) (s : σ × Heap Addr) : Option (σ × Heap Addr) :=
  let pos := listFirstEntry s.2 head offset
  let n := listNextEntry s.2 pos offset
  safeLoop (fun s n => listNextEntry s.2 n offset) (fun pos => listEntryIsHead pos head offset) body
    fuel pos n s

/-! ## Entries -/

theorem memberOf_containerOf (ptr offset : Addr) : memberOf (containerOf ptr offset) offset = ptr :=
  BitVec.sub_add_cancel ptr offset

theorem containerOf_memberOf (pos offset : Addr) : containerOf (memberOf pos offset) offset = pos :=
  BitVec.add_sub_cancel pos offset

/-- **The loop over entries** is the loop over their members. -/
theorem listForEachEntrySafe_eq (offset : Addr) (body : Addr → σ × Heap Addr → σ × Heap Addr)
    (head : Addr) (fuel : Nat) (s : σ × Heap Addr) :
    listForEachEntrySafe offset body head fuel s =
      listForEachSafe (fun pos => body (containerOf pos offset)) head fuel s := by
  have hloop : ∀ pos n : Addr,
      safeLoop (fun s n => listNextEntry s.2 n offset)
          (fun pos => listEntryIsHead pos head offset) body fuel pos n s =
        safeLoop (fun s pos => s.2.link .next pos) (fun pos => pos = head)
          (fun pos => body (containerOf pos offset)) fuel (memberOf pos offset)
          (memberOf n offset) s := by
    intro pos n
    apply safeLoop_map (memberOf · offset)
    · exact fun s e => memberOf_containerOf _ offset
    · exact fun e => rfl
    · intro e s
      rw [containerOf_memberOf]
  rw [listForEachEntrySafe, hloop, listNextEntry, listFirstEntry, memberOf_containerOf,
    memberOf_containerOf]
  rfl

/-! ## The body -/

/-- What the body does with the current node. -/
inductive Choice (α : Type*) where
  | keep
  | delete
  | moveTo (other : α)
  | reinit
  deriving DecidableEq

def Choice.ops (node : α) : Choice α → List (Op α)
  | .keep => []
  | .delete => [.del node]
  | .moveTo other => [.del node, .addTail node other]
  | .reinit => [.del node, .init node]

/-- The nodes that the body has run on, in order, each with what it did. -/
abbrev Log (α : Type*) := List (α × Choice α)

/-- The body that chooses by `choose` from all that went before. -/
def visit (choose : Log α → α → Choice α) (pos : α) (s : Log α × Heap α) : Log α × Heap α :=
  let choice := choose s.1 pos
  (s.1 ++ [(pos, choice)], run s.2 (choice.ops pos))

/-- The nodes for which the choice was `c`. -/
def chosen (c : Choice α) (log : Log α) : List α := (log.filter fun v => v.2 = c).map Prod.fst

/-- `k` heads a list: one of `L`, or a node that was re-initialised. -/
def Available (L : Lists α) (log : Log α) (k : α) : Prop :=
  (L k).isSome = true ∨ (k, .reinit) ∈ log

/-- What the body has done when it has run on `xs`. -/
def history (choose : Log α → α → Choice α) (xs : List α) : Log α :=
  xs.foldl (fun log x => log ++ [(x, choose log x)]) []

/-- In a run on `xs`, nodes are moved to other lists only. -/
def Allowed (L : Lists α) (head : α) (choose : Log α → α → Choice α) (xs : List α) : Prop :=
  ∀ ys x zs k, xs = ys ++ x :: zs → choose (history choose ys) x = .moveTo k →
    k ≠ head ∧ Available L (history choose ys) k

section Log

variable {c c' : Choice α} {log : Log α} {x k : α} {L : Lists α} {choose : Log α → α → Choice α}

omit [DecidableEq α] in
theorem history_append (xs : List α) :
    history choose (xs ++ [x]) =
      history choose xs ++ [(x, choose (history choose xs) x)] :=
  List.foldl_concat ..

omit [DecidableEq α] in
/-- The body has run once on each node. -/
theorem history_fst (xs : List α) : (history choose xs).map Prod.fst = xs := by
  induction xs using List.reverseRecOn with
  | nil => rfl
  | append_singleton xs x ih =>
      rw [history_append, List.map_append, ih]
      rfl

theorem chosen_append :
    chosen c (log ++ [(x, c')]) = chosen c log ++ if c' = c then [x] else [] := by
  by_cases h : c' = c
  · simp [chosen, h]
  · simp [chosen, h]

theorem chosen_eq_nil (h : ∀ y, (y, c) ∉ log) : chosen c log = [] := by
  unfold chosen
  rw [List.map_eq_nil_iff, List.filter_eq_nil_iff]
  rintro ⟨y, d⟩ hy hd
  exact h y (of_decide_eq_true hd ▸ hy)

omit [DecidableEq α] in
theorem available_append : Available L (log ++ [(x, c)]) k ↔
    Available L log k ∨ (k = x ∧ c = .reinit) := by
  unfold Available
  rw [List.mem_append, List.mem_singleton, Prod.mk.injEq, eq_comm (b := c), or_assoc]

/-- On nodes that are visited once, the choice of a node is found by looking for it. -/
theorem filter_visited (h : (log.map Prod.fst).Nodup) :
    ((log.map Prod.fst).filter fun x => (x, c) ∈ log) = chosen c log := by
  unfold chosen
  rw [List.filter_map]
  congr 1
  apply List.filter_congr
  rintro ⟨x, d⟩ hx
  rw [Function.comp_apply, decide_eq_decide]
  constructor
  · intro hc
    exact congrArg Prod.snd (List.inj_on_of_nodup_map h hx hc rfl)
  · rintro rfl
    exact hx

end Log

/-- What a loop leaves when it has run on the nodes `visited` of the list `xs` of `head`. -/
structure Survived (L : Lists α) (head : α) (xs visited : List α) (s : Log α × Heap α) : Prop where
  visits : s.1.map Prod.fst = visited
  remaining : Sequence s.2 head (xs.filter fun x => (x, .keep) ∈ s.1)
  others : ∀ k, k ≠ head → Available L s.1 k →
    Sequence s.2 k ((L k).getD [] ++ chosen (.moveTo k) s.1)

/-! ## The lists during a loop -/

section Stage

variable {h : Heap α} {L M M' : Lists α} {head x : α} {pre post rest : List α} {d : Direction}
  {log : Log α} {c : Choice α}

/-- The lists when the loop has run on the nodes of `log`, and `rest` is still to come. -/
structure Stage (L : Lists α) (head : α) (d : Direction) (log : Log α) (rest : List α)
    (M : Lists α) : Prop where
  list : M head = some (d.order (chosen .keep log ++ rest))
  others : ∀ k, k ≠ head → Available L log k →
    M k = some ((L k).getD [] ++ chosen (.moveTo k) log)
  targets : ∀ y k, (y, .moveTo k) ∈ log → k ≠ head ∧ Available L log k

/-- What a choice makes of the lists at the member `x` between `pre` and `post`. -/
structure Choice.Edits (c : Choice α) (M : Lists α) (head x : α) (pre post : List α)
    (M' : Lists α) : Prop where
  list : M' head = some (pre ++ if c = .keep then x :: post else post)
  others : ∀ k ys, k ≠ head → k ≠ x → M k = some ys →
    M' k = some (ys ++ if c = .moveTo k then [x] else [])
  reinit : c = .reinit → M' x = some []

theorem Choice.ops_edits (hr : Represents h M) (hM : M head = some (pre ++ x :: post))
    (hc : ∀ k, c = .moveTo k → k ≠ head ∧ ∃ zs, M k = some zs) :
    ∃ M', Represents (run h (c.ops x)) M' ∧ c.Edits M head x pre post M' := by
  have hmem : x ∈ pre ++ x :: post := List.mem_append_cons_self
  obtain ⟨hne, hx⟩ := hr.member hM hmem
  -- the lists when the node has been deleted
  have hdel := del_represents hr hM
  have hfresh := hr.fresh_edit hM hmem (nodup_node.mp (hr.sequence hM).nodup).1
  cases c with
  | keep =>
      refine ⟨M, hr, hM, fun k ys _ _ hMk => ?_, fun h => by contradiction⟩
      rw [if_neg (by simp), List.append_nil, hMk]
  | delete =>
      refine ⟨_, hdel, Function.update_self .., fun k ys hk _ hMk => ?_, fun h => by contradiction⟩
      rw [Function.update_of_ne hk, if_neg (by simp), List.append_nil, hMk]
  | moveTo other =>
      obtain ⟨hother, zs, hMo⟩ := hc other rfl
      have hxo : x ≠ other := by
        rintro rfl
        rw [hx] at hMo
        contradiction
      have hlist : Function.update M head (some (pre ++ post)) other = some zs := by
        rw [Function.update_of_ne hother, hMo]
      have hadd := addTail_represents hdel hfresh.detached hxo hlist
      refine ⟨_, hadd, ?_, fun k ys hk hkx hMk => ?_, fun h => by contradiction⟩
      · rw [Function.update_of_ne hother.symm, Function.update_of_ne hne.symm,
          Function.update_self, if_neg (by simp)]
      · by_cases hko : k = other
        · subst k
          rw [Function.update_self, if_pos rfl, Option.some.inj (hMo.symm.trans hMk)]
        · rw [Function.update_of_ne hko, Function.update_of_ne hkx, Function.update_of_ne hk,
            if_neg (by simpa using Ne.symm hko), List.append_nil, hMk]
  | reinit =>
      have hinit := init_represents hdel hfresh.not_member
      refine ⟨_, hinit, ?_, fun k ys hk hkx hMk => ?_, fun _ => Function.update_self ..⟩
      · rw [Function.update_of_ne hne.symm, Function.update_self, if_neg (by simp)]
      · rw [Function.update_of_ne hkx, Function.update_of_ne hk, if_neg (by simp),
          List.append_nil, hMk]

/-- A choice takes the loop one node further. -/
theorem Stage.append (hs : Stage L head d log (x :: rest) M) (hx : x ≠ head ∧ M x = none)
    (hc : ∀ k, c = .moveTo k → k ≠ head ∧ Available L log k)
    (he : c.Edits M head x pre post M')
    (hlist : M' head = some (d.order (chosen .keep (log ++ [(x, c)]) ++ rest))) :
    Stage L head d (log ++ [(x, c)]) rest M' := by
  have hfree : ¬ Available L log x := fun havail => by
    have := hs.others x hx.1 havail
    rw [hx.2] at this
    contradiction
  refine ⟨hlist, fun k hk havail => ?_, fun y k hmem => ?_⟩
  · rw [chosen_append, ← List.append_assoc]
    rcases available_append.mp havail with havail | ⟨rfl, rfl⟩
    · exact he.others k _ hk (fun hkx => hfree (hkx ▸ havail)) (hs.others k hk havail)
    · have hnone : L k = none := by
        cases hL : L k with
        | none => rfl
        | some zs => exact absurd (Or.inl (by rw [hL]; rfl)) hfree
      have hnil : chosen (.moveTo k) log = [] :=
        chosen_eq_nil fun y hy => hfree (hs.targets y k hy).2
      rw [he.reinit rfl, hnone, hnil, if_neg (by simp)]
      rfl
  · rw [List.mem_append, List.mem_singleton, Prod.mk.injEq] at hmem
    rw [available_append]
    rcases hmem with hmem | ⟨-, rfl⟩
    · exact (hs.targets y k hmem).imp id Or.inl
    · exact (hc k rfl).imp id Or.inl

/-- **One run of the body.** -/
theorem Stage.step (hr : Represents h M) (hs : Stage L head d log (x :: rest) M)
    (hc : ∀ k, c = .moveTo k → k ≠ head ∧ Available L log k) :
    ∃ M', Represents (run h (c.ops x)) M' ∧ Stage L head d (log ++ [(x, c)]) rest M' := by
  obtain ⟨pre, post, horder, horder'⟩ := order_split d (chosen .keep log) rest x
  have hM : M head = some (pre ++ x :: post) := by rw [hs.list, horder]
  have hlists : ∀ k, c = .moveTo k → k ≠ head ∧ ∃ zs, M k = some zs := by
    intro k hk
    obtain ⟨hne, havail⟩ := hc k hk
    exact ⟨hne, _, hs.others k hne havail⟩
  obtain ⟨M', hr', he⟩ := Choice.ops_edits hr hM hlists
  refine ⟨M', hr', hs.append (hr.member hM List.mem_append_cons_self) hc he ?_⟩
  rw [he.list, chosen_append]
  by_cases hkeep : c = .keep
  · rw [if_pos hkeep, if_pos hkeep, List.append_assoc, List.singleton_append, horder]
  · rw [if_neg hkeep, if_neg hkeep, List.append_nil, horder']

end Stage

/-! ## The loops -/

section Loops

variable {h : Heap α} {L : Lists α} {head : α} {xs : List α} {d : Direction}
  {choose : Log α → α → Choice α}

/-- The loop has come so far through `xs` that `rest` is still to come. -/
def Ahead (L : Lists α) (head : α) (d : Direction) (choose : Log α → α → Choice α) (xs : List α)
    (rest : List α) (s : Log α × Heap α) : Prop :=
  ∃ ys M, xs = ys ++ rest ∧ s.1 = history choose ys ∧ Represents s.2 M ∧ Stage L head d s.1 rest M

/-- **The prefetched cursor stays a member of the list**, or is the head. -/
theorem prefetched (hc : Allowed L head choose xs) (d : Direction) :
    Prefetched (fun (s : Log α × Heap α) pos => s.2.link d pos) (fun pos => pos = head)
      (visit choose) head (Ahead L head d choose xs) where
  stop := decide_eq_true rfl
  go := by
    rintro y rest s ⟨-, M, -, -, hr, hs⟩
    obtain ⟨pre, post, horder, -⟩ := order_split d (chosen .keep s.1) rest y
    have hmem : y ∈ d.order (chosen .keep s.1 ++ y :: rest) := by
      rw [horder]
      exact List.mem_append_cons_self
    exact decide_eq_false (hr.member hs.list hmem).1
  next := by
    rintro y rest s ⟨-, M, -, -, hr, hs⟩
    exact (hr.sequence hs.list).link_node
  step := by
    rintro y rest ⟨log, h⟩ ⟨ys, M, rfl, rfl, hr, hs⟩
    obtain ⟨M', hr', hs'⟩ := hs.step hr fun k hk => hc ys y rest k rfl hk
    exact ⟨ys ++ [y], M', List.append_cons ys y rest, (history_append ys).symm, hr', hs'⟩

/-- **A loop in either direction.** -/
theorem forEachSafe_survived (hr : Represents h L) (hL : L head = some xs)
    (hc : Allowed L head choose (d.order xs)) {fuel : Nat} (hfuel : xs.length < fuel) :
    ∃ s, forEachSafe d (visit choose) head fuel ([], h) = some s ∧
      Survived L head xs (d.order xs) s := by
  have hstart : Ahead L head d choose (d.order xs) (d.order xs) ([], h) := by
    refine ⟨[], L, rfl, rfl, hr, ?_, fun k hk havail => ?_,
      fun y k hmem => absurd hmem List.not_mem_nil⟩
    · exact hL.trans (congrArg some (order_order d xs).symm)
    · rcases havail with havail | hmem
      · obtain ⟨ys, hys⟩ := Option.isSome_iff_exists.mp havail
        rw [hys, Option.getD_some]
        exact congrArg some (List.append_nil ys).symm
      · exact absurd hmem List.not_mem_nil
  have hfirst : h.link d head = (d.order xs).headD head :=
    Sequence.link_head ((order_order d xs).symm ▸ hr.sequence hL)
  have hloop := (prefetched hc d).safeLoop_eq hstart ((order_length d xs).symm ▸ hfuel)
  have hend := (prefetched hc d).ahead_foldl hstart
  generalize (d.order xs).foldl (fun s x => visit choose x s) ([], h) = s at hloop hend
  obtain ⟨ys, M, hys, hlog, hrM, hM⟩ := hend
  have hvisits : s.1.map Prod.fst = d.order xs := by
    rw [hlog, history_fst, hys, List.append_nil]
  have hremaining : d.order (chosen .keep s.1 ++ []) = xs.filter fun x => (x, .keep) ∈ s.1 := by
    have hnodup := order_nodup d (List.nodup_cons.mp (hr.sequence hL).nodup).2
    rw [← hvisits] at hnodup
    rw [List.append_nil, ← filter_visited hnodup, hvisits, order_filter]
  refine ⟨s, ?_, hvisits, hremaining ▸ hrM.sequence hM.list, fun k hk havail =>
    hrM.sequence (hM.others k hk havail)⟩
  rw [forEachSafe, hfirst]
  exact hloop

end Loops

/-- **The loops survive what their body does to the current node**: keep it, delete it, move it to
another list or re-initialise it.  The body runs once on each node, in the order of the loop, and
the list is left with the nodes that were kept. -/
theorem forEach_survives {h : Heap Addr} {L : Lists Addr} (hr : Represents h L) {head : Addr}
    {xs : List Addr} (hL : L head = some xs) {fuel : Nat} (hfuel : xs.length < fuel) :
    (∀ choose, Allowed L head choose xs →
      (∃ s, listForEachSafe (visit choose) head fuel ([], h) = some s ∧ Survived L head xs xs s) ∧
        ∀ offset, ∃ s, listForEachEntrySafe offset (fun pos => visit choose (memberOf pos offset))
          head fuel ([], h) = some s ∧ Survived L head xs xs s) ∧
      ∀ choose, Allowed L head choose xs.reverse →
        ∃ s, listForEachPrevSafe (visit choose) head fuel ([], h) = some s ∧
          Survived L head xs xs.reverse s := by
  refine ⟨fun choose hc => ?_, fun choose hc => forEachSafe_survived (d := .prev) hr hL hc hfuel⟩
  have hnext := forEachSafe_survived (d := .next) hr hL hc hfuel
  refine ⟨hnext, fun offset => ?_⟩
  simp only [listForEachEntrySafe_eq, memberOf_containerOf]
  exact hnext

/-- Of the nodes 0x30, 0x40 and 0x50 one is kept, one is moved to the list of 0x20 and the last one
is re-initialised, in the loop over entries with the node at offset 8 and in the loop backwards. -/
theorem forEach_survives_three :
    let h := run ⟨id, id⟩ [Op.init 0x10, Op.init 0x20, Op.addTail 0x30 0x10, Op.addTail 0x40 0x10,
      Op.addTail 0x50 0x10]
    let choose : Log Addr → Addr → Choice Addr := fun _ pos =>
      if pos = 0x40 then .moveTo 0x20 else if pos = 0x50 then .reinit else .keep
    (∃ s, listForEachEntrySafe 8 (fun pos => visit choose (memberOf pos 8)) 0x10 4 ([], h) = some s ∧
      s.1 = [(0x30, .keep), (0x40, .moveTo 0x20), (0x50, .reinit)] ∧
      Sequence s.2 0x10 [0x30] ∧ Sequence s.2 0x20 [0x40]) ∧
    ∃ s, listForEachPrevSafe (visit choose) 0x10 4 ([], h) = some s ∧
      s.1 = [(0x50, .reinit), (0x40, .moveTo 0x20), (0x30, .keep)] ∧
      Sequence s.2 0x10 [0x30] ∧ Sequence s.2 0x20 [0x40] := by
  intro h choose
  have hr : Represents (⟨id, id⟩ : Heap Addr) fun _ => none :=
    ⟨fun hL => (nomatch hL), fun hL => (nomatch hL)⟩
  obtain ⟨L, he, hlist, hother⟩ : ∃ L : Lists Addr,
      Effects (fun _ => none) [Op.init 0x10, Op.init 0x20, Op.addTail 0x30 0x10,
        Op.addTail 0x40 0x10, Op.addTail 0x50 0x10] L ∧
        L 0x10 = some [0x30, 0x40, 0x50] ∧ L 0x20 = some [] := by
    refine ⟨_, .cons (.init ?_) (.cons (.init ?_) (.cons (.addTail ?_ ?_ rfl)
      (.cons (.addTail ?_ ?_ rfl) (.cons (.addTail ?_ ?_ rfl) .nil)))), rfl, rfl⟩
    all_goals grind [Detached, Function.update_apply]
  have hc : ∀ xs, Allowed L 0x10 choose xs := by
    intro xs ys x zs k _ hk
    have hk20 : k = 0x20 := by
      simp only [choose] at hk
      split_ifs at hk
      exact (Choice.moveTo.inj hk).symm
    subst k
    exact ⟨by decide, Or.inl (by rw [hother]; rfl)⟩
  have hsurvives := forEach_survives (effects_represents hr he) hlist (by decide : 3 < 4)
  have hmoved : ∀ log, Available L log 0x20 := fun log => Or.inl (by rw [hother]; rfl)
  constructor
  · obtain ⟨s, hs, -, hremaining, hothers⟩ := (hsurvives.1 choose (hc _)).2 8
    have hlog : s.1 = [(0x30, .keep), (0x40, .moveTo 0x20), (0x50, .reinit)] := by
      have hrun : (listForEachEntrySafe 8 (fun pos => visit choose (memberOf pos 8)) 0x10 4
          ([], h)).map Prod.fst = some [(0x30, .keep), (0x40, .moveTo 0x20), (0x50, .reinit)] := by
        decide +kernel
      rw [hs] at hrun
      exact Option.some.inj hrun
    have hsequence := hothers 0x20 (by decide) (hmoved s.1)
    rw [hlog] at hremaining hsequence
    rw [hother] at hsequence
    exact ⟨s, hs, hlog, hremaining, hsequence⟩
  · obtain ⟨s, hs, -, hremaining, hothers⟩ := hsurvives.2 choose (hc _)
    have hlog : s.1 = [(0x50, .reinit), (0x40, .moveTo 0x20), (0x30, .keep)] := by
      have hrun : (listForEachPrevSafe (visit choose) 0x10 4 ([], h)).map Prod.fst =
          some [(0x50, .reinit), (0x40, .moveTo 0x20), (0x30, .keep)] := by
        decide +kernel
      rw [hs] at hrun
      exact Option.some.inj hrun
    have hsequence := hothers 0x20 (by decide) (hmoved s.1)
    rw [hlog] at hremaining hsequence
    rw [hother] at hsequence
    exact ⟨s, hs, hlog, hremaining, hsequence⟩

end Eeos.ListHead
