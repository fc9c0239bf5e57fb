import Eeos.Kernel.ListForEach

/-!
# Iteration that survives insertion (`include/eeos/list.h`)

The loops that read the link of a node after their body has run on it: `list_for_each`,
`list_for_each_prev`, `list_for_each_continue`, `list_for_each_entry` and
`list_for_each_entry_reverse`.  The body may keep the node, delete it, or put a new node anywhere
beside it or at an end of the list; it may even re-initialise it, and then the loop never ends.

* `Act` — what the body does, relative to the direction of the loop.
* `Sweep`, `Sweep.turn` — the loop as a worklist: the nodes passed, and those to come.
* `Fits` — the nodes that the body puts into the list are in none.
* `Swept` — what a loop does, for every number of turns.

Principal results: `forEach_sweeps` (the plain loops visit what the worklist visits, and end if it
does) and `forEach_reinit_hangs` (they never end once the body re-initialises the node it is at).
-/

namespace Eeos.ListHead

open Links ByteMem Cursor

variable {α σ : Type*}

/-! ## The macros -/

section Macros

variable [DecidableEq α]

/-- `for (; pos != head; pos = pos->link) body`. -/
def forEachFrom (d : Direction) (body : α → σ × Heap α → σ × Heap α) (head : α) (fuel : Nat)
    (pos : α) (s : σ × Heap α) : Option (σ × Heap α) :=
  plainLoop (fun s pos => s.2.link d pos) (fun pos => pos = head) body fuel pos s

def listForEach (body : α → σ × Heap α → σ × Heap α) (head : α) (fuel : Nat)
    (s : σ × Heap α) : Option (σ × Heap α) :=
  forEachFrom .next body head fuel (s.2.next head) s

def listForEachPrev (body : α → σ × Heap α → σ × Heap α) (head : α) (fuel : Nat)
    (s : σ × Heap α) : Option (σ × Heap α) :=
  forEachFrom .prev body head fuel (s.2.prev head) s

def listForEachContinue (body : α → σ × Heap α → σ × Heap α) (pos head : α) (fuel : Nat)
    (s : σ × Heap α) : Option (σ × Heap α) :=
  forEachFrom .next body head fuel (s.2.next pos) s

end Macros

def listLastEntry (h : Heap Addr) (ptr offset : Addr) : Addr := containerOf (h.prev ptr) offset

def listPrevEntry (h : Heap Addr) (pos offset : Addr) : Addr :=
  containerOf (h.prev (memberOf pos offset)) offset

def listForEachEntry (offset : Addr) (body : Addr → σ × Heap Addr → σ × Heap Addr) (head : Addr)
    (fuel : Nat) (s : σ × Heap Addr) : Option (σ × Heap Addr) :=
  plainLoop (fun s pos => listNextEntry s.2 pos offset) (fun pos => listEntryIsHead pos head offset)
    body fuel (listFirstEntry s.2 head offset) s

def listForEachEntryReverse (offset : Addr) (body : Addr → σ × Heap Addr → σ × Heap Addr)
    (head : Addr) (fuel : Nat) (s : σ × Heap Addr) : Option (σ × Heap Addr) :=
  plainLoop (fun s pos => listPrevEntry s.2 pos offset) (fun pos => listEntryIsHead pos head offset)
    body fuel (listLastEntry s.2 head offset) s

theorem entryLoop_eq (d : Direction) (offset : Addr) (body : Addr → σ × Heap Addr → σ × Heap Addr)
    (head : Addr) (fuel : Nat) (pos : Addr) (s : σ × Heap Addr) :
    plainLoop (fun s pos => containerOf (s.2.link d (memberOf pos offset)) offset)
        (fun pos => listEntryIsHead pos head offset) body fuel pos s =
      forEachFrom d (fun pos => body (containerOf pos offset)) head fuel (memberOf pos offset) s := by
  apply plainLoop_map (memberOf · offset)
  · exact fun s e => memberOf_containerOf _ offset
  · exact fun e => rfl
  · intro e s
    rw [containerOf_memberOf]

/-- **The loops over entries** are the loops over their members. -/
theorem listForEachEntry_eq (offset : Addr) (body : Addr → σ × Heap Addr → σ × Heap Addr)
    (head : Addr) (fuel : Nat) (s : σ × Heap Addr) :
    listForEachEntry offset body head fuel s =
        listForEach (fun pos => body (containerOf pos offset)) head fuel s ∧
      listForEachEntryReverse offset body head fuel s =
        listForEachPrev (fun pos => body (containerOf pos offset)) head fuel s := by
  have hnext := entryLoop_eq .next offset body head fuel (listFirstEntry s.2 head offset) s
  have hprev := entryLoop_eq .prev offset body head fuel (listLastEntry s.2 head offset) s
  rw [listFirstEntry, memberOf_containerOf] at hnext
  rw [listLastEntry, memberOf_containerOf] at hprev
  exact ⟨hnext, hprev⟩

/-! ## The body -/

/-- What the body does with the current node: it puts a node ahead of it or behind it, in the
direction of the loop, or at the end that the loop comes to, or at the one where it started. -/
inductive Act (α : Type*) where
  | keep
  | delete
  | reinit
  | ahead (new : α)
  | behind (new : α)
  | atEnd (new : α)
  | atStart (new : α)
  deriving DecidableEq

/-- Puts `new` on the far side of `node`. -/
def Direction.opAhead : Direction → α → α → Op α
  | .next, new, node => .add new node
  | .prev, new, node => .addTail new node

/-- Puts `new` on the near side of `node`. -/
def Direction.opBehind : Direction → α → α → Op α
  | .next, new, node => .addTail new node
  | .prev, new, node => .add new node

def Act.ops (d : Direction) (head node : α) : Act α → List (Op α)
  | .keep => []
  | .delete => [.del node]
  | .reinit => [.del node, .init node]
  | .ahead new => [d.opAhead new node]
  | .behind new => [d.opBehind new node]
  | .atEnd new => [d.opBehind new head]
  | .atStart new => [d.opAhead new head]

/-- The node that is put into the list. -/
def Act.new : Act α → Option α
  | .keep => none
  | .delete => none
  | .reinit => none
  | .ahead new => some new
  | .behind new => some new
  | .atEnd new => some new
  | .atStart new => some new

/-- The node comes before the loop, and not behind it. -/
def Act.isAhead : Act α → Bool
  | .keep => false
  | .delete => false
  | .reinit => false
  | .ahead _ => true
  | .behind _ => false
  | .atEnd _ => true
  | .atStart _ => false

/-- The body that chooses by `choose` from all that went before. -/
def act [DecidableEq α] (d : Direction) (head : α) (choose : List (α × Act α) → α → Act α) (pos : α)
    (s : List (α × Act α) × Heap α) : List (α × Act α) × Heap α :=
  let a := choose s.1 pos
  (s.1 ++ [(pos, a)], run s.2 (a.ops d head pos))

/-! ## The worklist -/

/-- The nodes that the loop has come past and those to come, in its direction. -/
structure Sweep (α : Type*) where
  log : List (α × Act α)
  passed : List α
  coming : List α

/-- The nodes passed, after the body has run on `x`. -/
def Act.passed (x : α) (ys : List α) : Act α → List α
  | .keep => ys ++ [x]
  | .delete => ys
  | .reinit => ys
  | .ahead _ => ys ++ [x]
  | .behind new => ys ++ [new, x]
  | .atEnd _ => ys ++ [x]
  | .atStart new => new :: ys ++ [x]

/-- The nodes to come. -/
def Act.coming (rest : List α) : Act α → List α
  | .keep => rest
  | .delete => rest
  | .reinit => rest
  | .ahead new => new :: rest
  | .behind _ => rest
  | .atEnd new => rest ++ [new]
  | .atStart _ => rest

namespace Sweep

variable (choose : List (α × Act α) → α → Act α)

def turn (t : Sweep α) : Sweep α :=
  match t.coming with
  | [] => t
  | x :: rest =>
    let a := choose t.log x
    ⟨t.log ++ [(x, a)], a.passed x t.passed, a.coming rest⟩

/-- The list of the loop. -/
def nodes (d : Direction) (t : Sweep α) : List α := d.order (t.passed ++ t.coming)

variable {choose} in
theorem turn_cons {t : Sweep α} {x : α} {rest : List α} (ht : t.coming = x :: rest) :
    t.turn choose = ⟨t.log ++ [(x, choose t.log x)], (choose t.log x).passed x t.passed,
      (choose t.log x).coming rest⟩ := by
  rw [turn, ht]

variable {choose} in
theorem turn_nil {t : Sweep α} (ht : t.coming = []) : t.turn choose = t := by
  rw [turn, ht]

end Sweep

/-! ## One turn -/

section Turn

variable [DecidableEq α] {h : Heap α} {M : Lists α} {head x new : α} {xs ys passed rest : List α}
  {d : Direction} {a : Act α}

omit [DecidableEq α] in
theorem headD_reverse (xs : List α) (x : α) : xs.reverse.headD x = xs.getLastD x := by
  rw [← getLastD_reverse, List.reverse_reverse]

/-- At a seam, ahead of the one side is behind the other. -/
theorem Sequence.seam (hs : Sequence h head (d.order (xs ++ ys))) :
    (d.opAhead new (xs.getLastD head)).apply h = (d.opBehind new (ys.headD head)).apply h := by
  rw [sequence_iff] at hs
  cases d with
  | next =>
    obtain ⟨-, -, hseam⟩ := linked_seam.mp hs.linked
    show listAddBetween h new _ (h.next _) = listAddBetween h new (h.prev _) _
    rw [hseam.forth, hseam.back]
  | prev =>
    rw [Direction.order, List.reverse_append] at hs
    obtain ⟨-, -, hseam⟩ := linked_seam.mp hs.linked
    rw [getLastD_reverse, headD_reverse] at hseam
    show listAddBetween h new (h.prev _) _ = listAddBetween h new _ (h.next _)
    rw [hseam.forth, hseam.back]

/-- A fresh node comes in at a seam. -/
theorem opAhead_represents (hr : Represents h M) (hM : M head = some (d.order (xs ++ ys)))
    (hfresh : Fresh M new) :
    Represents ((d.opAhead new (xs.getLastD head)).apply h)
      (Function.update M head (some (d.order (xs ++ new :: ys)))) := by
  have hs := hr.sequence hM
  rw [sequence_iff] at hs
  cases d with
  | next =>
    obtain ⟨-, -, hseam⟩ := linked_seam.mp hs.linked
    have hadd := addBetween_represents hr hM hfresh
    show Represents (listAddBetween h new _ (h.next _)) _
    rw [hseam.forth]
    exact hadd
  | prev =>
    rw [Direction.order, List.reverse_append] at hs hM
    obtain ⟨-, -, hseam⟩ := linked_seam.mp hs.linked
    have hadd := addBetween_represents hr hM hfresh
    rw [getLastD_reverse, headD_reverse] at hadd hseam
    show Represents (listAddBetween h new (h.prev _) _)
      (Function.update M head (some (xs ++ new :: ys).reverse))
    rw [hseam.back, reverse_node]
    exact hadd

theorem opBehind_represents (hr : Represents h M) (hM : M head = some (d.order (xs ++ ys)))
    (hfresh : Fresh M new) :
    Represents ((d.opBehind new (ys.headD head)).apply h)
      (Function.update M head (some (d.order (xs ++ new :: ys)))) := by
  rw [← (hr.sequence hM).seam]
  exact opAhead_represents hr hM hfresh

/-- A deleted node still has its links. -/
theorem listDel_link (h : Heap α) (d : Direction) (x : α) :
    (listDel h x).link d x = h.link d x := by
  cases d with
  | next =>
    show Function.update h.next (h.prev x) (h.next x) x = h.next x
    rw [Function.update_apply]
    split
    · rfl
    · rfl
  | prev =>
    show Function.update h.prev (h.next x) (h.prev x) x = h.prev x
    rw [Function.update_apply]
    split
    · rfl
    · rfl

/-- The lists after one run of the body. -/
theorem Act.ops_represents (hr : Represents h M)
    (hM : M head = some (d.order (passed ++ x :: rest))) (hne : a ≠ .reinit)
    (hfresh : ∀ new, a.new = some new → Fresh M new) :
    Represents (run h (a.ops d head x))
      (Function.update M head (some (d.order (a.passed x passed ++ a.coming rest)))) := by
  have hsplit : passed ++ x :: rest = (passed ++ [x]) ++ rest := by
    rw [List.append_assoc, List.singleton_append]
  cases a with
  | keep =>
    have hsame : Function.update M head (some (d.order ((passed ++ [x]) ++ rest))) = M := by
      rw [← hsplit, ← hM]
      exact Function.update_eq_self head M
    show Represents h (Function.update M head (some (d.order ((passed ++ [x]) ++ rest))))
    rw [hsame]
    exact hr
  | delete =>
    obtain ⟨pre, post, horder, horder'⟩ := order_split d passed rest x
    rw [horder] at hM
    show Represents (listDel h x) (Function.update M head (some (d.order (passed ++ rest))))
    rw [horder']
    exact del_represents hr hM
  | reinit => exact absurd rfl hne
  | ahead new =>
    rw [hsplit] at hM
    have hop := opAhead_represents hr hM (hfresh new rfl)
    rw [List.getLastD_concat] at hop
    exact hop
  | behind new =>
    have hop := opBehind_represents hr hM (hfresh new rfl)
    show Represents _ (Function.update M head (some (d.order ((passed ++ [new, x]) ++ rest))))
    rw [List.append_assoc]
    exact hop
  | atEnd new =>
    have hM' : M head = some (d.order ((passed ++ x :: rest) ++ [])) := by rwa [List.append_nil]
    have hop := opBehind_represents hr hM' (hfresh new rfl)
    show Represents _ (Function.update M head (some (d.order ((passed ++ [x]) ++ (rest ++ [new])))))
    rw [← List.append_assoc, ← hsplit]
    exact hop
  | atStart new =>
    have hM' : M head = some (d.order ([] ++ (passed ++ x :: rest))) := hM
    have hop := opAhead_represents hr hM' (hfresh new rfl)
    show Represents _ (Function.update M head (some (d.order ((new :: passed ++ [x]) ++ rest))))
    rw [List.cons_append, List.cons_append, ← hsplit]
    exact hop

/-- Where the link of the node leads then. -/
theorem Act.ops_link (hr : Represents h M) (hM : M head = some (d.order (passed ++ x :: rest)))
    (hne : a ≠ .reinit) (hfresh : ∀ new, a.new = some new → Fresh M new) :
    (run h (a.ops d head x)).link d x = (a.coming rest).headD head := by
  have hs := (Act.ops_represents hr hM hne hfresh).sequence (Function.update_self ..)
  by_cases hdelete : a = .delete
  · -- the links of the node are still those that it had in the list
    subst hdelete
    exact (listDel_link h d x).trans (hr.sequence hM).link_node
  · -- otherwise the node is still the last one passed
    obtain ⟨zs, hzs⟩ : ∃ zs, a.passed x passed = zs ++ [x] := by
      cases a with
      | keep => exact ⟨passed, rfl⟩
      | delete => exact absurd rfl hdelete
      | reinit => exact absurd rfl hne
      | ahead new => exact ⟨passed, rfl⟩
      | behind new => exact ⟨passed ++ [new], List.append_cons passed new [x]⟩
      | atEnd new => exact ⟨passed, rfl⟩
      | atStart new => exact ⟨new :: passed, rfl⟩
    rw [hzs, List.append_assoc, List.singleton_append] at hs
    exact hs.link_node

end Turn

/-! ## What the loop comes to -/

section Visits

variable {choose : List (α × Act α) → α → Act α} {t : Sweep α}

theorem Act.coming_sublist (a : Act α) (rest : List α) : rest.Sublist (a.coming rest) := by
  cases a with
  | keep => exact List.Sublist.refl rest
  | delete => exact List.Sublist.refl rest
  | reinit => exact List.Sublist.refl rest
  | ahead new => exact List.sublist_cons_self new rest
  | behind new => exact List.Sublist.refl rest
  | atEnd new => exact List.sublist_append_left rest [new]
  | atStart new => exact List.Sublist.refl rest

theorem Act.coming_length (a : Act α) (rest : List α) :
    (a.coming rest).length = rest.length + if a.isAhead then 1 else 0 := by
  cases a with
  | keep => rfl
  | delete => rfl
  | reinit => rfl
  | ahead new => rfl
  | behind new => rfl
  | atEnd new => exact List.length_append
  | atStart new => rfl

theorem Act.coming_eq {a : Act α} (ha : a.isAhead = false) (rest : List α) :
    a.coming rest = rest := by
  cases a with
  | keep => rfl
  | delete => rfl
  | reinit => rfl
  | ahead new => cases ha
  | behind new => rfl
  | atEnd new => cases ha
  | atStart new => rfl

/-- The nodes that the body has run on, and those to come. -/
def Sweep.all (t : Sweep α) : List α := t.log.map Prod.fst ++ t.coming

theorem Sweep.all_turn {x : α} {rest : List α} (ht : t.coming = x :: rest) :
    (t.turn choose).all = t.log.map Prod.fst ++ x :: (choose t.log x).coming rest := by
  rw [all, turn_cons ht, List.map_append, List.append_assoc]
  rfl

/-- **No node is missed**, whatever is put into the list. -/
theorem Sweep.all_sublist (choose : List (α × Act α) → α → Act α) (n : Nat) (t : Sweep α) :
    t.all.Sublist ((Sweep.turn choose)^[n] t).all := by
  induction n generalizing t with
  | zero => exact List.Sublist.refl _
  | succ n ih =>
    rw [Function.iterate_succ_apply]
    refine List.Sublist.trans ?_ (ih (t.turn choose))
    cases ht : t.coming with
    | nil => rw [Sweep.turn_nil ht]
    | cons x rest =>
      rw [all_turn ht, all, ht]
      exact ((choose t.log x).coming_sublist rest).cons_cons x |>.append_left _

/-- The loop takes a turn for each node that was to come, and for each put ahead of it. -/
theorem Sweep.turns_eq (choose : List (α × Act α) → α → Act α) (n : Nat) (t : Sweep α) :
    ((Sweep.turn choose)^[n] t).all.length + t.log.countP (fun v => v.2.isAhead) =
      t.all.length + ((Sweep.turn choose)^[n] t).log.countP (fun v => v.2.isAhead) := by
  induction n generalizing t with
  | zero => rfl
  | succ n ih =>
    rw [Function.iterate_succ_apply]
    cases ht : t.coming with
    | nil =>
      rw [Sweep.turn_nil ht]
      exact ih t
    | cons x rest =>
      have hrest := ih (t.turn choose)
      have hlog : (t.turn choose).log.countP (fun v => v.2.isAhead) =
          t.log.countP (fun v => v.2.isAhead) + if (choose t.log x).isAhead then 1 else 0 := by
        rw [turn_cons ht, List.countP_append, List.countP_singleton]
      have hall : (t.turn choose).all.length =
          t.all.length + if (choose t.log x).isAhead then 1 else 0 := by
        rw [all_turn ht, all, ht, List.length_append, List.length_append, List.length_cons,
          List.length_cons, Act.coming_length]
        omega
      omega

/-- A body that puts nothing ahead runs on the nodes that were to come. -/
theorem Sweep.quiet (hquiet : ∀ log x, (choose log x).isAhead = false) (t : Sweep α) :
    ((Sweep.turn choose)^[t.coming.length] t).coming = [] ∧
      ((Sweep.turn choose)^[t.coming.length] t).log.map Prod.fst = t.all := by
  generalize hn : t.coming.length = n
  induction n generalizing t with
  | zero =>
    have ht := List.eq_nil_of_length_eq_zero hn
    refine ⟨ht, ?_⟩
    rw [all, ht, List.append_nil]
    rfl
  | succ n ih =>
    obtain ⟨x, rest, ht⟩ := List.exists_cons_of_length_eq_add_one hn
    have hcoming := Act.coming_eq (hquiet t.log x) rest
    have hlength : (t.turn choose).coming.length = n := by
      rw [turn_cons ht, hcoming]
      rw [ht] at hn
      exact Nat.succ.inj hn
    obtain ⟨hend, hlog⟩ := ih (t.turn choose) hlength
    rw [Function.iterate_succ_apply]
    refine ⟨hend, hlog.trans ?_⟩
    rw [all_turn ht, hcoming, all, ht]

end Visits

/-! ## The loops -/

section Loops

variable [DecidableEq α] {h : Heap α} {L : Lists α} {head : α} {d : Direction}
  {choose : List (α × Act α) → α → Act α} {t : Sweep α}

/-- The lists when the loop has come to `t`. -/
def Sweep.lists (L : Lists α) (head : α) (d : Direction) (t : Sweep α) : Lists α :=
  Function.update L head (some (t.nodes d))

/-- The body does not re-initialise the next node, and what it puts into the list is in none. -/
def Fits (L : Lists α) (head : α) (d : Direction) (choose : List (α × Act α) → α → Act α)
    (t : Sweep α) : Prop :=
  ∀ x rest, t.coming = x :: rest → choose t.log x ≠ .reinit ∧
    ∀ new, (choose t.log x).new = some new → Fresh (t.lists L head d) new

/-- The heap is that of `t`. -/
def ShowsSweep (L : Lists α) (head : α) (d : Direction) (t : Sweep α)
    (s : List (α × Act α) × Heap α) : Prop :=
  s.1 = t.log ∧ Represents s.2 (t.lists L head d)

theorem tracked (L : Lists α) (head : α) (d : Direction)
    (choose : List (α × Act α) → α → Act α) :
    Tracked (fun (s : List (α × Act α) × Heap α) pos => s.2.link d pos) (fun pos => pos = head)
      (act d head choose) head (ShowsSweep L head d) Sweep.coming (Sweep.turn choose)
      (Fits L head d choose) where
  stop := decide_eq_true rfl
  go := by
    rintro t s y ys ⟨-, hr⟩ ht
    have hmem : y ∈ t.nodes d := by
      obtain ⟨pre, post, horder, -⟩ := order_split d t.passed ys y
      rw [Sweep.nodes, ht, horder]
      exact List.mem_append_cons_self
    exact decide_eq_false (hr.member (Function.update_self ..) hmem).1
  step := by
    rintro t ⟨log, h⟩ y ys ⟨rfl, hr⟩ hfits ht
    obtain ⟨hne, hfresh⟩ := hfits y ys ht
    have hM : t.lists L head d head = some (d.order (t.passed ++ y :: ys)) := by
      rw [← ht]
      exact Function.update_self ..
    have hrep := Act.ops_represents hr hM hne hfresh
    rw [Sweep.turn_cons ht]
    refine ⟨⟨rfl, ?_⟩, Act.ops_link hr hM hne hfresh⟩
    rw [Sweep.lists, Function.update_idem] at hrep
    exact hrep
  rest := Sweep.turn_nil

/-- What a loop does that starts with the nodes of `t` to come.

* `ends`, `goes` — it ends when no node is to come, with the nodes that the worklist has passed in
the list and the other lists as they were, and it does not end before.
* `visits` — it runs on every node that was to come, in order, and takes a turn more for each node
that is put ahead of it.
* `quiet` — with nothing put ahead of it, it runs on those nodes and ends. -/
structure Swept (L : Lists α) (head : α) (d : Direction)
    (choose : List (α × Act α) → α → Act α) (t : Sweep α)
    (loop : Nat → Option (List (α × Act α) × Heap α)) : Prop where
  ends : ∀ n, ((Sweep.turn choose)^[n] t).coming = [] → ∃ s, loop (n + 1) = some s ∧
    s.1 = ((Sweep.turn choose)^[n] t).log ∧
    Represents s.2
      (Function.update L head (some (d.order ((Sweep.turn choose)^[n] t).passed)))
  goes : ∀ n, ((Sweep.turn choose)^[n] t).coming ≠ [] → loop (n + 1) = none
  visits : ∀ n s, loop (n + 1) = some s → t.coming.Sublist (s.1.map Prod.fst) ∧
    s.1.length = t.coming.length + s.1.countP (fun v => v.2.isAhead)
  quiet : (∀ log x, (choose log x).isAhead = false) → ∃ s, loop (t.coming.length + 1) = some s ∧
    s.1.map Prod.fst = t.coming

/-- **A loop in either direction**, from any node on. -/
theorem forEachFrom_swept (hr : Represents h (t.lists L head d)) (hlog : t.log = [])
    (hfits : ∀ n, Fits L head d choose ((Sweep.turn choose)^[n] t)) :
    Swept L head d choose t fun fuel =>
      forEachFrom d (act d head choose) head fuel (t.coming.headD head) ([], h) := by
  have hloop := fun n => (tracked L head d choose).plainLoop_eq n (t := t) (s := ([], h))
    ⟨hlog.symm, hr⟩ fun i _ => hfits i
  have hall : t.all = t.coming := by
    rw [Sweep.all, hlog]
    rfl
  have hends : ∀ n, ((Sweep.turn choose)^[n] t).coming = [] → ∃ s,
      forEachFrom d (act d head choose) head (n + 1) (t.coming.headD head) ([], h) = some s ∧
      s.1 = ((Sweep.turn choose)^[n] t).log ∧
      Represents s.2
        (Function.update L head (some (d.order ((Sweep.turn choose)^[n] t).passed))) := by
    intro n hn
    obtain ⟨s, ⟨hs, hrep⟩, hrun⟩ := (hloop n).1 hn
    rw [Sweep.lists, Sweep.nodes, hn, List.append_nil] at hrep
    exact ⟨s, hrun, hs, hrep⟩
  constructor
  · exact hends
  · exact fun n hn => (hloop n).2 hn
  · intro n s hs
    have hn : ((Sweep.turn choose)^[n] t).coming = [] := by
      by_contra hne
      exact nomatch hs.symm.trans ((hloop n).2 hne)
    obtain ⟨s', hs', hlog', -⟩ := hends n hn
    cases hs.symm.trans hs'
    have hend : ((Sweep.turn choose)^[n] t).all = s.1.map Prod.fst := by
      rw [Sweep.all, hn, List.append_nil, hlog']
    have hsublist := Sweep.all_sublist choose n t
    have hturns := Sweep.turns_eq choose n t
    rw [hall, hend] at hsublist hturns
    rw [List.length_map, hlog, List.countP_nil, Nat.add_zero, ← hlog'] at hturns
    exact ⟨hsublist, hturns⟩
  · intro hquiet
    obtain ⟨hend, hvisits⟩ := Sweep.quiet hquiet t
    obtain ⟨s, hs, hlog', -⟩ := hends _ hend
    refine ⟨s, hs, ?_⟩
    rw [hlog', hvisits, hall]

/-- The links of the node lead back to it. -/
def Alone (h : Heap α) (x : α) : Prop := h.next x = x ∧ h.prev x = x

theorem initListHead_alone (h : Heap α) (x : α) : Alone (initListHead h x) x :=
  ⟨Function.update_self .., Function.update_self ..⟩

theorem listDel_alone {x : α} (ha : Alone h x) : Alone (listDel h x) x :=
  ⟨(listDel_link h .next x).trans ha.1, (listDel_link h .prev x).trans ha.2⟩

omit [DecidableEq α] in
theorem Alone.link {x : α} (ha : Alone h x) (d : Direction) : h.link d x = x := by
  cases d with
  | next => exact ha.1
  | prev => exact ha.2

/-- The node is in no list, in a loop that had visited `log` before it came to the node. -/
def Stuck (log : List (α × Act α)) (x : α) (s : List (α × Act α) × Heap α) : Prop :=
  (∃ later, s.1 = log ++ later) ∧ Alone s.2 x

omit [DecidableEq α] in
theorem Stuck.link {log : List (α × Act α)} {x : α} {s : List (α × Act α) × Heap α}
    (h : Stuck log x s) (d : Direction) : s.2.link d x = x := h.2.link d

/-- `INIT_LIST_HEAD` leaves the node alone. -/
theorem stuck_reinit {log : List (α × Act α)} {x : α} (hreinit : choose log x = .reinit)
    (h : Heap α) : Stuck log x (act d head choose x (log, h)) := by
  refine ⟨⟨_, rfl⟩, ?_⟩
  show Alone (run h ((choose log x).ops d head x)) x
  rw [hreinit]
  exact initListHead_alone (listDel h x) x

/-- A body that puts nothing beside the node keeps it so. -/
theorem Stuck.act {log : List (α × Act α)} {x : α} {s : List (α × Act α) × Heap α}
    (h : Stuck log x s) (hstay : ∀ later, choose (log ++ later) x ∈
      [Act.keep, Act.delete, Act.reinit]) : Stuck log x (act d head choose x s) := by
  obtain ⟨log', h⟩ := s
  obtain ⟨⟨later, rfl⟩, halone⟩ := h
  refine ⟨⟨_, List.append_assoc _ later _⟩, ?_⟩
  show Alone (run h ((choose (log ++ later) x).ops d head x)) x
  have hact := hstay later
  simp only [List.mem_cons, List.not_mem_nil, or_false] at hact
  rcases hact with hkeep | hdelete | hagain
  · rw [hkeep]
    exact halone
  · rw [hdelete]
    exact listDel_alone halone
  · rw [hagain]
    exact initListHead_alone (listDel h x) x

/-- **A loop over a node that its body re-initialises** never ends, if the body does not put other
nodes beside it when it comes back to it. -/
theorem forEachFrom_hangs (hr : Represents h (t.lists L head d)) (hlog : t.log = []) {n : Nat}
    (hfits : ∀ i < n, Fits L head d choose ((Sweep.turn choose)^[i] t)) {x : α} {rest : List α}
    (hx : ((Sweep.turn choose)^[n] t).coming = x :: rest)
    (hreinit : choose ((Sweep.turn choose)^[n] t).log x = .reinit)
    (hstay : ∀ later, choose (((Sweep.turn choose)^[n] t).log ++ later) x ∈
      [Act.keep, Act.delete, Act.reinit])
    (fuel : Nat) :
    forEachFrom d (act d head choose) head fuel (t.coming.headD head) ([], h) = none := by
  have ht := tracked L head d choose
  have hshows : ShowsSweep L head d t ([], h) := ⟨hlog.symm, hr⟩
  by_cases hle : fuel ≤ n
  · -- the loop has not come to the node yet
    cases fuel with
    | zero => rfl
    | succ m =>
      refine (ht.plainLoop_eq m hshows fun i hi => hfits i (by omega)).2 fun hm => ?_
      have hrest := ht.rest_iterate hm (n - m)
      rw [← Function.iterate_add_apply, Nat.sub_add_cancel (by omega)] at hrest
      rw [hrest, hm] at hx
      cases hx
  · obtain ⟨f, rfl⟩ : ∃ f, fuel = n + (f + 1) := ⟨fuel - n - 1, by omega⟩
    obtain ⟨⟨log, h'⟩, hs', hrun⟩ := ht.plainLoop_add n hshows hfits
    have hne : decide (x = head) = false := ht.go hs' hx
    obtain ⟨rfl, -⟩ := hs'
    -- the body leaves the node alone, and it stays so
    have hfirst : Stuck _ x (act d head choose x (_, h')) := stuck_reinit hreinit h'
    have hstuck : plainLoop (fun (s : List (α × Act α) × Heap α) pos => s.2.link d pos)
        (fun pos => decide (pos = head)) (act d head choose) f
        ((act d head choose x (((Sweep.turn choose)^[n] t).log, h')).2.link d x)
        (act d head choose x (((Sweep.turn choose)^[n] t).log, h')) = none := by
      rw [hfirst.link d]
      exact plainLoop_stuck (y := x) hne (fun s hs => ⟨hs.act hstay, (hs.act hstay).link d⟩) f hfirst
    rw [forEachFrom, hrun (f + 1) (Nat.succ_pos f), hx, List.headD_cons, plainLoop, hne]
    exact hstuck

end Loops

/-- **The plain loops survive insertion and deletion.**  From the whole list, or from a member on,
they do what the worklist does, whatever the body puts into the list or takes out of it. -/
theorem forEach_sweeps {h : Heap Addr} {L : Lists Addr} (hr : Represents h L) {head : Addr}
    {xs : List Addr} (hL : L head = some xs) :
    (∀ choose, (∀ n, Fits L head .next choose ((Sweep.turn choose)^[n] ⟨[], [], xs⟩)) →
      Swept L head .next choose ⟨[], [], xs⟩
          (fun fuel => listForEach (act .next head choose) head fuel ([], h)) ∧
        ∀ offset, Swept L head .next choose ⟨[], [], xs⟩ fun fuel =>
          listForEachEntry offset (fun pos => act .next head choose (memberOf pos offset)) head fuel
            ([], h)) ∧
    (∀ choose, (∀ n, Fits L head .prev choose ((Sweep.turn choose)^[n] ⟨[], [], xs.reverse⟩)) →
      Swept L head .prev choose ⟨[], [], xs.reverse⟩
          (fun fuel => listForEachPrev (act .prev head choose) head fuel ([], h)) ∧
        ∀ offset, Swept L head .prev choose ⟨[], [], xs.reverse⟩ fun fuel =>
          listForEachEntryReverse offset (fun pos => act .prev head choose (memberOf pos offset))
            head fuel ([], h)) ∧
    ∀ choose pre pos post, xs = pre ++ pos :: post →
      (∀ n, Fits L head .next choose ((Sweep.turn choose)^[n] ⟨[], pre ++ [pos], post⟩)) →
      Swept L head .next choose ⟨[], pre ++ [pos], post⟩ fun fuel =>
        listForEachContinue (act .next head choose) pos head fuel ([], h) := by
  have hstart : ∀ (d : Direction) (passed coming : List Addr), d.order (passed ++ coming) = xs →
      Represents h (Sweep.lists L head d ⟨[], passed, coming⟩) := by
    intro d passed coming hnodes
    have hsame : Sweep.lists L head d ⟨[], passed, coming⟩ = L := by
      rw [Sweep.lists, Sweep.nodes, hnodes, ← hL]
      exact Function.update_eq_self head L
    rw [hsame]
    exact hr
  have hs := hr.sequence hL
  refine ⟨fun choose hfits => ?_, fun choose hfits => ?_, ?_⟩
  · have hfirst : h.next head = xs.headD head := Sequence.link_head (d := .next) hs
    have hswept := forEachFrom_swept (hstart .next [] xs rfl) rfl hfits
    simp only [← hfirst] at hswept
    refine ⟨hswept, fun offset => ?_⟩
    simp only [(listForEachEntry_eq offset _ head _ _).1, memberOf_containerOf]
    exact hswept
  · have hlast : h.prev head = xs.reverse.headD head :=
      Sequence.link_head (d := .prev) (by rwa [Direction.order, List.reverse_reverse])
    have hswept := forEachFrom_swept
      (hstart .prev [] xs.reverse (by rw [Direction.order, List.nil_append, List.reverse_reverse]))
      rfl hfits
    simp only [← hlast] at hswept
    refine ⟨hswept, fun offset => ?_⟩
    simp only [(listForEachEntry_eq offset _ head _ _).2, memberOf_containerOf]
    exact hswept
  · rintro choose pre pos post rfl hfits
    have hnext : h.next pos = post.headD head := Sequence.link_node (d := .next) hs
    have hswept := forEachFrom_swept
      (hstart .next (pre ++ [pos]) post (List.append_cons pre pos post).symm) rfl hfits
    simp only [← hnext] at hswept
    exact hswept

/-- The list 0x20, 0x30 of the head 0x10. -/
def twoNodes : Heap Addr := run ⟨id, id⟩ [.init 0x10, .addTail 0x20 0x10, .addTail 0x30 0x10]

def twoLists : Lists Addr := fun k => if k = 0x10 then some [0x20, 0x30] else none

theorem twoNodes_represents : Represents twoNodes twoLists := by
  have hr : Represents (⟨id, id⟩ : Heap Addr) fun _ => none :=
    ⟨fun hL => (nomatch hL), fun hL => (nomatch hL)⟩
  obtain ⟨L, he, hL⟩ : ∃ L : Lists Addr, Effects (fun _ => none)
      [Op.init 0x10, Op.addTail 0x20 0x10, Op.addTail 0x30 0x10] L ∧ L = twoLists := by
    refine ⟨_, .cons (.init ?_) (.cons (.addTail ?_ ?_ rfl) (.cons (.addTail ?_ ?_ rfl) .nil)), ?_⟩
    all_goals grind [Detached, Function.update_apply, twoLists]
  rw [← hL]
  exact effects_represents hr he

theorem twoLists_ten : twoLists 0x10 = some [0x20, 0x30] := rfl

/-- Behind 0x20 the node 0x40 is put in, 0x30 is deleted, and at 0x40 the node 0x50 is put at the
start. -/
def editing (_ : List (Addr × Act Addr)) (pos : Addr) : Act Addr :=
  if pos = 0x20 then .ahead 0x40
  else if pos = 0x30 then .delete
  else if pos = 0x40 then .atStart 0x50
  else .keep

theorem twoLists_fresh {t : Sweep Addr} {d : Direction} {new : Addr}
    (h : new ∉ 0x10 :: t.nodes d) : Fresh (t.lists twoLists 0x10 d) new := by
  intro j ys hj
  rcases of_update_some hj with ⟨rfl, rfl⟩ | ⟨hne, hj⟩
  · exact h
  · rw [twoLists, if_neg hne] at hj
    cases hj

theorem editing_fits (n : Nat) :
    Fits twoLists 0x10 .next editing ((Sweep.turn editing)^[n] ⟨[], [], [0x20, 0x30]⟩) := by
  intro x rest hx
  match n with
  | 0 =>
    cases hx
    exact ⟨by decide, fun new hnew => twoLists_fresh (by cases hnew; decide)⟩
  | 1 =>
    cases hx
    exact ⟨by decide, fun new hnew => twoLists_fresh (by cases hnew; decide)⟩
  | 2 =>
    cases hx
    exact ⟨by decide, fun new hnew => nomatch hnew⟩
  | n + 3 =>
    have hend : ((Sweep.turn editing)^[3] ⟨[], [], [0x20, 0x30]⟩).coming = [] := rfl
    rw [Function.iterate_add_apply, (tracked twoLists 0x10 .next editing).rest_iterate hend] at hx
    cases hx

/-- The loop runs on 0x20, 0x40 and 0x30. -/
theorem forEach_sweeps_editing :
    ∃ s, listForEach (act .next 0x10 editing) 0x10 4 ([], twoNodes) = some s ∧
      s.1.map Prod.fst = [0x20, 0x40, 0x30] ∧ Sequence s.2 0x10 [0x50, 0x20, 0x40] := by
  have hsweeps := (forEach_sweeps twoNodes_represents twoLists_ten).1 editing editing_fits
  obtain ⟨s, hs, hlog, hr⟩ := hsweeps.1.ends 3 rfl
  refine ⟨s, hs, ?_, ?_⟩
  · rw [hlog]
    rfl
  · exact hr.sequence (Function.update_self ..)

/-- **A plain loop does not survive `list_del_init`**, in either direction. -/
theorem forEach_reinit_hangs {h : Heap Addr} {L : Lists Addr} (hr : Represents h L) {head : Addr}
    {xs : List Addr} (hL : L head = some xs) {d : Direction}
    {choose : List (Addr × Act Addr) → Addr → Act Addr} {n : Nat}
    (hfits : ∀ i < n, Fits L head d choose ((Sweep.turn choose)^[i] ⟨[], [], d.order xs⟩)) {x : Addr}
    {rest : List Addr} (hx : ((Sweep.turn choose)^[n] ⟨[], [], d.order xs⟩).coming = x :: rest)
    (hreinit : choose ((Sweep.turn choose)^[n] ⟨[], [], d.order xs⟩).log x = .reinit)
    (hstay : ∀ later, choose (((Sweep.turn choose)^[n] ⟨[], [], d.order xs⟩).log ++ later) x ∈
      [Act.keep, Act.delete, Act.reinit]) (fuel : Nat) :
    (d = .next → listForEach (act d head choose) head fuel ([], h) = none ∧
      ∀ offset, listForEachEntry offset (fun pos => act d head choose (memberOf pos offset)) head fuel
        ([], h) = none) ∧
    (d = .prev → listForEachPrev (act d head choose) head fuel ([], h) = none ∧
      ∀ offset, listForEachEntryReverse offset
        (fun pos => act d head choose (memberOf pos offset)) head fuel ([], h) = none) := by
  have hstart : Represents h (Sweep.lists L head d ⟨[], [], d.order xs⟩) := by
    have hsame : Sweep.lists L head d ⟨[], [], d.order xs⟩ = L := by
      rw [Sweep.lists, Sweep.nodes, List.nil_append, order_order, ← hL]
      exact Function.update_eq_self head L
    rw [hsame]
    exact hr
  have hlink : h.link d head = (d.order xs).headD head :=
    Sequence.link_head (by rw [order_order]; exact hr.sequence hL)
  have hhangs := forEachFrom_hangs hstart rfl hfits hx hreinit hstay fuel
  simp only [← hlink] at hhangs
  constructor
  · rintro rfl
    refine ⟨hhangs, fun offset => ?_⟩
    rw [(listForEachEntry_eq offset _ head _ _).1]
    simp only [memberOf_containerOf]
    exact hhangs
  · rintro rfl
    refine ⟨hhangs, fun offset => ?_⟩
    rw [(listForEachEntry_eq offset _ head _ _).2]
    simp only [memberOf_containerOf]
    exact hhangs

/-- At 0x30 the loop stays for ever. -/
theorem forEach_reinit_hangs_last :
    listForEach (act .next 0x10 fun _ pos => if pos = 0x30 then .reinit else .keep) 0x10 (2 ^ 64)
      ([], twoNodes) = none := by
  let choose : List (Addr × Act Addr) → Addr → Act Addr := fun _ pos =>
    if pos = 0x30 then .reinit else .keep
  have hfits : ∀ i < 1, Fits twoLists 0x10 .next choose
      ((Sweep.turn choose)^[i] ⟨[], [], Direction.next.order [0x20, 0x30]⟩) := by
    intro i hi x rest hx
    obtain rfl : i = 0 := Nat.lt_one_iff.mp hi
    cases hx
    exact ⟨by decide, fun new hnew => nomatch hnew⟩
  have hhangs := forEach_reinit_hangs twoNodes_represents twoLists_ten (d := .next) hfits rfl rfl
    (fun later => by simp [choose]) (2 ^ 64)
  exact (hhangs.1 rfl).1

end Eeos.ListHead
