import Eeos.Lib.Links

/-!
# The intrusive list (`include/eeos/list.h`)

`struct list_head` and its operations, each assignment in the order of the source, over a heap of
nodes of any type.  The nodes that an operation writes may coincide (an empty list, a single
member, a self-linked head that is replaced).

* `Sequence h head xs` — `next` visits `xs` from `head`, `prev` the reverse, both return to `head`.
* `Represents h L` — every list that `L` gives is a sequence of the heap; no two share a node.
* `Effect L op L'` — what an operation does to the lists, if its nodes are as its comment requires.
* `effect_represents` — one operation.

Principal result: `run_represents` (any run of operations, and what the queries answer after it).
-/

namespace Eeos.ListHead

open Links

variable {α : Type*} [DecidableEq α]

/-- The fields of every `struct list_head`. -/
structure Heap (α : Type*) where
  next : α → α
  prev : α → α

/-- `p->next = v`. -/
def Heap.setNext (h : Heap α) (p v : α) : Heap α := { h with next := Function.update h.next p v }

/-- `p->prev = v`. -/
def Heap.setPrev (h : Heap α) (p v : α) : Heap α := { h with prev := Function.update h.prev p v }

def initListHead (h : Heap α) (list : α) : Heap α := (h.setNext list list).setPrev list list

/-- `__list_add`. -/
def listAddBetween (h : Heap α) (new prev next : α) : Heap α :=
  let h := h.setPrev next new
  let h := h.setNext new next
  let h := h.setPrev new prev
  h.setNext prev new

def listAdd (h : Heap α) (new head : α) : Heap α := listAddBetween h new head (h.next head)

def listAddTail (h : Heap α) (new head : α) : Heap α := listAddBetween h new (h.prev head) head

/-- `__list_del`. -/
def listDelBetween (h : Heap α) (prev next : α) : Heap α := (h.setPrev next prev).setNext prev next

def listDel (h : Heap α) (entry : α) : Heap α := listDelBetween h (h.prev entry) (h.next entry)

def listReplace (h : Heap α) (old new : α) : Heap α :=
  let h := h.setNext new (h.next old)
  let h := h.setPrev (h.next new) new
  let h := h.setPrev new (h.prev old)
  h.setNext (h.prev new) new

def listReplaceInit (h : Heap α) (old new : α) : Heap α := initListHead (listReplace h old new) old

def listIsFirst (h : Heap α) (list head : α) : Bool := h.prev list = head

def listIsLast (h : Heap α) (list head : α) : Bool := h.next list = head

def listEmpty (h : Heap α) (head : α) : Bool := h.next head = head

/-! ## What the assignments do -/

variable {h : Heap α} {a b new old entry head x y : α}

theorem listAddBetween_next : (listAddBetween h new a b).next =
    Function.update (Function.update h.next new b) a new := rfl

theorem listAddBetween_prev : (listAddBetween h new a b).prev =
    Function.update (Function.update h.prev b new) new a := rfl

theorem listAddBetween_left :
    Joins (listAddBetween h new a b).next (listAddBetween h new a b).prev a new where
  forth := Function.update_self ..
  back := Function.update_self ..

theorem listAddBetween_right (ha : a ≠ new) (hb : b ≠ new) :
    Joins (listAddBetween h new a b).next (listAddBetween h new a b).prev new b where
  forth := by rw [listAddBetween_next, Function.update_of_ne ha.symm, Function.update_self]
  back := by rw [listAddBetween_prev, Function.update_of_ne hb, Function.update_self]

theorem listAddBetween_next_off (hnew : y ≠ new) (ha : y ≠ a) :
    (listAddBetween h new a b).next y = h.next y := by
  rw [listAddBetween_next, Function.update_of_ne ha, Function.update_of_ne hnew]

theorem listAddBetween_prev_off (hnew : y ≠ new) (hb : y ≠ b) :
    (listAddBetween h new a b).prev y = h.prev y := by
  rw [listAddBetween_prev, Function.update_of_ne hnew, Function.update_of_ne hb]

/-- What `list_replace` reads as `old->prev`: `new` itself, once written, if `old` is linked to
itself. -/
def replacedPrev (h : Heap α) (old new : α) : α := Function.update h.prev (h.next old) new old

/-- `list_replace` links `new` between the neighbours of `old`. -/
theorem listReplace_eq :
    listReplace h old new = listAddBetween h new (replacedPrev h old new) (h.next old) := by
  unfold listReplace listAddBetween Heap.setNext Heap.setPrev replacedPrev
  simp only [Function.update_self]

/-! ## One list -/

variable {xs ys : List α}

/-- `next` visits `xs` from `head`, `prev` the reverse, and both return to `head`. -/
structure Sequence (h : Heap α) (head : α) (xs : List α) : Prop where
  nodup : (head :: xs).Nodup
  forward : Follows h.next head xs head
  backward : Follows h.prev head xs.reverse head

omit [DecidableEq α] in
theorem sequence_iff : Sequence h head xs ↔ Circle h.next h.prev head xs := by
  rw [circle_iff_follows]
  exact ⟨fun hs => ⟨hs.nodup, hs.forward, hs.backward⟩, fun hs => ⟨hs.1, hs.2.1, hs.2.2⟩⟩

theorem initListHead_sequence (h : Heap α) (x : α) : Sequence (initListHead h x) x [] := by
  rw [sequence_iff, circle_nil]
  exact ⟨Function.update_self .., Function.update_self ..⟩

theorem listAddBetween_sequence (hs : Sequence h head (xs ++ ys)) (hnew : new ∉ head :: (xs ++ ys)) :
    Sequence (listAddBetween h new (xs.getLastD head) (ys.headD head)) head (xs ++ new :: ys) := by
  rw [sequence_iff] at hs ⊢
  have hlast := ne_of_mem_of_not_mem (getLastD_mem head xs ys) hnew
  have hfirst := ne_of_mem_of_not_mem (headD_mem head xs ys) hnew
  exact hs.link hnew listAddBetween_left (listAddBetween_right hlast hfirst)
    (fun y => listAddBetween_next_off) (fun y => listAddBetween_prev_off)

/-- `list_add` puts the node between the head and the first member. -/
theorem listAdd_eq (hs : Sequence h head xs) :
    listAdd h new head = listAddBetween h new head (xs.headD head) := by
  obtain ⟨-, hfirst, -⟩ := linked_head.mp (sequence_iff.mp hs).linked
  rw [listAdd, hfirst.forth]

/-- `list_add_tail` puts it between the last member and the head. -/
theorem listAddTail_eq (hs : Sequence h head xs) :
    listAddTail h new head = listAddBetween h new (xs.getLastD head) head := by
  obtain ⟨-, -, hlast⟩ := linked_head.mp (sequence_iff.mp hs).linked
  rw [listAddTail, hlast.back]

theorem listDel_sequence (hs : Sequence h head (xs ++ entry :: ys)) :
    Sequence (listDel h entry) head (xs ++ ys) := by
  rw [sequence_iff] at hs ⊢
  obtain ⟨-, -, hleft, hright⟩ := linked_node.mp hs.linked
  unfold listDel
  rw [hleft.back, hright.forth]
  apply hs.unlink
  · exact ⟨Function.update_self .., Function.update_self ..⟩
  · exact fun y hy => Function.update_of_ne hy ..
  · exact fun y hy => Function.update_of_ne hy ..

/-- In the place of a member. -/
theorem listReplace_member (hs : Sequence h head (xs ++ old :: ys))
    (hnew : new ∉ head :: (xs ++ old :: ys)) :
    Sequence (listReplace h old new) head (xs ++ new :: ys) := by
  rw [sequence_iff] at hs ⊢
  obtain ⟨hfree, -⟩ := nodup_node.mp hs.nodup
  obtain ⟨-, -, hleft, hright⟩ := linked_node.mp hs.linked
  have hold : ys.headD head ≠ old := ne_of_mem_of_not_mem (headD_mem head xs ys) hfree
  have hlast : xs.getLastD head ≠ new :=
    ne_of_mem_of_not_mem (getLastD_mem head xs (old :: ys)) hnew
  have hfirst : ys.headD head ≠ new :=
    ne_of_mem_of_not_mem (mem_node.mpr (Or.inr (headD_mem head xs ys))) hnew
  have hprev : replacedPrev h old new = xs.getLastD head := by
    rw [replacedPrev, hright.forth, Function.update_of_ne hold.symm, hleft.back]
  rw [listReplace_eq, hprev, hright.forth]
  exact hs.replace hnew listAddBetween_left (listAddBetween_right hlast hfirst)
    (fun y => listAddBetween_next_off) (fun y => listAddBetween_prev_off)

/-- In the place of a head, also of an empty list. -/
theorem listReplace_head (hs : Sequence h old xs) (hnew : new ∉ old :: xs) :
    Sequence (listReplace h old new) new xs := by
  rw [sequence_iff] at hs ⊢
  obtain ⟨-, hright, hleft⟩ := linked_head.mp hs.linked
  rw [listReplace_eq, hright.forth]
  cases xs with
  | nil =>
      have hprev : replacedPrev h old new = new := by
        rw [replacedPrev, hright.forth]
        exact Function.update_self ..
      rw [hprev, circle_nil]
      exact ⟨Function.update_self .., Function.update_self ..⟩
  | cons x xs =>
      have hold : old ≠ x := fun hx => (List.nodup_cons.mp hs.nodup).1 (hx ▸ List.mem_cons_self)
      have hfirst : x ≠ new := fun hx =>
        hnew (hx ▸ List.mem_cons_of_mem old List.mem_cons_self)
      have hlast : xs.getLastD x ≠ new :=
        ne_of_mem_of_not_mem (List.mem_cons_of_mem old List.getLastD_mem_cons) hnew
      have hprev : replacedPrev h old new = xs.getLastD x := by
        rw [replacedPrev, hright.forth, List.headD_cons, Function.update_of_ne hold, hleft.back,
          List.getLastD_cons]
      have hend : (x :: xs).getLastD new = xs.getLastD x := List.getLastD_cons ..
      rw [hprev]
      apply hs.takeOver hnew
      · exact listAddBetween_right hlast hfirst
      · exact hend ▸ listAddBetween_left
      · exact fun y hy hne => listAddBetween_next_off hy (hend ▸ hne)
      · exact fun y hy hne => listAddBetween_prev_off hy hne

/-! ## What is kept -/

/-- The fields of `y` are as before. -/
structure Kept (h h' : Heap α) (y : α) : Prop where
  next : h'.next y = h.next y
  prev : h'.prev y = h.prev y

/-- Only `new` and the two nodes it is put between are written. -/
theorem listAddBetween_kept (hnew : y ≠ new) (ha : y ≠ a) (hb : y ≠ b) :
    Kept h (listAddBetween h new a b) y :=
  ⟨listAddBetween_next_off hnew ha, listAddBetween_prev_off hnew hb⟩

omit [DecidableEq α] in
/-- The neighbours of a node of a list are nodes of it. -/
theorem neighbours_mem (hs : Sequence h head xs) (hx : x ∈ head :: xs) :
    h.next x ∈ head :: xs ∧ h.prev x ∈ head :: xs := by
  rw [sequence_iff] at hs
  rcases List.mem_cons.mp hx with rfl | hx
  · obtain ⟨-, hfirst, hlast⟩ := linked_head.mp hs.linked
    rw [hfirst.forth, hlast.back]
    exact ⟨headD_mem x [] xs, List.getLastD_mem_cons⟩
  · obtain ⟨pre, post, rfl⟩ := List.append_of_mem hx
    obtain ⟨-, -, hleft, hright⟩ := linked_node.mp hs.linked
    rw [hleft.back, hright.forth]
    exact ⟨mem_node.mpr (Or.inr (headD_mem head pre post)), getLastD_mem head pre (x :: post)⟩

theorem listReplace_kept (hs : Sequence h head xs) (hold : old ∈ head :: xs)
    (hy : y ∉ head :: xs) (hnew : y ≠ new) : Kept h (listReplace h old new) y := by
  obtain ⟨hnext, hprev⟩ := neighbours_mem hs hold
  rw [listReplace_eq]
  apply listAddBetween_kept hnew
  · unfold replacedPrev
    rw [Function.update_apply]
    split
    · exact hnew
    · exact (ne_of_mem_of_not_mem hprev hy).symm
  · exact (ne_of_mem_of_not_mem hnext hy).symm

theorem listDel_kept (hs : Sequence h head xs) (hentry : entry ∈ head :: xs)
    (hy : y ∉ head :: xs) : Kept h (listDel h entry) y := by
  obtain ⟨hnext, hprev⟩ := neighbours_mem hs hentry
  exact ⟨Function.update_of_ne (ne_of_mem_of_not_mem hprev hy).symm ..,
    Function.update_of_ne (ne_of_mem_of_not_mem hnext hy).symm ..⟩

theorem initListHead_kept (hy : y ≠ x) : Kept h (initListHead h x) y :=
  ⟨Function.update_of_ne hy .., Function.update_of_ne hy ..⟩

/-! ## Any number of lists -/

/-- The lists of a heap: the members of each, under its head. -/
abbrev Lists (α : Type*) := α → Option (List α)

variable {L L' : Lists α}

/-- Every list that `L` gives is a sequence of the heap, and no two share a node. -/
structure Represents (h : Heap α) (L : Lists α) : Prop where
  sequence : ∀ {head xs}, L head = some xs → Sequence h head xs
  unshared : ∀ {x j k xs ys}, L j = some xs → L k = some ys → x ∈ j :: xs → x ∈ k :: ys → j = k

omit [DecidableEq α] in
theorem represents_iff : Represents h L ↔ Family h.next h.prev L :=
  ⟨fun hr => ⟨fun hL => sequence_iff.mp (hr.sequence hL), hr.unshared⟩,
    fun hf => ⟨fun hL => sequence_iff.mpr (hf.circle hL), hf.unshared⟩⟩

theorem Represents.release (hr : Represents h L) (k : α) :
    Represents h (Function.update L k none) :=
  represents_iff.mpr ((represents_iff.mp hr).release k)

/-- One list is edited or added, on nodes that no other list has. -/
theorem Represents.update {h' : Heap α} (hr : Represents h L) {k : α} {zs : List α}
    (hs : Sequence h' k zs)
    (hown : ∀ {j xs}, j ≠ k → L j = some xs → ∀ x ∈ j :: xs, x ∉ k :: zs)
    (hkeep : ∀ {j xs}, j ≠ k → L j = some xs → ∀ x ∈ j :: xs, Kept h h' x) :
    Represents h' (Function.update L k (some zs)) := by
  rw [represents_iff] at hr ⊢
  refine hr.update (sequence_iff.mp hs) hown fun hjk hj x hx => ?_
  have hkept := hkeep hjk hj x hx
  exact ⟨hkept.next, hkept.prev⟩

/-- No list has the node. -/
def Fresh (L : Lists α) (x : α) : Prop := ∀ head xs, L head = some xs → x ∉ head :: xs

/-- An existing list is edited, on its own nodes and fresh ones. -/
theorem Represents.edit {h' : Heap α} {zs : List α} (hr : Represents h L) (hL : L head = some xs)
    (hs : Sequence h' head zs) (hnodes : ∀ z ∈ zs, z ∈ xs ∨ Fresh L z)
    (hkeep : ∀ y, y ∉ head :: xs → ¬ Fresh L y → Kept h h' y) :
    Represents h' (Function.update L head (some zs)) := by
  apply hr.update hs
  · intro j ys hj hys y hy hmem
    rcases List.mem_cons.mp hmem with rfl | hz
    · exact hj (hr.unshared hys hL hy List.mem_cons_self)
    · rcases hnodes y hz with hxs | hfresh
      · exact hj (hr.unshared hys hL hy (List.mem_cons_of_mem head hxs))
      · exact hfresh j ys hys hy
  · intro j ys hj hys y hy
    exact hkeep y (fun hmem => hj (hr.unshared hys hL hy hmem)) fun hfresh => hfresh j ys hys hy

omit [DecidableEq α] in
theorem Fresh.not_member (hf : Fresh L x) (head : α) (xs : List α) (hL : L head = some xs) :
    x ∉ xs :=
  fun hx => hf head xs hL (List.mem_cons_of_mem head hx)

/-- A node that is edited out of its list is in none. -/
theorem Represents.fresh_edit {zs : List α} (hr : Represents h L) (hL : L head = some xs)
    (hx : x ∈ xs) (hzs : x ∉ head :: zs) : Fresh (Function.update L head (some zs)) x := by
  intro j ys hj hmem
  rcases of_update_some hj with ⟨rfl, rfl⟩ | ⟨hjh, hj⟩
  · exact hzs hmem
  · exact hjh (hr.unshared hj hL hmem (List.mem_cons_of_mem head hx))

/-- `new` is in no list, or it is the head of an empty one (which is given up). -/
def Detached (L : Lists α) (new : α) : Prop :=
  ∀ head xs, L head = some xs → new ∈ head :: xs → new = head ∧ xs = []

omit [DecidableEq α] in
theorem Fresh.detached (hf : Fresh L new) : Detached L new :=
  fun head xs hL hmem => absurd hmem (hf head xs hL)

theorem Detached.fresh (hd : Detached L new) : Fresh (Function.update L new none) new := by
  intro j xs hj hmem
  obtain ⟨hjn, hj⟩ := of_update_none hj
  exact hjn (hd j xs hj hmem).1.symm

omit [DecidableEq α] in
/-- The head of a list with members is not detached. -/
theorem Detached.ne_head (hd : Detached L new) (hL : L head = some xs) (hxs : xs ≠ []) :
    head ≠ new := by
  rintro rfl
  exact hxs (hd head xs hL List.mem_cons_self).2

omit [DecidableEq α] in
theorem Detached.ne_member (hd : Detached L new) (hL : L head = some xs) (hx : x ∈ xs) :
    x ≠ new := by
  rintro rfl
  exact List.ne_nil_of_mem hx (hd head xs hL (List.mem_cons_of_mem head hx)).2

/-! ## Operations -/

inductive Op (α : Type*) where
  | init (list : α)
  | add (new head : α)
  | addTail (new head : α)
  | del (entry : α)
  | replace (old new : α)
  | replaceInit (old new : α)

def Op.apply (h : Heap α) : Op α → Heap α
  | .init list => initListHead h list
  | .add new head => listAdd h new head
  | .addTail new head => listAddTail h new head
  | .del entry => listDel h entry
  | .replace old new => listReplace h old new
  | .replaceInit old new => listReplaceInit h old new

/-- What an operation does to the lists, on nodes as its comment requires them. -/
inductive Effect : Lists α → Op α → Lists α → Prop
  | init {L : Lists α} {list : α} (free : ∀ head xs, L head = some xs → list ∉ xs) :
      Effect L (.init list) (Function.update L list (some []))
  | add {L : Lists α} {new head : α} {xs : List α} (detached : Detached L new) (ne : new ≠ head)
      (list : L head = some xs) : Effect L (.add new head)
        (Function.update (Function.update L new none) head (some (new :: xs)))
  | addTail {L : Lists α} {new head : α} {xs : List α} (detached : Detached L new)
      (ne : new ≠ head) (list : L head = some xs) : Effect L (.addTail new head)
        (Function.update (Function.update L new none) head (some (xs ++ [new])))
  | del {L : Lists α} {head entry : α} {xs ys : List α} (list : L head = some (xs ++ entry :: ys)) :
      Effect L (.del entry) (Function.update L head (some (xs ++ ys)))
  | replaceMember {L : Lists α} {head old new : α} {xs ys : List α} (detached : Detached L new)
      (list : L head = some (xs ++ old :: ys)) : Effect L (.replace old new)
        (Function.update (Function.update L new none) head (some (xs ++ new :: ys)))
  | replaceHead {L : Lists α} {old new : α} {xs : List α} (detached : Detached L new)
      (ne : new ≠ old) (list : L old = some xs) : Effect L (.replace old new)
        (Function.update (Function.update L old none) new (some xs))
  | replaceInitMember {L : Lists α} {head old new : α} {xs ys : List α}
      (detached : Detached L new) (list : L head = some (xs ++ old :: ys)) :
      Effect L (.replaceInit old new) (Function.update
        (Function.update (Function.update L new none) head (some (xs ++ new :: ys))) old (some []))
  | replaceInitHead {L : Lists α} {old new : α} {xs : List α} (detached : Detached L new)
      (ne : new ≠ old) (list : L old = some xs) : Effect L (.replaceInit old new)
        (Function.update (Function.update L new (some xs)) old (some []))

variable {h' : Heap α}

theorem init_represents (hr : Represents h L) {list : α}
    (hfree : ∀ head xs, L head = some xs → list ∉ xs) :
    Represents (initListHead h list) (Function.update L list (some [])) := by
  apply hr.update (initListHead_sequence h list)
  · intro j xs hj hxs y hy hmem
    rw [List.mem_singleton] at hmem
    subst y
    exact (List.mem_cons.mp hy).elim (fun heq => hj heq.symm) (hfree j xs hxs)
  · intro j xs hj hxs y hy
    apply initListHead_kept
    rintro rfl
    exact (List.mem_cons.mp hy).elim (fun heq => hj heq.symm) (hfree j xs hxs)

/-- A fresh node comes between two nodes of a list. -/
theorem addBetween_represents (hr : Represents h L) (hL : L head = some (xs ++ ys))
    (hfresh : Fresh L new) :
    Represents (listAddBetween h new (xs.getLastD head) (ys.headD head))
      (Function.update L head (some (xs ++ new :: ys))) := by
  apply hr.edit hL (listAddBetween_sequence (hr.sequence hL) (hfresh _ _ hL))
  · intro z hz
    rw [List.mem_append, List.mem_cons] at hz
    rcases hz with hz | rfl | hz
    · exact Or.inl (List.mem_append_left ys hz)
    · exact Or.inr hfresh
    · exact Or.inl (List.mem_append_right xs hz)
  · intro y hy hyf
    apply listAddBetween_kept
    · rintro rfl
      exact hyf hfresh
    · exact (ne_of_mem_of_not_mem (getLastD_mem head xs ys) hy).symm
    · exact (ne_of_mem_of_not_mem (headD_mem head xs ys) hy).symm

theorem add_represents (hr : Represents h L) (hd : Detached L new) (hne : new ≠ head)
    (hL : L head = some xs) : Represents (listAdd h new head)
      (Function.update (Function.update L new none) head (some (new :: xs))) := by
  have hL' : Function.update L new none head = some ([] ++ xs) := by
    rwa [Function.update_of_ne hne.symm]
  rw [listAdd_eq (hr.sequence hL)]
  exact addBetween_represents (hr.release new) hL' hd.fresh

theorem addTail_represents (hr : Represents h L) (hd : Detached L new) (hne : new ≠ head)
    (hL : L head = some xs) : Represents (listAddTail h new head)
      (Function.update (Function.update L new none) head (some (xs ++ [new]))) := by
  have hL' : Function.update L new none head = some (xs ++ []) := by
    rwa [Function.update_of_ne hne.symm, List.append_nil]
  rw [listAddTail_eq (hr.sequence hL)]
  exact addBetween_represents (hr.release new) hL' hd.fresh

theorem del_represents (hr : Represents h L) (hL : L head = some (xs ++ entry :: ys)) :
    Represents (listDel h entry) (Function.update L head (some (xs ++ ys))) := by
  have hs := hr.sequence hL
  have hmem : entry ∈ xs ++ entry :: ys := List.mem_append_cons_self
  apply hr.edit hL (listDel_sequence hs)
  · intro z hz
    rw [List.mem_append] at hz
    left
    exact List.mem_append.mpr (hz.imp id (List.mem_cons_of_mem entry))
  · exact fun y hy _ => listDel_kept hs (List.mem_cons_of_mem head hmem) hy

theorem replaceMember_represents (hr : Represents h L) (hL : L head = some (xs ++ old :: ys))
    (hfresh : Fresh L new) :
    Represents (listReplace h old new) (Function.update L head (some (xs ++ new :: ys))) := by
  have hs := hr.sequence hL
  have hmem : old ∈ xs ++ old :: ys := List.mem_append_cons_self
  apply hr.edit hL (listReplace_member hs (hfresh _ _ hL))
  · intro z hz
    rw [List.mem_append, List.mem_cons] at hz
    rcases hz with hz | rfl | hz
    · exact Or.inl (List.mem_append_left _ hz)
    · exact Or.inr hfresh
    · exact Or.inl (List.mem_append_right xs (List.mem_cons_of_mem old hz))
  · intro y hy hyf
    apply listReplace_kept hs (List.mem_cons_of_mem head hmem) hy
    rintro rfl
    exact hyf hfresh

theorem replaceHead_represents (hr : Represents h L) (hL : L old = some xs)
    (hd : Detached L new) (hne : new ≠ old) :
    Represents (listReplace h old new)
      (Function.update (Function.update L old none) new (some xs)) := by
  have hs := hr.sequence hL
  have hnew : new ∉ old :: xs := fun hmem => hne (hd old xs hL hmem).1
  apply (hr.release old).update (listReplace_head hs hnew)
  · intro j ys hj hys y hy hmem
    obtain ⟨hjo, hys⟩ := of_update_none hys
    rcases List.mem_cons.mp hmem with rfl | hmem
    · exact hj (hd j ys hys hy).1.symm
    · exact hjo (hr.unshared hys hL hy (List.mem_cons_of_mem old hmem))
  · intro j ys hj hys y hy
    obtain ⟨hjo, hys⟩ := of_update_none hys
    apply listReplace_kept hs List.mem_cons_self
    · exact fun hmem => hjo (hr.unshared hys hL hy hmem)
    · rintro rfl
      exact hj (hd j ys hys hy).1.symm

theorem replaceInitMember_represents (hr : Represents h L) (hd : Detached L new)
    (hL : L head = some (xs ++ old :: ys)) :
    Represents (listReplaceInit h old new) (Function.update
      (Function.update (Function.update L new none) head (some (xs ++ new :: ys))) old
      (some [])) := by
  have hmem : old ∈ xs ++ old :: ys := List.mem_append_cons_self
  have hhead := hd.ne_head hL (List.ne_nil_of_mem hmem)
  have hold : old ∉ head :: (xs ++ new :: ys) := by
    rw [mem_node, not_or]
    exact ⟨hd.ne_member hL hmem, (nodup_node.mp (hr.sequence hL).nodup).1⟩
  have hL' : Function.update L new none head = some (xs ++ old :: ys) := by
    rwa [Function.update_of_ne hhead]
  have hfresh := (hr.release new).fresh_edit hL' hmem hold
  exact init_represents (replaceMember_represents (hr.release new) hL' hd.fresh) hfresh.not_member

theorem replaceInitHead_represents (hr : Represents h L) (hd : Detached L new) (hne : new ≠ old)
    (hL : L old = some xs) :
    Represents (listReplaceInit h old new)
      (Function.update (Function.update L new (some xs)) old (some [])) := by
  have hstate : Function.update (Function.update L new (some xs)) old (some []) =
      Function.update (Function.update (Function.update L old none) new (some xs)) old
        (some []) := by
    have hcomm : Function.update (Function.update L old none) new (some xs) =
        Function.update (Function.update L new (some xs)) old none :=
      Function.update_comm hne.symm ..
    rw [hcomm, Function.update_idem]
  rw [hstate]
  apply init_represents (replaceHead_represents hr hL hd hne)
  intro j zs hj hz
  rcases of_update_some hj with ⟨rfl, rfl⟩ | ⟨-, hj⟩
  · exact (List.nodup_cons.mp (hr.sequence hL).nodup).1 hz
  · obtain ⟨hjo, hj⟩ := of_update_none hj
    exact hjo (hr.unshared hj hL (List.mem_cons_of_mem j hz) List.mem_cons_self)

/-- **One operation.** -/
theorem effect_represents {op : Op α} (hr : Represents h L) (he : Effect L op L') :
    Represents (op.apply h) L' := by
  cases he with
  | init free => exact init_represents hr free
  | add detached ne list => exact add_represents hr detached ne list
  | addTail detached ne list => exact addTail_represents hr detached ne list
  | del list => exact del_represents hr list
  | @replaceMember head old new xs ys detached list =>
      have hhead := detached.ne_head list (List.append_ne_nil_of_right_ne_nil xs
        (List.cons_ne_nil old ys))
      have hL : Function.update L new none head = some (xs ++ old :: ys) := by
        rwa [Function.update_of_ne hhead]
      exact replaceMember_represents (hr.release new) hL detached.fresh
  | replaceHead detached ne list => exact replaceHead_represents hr list detached ne
  | replaceInitMember detached list => exact replaceInitMember_represents hr detached list
  | replaceInitHead detached ne list => exact replaceInitHead_represents hr detached ne list

/-! ## Runs -/

def run (h : Heap α) (ops : List (Op α)) : Heap α := ops.foldl Op.apply h

/-- The effects of a list of operations, one after the other. -/
inductive Effects : Lists α → List (Op α) → Lists α → Prop
  | nil {L : Lists α} : Effects L [] L
  | cons {L M N : Lists α} {op : Op α} {ops : List (Op α)} (head : Effect L op M)
      (tail : Effects M ops N) : Effects L (op :: ops) N

theorem effects_represents {ops : List (Op α)} (hr : Represents h L) (he : Effects L ops L') :
    Represents (run h ops) L' := by
  induction he generalizing h with
  | nil => exact hr
  | cons hop _ ih => exact ih (effect_represents hr hop)

/-! ## Queries -/

theorem listEmpty_iff (hs : Sequence h head xs) : listEmpty h head = true ↔ xs = [] := by
  unfold listEmpty
  rw [decide_eq_true_iff]
  cases xs with
  | nil => exact iff_of_true hs.forward rfl
  | cons x xs =>
      refine iff_of_false ?_ (List.cons_ne_nil x xs)
      rw [hs.forward.1]
      rintro rfl
      exact (List.nodup_cons.mp hs.nodup).1 List.mem_cons_self

theorem listIsFirst_iff (hs : Sequence h head xs) (hx : x ∈ xs) :
    listIsFirst h x head = true ↔ xs.head? = some x := by
  have hnodup := hs.nodup
  rw [sequence_iff] at hs
  obtain ⟨pre, post, rfl⟩ := List.append_of_mem hx
  obtain ⟨-, -, hleft, -⟩ := linked_node.mp hs.linked
  unfold listIsFirst
  rw [decide_eq_true_iff, hleft.back]
  cases pre with
  | nil => exact iff_of_true rfl rfl
  | cons p pre =>
      rw [List.cons_append, List.head?_cons, Option.some_inj, List.getLastD_cons]
      obtain ⟨hhead, htail⟩ := List.nodup_cons.mp hnodup
      refine iff_of_false ?_ ?_
      · rintro rfl
        exact hhead (List.mem_append_left (x :: post) List.getLastD_mem_cons)
      · rintro rfl
        exact (List.nodup_cons.mp htail).1 (List.mem_append_right pre List.mem_cons_self)

theorem listIsLast_iff (hs : Sequence h head xs) (hx : x ∈ xs) :
    listIsLast h x head = true ↔ xs.getLast? = some x := by
  have hnodup := hs.nodup
  rw [sequence_iff] at hs
  obtain ⟨pre, post, rfl⟩ := List.append_of_mem hx
  obtain ⟨-, -, -, hright⟩ := linked_node.mp hs.linked
  unfold listIsLast
  rw [decide_eq_true_iff, hright.forth]
  cases post with
  | nil => exact iff_of_true rfl List.getLast?_concat
  | cons q post =>
      rw [List.headD_cons, List.getLast?_append_cons, List.getLast?_cons_cons, getLast?_cons_eq,
        Option.some_inj]
      obtain ⟨hhead, htail⟩ := List.nodup_cons.mp hnodup
      obtain ⟨-, hpost, -⟩ := List.nodup_append.mp htail
      refine iff_of_false ?_ ?_
      · rintro rfl
        exact hhead (List.mem_append_right pre (List.mem_cons_of_mem x List.mem_cons_self))
      · rintro rfl
        exact (List.nodup_cons.mp hpost).1 List.getLastD_mem_cons

/-- **The intrusive list implements a sequence**: after any run of operations every list is the
sequence that the effects give it, and the queries answer by it. -/
theorem run_represents {ops : List (Op α)} (hr : Represents h L) (he : Effects L ops L') :
    Represents (run h ops) L' ∧ ∀ head xs, L' head = some xs →
      (listEmpty (run h ops) head = true ↔ xs = []) ∧
      ∀ x ∈ xs, (listIsFirst (run h ops) x head = true ↔ xs.head? = some x) ∧
        (listIsLast (run h ops) x head = true ↔ xs.getLast? = some x) := by
  have hrun := effects_represents hr he
  refine ⟨hrun, fun head xs hL => ?_⟩
  have hs := hrun.sequence hL
  exact ⟨listEmpty_iff hs, fun x hx => ⟨listIsFirst_iff hs hx, listIsLast_iff hs hx⟩⟩

/-- The list of head 0 gets the member 1 and is taken over by the head 2. -/
theorem run_represents_takeOver :
    let h := run ⟨id, id⟩ [Op.init 0, Op.add 1 0, Op.replaceInit 0 2]
    Sequence h 2 [1] ∧ Sequence h 0 [] ∧ listIsFirst h 1 2 = true := by
  have hr : Represents (⟨id, id⟩ : Heap Nat) fun _ => none :=
    ⟨fun hL => (nomatch hL), fun hL => (nomatch hL)⟩
  obtain ⟨L, he, htwo, hzero⟩ : ∃ L : Lists Nat,
      Effects (fun _ => none) [Op.init 0, Op.add 1 0, Op.replaceInit 0 2] L ∧
        L 2 = some [1] ∧ L 0 = some [] := by
    refine ⟨_, .cons (.init ?_) (.cons (.add ?_ ?_ (Function.update_self ..))
      (.cons (.replaceInitHead ?_ ?_ (Function.update_self ..)) .nil)), rfl, rfl⟩
    all_goals simp +contextual [Detached, Function.update_apply]
  obtain ⟨hrun, hqueries⟩ := run_represents hr he
  exact ⟨hrun.sequence htwo, hrun.sequence hzero,
    ((hqueries 2 [1] htwo).2 1 (by decide)).1.mpr rfl⟩

end Eeos.ListHead
