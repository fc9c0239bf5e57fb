import Eeos.Lib.ByteMem

/-!
# Block operations of `lib/libc/string.c`

`memcpy`, `memmove` and `memset` as the loops of the source over a byte memory.  Each is one
`blit`:

* `memset_eq` — `count` copies of the byte;
* `memcpyFrom_eq` — the source bytes;
* `memmove_eq` — the source bytes, for **every** overlap.  The direction test is what makes the
  condition of the chosen loop (`copyUp_eq`, `copyDown_eq`) true.  `memmove_moves` spells it out.

`memcpyFrom` is `memcpy` out of a read-only string object: running past the object fails.
-/

namespace Eeos.Str

open ByteMem

/-- `while (count--) *tmp++ = *s++;` -/
def copyUp (m : Mem) (tmp s : Addr) : Nat → Mem
  | 0 => m
  | count + 1 => copyUp (store m tmp (m s)) (tmp + 1) (s + 1) count

/-- `while (count--) *--tmp = *--s;` -/
def copyDown (m : Mem) (tmp s : Addr) : Nat → Mem
  | 0 => m
  | count + 1 => copyDown (store m (tmp - 1) (m (s - 1))) (tmp - 1) (s - 1) count

def memcpy (m : Mem) (dest src : Addr) (count : Nat) : Mem := copyUp m dest src count

def memmove (m : Mem) (dest src : Addr) (count : Nat) : Mem :=
  if dest ≤ src then copyUp m dest src count
  else copyDown m (dest + BitVec.ofNat 64 count) (src + BitVec.ofNat 64 count) count

def memset (m : Mem) (s : Addr) (c : Byte) : Nat → Mem
  | 0 => m
  | count + 1 => memset (store m s c) (s + 1) c count

/-- `memcpy` whose source is a string object, given by its bytes from `src` on. -/
def memcpyFrom (m : Mem) (dest : Addr) : List Byte → Nat → Option Mem
  | _, 0 => some m
  | [], _ + 1 => none
  | c :: src, count + 1 => memcpyFrom (store m dest c) (dest + 1) src count

/-! ## Pointer steps -/

theorem add_one_add (p : Addr) (i : Nat) :
    p + 1 + BitVec.ofNat 64 i = p + BitVec.ofNat 64 (i + 1) := by
  bv_omega

theorem add_succ_sub_one (p : Addr) (n : Nat) :
    p + BitVec.ofNat 64 (n + 1) - 1 = p + BitVec.ofNat 64 n := by
  bv_omega

theorem bytesAt_succ (m : Mem) (p : Addr) (n : Nat) :
    bytesAt m p (n + 1) = m p :: bytesAt m (p + 1) n := by
  simp only [bytesAt, List.range_succ_eq_map, List.map_cons, List.map_map]
  congr 1
  · simp
  · apply List.map_congr_left
    intro i _
    rw [Function.comp_apply, add_one_add]

theorem bytesAt_succ_last (m : Mem) (p : Addr) (n : Nat) :
    bytesAt m p (n + 1) = bytesAt m p n ++ [m (p + BitVec.ofNat 64 n)] := by
  simp [bytesAt, List.range_succ]

theorem bytesAt_store_of_ne (m : Mem) (p a : Addr) (v : Byte) (n : Nat)
    (h : ∀ i < n, p + BitVec.ofNat 64 i ≠ a) : bytesAt (store m a v) p n = bytesAt m p n := by
  apply List.map_congr_left
  intro i hi
  simp [store, h i (List.mem_range.mp hi)]

theorem store_then_blit (m : Mem) (p : Addr) (v : Byte) {l : List Byte} (hl : l.length < 2 ^ 64) :
    blit (store m p v) (p + 1) l = blit m p (v :: l) := by
  have := blit_append m p (l := [v]) (y := l) (by simp; omega)
  rw [store_eq_blit]
  simpa using this

/-! ## The loops as one `blit` -/

theorem memset_eq (m : Mem) (s : Addr) (c : Byte) {count : Nat} (h : count ≤ 2 ^ 64) :
    memset m s c count = blit m s (List.replicate count c) := by
  induction count generalizing m s with
  | zero => simp [memset]
  | succ count ih =>
    rw [memset, ih _ _ (by omega), store_then_blit _ _ _ (by simp; omega), List.replicate_succ]

theorem memcpyFrom_eq (m : Mem) (dest : Addr) {src : List Byte} {count : Nat}
    (hs : count ≤ src.length) (h : count ≤ 2 ^ 64) :
    memcpyFrom m dest src count = some (blit m dest (src.take count)) := by
  induction count generalizing m dest src with
  | zero => simp [memcpyFrom]
  | succ count ih =>
    cases src with
    | nil => simp at hs
    | cons c src =>
      simp only [List.length_cons] at hs
      rw [memcpyFrom, ih _ _ (by omega) (by omega),
        store_then_blit _ _ _ (by simp; omega), List.take_succ_cons]

/-- The forward loop is right when no byte is overwritten before it is read. -/
theorem copyUp_eq (m : Mem) (d s : Addr) {n : Nat} (hn : n ≤ 2 ^ 64)
    (h : ∀ i j, i < j → j < n → d + BitVec.ofNat 64 i ≠ s + BitVec.ofNat 64 j) :
    copyUp m d s n = blit m d (bytesAt m s n) := by
  induction n generalizing m d s with
  | zero => simp [copyUp, bytesAt]
  | succ n ih =>
    have hd : ∀ i < n, s + 1 + BitVec.ofNat 64 i ≠ d := by
      intro i hi he
      refine h 0 (i + 1) (by omega) (by omega) ?_
      rw [← add_one_add s, he]
      simp
    rw [copyUp, ih _ _ _ (by omega) fun i j hij hj => ?_, bytesAt_store_of_ne _ _ _ _ _ hd,
      store_then_blit _ _ _ (by simp; omega), bytesAt_succ]
    rw [add_one_add, add_one_add]
    exact h (i + 1) (j + 1) (by omega) (by omega)

/-- The backward loop is right when no byte is overwritten before it is read. -/
theorem copyDown_eq (m : Mem) (d s : Addr) {n : Nat} (hn : n ≤ 2 ^ 64)
    (h : ∀ i j, i < j → j < n → d + BitVec.ofNat 64 j ≠ s + BitVec.ofNat 64 i) :
    copyDown m (d + BitVec.ofNat 64 n) (s + BitVec.ofNat 64 n) n = blit m d (bytesAt m s n) := by
  induction n generalizing m with
  | zero => simp [copyDown, bytesAt]
  | succ n ih =>
    have hd : ∀ i < n, s + BitVec.ofNat 64 i ≠ d + BitVec.ofNat 64 n :=
      fun i hi he => h i n hi (by omega) he.symm
    rw [copyDown, add_succ_sub_one, add_succ_sub_one,
      ih _ (by omega) fun i j hij hj => h i j hij (by omega), bytesAt_store_of_ne _ _ _ _ _ hd,
      store_eq_blit, bytesAt_succ_last]
    have := blit_under m d (x := bytesAt m s n) (y := [m (s + BitVec.ofNat 64 n)])
      (by simp; omega)
    rwa [length_bytesAt] at this

/-- `memmove` copies correctly for every overlap of two ranges that do not wrap. -/
theorem memmove_eq (m : Mem) (dest src : Addr) {count : Nat} (hd : dest.toNat + count ≤ 2 ^ 64)
    (hs : src.toNat + count ≤ 2 ^ 64) :
    memmove m dest src count = blit m dest (bytesAt m src count) := by
  unfold memmove
  split
  · rename_i hle
    apply copyUp_eq _ _ _ (by omega)
    intro i j hij hj he
    bv_omega
  · rename_i hlt
    apply copyDown_eq _ _ _ (by omega)
    intro i j hij hj he
    bv_omega

/-- **`memmove` is right for every overlap**: the bytes arrive as they were, no other byte changes,
and without an overlap it is `memcpy`. -/
theorem memmove_moves (m : Mem) (dest src : Addr) {count : Nat}
    (hd : dest.toNat + count ≤ 2 ^ 64) (hs : src.toNat + count ≤ 2 ^ 64) :
    bytesAt (memmove m dest src count) dest count = bytesAt m src count ∧
      (∀ a, a.toNat < dest.toNat ∨ dest.toNat + count ≤ a.toNat →
        memmove m dest src count a = m a) ∧
      ((∀ i < count, ∀ j < count, dest + BitVec.ofNat 64 i ≠ src + BitVec.ofNat 64 j) →
        memmove m dest src count = memcpy m dest src count) := by
  rw [memmove_eq m dest src hd hs]
  refine ⟨?_, ?_, ?_⟩
  · have hread := bytesAt_blit_start m dest (l := bytesAt m src count) (n := count)
      (by rw [length_bytesAt]) (by rw [length_bytesAt]; omega)
    rwa [List.take_of_length_le (by rw [length_bytesAt])] at hread
  · intro a ha
    apply blit_off
    rw [length_bytesAt]
    have hpos : offset dest a = (2 ^ 64 - dest.toNat + a.toNat) % 2 ^ 64 := by
      rw [offset, BitVec.toNat_sub]
    omega
  · intro hdisjoint
    unfold memcpy
    rw [copyUp_eq m dest src (by omega) fun i j hij hj => hdisjoint i (by omega) j hj]

/-- Three bytes moved up by one. -/
theorem memmove_moves_up :
    let m : Mem := blit (fun _ => 0) 16 [1, 2, 3]
    bytesAt (memmove m 17 16 3) 17 3 = bytesAt m 16 3 ∧ memmove m 17 16 3 16 = 1 :=
  have h := memmove_moves (blit (fun _ => 0) 16 [1, 2, 3]) 17 16
    (show (17 : Addr).toNat + 3 ≤ 2 ^ 64 by decide) (by decide)
  ⟨h.1, (h.2.1 16 (by decide)).trans (by decide)⟩

end Eeos.Str
