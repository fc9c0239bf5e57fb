import Mathlib.Tactic.Ring

/-!
# Byte memory with 64-bit addresses

A flat memory `Mem` maps every 64-bit address to a byte; address arithmetic is modulo `2^64`.

* `blit m p l` — the memory `m` with the bytes of `l` laid down from `p` on.  Every store of a
  run of bytes is stated as one `blit`, and runs of stores are composed by its algebra:
  `blit_append`, `blit_overwrite`, `blit_under`.
* `bytesAt m p n` — the `n` bytes from `p` on.

Principal results: `blit_at` / `blit_off` (what a `blit` changes and what it leaves alone) and
the three composition laws.  No law needs the run to stay below `2^64`; they only ask that it is
no longer than the address space.
-/

namespace ByteMem

abbrev Byte := BitVec 8
abbrev Addr := BitVec 64
abbrev Mem := Addr → Byte

/-- Store one byte. -/
def store (m : Mem) (a : Addr) (v : Byte) : Mem := fun b => if b = a then v else m b

/-- How far `a` lies above `p`, around the address space. -/
def offset (p a : Addr) : Nat := (a - p).toNat

/-- Lay down the bytes of `l` from `p` on. -/
def blit (m : Mem) (p : Addr) (l : List Byte) : Mem := fun a => l.getD (offset p a) (m a)

/-- The `n` bytes from `p` on. -/
def bytesAt (m : Mem) (p : Addr) (n : Nat) : List Byte :=
  (List.range n).map fun i => m (p + BitVec.ofNat 64 i)

/-! ## Offsets -/

theorem offset_lt (p a : Addr) : offset p a < 2 ^ 64 := (a - p).isLt

theorem offset_add (p : Addr) {i : Nat} (hi : i < 2 ^ 64) :
    offset p (p + BitVec.ofNat 64 i) = i := by
  unfold offset; bv_omega

theorem offset_eq_zero {p a : Addr} : offset p a = 0 ↔ a = p := by
  unfold offset; bv_omega

/-- Inside a range that does not wrap, the offset is the difference of the addresses. -/
theorem offset_of_le {p a : Addr} (h : p.toNat ≤ a.toNat) : offset p a = a.toNat - p.toNat := by
  unfold offset; bv_omega

theorem addr_add_add (p : Addr) (i j : Nat) :
    p + BitVec.ofNat 64 i + BitVec.ofNat 64 j = p + BitVec.ofNat 64 (i + j) := by
  rw [BitVec.ofNat_add, BitVec.add_assoc]

/-- The offset from a base moved up by `n`: it wraps below the new base. -/
theorem offset_base_add (p a : Addr) {n : Nat} (hn : n < 2 ^ 64) :
    offset (p + BitVec.ofNat 64 n) a =
      if n ≤ offset p a then offset p a - n else offset p a + 2 ^ 64 - n := by
  unfold offset
  split <;> bv_omega

/-! ## What a `blit` changes -/

@[simp] theorem blit_nil (m : Mem) (p : Addr) : blit m p [] = m := by
  funext a; simp [blit]

theorem blit_at (m : Mem) (p : Addr) {l : List Byte} {i : Nat} (hi : i < l.length)
    (hl : l.length ≤ 2 ^ 64) : blit m p l (p + BitVec.ofNat 64 i) = l[i] := by
  simp only [blit, offset_add p (show i < 2 ^ 64 by omega)]
  simp [List.getD_eq_getElem?_getD, hi]

theorem blit_off (m : Mem) {p a : Addr} {l : List Byte} (h : l.length ≤ offset p a) :
    blit m p l a = m a := by
  simp [blit, List.getD_eq_getElem?_getD, List.getElem?_eq_none h]

theorem store_eq_blit (m : Mem) (p : Addr) (v : Byte) : store m p v = blit m p [v] := by
  funext a
  by_cases h : a = p
  · subst h; simp [store, blit, offset]
  · have : 1 ≤ offset p a := by
      have := mt offset_eq_zero.mp h
      omega
    rw [blit_off _ (by simpa using this)]
    simp [store, h]

/-! ## Composition -/

/-- A run laid over the tail of a longer-or-equal run replaces it. -/
theorem blit_overwrite (m : Mem) (p : Addr) {l x y : List Byte} (hxy : x.length ≤ y.length)
    (hl : l.length + y.length ≤ 2 ^ 64) :
    blit (blit m p (l ++ x)) (p + BitVec.ofNat 64 l.length) y = blit m p (l ++ y) := by
  rcases Nat.eq_or_lt_of_le (show l.length ≤ 2 ^ 64 by omega) with he | hlt
  · -- the first run fills the address space, so both tails are empty
    have hy : y = [] := List.length_eq_zero_iff.mp (by omega)
    have hx : x = [] := List.length_eq_zero_iff.mp (by simp [hy] at hxy; simp [hxy])
    simp [hx, hy]
  · funext a
    have ho := offset_base_add p a hlt
    have hk := offset_lt p a
    simp only [blit, List.getD_eq_getElem?_getD, List.getElem?_append]
    by_cases hle : l.length ≤ offset p a
    · rw [if_pos hle] at ho
      rw [ho, if_neg (by omega), if_neg (by omega)]
      cases hy : y[offset p a - l.length]? with
      | some b => simp
      | none =>
        have : x[offset p a - l.length]? = none := by
          rw [List.getElem?_eq_none_iff] at hy ⊢; omega
        simp [this]
    · rw [if_neg hle] at ho
      rw [ho, if_pos (by omega), if_pos (by omega), List.getElem?_eq_none (by omega)]
      simp

theorem blit_append (m : Mem) (p : Addr) {l y : List Byte} (hl : l.length + y.length ≤ 2 ^ 64) :
    blit (blit m p l) (p + BitVec.ofNat 64 l.length) y = blit m p (l ++ y) := by
  have := blit_overwrite m p (l := l) (x := []) (y := y) (by simp) hl
  simpa using this

/-- A run laid down just below another one. -/
theorem blit_under (m : Mem) (p : Addr) {x y : List Byte} (hl : x.length + y.length ≤ 2 ^ 64) :
    blit (blit m (p + BitVec.ofNat 64 x.length) y) p x = blit m p (x ++ y) := by
  rcases Nat.eq_or_lt_of_le (show x.length ≤ 2 ^ 64 by omega) with he | hlt
  · have hy : y = [] := List.length_eq_zero_iff.mp (by omega)
    simp [hy]
  · funext a
    have ho := offset_base_add p a hlt
    simp only [blit, List.getD_eq_getElem?_getD, List.getElem?_append]
    by_cases hle : x.length ≤ offset p a
    · rw [if_pos hle] at ho
      rw [ho, if_neg (by omega), List.getElem?_eq_none (by omega)]
      simp
    · rw [if_neg hle] at ho
      rw [if_pos (by omega), List.getElem?_eq_getElem (by omega)]
      simp

theorem store_after_blit (m : Mem) (p : Addr) {l : List Byte} (v : Byte) (hl : l.length < 2 ^ 64) :
    store (blit m p l) (p + BitVec.ofNat 64 l.length) v = blit m p (l ++ [v]) := by
  rw [store_eq_blit, blit_append _ _ (by simp; omega)]

/-! ## Reading back -/

@[simp] theorem length_bytesAt (m : Mem) (p : Addr) (n : Nat) : (bytesAt m p n).length = n := by
  simp [bytesAt]

theorem getElem_bytesAt (m : Mem) (p : Addr) {n i : Nat} (hi : i < (bytesAt m p n).length) :
    (bytesAt m p n)[i] = m (p + BitVec.ofNat 64 i) := by
  simp [bytesAt]

theorem bytesAt_add (m : Mem) (p : Addr) (n k : Nat) :
    bytesAt m p (n + k) = bytesAt m p n ++ bytesAt m (p + BitVec.ofNat 64 n) k := by
  simp only [bytesAt, List.range_add, List.map_append, List.map_map]
  congr 1
  apply List.map_congr_left
  intro i _
  rw [Function.comp_apply, addr_add_add]

/-- A stretch of a laid-down run reads back as that stretch. -/
theorem bytesAt_blit (m : Mem) (p : Addr) {l : List Byte} {i n : Nat} (hn : i + n ≤ l.length)
    (hl : l.length ≤ 2 ^ 64) :
    bytesAt (blit m p l) (p + BitVec.ofNat 64 i) n = (l.drop i).take n := by
  apply List.ext_getElem
  · simp; omega
  · intro j h1 h2
    simp only [length_bytesAt] at h1
    rw [getElem_bytesAt, addr_add_add, blit_at m p (by omega) hl]
    simp

theorem bytesAt_blit_start (m : Mem) (p : Addr) {l : List Byte} {n : Nat} (hn : n ≤ l.length)
    (hl : l.length ≤ 2 ^ 64) : bytesAt (blit m p l) p n = l.take n := by
  have := bytesAt_blit m p (i := 0) (n := n) (by omega) hl
  rwa [show p + BitVec.ofNat 64 0 = p from BitVec.add_zero p, List.drop_zero] at this

end ByteMem
