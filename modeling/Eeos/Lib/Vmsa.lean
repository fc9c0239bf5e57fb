import Mathlib.Tactic.Ring

/-!
# Address translation with 4 KiB pages

The translation walk of AArch64 with a 4 KiB granule and 48-bit addresses, over a physical memory
of 64-bit words.  A table has 512 descriptors; level `ℓ` is indexed by the nine address bits from
`shift ℓ = 39 - 9 ℓ` on.  A descriptor with bit 0 clear is invalid; with bit 1 set it points to the
next table, or at level 3 to a page; with bit 1 clear it is a block, at levels 1 and 2 only.

* `walk m ttbr va` — the leaf that translates `va`, with its output address.
* `Reachable m root level tbl` — a walk from `root` can come to the table at `tbl`.
* `fill m tbl i n d` — `n` consecutive descriptors written into a table from index `i` on.

Principal results: `walkLevel_table` / `walkLevel_leaf` / `walkLevel_invalid` (one level of the
walk, by what it reads), `walkLevel_congr` (two memories level by level) and `fill_at` /
`fill_off` (what a run of descriptors changes).
-/

namespace Vmsa

abbrev Word := BitVec 64

/-- Physical memory: the word at each (eight-byte aligned) address. -/
abbrev Words := Nat → Word

/-- The `n` bits of `x` from `lo` on. -/
def bits (lo n : Nat) (x : Word) : Nat := x.toNat / 2 ^ lo % 2 ^ n

theorem bits_lt (lo n : Nat) (x : Word) : bits lo n x < 2 ^ n :=
  Nat.mod_lt _ (Nat.two_pow_pos n)

@[simp] theorem bits_zero (lo n : Nat) : bits lo n 0 = 0 := by simp [bits]

theorem bits_or (lo n : Nat) (x y : Word) : bits lo n (x ||| y) = bits lo n x ||| bits lo n y := by
  simp only [bits, BitVec.toNat_or, ← Nat.shiftRight_eq_div_pow, Nat.shiftRight_or_distrib,
    Nat.or_mod_two_pow]

/-! ## The walk -/

inductive Kind where
  | invalid
  | table
  | leaf
  deriving DecidableEq, Repr

def kind (level : Nat) (d : Word) : Kind :=
  if bits 0 1 d = 0 then .invalid
  else if bits 1 1 d = 1 then if level = 3 then .leaf else .table
  else if level = 1 ∨ level = 2 then .leaf else .invalid

theorem kind_zero (level : Nat) : kind level 0 = .invalid := by
  rw [kind, if_pos (bits_zero 0 1)]

/-- The lowest address bit that level `level` resolves. -/
def shift (level : Nat) : Nat := 39 - 9 * level

/-- The descriptor that level `level` reads for `va`. -/
def entryAddr (level tbl : Nat) (va : Word) : Nat := tbl + 8 * bits (shift level) 9 va

/-- Bits 47:12. -/
def nextTable (d : Word) : Nat := bits 12 36 d * 2 ^ 12

/-- The output address of a leaf: its bits from `shift level` to 47, then the offset. -/
def outputAddr (level : Nat) (d va : Word) : Nat :=
  bits (shift level) (48 - shift level) d * 2 ^ shift level + bits 0 (shift level) va

structure Leaf where
  level : Nat
  desc : Word
  pa : Nat
  deriving DecidableEq, Repr

/-- The walk with `n` levels to go. -/
def walkLevel (m : Words) (va : Word) : Nat → Nat → Option Leaf
  | 0, _ => none
  | n + 1, tbl =>
    let d := m (entryAddr (3 - n) tbl va)
    match kind (3 - n) d with
    | .invalid => none
    | .table => walkLevel m va n (nextTable d)
    | .leaf => some ⟨3 - n, d, outputAddr (3 - n) d va⟩

def walk (m : Words) (ttbr : Nat) (va : Word) : Option Leaf := walkLevel m va 4 ttbr

/-- AttrIndx, the memory type. -/
def Leaf.memType (l : Leaf) : Nat := bits 2 3 l.desc

/-- SH. -/
def Leaf.shareability (l : Leaf) : Nat := bits 8 2 l.desc

/-- AF. -/
def Leaf.accessFlag (l : Leaf) : Nat := bits 10 1 l.desc

section Walk

variable {m : Words} {va d : Word} {n tbl : Nat}

theorem walkLevel_table (h : m (entryAddr (3 - n) tbl va) = d) (hk : kind (3 - n) d = .table) :
    walkLevel m va (n + 1) tbl = walkLevel m va n (nextTable d) := by
  simp only [walkLevel, h, hk]

theorem walkLevel_leaf (h : m (entryAddr (3 - n) tbl va) = d) (hk : kind (3 - n) d = .leaf) :
    walkLevel m va (n + 1) tbl = some ⟨3 - n, d, outputAddr (3 - n) d va⟩ := by
  simp only [walkLevel, h, hk]

theorem walkLevel_invalid (h : m (entryAddr (3 - n) tbl va) = 0) :
    walkLevel m va (n + 1) tbl = none := by
  simp only [walkLevel, h, kind_zero]

/-- A level that reads the same descriptor goes on as the rest of the walk does. -/
theorem walkLevel_congr {m' : Words}
    (hread : m' (entryAddr (3 - n) tbl va) = m (entryAddr (3 - n) tbl va))
    (hnext : kind (3 - n) (m (entryAddr (3 - n) tbl va)) = .table →
      walkLevel m' va n (nextTable (m (entryAddr (3 - n) tbl va))) =
        walkLevel m va n (nextTable (m (entryAddr (3 - n) tbl va)))) :
    walkLevel m' va (n + 1) tbl = walkLevel m va (n + 1) tbl := by
  simp only [walkLevel, hread]
  cases hk : kind (3 - n) (m (entryAddr (3 - n) tbl va)) with
  | invalid => rfl
  | table => exact hnext hk
  | leaf => rfl

end Walk

/-- The tables that a walk from `root` can come to, each with its level. -/
inductive Reachable (m : Words) (root : Nat) : Nat → Nat → Prop where
  | root : Reachable m root 0 root
  | next {level tbl i : Nat} (h : Reachable m root level tbl) (hi : i < 512)
      (hk : kind level (m (tbl + 8 * i)) = .table) :
      Reachable m root (level + 1) (nextTable (m (tbl + 8 * i)))

/-! ## Descriptors -/

theorem bits_ofNat {x : Nat} (hx : x < 2 ^ 64) (lo n : Nat) :
    bits lo n (BitVec.ofNat 64 x) = x / 2 ^ lo % 2 ^ n := by
  rw [bits, BitVec.toNat_ofNat, Nat.mod_eq_of_lt hx]

/-- The bits below the alignment of an address are zero. -/
theorem bits_low_aligned {x k : Nat} (hx : x < 2 ^ 64) (ha : x % 2 ^ k = 0) {lo n : Nat}
    (hn : lo + n ≤ k) : bits lo n (BitVec.ofNat 64 x) = 0 := by
  obtain ⟨q, rfl⟩ := Nat.dvd_of_mod_eq_zero ha
  obtain ⟨j, rfl⟩ : ∃ j, k = lo + n + j := ⟨k - (lo + n), by omega⟩
  rw [bits_ofNat hx, Nat.pow_add, Nat.pow_add, Nat.mul_assoc, Nat.mul_assoc,
    Nat.mul_div_cancel_left _ (Nat.two_pow_pos lo), Nat.mul_mod_right]

/-- A page-aligned address with attribute bits ored in is recovered by `nextTable`. -/
theorem nextTable_or {x : Nat} (hx : x < 2 ^ 48) (ha : x % 2 ^ 12 = 0) {flags : Word}
    (hf : bits 12 36 flags = 0) : nextTable (BitVec.ofNat 64 x ||| flags) = x := by
  rw [nextTable, bits_or, hf, Nat.or_zero, bits_ofNat (by omega)]
  omega

/-- The low bits of a descriptor are those of its attributes. -/
theorem bits_or_aligned {x k : Nat} (hx : x < 2 ^ 64) (ha : x % 2 ^ k = 0) {lo n : Nat}
    (hn : lo + n ≤ k) (flags : Word) :
    bits lo n (BitVec.ofNat 64 x ||| flags) = bits lo n flags := by
  rw [bits_or, bits_low_aligned hx ha hn, Nat.zero_or]

/-- An index into a table, as code computes it. -/
theorem toNat_mask_index (x : Word) : (x &&& (512 - 1)).toNat = x.toNat % 512 := by
  rw [BitVec.toNat_and]
  exact Nat.and_two_pow_sub_one_eq_mod x.toNat 9

theorem toNat_index (lo : Nat) (va : Word) : ((va >>> lo) &&& (512 - 1)).toNat = bits lo 9 va := by
  rw [toNat_mask_index, BitVec.toNat_ushiftRight, Nat.shiftRight_eq_div_pow]
  rfl

/-- Masking an address to its page. -/
theorem toNat_page_mask (x : Word) : (x &&& ~~~4095).toNat = x.toNat / 4096 * 4096 := by
  have hsplit : (x &&& ~~~4095) ||| (x &&& 4095) = x := by
    ext i
    simp only [BitVec.getElem_or, BitVec.getElem_and, BitVec.getElem_not]
    cases x[i] <;> simp
  have hdisj : (x &&& ~~~4095) &&& (x &&& 4095) = 0 := by
    ext i
    simp only [BitVec.getElem_and, BitVec.getElem_not]
    cases x[i] <;> simp
  have hadd := BitVec.add_eq_or_of_and_eq_zero _ _ hdisj
  have hlow : (x &&& 4095).toNat = x.toNat % 4096 := by
    rw [BitVec.toNat_and]
    exact Nat.and_two_pow_sub_one_eq_mod x.toNat 12
  have hle : (x &&& ~~~4095).toNat ≤ x.toNat := by
    rw [BitVec.toNat_and]
    exact Nat.and_le_left
  have hsum : ((x &&& ~~~4095) + (x &&& 4095)).toNat = x.toNat := by rw [hadd, hsplit]
  rw [BitVec.toNat_add, hlow] at hsum
  omega

/-- Masking a page-aligned address to its page. -/
theorem page_mask {x : Word} (h : x.toNat % 4096 = 0) : x &&& ~~~4095 = x := by
  apply BitVec.eq_of_toNat_eq
  rw [toNat_page_mask]
  omega

/-! ## Runs of descriptors -/

/-- `n` descriptors from index `i` of the table at `tbl` on. -/
def fill (m : Words) (tbl i n : Nat) (d : Nat → Word) : Words := fun a =>
  if tbl + 8 * i ≤ a ∧ a < tbl + 8 * (i + n) ∧ (a - tbl) % 8 = 0 then d ((a - tbl) / 8 - i) else m a

theorem fill_at (m : Words) (tbl i n : Nat) (d : Nat → Word) {k : Nat} (hk : k < n) :
    fill m tbl i n d (tbl + 8 * (i + k)) = d k := by
  rw [fill, if_pos ⟨by omega, by omega, by omega⟩]
  congr 1
  omega

theorem fill_off (m : Words) (tbl i n : Nat) (d : Nat → Word) {a : Nat}
    (h : a < tbl + 8 * i ∨ tbl + 8 * (i + n) ≤ a) : fill m tbl i n d a = m a := by
  rw [fill, if_neg (by omega)]

theorem fill_zero (m : Words) (tbl i : Nat) (d : Nat → Word) : fill m tbl i 0 d = m := by
  funext a
  exact fill_off _ _ _ _ _ (by omega)

/-- A run of descriptors, first the one at its start. -/
theorem fill_succ (m : Words) (tbl i n : Nat) (d : Nat → Word) :
    fill (Function.update m (tbl + 8 * i) (d 0)) tbl (i + 1) n (fun k => d (k + 1)) =
      fill m tbl i (n + 1) d := by
  funext a
  unfold fill
  by_cases ha : a = tbl + 8 * i
  · subst ha
    rw [if_neg (by omega), if_pos ⟨by omega, by omega, by omega⟩, Function.update_self]
    congr 1
    omega
  · rw [Function.update_of_ne ha]
    by_cases hin : tbl + 8 * (i + 1) ≤ a ∧ a < tbl + 8 * (i + 1 + n) ∧ (a - tbl) % 8 = 0
    · rw [if_pos hin, if_pos ⟨by omega, by omega, by omega⟩]
      have : (a - tbl) / 8 - (i + 1) + 1 = (a - tbl) / 8 - i := by omega
      exact congrArg d this
    · rw [if_neg hin, if_neg fun h => hin ⟨by omega, by omega, h.2.2⟩]

theorem fill_one (m : Words) (tbl i : Nat) (d : Nat → Word) :
    fill m tbl i 1 d = Function.update m (tbl + 8 * i) (d 0) := by
  rw [← fill_succ, fill_zero]

/-! ## Strides -/

theorem stride_zero (x inc : Word) : x + inc * BitVec.ofNat 64 0 = x := by
  have hzero : inc * BitVec.ofNat 64 0 = 0 := BitVec.mul_zero
  rw [hzero]
  exact BitVec.add_zero x

theorem stride_succ (x inc : Word) (k : Nat) :
    x + inc + inc * BitVec.ofNat 64 k = x + inc * BitVec.ofNat 64 (k + 1) := by
  have hone : inc * BitVec.ofNat 64 1 = inc := BitVec.mul_one inc
  rw [Nat.add_comm k, BitVec.ofNat_add, BitVec.mul_add, hone, BitVec.add_assoc]

end Vmsa
