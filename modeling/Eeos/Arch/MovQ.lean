import Eeos.Lib.Vmsa

/-!
# Moving a constant into a register (`mov_q` of `arch/arm64/startup.S`)

The macro looks at the constant and expands to the shortest sequence of `movz` and `movk` it knows.
The assembler turns a `movz` with a signed relocation into `movn` where the value is negative, and
refuses a value that does not fit the relocation.

* `Insn.exec` — the three instructions, which write one of the four 16-bit groups of a register.
* `movzSigned` — `movz` with `:abs_g1_s:` or `:abs_g2_s:`.
* `movQ` — the expansion.

Principal result: `movQ_loads` — the instructions of `mov_q` leave its constant in the register,
whichever it is.
-/

namespace Eeos.MovQ

open Vmsa

inductive Insn where
  | movz (imm : BitVec 16) (hw : Nat)
  | movn (imm : BitVec 16) (hw : Nat)
  | movk (imm : BitVec 16) (hw : Nat)
  deriving DecidableEq, Repr

def Insn.exec (x : Word) : Insn → Word
  | .movz imm hw => imm.setWidth 64 <<< (16 * hw)
  | .movn imm hw => ~~~(imm.setWidth 64 <<< (16 * hw))
  | .movk imm hw => (x &&& ~~~((0xffff : Word) <<< (16 * hw))) ||| (imm.setWidth 64 <<< (16 * hw))

def exec (is : List Insn) (x : Word) : Word := is.foldl Insn.exec x

/-- The 16 bits that `:abs_g0:` to `:abs_g3:` select. -/
def group (val : Word) (g : Nat) : BitVec 16 := val.extractLsb' (16 * g) 16

/-- `movz reg, :abs_g_s:val`, unless the value is out of the relocation's range. -/
def movzSigned (val : Word) (g : Nat) : Option Insn :=
  if val.toInt < -2 ^ (16 * g + 15) ∨ 2 ^ (16 * g + 15) ≤ val.toInt then none
  else if val.toInt < 0 then some (.movn (group (~~~val) g) g)
  else some (.movz (group val g) g)

/-- `mov_q`; the assembler shifts unsigned values. -/
def movQ (val : Word) : Option (List Insn) :=
  if val >>> 31 = 0 ∨ val >>> 31 = 0x1ffffffff then
    (movzSigned val 1).map fun i => [i, .movk (group val 0) 0]
  else if val >>> 47 = 0 ∨ val >>> 47 = 0x1ffff then
    (movzSigned val 2).map fun i => [i, .movk (group val 1) 1, .movk (group val 0) 0]
  else
    some [.movz (group val 3) 3, .movk (group val 2) 2, .movk (group val 1) 1,
      .movk (group val 0) 0]

/-! ## One bit of an instruction's result -/

theorem getLsbD_group (val : Word) (g : Nat) {j : Nat} (hj : j < 16) :
    (group val g).getLsbD j = val.getLsbD (16 * g + j) := by
  rw [group, BitVec.getLsbD_extractLsb', decide_eq_true hj, Bool.true_and]

section Bits

variable {i : Nat} (hi : i < 64)

include hi

theorem getLsbD_shifted (imm : BitVec 16) (hw : Nat) :
    (imm.setWidth 64 <<< (16 * hw)).getLsbD i =
      (decide (i / 16 = hw) && imm.getLsbD (i % 16)) := by
  rw [BitVec.getLsbD_shiftLeft, BitVec.getLsbD_setWidth, decide_eq_true hi, Bool.true_and]
  by_cases h : i / 16 = hw
  · have hoff : i - 16 * hw = i % 16 := by omega
    have hge : ¬ i < 16 * hw := by omega
    rw [decide_eq_true h, hoff, decide_eq_false hge, decide_eq_true (by omega)]
    rfl
  · rw [decide_eq_false h, Bool.false_and]
    by_cases hlt : i < 16 * hw
    · rw [decide_eq_true hlt]
      rfl
    · rw [BitVec.getLsbD_of_ge imm _ (by omega), Bool.and_false, Bool.and_false]

theorem getLsbD_movz (x : Word) (imm : BitVec 16) (hw : Nat) :
    ((Insn.movz imm hw).exec x).getLsbD i = (decide (i / 16 = hw) && imm.getLsbD (i % 16)) :=
  getLsbD_shifted hi imm hw

theorem getLsbD_movn (x : Word) (imm : BitVec 16) (hw : Nat) :
    ((Insn.movn imm hw).exec x).getLsbD i = !(decide (i / 16 = hw) && imm.getLsbD (i % 16)) := by
  rw [Insn.exec, BitVec.getLsbD_not, decide_eq_true hi, Bool.true_and, getLsbD_shifted hi]

theorem getLsbD_movk (x : Word) (imm : BitVec 16) (hw : Nat) :
    ((Insn.movk imm hw).exec x).getLsbD i =
      if i / 16 = hw then imm.getLsbD (i % 16) else x.getLsbD i := by
  have hmask := getLsbD_shifted hi (BitVec.allOnes 16) hw
  have hones : (0xffff : Word) = (BitVec.allOnes 16).setWidth 64 := rfl
  rw [Insn.exec, BitVec.getLsbD_or, BitVec.getLsbD_and, BitVec.getLsbD_not, decide_eq_true hi,
    hones, hmask, getLsbD_shifted hi, BitVec.getLsbD_allOnes, decide_eq_true (by omega : i % 16 < 16)]
  by_cases h : i / 16 = hw
  · simp [h]
  · simp [h]

end Bits

/-! ## Signed values -/

/-- The value fits `k + 1` bits, with its sign. -/
def Fits (val : Word) (k : Nat) : Prop := -2 ^ k ≤ val.toInt ∧ val.toInt < 2 ^ k

instance (val : Word) (k : Nat) : Decidable (Fits val k) :=
  inferInstanceAs (Decidable (-2 ^ k ≤ val.toInt ∧ val.toInt < 2 ^ k))

/-- The macro's test: the bits from `k` on are all zeros, or all ones. -/
theorem fits_iff (val : Word) {k : Nat} (hk : k < 64) :
    Fits val k ↔ val >>> k = 0 ∨ val >>> k = BitVec.ofNat 64 (2 ^ (64 - k) - 1) := by
  have hlt := val.isLt
  have hpow : 2 ^ (64 - k) * 2 ^ k = 2 ^ 64 := by
    rw [← Nat.pow_add]
    congr 1
    omega
  have hpos := Nat.two_pow_pos (64 - k)
  have hlow := Nat.two_pow_pos k
  have hdiv := Nat.div_add_mod val.toNat (2 ^ k)
  have hmod := Nat.mod_lt val.toNat hlow
  have hshift : (val >>> k).toNat = val.toNat / 2 ^ k := by
    rw [BitVec.toNat_ushiftRight, Nat.shiftRight_eq_div_pow]
  have hle : 2 ^ k ≤ 2 ^ 63 := Nat.pow_le_pow_right (by decide) (by omega)
  have hzero : val >>> k = 0 ↔ val.toNat < 2 ^ k := by
    rw [← BitVec.toNat_inj, hshift]
    exact Nat.div_eq_zero_iff_lt hlow
  have hones : val >>> k = BitVec.ofNat 64 (2 ^ (64 - k) - 1) ↔ 2 ^ 64 - 2 ^ k ≤ val.toNat := by
    have hsmall : 2 ^ (64 - k) - 1 < 2 ^ 64 := by
      have := Nat.pow_le_pow_right (by decide : 0 < 2) (by omega : 64 - k ≤ 64)
      omega
    have hsub : (2 ^ (64 - k) - 1) * 2 ^ k = 2 ^ 64 - 2 ^ k := by
      rw [Nat.sub_mul, hpow, Nat.one_mul]
    rw [← BitVec.toNat_inj, hshift, BitVec.toNat_ofNat, Nat.mod_eq_of_lt hsmall, ← hsub,
      ← Nat.le_div_iff_mul_le hlow]
    have hupper : val.toNat / 2 ^ k < 2 ^ (64 - k) := by
      rw [Nat.div_lt_iff_lt_mul hlow, hpow]
      exact hlt
    omega
  rw [hzero, hones, Fits, BitVec.toInt_eq_toNat_cond]
  have hcast : ((2 : Int) ^ k) = ((2 ^ k : Nat) : Int) := by norm_cast
  rw [hcast]
  split
  · omega
  · omega

theorem getLsbD_of_small {val : Word} {k j : Nat} (h : val.toNat < 2 ^ k) (hj : k ≤ j) :
    val.getLsbD j = false :=
  Nat.testBit_lt_two_pow (Nat.lt_of_lt_of_le h (Nat.pow_le_pow_right (by decide) hj))

/-- Above its sign bit a value that fits repeats it. -/
theorem Fits.getLsbD {val : Word} {k j : Nat} (h : Fits val k) (hk : k < 64) (hkj : k ≤ j)
    (hj : j < 64) : val.getLsbD j = decide (val.toInt < 0) := by
  have hle : 2 ^ k ≤ 2 ^ 63 := Nat.pow_le_pow_right (by decide) (by omega)
  have hcast : ((2 : Int) ^ k) = ((2 ^ k : Nat) : Int) := by norm_cast
  obtain ⟨hlow, hhigh⟩ := h
  rw [hcast] at hlow hhigh
  have hval := BitVec.toInt_eq_toNat_cond val
  by_cases hneg : val.toInt < 0
  · have hnot : (~~~val).toNat < 2 ^ k := by
      rw [BitVec.toNat_not]
      split at hval <;> omega
    have hbit := getLsbD_of_small hnot hkj
    rw [BitVec.getLsbD_not, decide_eq_true hj, Bool.true_and, Bool.not_eq_false'] at hbit
    rw [hbit, decide_eq_true hneg]
  · have hsmall : val.toNat < 2 ^ k := by
      split at hval <;> omega
    rw [getLsbD_of_small hsmall hkj, decide_eq_false hneg]

/-- The signed relocation gives the group and everything above it. -/
theorem movzSigned_exec {val : Word} {g : Nat} (hg : 16 * g + 15 < 64)
    (h : Fits val (16 * g + 15)) :
    ∃ insn, movzSigned val g = some insn ∧
      ∀ x j, 16 * g ≤ j → j < 64 → (insn.exec x).getLsbD j = val.getLsbD j := by
  have hrange : ¬ (val.toInt < -2 ^ (16 * g + 15) ∨ 2 ^ (16 * g + 15) ≤ val.toInt) := by
    rintro (hlow | hhigh)
    · exact absurd h.1 (not_le.mpr hlow)
    · exact absurd h.2 (not_lt.mpr hhigh)
  have habove : ∀ j, 16 * g ≤ j → j < 64 → j / 16 ≠ g → val.getLsbD j = decide (val.toInt < 0) :=
    fun j hgj hj hne => h.getLsbD hg (by omega) hj
  unfold movzSigned
  rw [if_neg hrange]
  by_cases hneg : val.toInt < 0
  · rw [if_pos hneg]
    refine ⟨_, rfl, fun x j hgj hj => ?_⟩
    rw [getLsbD_movn hj]
    by_cases he : j / 16 = g
    · have hindex : 16 * g + j % 16 = j := by omega
      rw [decide_eq_true he, getLsbD_group _ _ (by omega), hindex, BitVec.getLsbD_not,
        decide_eq_true hj]
      simp
    · rw [decide_eq_false he, habove j hgj hj he, decide_eq_true hneg]
      rfl
  · rw [if_neg hneg]
    refine ⟨_, rfl, fun x j hgj hj => ?_⟩
    rw [getLsbD_movz hj]
    by_cases he : j / 16 = g
    · have hindex : 16 * g + j % 16 = j := by omega
      rw [decide_eq_true he, getLsbD_group _ _ (by omega), hindex, Bool.true_and]
    · rw [decide_eq_false he, habove j hgj hj he, decide_eq_false hneg]
      rfl

/-! ## The expansion -/

/-- How many instructions the constant takes. -/
def movQLength (val : Word) : Nat := if Fits val 31 then 2 else if Fits val 47 then 3 else 4

/-- One more group put in below what is there already. -/
theorem exec_movk {val x : Word} {g : Nat}
    (h : ∀ j, 16 * (g + 1) ≤ j → j < 64 → x.getLsbD j = val.getLsbD j) :
    ∀ j, 16 * g ≤ j → j < 64 →
      ((Insn.movk (group val g) g).exec x).getLsbD j = val.getLsbD j := by
  intro j hgj hj
  rw [getLsbD_movk hj]
  by_cases he : j / 16 = g
  · have hindex : 16 * g + j % 16 = j := by omega
    rw [if_pos he, getLsbD_group _ _ (by omega), hindex]
  · rw [if_neg he]
    exact h j (by omega) hj

theorem eq_of_groups {val x : Word}
    (h : ∀ j, 16 * 0 ≤ j → j < 64 → x.getLsbD j = val.getLsbD j) : x = val :=
  BitVec.eq_of_getLsbD_eq fun j hj => h j (by omega) hj

/-- The expansion, from what the value fits. -/
theorem movQ_exec (val : Word) :
    ∃ is, movQ val = some is ∧ is.length = movQLength val ∧ ∀ x, exec is x = val := by
  have h31 : Fits val 31 ↔ val >>> 31 = 0 ∨ val >>> 31 = 0x1ffffffff := fits_iff val (by decide)
  have h47 : Fits val 47 ↔ val >>> 47 = 0 ∨ val >>> 47 = 0x1ffff := fits_iff val (by decide)
  unfold movQ movQLength
  by_cases hshort : Fits val 31
  · rw [if_pos (h31.mp hshort), if_pos hshort]
    obtain ⟨insn, hinsn, hexec⟩ := movzSigned_exec (g := 1) (by decide) hshort
    rw [hinsn]
    exact ⟨_, rfl, rfl, fun x => eq_of_groups (exec_movk (hexec x))⟩
  · rw [if_neg (mt h31.mpr hshort), if_neg hshort]
    by_cases hmiddle : Fits val 47
    · rw [if_pos (h47.mp hmiddle), if_pos hmiddle]
      obtain ⟨insn, hinsn, hexec⟩ := movzSigned_exec (g := 2) (by decide) hmiddle
      rw [hinsn]
      exact ⟨_, rfl, rfl, fun x => eq_of_groups (exec_movk (exec_movk (hexec x)))⟩
    · rw [if_neg (mt h47.mpr hmiddle), if_neg hmiddle]
      refine ⟨_, rfl, rfl, fun x => eq_of_groups (exec_movk (exec_movk (exec_movk ?_)))⟩
      intro j hgj hj
      have hindex : 16 * 3 + j % 16 = j := by omega
      rw [getLsbD_movz hj, decide_eq_true (by omega), getLsbD_group _ _ (by omega), hindex,
        Bool.true_and]

/-- **The macro loads its constant**, whatever it is and whatever the register held: the assembler
accepts every expansion, which has two instructions for a signed 32-bit constant, three for a signed
48-bit one, and four otherwise. -/
theorem movQ_loads (val x : Word) :
    ∃ is, movQ val = some is ∧ exec is x = val ∧
      is.length = if -2 ^ 31 ≤ val.toInt ∧ val.toInt < 2 ^ 31 then 2
        else if -2 ^ 47 ≤ val.toInt ∧ val.toInt < 2 ^ 47 then 3 else 4 := by
  obtain ⟨is, his, hlength, hexec⟩ := movQ_exec val
  exact ⟨is, his, hexec x, hlength⟩

end Eeos.MovQ
