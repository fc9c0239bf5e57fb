import Eeos.Lib.Vmsa

/-!
# The kernel's address space (`arch/arm64/include/asm/memory.h`)

The windows of the upper half, and the conversions between virtual and physical addresses.  The
conversions of the image depend on `kimage_voffset`, which `startup.S` sets to the distance between
the link address and the load address.

Principal result: `virtToPhys_physToVirt` (the two conversions of the linear map agree).
-/

namespace Eeos.Memory

open Vmsa

def physOffset : Word := 0x40000000

def physSize : Word := 0x40000000

def virtOffset : Word := 0xFFFF000000000000

/-- The link address, `__kimage_start`. -/
def kimageVaddr : Word := 0xFFFF000000080000

def pageOffset : Word := 0xFFFF000100000000

def pageEnd : Word := 0xFFFF0001FFFFFFFF

def devicePhysOffset : Word := 0x00000000

def devicePhysSize : Word := 0x20000000

def deviceStart : Word := 0xFFFF000300000000

def mtNormal : Word := 0

def mtDeviceNGnRnE : Word := 3

theorem toNat_physOffset : physOffset.toNat = 0x40000000 := rfl

theorem toNat_virtOffset : virtOffset.toNat = 0xFFFF000000000000 := rfl

theorem toNat_kimageVaddr : kimageVaddr.toNat = 0xFFFF000000080000 := rfl

theorem toNat_pageOffset : pageOffset.toNat = 0xFFFF000100000000 := rfl

/-! ## Conversions -/

/-- `__is_lm_address`, a comparison of unsigned longs. -/
def isLmAddress (addr : Word) : Prop := addr - pageOffset < pageEnd - pageOffset

instance (addr : Word) : Decidable (isLmAddress addr) :=
  inferInstanceAs (Decidable (addr - pageOffset < pageEnd - pageOffset))

def lmToPhys (addr : Word) : Word := addr - pageOffset + physOffset

def kimgToPhys (kimageVoffset addr : Word) : Word := addr - kimageVoffset

def physToLm (x : Word) : Word := (x - physOffset) ||| pageOffset

def physToKimg (kimageVoffset x : Word) : Word := x + kimageVoffset

def virtToPhys (kimageVoffset x : Word) : Word :=
  if isLmAddress x then lmToPhys x else kimgToPhys kimageVoffset x

def physToVirt (x : Word) : Word := physToLm x

/-- The addresses below the linear map are converted as the image's. -/
theorem virtToPhys_kimg (kimageVoffset : Word) {x : Word} (h : x < pageOffset) :
    virtToPhys kimageVoffset x = kimgToPhys kimageVoffset x := by
  rw [virtToPhys, if_neg]
  simp only [isLmAddress, pageOffset, pageEnd] at h ⊢
  bv_omega

theorem kimgToPhys_physToKimg (kimageVoffset x : Word) :
    kimgToPhys kimageVoffset (physToKimg kimageVoffset x) = x := by
  rw [kimgToPhys, physToKimg]
  exact BitVec.add_sub_cancel x kimageVoffset

/-- An address of RAM in the linear map: the bits of `PAGE_OFFSET` stand above it. -/
theorem toNat_physToVirt {p : Word} (h : physOffset ≤ p) (h' : p - physOffset < 0x100000000) :
    (physToVirt p).toNat = pageOffset.toNat + (p.toNat - physOffset.toNat) := by
  have hsub : (p - physOffset).toNat = p.toNat - physOffset.toNat := BitVec.toNat_sub_of_le h
  have hlt : (p - physOffset).toNat < 2 ^ 32 := h'
  have hpage : pageOffset.toNat = 2 ^ 32 * 0xFFFF0001 := rfl
  rw [physToVirt, physToLm, BitVec.toNat_or, Nat.or_comm, hpage, ← Nat.two_pow_add_eq_or_of_lt hlt,
    hsub]

/-- **The conversions of the linear map are inverse on RAM.** -/
theorem virtToPhys_physToVirt (kimageVoffset : Word) {p : Word} (h : physOffset ≤ p)
    (h' : p < physOffset + physSize) : virtToPhys kimageVoffset (physToVirt p) = p := by
  have hp : physOffset.toNat ≤ p.toNat := h
  have hp' : p.toNat < (physOffset + physSize).toNat := h'
  have hv := toNat_physToVirt h (by simp only [physOffset, physSize] at h h' ⊢; bv_omega)
  have hlm : isLmAddress (physToVirt p) := by
    simp only [isLmAddress, pageOffset, pageEnd, physOffset, physSize] at hv hp hp' ⊢
    bv_omega
  rw [virtToPhys, if_pos hlm, lmToPhys]
  simp only [pageOffset, physOffset, physSize] at hv hp hp' ⊢
  bv_omega

end Eeos.Memory
