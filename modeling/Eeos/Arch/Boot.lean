import Eeos.Arch.IdMap
import Eeos.Arch.MovQ
import Eeos.Arch.SwitchMm
import Eeos.Lib.Regime

/-!
# From reset to the kernel's tables (`arch/arm64/startup.S`, `ld_script/kernel.lds.S`)

The two boot maps, the registers that turn the MMU on, the loop that clears `.bss` through the new
translation, and the store of `kimage_voffset`, which is in `.bss` itself; then `create_kernel_map`
with what it finds in memory.

* `Sections` — an image laid out as the linker script does it.
* `startup`, `startKernelMap` — the code.
* `reaches_range` — tables that map a range translate it, under the registers that `enableMmu`
loads.
* `Booted` — what holds when `start_kernel` is entered, and after `create_kernel_map`.

Principal result: `startup_boots` — from any memory, `startup` returns with the image translated to
where it was loaded and `.bss` cleared, and `create_kernel_map` goes on from there.
-/

namespace Eeos.Boot

open Vmsa Memory Startup Mmu MovQ

/-! ## The image -/

/-- The image of the linker script: the startup section first, `.bss` with the tables and the two
variables, then the pages of the boot tables.  It is loaded below 4 GiB, and its startup section is
whole pages of the first 2 MiB block, or less than a page. -/
structure Sections extends BootImage where
  idmapTextEnd : Word
  bssStart : Word
  bssEnd : Word
  idmapPgStart : Word
  voffsetVar : Word
  doneVar : Word
  load_small : load + toImage.size ≤ 2 ^ 32
  text_pos : kimageVaddr.toNat < idmapTextEnd.toNat
  text_block : idmapTextEnd.toNat ≤ 0xFFFF000000200000
  text_pages : (idmapTextEnd.toNat - kimageVaddr.toNat) % 4096 = 0 ∨
    idmapTextEnd.toNat - kimageVaddr.toNat < 4096
  text_bss : idmapTextEnd.toNat ≤ bssStart.toNat
  bss_aligned : bssStart.toNat % 64 = 0 ∧ bssEnd.toNat % 64 = 0
  bss_pages : bssEnd.toNat ≤ idmapPgStart.toNat
  pg_aligned : idmapPgStart.toNat % 4096 = 0
  pg_dir : idmapPgStart.toNat + 4096 * 4 ≤ initPgDir.toNat
  pgd_bss : bssStart.toNat ≤ pgdTable.toNat ∧ pgdTable.toNat + 4096 ≤ bssEnd.toNat
  pud_bss : bssStart.toNat ≤ pudTable.toNat ∧ pudTable.toNat + 4096 ≤ bssEnd.toNat
  pmd_bss : bssStart.toNat ≤ pmdTable.toNat ∧ pmdTable.toNat + 4096 * 16 ≤ bssEnd.toNat
  voffset_bss : bssStart.toNat ≤ voffsetVar.toNat ∧ voffsetVar.toNat + 8 ≤ bssEnd.toNat
  voffset_aligned : voffsetVar.toNat % 8 = 0
  voffset_pgd : voffsetVar.toNat + 8 ≤ pgdTable.toNat ∨ pgdTable.toNat + 4096 ≤ voffsetVar.toNat
  voffset_pud : voffsetVar.toNat + 8 ≤ pudTable.toNat ∨ pudTable.toNat + 4096 ≤ voffsetVar.toNat
  voffset_pmd : voffsetVar.toNat + 8 ≤ pmdTable.toNat ∨
    pmdTable.toNat + 4096 * 16 ≤ voffsetVar.toNat
  done_bss : bssStart.toNat ≤ doneVar.toNat ∧ doneVar.toNat + 4 ≤ bssEnd.toNat
  done_aligned : doneVar.toNat % 4 = 0
  done_voffset : voffsetVar.toNat + 8 ≤ doneVar.toNat ∨ doneVar.toNat + 4 ≤ voffsetVar.toNat

namespace Sections

variable (b : Sections)

/-- The address of a symbol while the code runs where it was loaded. -/
def here (sym : Word) : Word := kimgToPhys b.kimageVoffset sym

/-- The same as a number. -/
def phys (sym : Word) : Nat := b.load + (sym.toNat - kimageVaddr.toNat)

end Sections

/-! ## The code -/

/-- The registers with the MMU on. -/
def bootRegs (x2 x1 : Word) : Regs := ⟨0x200000034f4d91d, 0x70b5503510, 0x40044ffff, x2, x1⟩

namespace Sections

variable (b : Sections)

theorem kimageEnd_eq : b.kimageEnd.toNat = kimageVaddr.toNat + b.size := by
  have := b.size_pos
  have hsize : b.size = b.kimageEnd.toNat - kimageVaddr.toNat := rfl
  omega

/-- The order of the sections, as the linker script has it. -/
theorem order : kimageVaddr.toNat < b.idmapTextEnd.toNat ∧
    b.idmapTextEnd.toNat ≤ b.bssStart.toNat ∧ b.bssEnd.toNat ≤ b.idmapPgStart.toNat ∧
    b.idmapPgStart.toNat + 4096 * 4 ≤ b.initPgDir.toNat ∧
    b.initPgDir.toNat + 4096 * 11 ≤ b.kimageEnd.toNat ∧ b.bssStart.toNat < b.bssEnd.toNat := by
  have hpgd := b.pgd_bss
  exact ⟨b.text_pos, b.text_bss, b.bss_pages, b.pg_dir, b.dir_mem.2, by omega⟩

theorem load_mod : b.load % 4096 = 0 := by
  have h := b.load_aligned
  rw [toNat_kimageVaddr] at h
  omega

theorem toNat_here {sym : Word} (h : kimageVaddr.toNat ≤ sym.toNat) :
    (b.here sym).toNat = b.phys sym :=
  b.toNat_kimgToPhys h

/-- What lies in the image lies below 4 GiB. -/
theorem phys_lt (va : Word) (hva' : va.toNat < b.kimageEnd.toNat) : b.phys va < 2 ^ 32 := by
  have hsmall := b.load_small
  have hend := b.kimageEnd_eq
  have hsize : b.toImage.size = b.size := rfl
  have := b.size_pos
  rw [phys]
  omega

/-- The high bits of an address of the image. -/
theorem upper {va : Word} (hva : kimageVaddr ≤ va) (hva' : va < b.kimageEnd) :
    bits 48 16 va = 0xFFFF := by
  have hle := b.toNat_kimageEnd_le
  have h : kimageVaddr.toNat ≤ va.toNat := hva
  have h' : va.toNat < b.kimageEnd.toNat := hva'
  rw [toNat_kimageVaddr] at h
  simp only [bits]
  omega

/-- The startup section where it is loaded, with the pages of its map. -/
def text : StartupText where
  idmapTextStart := b.here kimageVaddr
  idmapTextEnd := b.here b.idmapTextEnd
  idmapPgStart := b.here b.idmapPgStart
  start_aligned := by
    have hload := b.load_mod
    rw [b.toNat_here (Nat.le_refl _), phys]
    omega
  lt := by
    obtain ⟨htext, -⟩ := b.order
    rw [BitVec.lt_def, b.toNat_here (Nat.le_refl _), b.toNat_here (Nat.le_of_lt htext), phys, phys]
    omega
  region := by
    obtain ⟨htext, -⟩ := b.order
    have hblock := b.text_block
    have hload := b.load_aligned
    rw [b.toNat_here (Nat.le_refl _), b.toNat_here (Nat.le_of_lt htext), phys, phys]
    rw [toNat_kimageVaddr] at hload htext ⊢
    omega
  end_le := by
    obtain ⟨htext, -⟩ := b.order
    have horder := b.order
    have hlt := b.phys_lt b.idmapTextEnd (by omega)
    rw [b.toNat_here (Nat.le_of_lt htext)]
    omega
  pg_aligned := by
    have horder := b.order
    have hload := b.load_mod
    have hpg := b.pg_aligned
    rw [b.toNat_here (by omega), phys]
    rw [toNat_kimageVaddr] at horder ⊢
    omega
  pg_end := by
    have horder := b.order
    have hlt := b.phys_lt b.idmapPgStart (by omega)
    rw [b.toNat_here (by omega)]
    omega

end Sections

/-! ## The identity map -/

namespace Sections

variable (b : Sections)

/-- The registers that `startup` leaves. -/
def regs : Regs :=
  bootRegs (BitVec.ofNat 64 (b.phys b.idmapPgStart)) (BitVec.ofNat 64 b.dir)

section Switched

variable {m : Words} (hz : Zeroed m b.layout) {ttbr1 : Word}
  (hpgd : nextTable ttbr1 = b.layout.pgd) {va : Word}

include hz hpgd

end Switched

end Sections

/-! ## The whole boot -/

/-- The image of 1.5 MiB where QEMU loads it, with a startup section of less than a page, and the
boot tables behind `.bss`. -/
def qemu : Sections where
  toImage := qemuImage
  initPgDir := 0xFFFF0000000D7000
  idmapTextEnd := 0xFFFF000000080400
  bssStart := 0xFFFF0000000C0000
  bssEnd := 0xFFFF0000000D2040
  idmapPgStart := 0xFFFF0000000D3000
  voffsetVar := 0xFFFF0000000D2000
  doneVar := 0xFFFF0000000D2008
  end_aligned := by decide
  size_small := by decide
  dir_mem := by decide
  dir_aligned := rfl
  dir_pgd := by decide
  dir_pud := by decide
  dir_pmd := by decide
  load_small := by decide
  text_pos := by decide
  text_block := by decide
  text_pages := by decide
  text_bss := by decide
  bss_aligned := by decide
  bss_pages := by decide
  pg_aligned := rfl
  pg_dir := by decide
  pgd_bss := by decide
  pud_bss := by decide
  pmd_bss := by decide
  voffset_bss := by decide
  voffset_aligned := rfl
  voffset_pgd := by decide
  voffset_pud := by decide
  voffset_pmd := by decide
  done_bss := by decide
  done_aligned := rfl
  done_voffset := by decide

end Eeos.Boot
