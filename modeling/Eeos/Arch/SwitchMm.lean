import Eeos.Arch.BootTables
import Eeos.Arch.KernelMap

/-!
# The switch from the boot tables to the kernel's (`startup.S`, then `mmu_v3.c`)

The image is mapped twice: by `map_memory` in pages, and by `create_kernel_map` in 2 MiB blocks.
The block map starts at `__kimage_start`, 512 KiB into a block, and takes one step for every 2 MiB
of the image's size; an image whose last part reaches over the next block boundary needs one more.

* `walk_boot` — the boot tables translate the image, also after `create_kernel_map` has run.
* `imageWindow_has_iff` — the block map covers the image exactly when its last step is long enough.

Principal result: `createKernelMap_preserves_iff` — the switch keeps the translation of every address
of the image exactly when it is covered.
-/

namespace Eeos.Mmu

open Vmsa Memory Startup

/-- An image of at most 16 MiB - 512 KiB with the eleven pages of `init_pg_dir` inside it. -/
structure BootImage extends Image where
  initPgDir : Word
  end_aligned : kimageEnd.toNat % 4096 = 0
  size_small : toImage.size ≤ 0x1000000 - 0x80000
  dir_mem : kimageVaddr ≤ initPgDir ∧ initPgDir.toNat + 4096 * 11 ≤ kimageEnd.toNat
  dir_aligned : initPgDir.toNat % 4096 = 0
  dir_pgd : initPgDir.toNat + 4096 * 11 ≤ pgdTable.toNat ∨ pgdTable.toNat + 4096 ≤ initPgDir.toNat
  dir_pud : initPgDir.toNat + 4096 * 11 ≤ pudTable.toNat ∨ pudTable.toNat + 4096 ≤ initPgDir.toNat
  dir_pmd : initPgDir.toNat + 4096 * 11 ≤ pmdTable.toNat ∨
    pmdTable.toNat + 4096 * 16 ≤ initPgDir.toNat

namespace BootImage

variable (b : BootImage)

/-- The physical address of `init_pg_dir`. -/
def dir : Nat := b.load + (b.initPgDir.toNat - kimageVaddr.toNat)

theorem kimageVaddr_lt : kimageVaddr < b.kimageEnd := by
  have := b.size_pos
  rw [LoadedImage.size] at this
  rw [BitVec.lt_def]
  omega

theorem end_half : bits 48 16 kimageVaddr = bits 48 16 (b.kimageEnd - 1) := by
  have hle := b.toNat_kimageEnd_le
  have hpos := b.size_pos
  rw [LoadedImage.size, toNat_kimageVaddr] at hpos
  have hpred : (b.kimageEnd - 1).toNat = b.kimageEnd.toNat - 1 := by bv_omega
  simp only [bits, hpred, toNat_kimageVaddr]
  omega

/-- The virtual range of the image. -/
def range : Range where
  vstart := kimageVaddr
  vend := b.kimageEnd
  lt := b.kimageVaddr_lt
  half := b.end_half
  start_aligned := rfl
  end_aligned := b.end_aligned

theorem tablePages_le : tablePages b.range.vstart b.range.vend ≤ 11 := by
  have hsize := b.size_small
  have hpos := b.size_pos
  rw [LoadedImage.size, toNat_kimageVaddr] at hsize hpos
  simp only [tablePages, regions, range, toNat_kimageVaddr]
  omega

theorem toNat_initPgDir : (kimgToPhys b.kimageVoffset b.initPgDir).toNat = b.dir :=
  (b.toNat_table b.dir_mem).1

theorem dir_lt : b.dir + 4096 * 11 ≤ 2 ^ 48 := by
  rw [← b.toNat_initPgDir]
  exact b.table_lt b.dir_mem

theorem dir_mod : b.dir % 4096 = 0 := by
  rw [← b.toNat_initPgDir]
  exact b.table_aligned b.dir_mem b.dir_aligned

/-- A table apart from `init_pg_dir` is apart from it in physical memory. -/
theorem dir_apart {table : Word} {n : Nat}
    (h : kimageVaddr ≤ table ∧ table.toNat + n ≤ b.kimageEnd.toNat)
    (hapart : b.initPgDir.toNat + 4096 * 11 ≤ table.toNat ∨ table.toNat + n ≤ b.initPgDir.toNat) :
    b.dir + 4096 * 11 ≤ (kimgToPhys b.kimageVoffset table).toNat ∨
      (kimgToPhys b.kimageVoffset table).toNat + n ≤ b.dir := by
  rw [← b.toNat_initPgDir]
  exact b.table_apart b.dir_mem h hapart

/-- The tables that `create_kernel_map` writes are outside `init_pg_dir`. -/
theorem dir_layout :
    (b.dir + 4096 * 11 ≤ b.layout.pgd ∨ b.layout.pgd + 4096 ≤ b.dir) ∧
      (b.dir + 4096 * 11 ≤ b.layout.pud ∨ b.layout.pud + 4096 ≤ b.dir) ∧
      (b.dir + 4096 * 11 ≤ b.layout.pmd ∨ b.layout.pmd + 4096 * 16 ≤ b.dir) :=
  ⟨b.dir_apart b.pgd_mem b.dir_pgd, b.dir_apart b.pud_mem b.dir_pud,
    b.dir_apart b.pmd_mem b.dir_pmd⟩

/-- `create_kernel_map` writes nothing in `init_pg_dir`. -/
theorem finalMem_dir (m : Words) {a : Nat} (ha : b.dir ≤ a) (ha' : a < b.dir + 4096 * 11) :
    b.finalMem m a = m a := by
  obtain ⟨hpgd, hpud, hpmd⟩ := b.dir_layout
  rw [LoadedImage.finalMem, writeAll_off b.windows_le (by omega), linkedMem_off (by omega) (by omega)]

/-- The four levels that `startup.S` writes. -/
def bootMem (m : Words) : Words :=
  (level3 b.dir b.range.span b.load pageFlags).write ((level2 b.dir b.range.span).write
    ((level1 b.dir b.range.span).write ((level0 b.dir b.range.span).write m)))

theorem bootMem_off (m : Words) {a : Nat} (ha : a < b.dir ∨ b.dir + 4096 * 11 ≤ a) :
    b.bootMem m a = m a := by
  have htables := b.range.tables_eq
  have hpages := b.tablePages_le
  exact tables_write_off (by omega)

/-- `startup.S` writes none of the tables that `create_kernel_map` uses. -/
theorem zeroed_bootMem {m : Words} (h : Zeroed m b.layout) : Zeroed (b.bootMem m) b.layout := by
  obtain ⟨hpgd, hpud, hpmd⟩ := b.dir_layout
  constructor
  · intro a ha ha'
    rw [b.bootMem_off m (by omega), h.pgd a ha ha']
  · intro a ha ha'
    rw [b.bootMem_off m (by omega), h.pud a ha ha']
  · intro a ha ha'
    rw [b.bootMem_off m (by omega), h.pmd a ha ha']

/-- `startup.S` returns from its call of `map_memory`. -/
theorem mapKernelImage_eq (m : Words) {fuel : Nat} (hfuel : b.size ≤ 4096 * fuel) :
    mapKernelImage fuel m (BitVec.ofNat 64 b.dir) (BitVec.ofNat 64 b.load)
      (BitVec.ofNat 64 (b.load + b.size)) = some (b.bootMem m) := by
  have hdir := b.dir_lt
  have hpages := b.tablePages_le
  have hload := b.load_end
  have haligned := b.load_aligned
  have hpos := b.size_pos
  have hvend : BitVec.ofNat 64 (b.load + b.size) - BitVec.ofNat 64 b.load + 0xFFFF000000080000 =
      b.kimageEnd := by
    have hsize : b.size = b.kimageEnd.toNat - 0xFFFF000000080000 := rfl
    rw [hsize] at hpos ⊢
    bv_omega
  have htbl : (BitVec.ofNat 64 b.dir).toNat = b.dir := by
    rw [BitVec.toNat_ofNat, Nat.mod_eq_of_lt (by omega)]
  have hphys : (BitVec.ofNat 64 b.load).toNat = b.load := by
    rw [BitVec.toNat_ofNat, Nat.mod_eq_of_lt (by omega)]
  have hk := toNat_kimageVaddr
  have hrun : mapMemory fuel m (BitVec.ofNat 64 b.dir) b.range.vstart b.range.vend pageFlags
      (BitVec.ofNat 64 b.load) 512 = _ :=
    mapMemory_range b.range (by rw [htbl]; omega) (by rw [hphys]; omega) hfuel
  rw [htbl, hphys] at hrun
  simp only [mapKernelImage, hvend]
  exact hrun

/-- **The boot tables translate the image**, in any memory that still holds them, whatever
`init_pg_dir` held before. -/
theorem walk_boot {m m' : Words}
    (hm : ∀ a, b.dir ≤ a → a < b.dir + 4096 * 11 → m' a = b.bootMem m a) {va : Word}
    (hva : kimageVaddr ≤ va) (hva' : va < b.kimageEnd) :
    ∃ leaf, walk m' b.dir va = some leaf ∧
      leaf.pa = b.load + (va.toNat - kimageVaddr.toNat) ∧ leaf.memType = 0 ∧
      leaf.shareability = 3 ∧ leaf.accessFlag = 1 := by
  have htables := b.range.tables_eq
  have hpages := b.tablePages_le
  have hdir := b.dir_lt
  have hk := toNat_kimageVaddr
  have haligned := b.load_aligned
  have hload := b.load_end
  have ht : Shown m' b.dir b.range.span b.load pageFlags := by
    apply Shown.congr (shown_write b.dir b.load b.range.span pageFlags m)
    intro a h h'
    exact hm a h (by omega)
  obtain ⟨leaf, hwalk, -, hpa, hdesc⟩ := ht.inside b.dir_mod (by omega) (by omega) hload
    (by decide) (by decide) (show b.range.vstart ≤ va ∧ va < b.range.vend from ⟨hva, hva'⟩)
  have hlt : va.toNat < b.kimageEnd.toNat := hva'
  have hlow : ∀ lo n, lo + n ≤ 12 → bits lo n leaf.desc = bits lo n pageFlags := by
    intro lo n hn
    have hstart : b.range.vstart.toNat = kimageVaddr.toNat := rfl
    rw [hdesc]
    exact bits_or_aligned (by omega) (by omega : leaf.pa / 4096 * 4096 % 2 ^ 12 = 0) hn _
  exact ⟨leaf, hwalk, hpa, hlow 2 3 (by omega), hlow 8 2 (by omega), hlow 10 1 (by omega)⟩

end BootImage

/-! ## The block map -/

namespace Image

variable (im : Image)

/-- An address of the image in the block map. -/
theorem imageWindow_leaf {va : Word} (hva : kimageVaddr ≤ va)
    (hva' : va < im.kimageEnd) :
    block va = (va.toNat - 0xFFFF000000000000) / 2 ^ 21 ∧
      (im.imageWindow.leaf va).pa = im.load + (va.toNat - kimageVaddr.toNat) := by
  have haligned := im.load_aligned
  have hle := im.toNat_kimageEnd_le
  have hk := toNat_kimageVaddr
  have h : kimageVaddr.toNat ≤ va.toNat := hva
  have h' : va.toNat < im.kimageEnd.toNat := hva'
  have hblock : block va = (va.toNat - 0xFFFF000000000000) / 2 ^ 21 := by
    simp only [block, bits]
    omega
  refine ⟨hblock, ?_⟩
  show (im.load / 2 ^ 21 + (block va - 0)) * 2 ^ 21 + bits 0 21 va = _
  rw [hblock]
  simp only [bits]
  omega

/-- The block map covers the image when its last step starts in the last block. -/
theorem imageWindow_has_iff :
    (∀ va, kimageVaddr ≤ va → va < im.kimageEnd → im.imageWindow.Has (block va)) ↔
      (im.size - 1) % 2 ^ 21 < 2 ^ 21 - 0x80000 := by
  have hcount := im.imageWindow_count
  have hpos := im.size_pos
  have hend := im.toNat_kimageEnd_le
  have hk := toNat_kimageVaddr
  have hsize : im.size = im.kimageEnd.toNat - kimageVaddr.toNat := rfl
  constructor
  · intro h
    have hlast : (im.kimageEnd - 1).toNat = im.kimageEnd.toNat - 1 := by bv_omega
    have hva : kimageVaddr ≤ im.kimageEnd - 1 := by rw [BitVec.le_def, hlast]; omega
    have hva' : im.kimageEnd - 1 < im.kimageEnd := by rw [BitVec.lt_def, hlast]; omega
    have hhas : block (im.kimageEnd - 1) < 0 + im.imageWindow.count := (h _ hva hva').2
    rw [(im.imageWindow_leaf hva hva').1, hlast, hcount] at hhas
    omega
  · intro h va hva hva'
    have hlt : va.toNat < im.kimageEnd.toNat := hva'
    refine ⟨Nat.zero_le _, ?_⟩
    show block va < 0 + im.imageWindow.count
    rw [(im.imageWindow_leaf hva hva').1, hcount]
    omega

end Image

namespace BootImage

variable (b : BootImage)

/-- The two walks of an address of the image agree, and agree with `virt_to_phys`. -/
def SameTranslation (m : Words) (ttbr1 : Word) (va : Word) : Prop :=
  ∃ leaf leaf', walk m b.dir va = some leaf ∧ walk m ttbr1.toNat va = some leaf' ∧
    leaf'.pa = leaf.pa ∧ leaf'.memType = leaf.memType ∧ leaf'.shareability = leaf.shareability ∧
    leaf'.accessFlag = leaf.accessFlag ∧ leaf'.pa = (virtToPhys b.kimageVoffset va).toNat

/-- In the memory that `create_kernel_map` leaves, an address of the image keeps its translation
exactly when the block map has its block. -/
theorem sameTranslation_iff {m m₂ : Words}
    (hm : ∀ a, b.dir ≤ a → a < b.dir + 4096 * 11 → m₂ a = b.bootMem m a)
    (hbss : Zeroed m₂ b.layout) {va : Word} (hva : kimageVaddr ≤ va) (hva' : va < b.kimageEnd) :
    b.SameTranslation (b.finalMem m₂) (BitVec.ofNat 64 b.layout.pgd) va ↔
      b.imageWindow.Has (block va) := by
  have hpgd := b.layout.toNat_pgd
  have hblock := b.imageWindow_leaf hva hva'
  constructor
  · rintro ⟨leaf, leaf', -, hwalk, -⟩
    rw [hpgd] at hwalk
    obtain ⟨w, hw, hhas, -⟩ := b.exists_window hbss hwalk
    have hle := b.toNat_kimageEnd_le
    have hlt : va.toNat < b.kimageEnd.toNat := hva'
    have hlow : block va < 2048 := by rw [hblock.1]; omega
    obtain rfl | rfl | rfl := b.mem_windows.1 hw
    · exact hhas
    · exact absurd hhas.1 (by show ¬ 2048 ≤ block va; omega)
    · exact absurd hhas.1 (by show ¬ 6144 ≤ block va; omega)
  · intro hhas
    have hw : b.imageWindow ∈ b.windows := List.mem_cons_self
    have hwalk := b.walk_some hbss hw hhas
    have hfields := Window.leaf_fields (b.windows_ok _ hw) hhas
    have hdir : ∀ a, b.dir ≤ a → a < b.dir + 4096 * 11 → b.finalMem m₂ a = b.bootMem m a := by
      intro a ha ha'
      rw [b.finalMem_dir m₂ ha ha', hm a ha ha']
    obtain ⟨leaf, hboot, hpa, htype, hsh, haf⟩ := b.walk_boot hdir hva hva'
    have hlow : va < pageOffset := by
      have hend : b.kimageEnd.toNat ≤ pageOffset.toNat := b.end_low
      have hlt : va.toNat < b.kimageEnd.toNat := hva'
      rw [BitVec.lt_def]
      omega
    rw [← hpgd] at hwalk
    refine ⟨leaf, _, hboot, hwalk, ?_, ?_, ?_, ?_, ?_⟩
    · rw [hblock.2, hpa]
    · rw [hfields.1, htype]
      rfl
    · rw [hfields.2.1, hsh]
    · rw [hfields.2.2, haf]
    · rw [hblock.2, virtToPhys_kimg _ hlow]
      exact (b.toNat_kimgToPhys hva).symm

/-- **The switch keeps the image's translation exactly when the image's last part does not reach
over the block boundary that follows the last step**, from any memory.  Between the two mappings,
`startup.S` clears `.bss`. -/
theorem createKernelMap_preserves_iff (m : Words) :
    ∃ m₁, (∀ fuel, b.size ≤ 4096 * fuel → mapKernelImage fuel m (BitVec.ofNat 64 b.dir)
        (BitVec.ofNat 64 b.load) (BitVec.ofNat 64 (b.load + b.size)) = some m₁) ∧
      ∀ m₂, (∀ a, b.dir ≤ a → a < b.dir + 4096 * 11 → m₂ a = m₁ a) → Zeroed m₂ b.layout →
        ∃ s, (∀ fuel > 2048, createKernelMap b.layout.toStatics fuel b.kimageEnd
            ⟨m₂, 0, BitVec.ofNat 64 b.dir⟩ = some s) ∧
          ((∀ va, kimageVaddr ≤ va → va < b.kimageEnd → b.SameTranslation s.mem s.ttbr1 va) ↔
            (b.size - 1) % 2 ^ 21 < 2 ^ 21 - 0x80000) := by
  refine ⟨b.bootMem m, fun fuel => b.mapKernelImage_eq m, ?_⟩
  intro m₂ hm hbss
  refine ⟨_, fun fuel hfuel => b.toImage.createKernelMap_eq hbss _ hfuel, ?_⟩
  rw [← b.imageWindow_has_iff]
  constructor
  · intro h va hva hva'
    exact (b.sameTranslation_iff hm hbss hva hva').1 (h va hva hva')
  · intro h va hva hva'
    exact (b.sameTranslation_iff hm hbss hva hva').2 (h va hva hva')

theorem qemu_end_aligned {n : Nat} (h : n ≤ 0xF80) : (qemuEnd n).toNat % 4096 = 0 := by
  rw [toNat_qemuEnd h]
  omega

theorem qemu_size_small {n : Nat} (h : n ≤ 0xF80) :
    (qemuEnd n).toNat - kimageVaddr.toNat ≤ 0x1000000 - 0x80000 := by
  rw [toNat_qemuEnd h, toNat_kimageVaddr]
  omega

/-- The image of `n` pages, with `init_pg_dir` behind the other tables. -/
def qemu (n : Nat) (h : 128 ≤ n) (h' : n ≤ 0xF80) : BootImage where
  toImage := Image.qemu n h h'
  initPgDir := 0xFFFF0000000D2000
  end_aligned := qemu_end_aligned h'
  size_small := qemu_size_small h'
  dir_mem := qemu_table h h' (by decide) (by decide)
  dir_aligned := rfl
  dir_pgd := Or.inr (by decide : 0xFFFF0000000C0000 + 4096 ≤ 0xFFFF0000000D2000)
  dir_pud := Or.inr (by decide : 0xFFFF0000000C1000 + 4096 ≤ 0xFFFF0000000D2000)
  dir_pmd := Or.inr (by decide : 0xFFFF0000000C2000 + 4096 * 16 ≤ 0xFFFF0000000D2000)

theorem zeroed_zero (l : Layout) : Zeroed (fun _ => 0) l :=
  ⟨fun _ _ _ => rfl, fun _ _ _ => rfl, fun _ _ _ => rfl⟩

/-- A memory with something in `init_pg_dir`. -/
def dirtyDir (a : Nat) : Word := if 0x400D2000 ≤ a ∧ a < 0x400DD000 then -1 else 0

theorem zeroed_dirtyDir : Zeroed dirtyDir (qemu 384 (by decide) (by decide)).layout := by
  have hdir : (qemu 384 (by decide) (by decide)).dir = 0x400D2000 := by decide
  obtain ⟨hpgd, hpud, hpmd⟩ := (qemu 384 (by decide) (by decide)).dir_layout
  rw [hdir] at hpgd hpud hpmd
  exact ⟨fun a _ _ => if_neg (by omega), fun a _ _ => if_neg (by omega),
    fun a _ _ => if_neg (by omega)⟩

/-- An image of 1.5 MiB keeps its translation. -/
theorem createKernelMap_preserves_qemu :
    ∃ m₁ s, mapKernelImage 384 dirtyDir 0x400D2000 0x40080000 0x40200000 = some m₁ ∧
      createKernelMap (qemu 384 (by decide) (by decide)).layout.toStatics 2049
        (qemu 384 (by decide) (by decide)).kimageEnd ⟨m₁, 0, 0x400D2000⟩ = some s ∧
      ∀ va, kimageVaddr ≤ va → va < (qemu 384 (by decide) (by decide)).kimageEnd →
        (qemu 384 (by decide) (by decide)).SameTranslation s.mem s.ttbr1 va := by
  let b := qemu 384 (by decide) (by decide)
  obtain ⟨m₁, hrun₁, hrest⟩ := b.createKernelMap_preserves_iff dirtyDir
  have hm₁ : m₁ = b.bootMem dirtyDir :=
    Option.some.inj ((hrun₁ 384 (by decide)).symm.trans (b.mapKernelImage_eq _ (by decide)))
  obtain ⟨s, hrun, hiff⟩ := hrest m₁ (fun _ _ _ => rfl) (hm₁ ▸ b.zeroed_bootMem zeroed_dirtyDir)
  have hdir : BitVec.ofNat 64 b.dir = 0x400D2000 := by decide
  have hend : BitVec.ofNat 64 (b.load + b.size) = 0x40200000 := by decide
  rw [hdir] at hrun₁ hrun
  rw [hend] at hrun₁
  exact ⟨m₁, s, hrun₁ 384 (by decide), hrun 2049 (by decide), hiff.2 (by decide)⟩

/-- An image of 2 MiB at the same place loses the translation of its last 512 KiB. -/
theorem createKernelMap_two_mib_fails :
    ∃ m₁ s, mapKernelImage 512 (fun _ => 0) 0x400D2000 0x40080000 0x40280000 = some m₁ ∧
      createKernelMap (qemu 512 (by decide) (by decide)).layout.toStatics 2049
        (qemu 512 (by decide) (by decide)).kimageEnd ⟨m₁, 0, 0x400D2000⟩ = some s ∧
      kimageVaddr ≤ 0xFFFF000000200000 ∧
      0xFFFF000000200000 < (qemu 512 (by decide) (by decide)).kimageEnd ∧
      (∃ leaf, walk s.mem 0x400D2000 0xFFFF000000200000 = some leaf ∧ leaf.pa = 0x40200000) ∧
      walk s.mem s.ttbr1.toNat 0xFFFF000000200000 = none := by
  let b := qemu 512 (by decide) (by decide)
  have hbss := b.zeroed_bootMem (zeroed_zero _)
  have hsame : ∀ a, b.dir ≤ a → a < b.dir + 4096 * 11 →
      b.finalMem (b.bootMem fun _ => 0) a = b.bootMem (fun _ => 0) a := by
    intro a ha ha'
    exact b.finalMem_dir _ ha ha'
  obtain ⟨leaf, hboot, hpa, -⟩ := b.walk_boot hsame
    (by decide : kimageVaddr ≤ 0xFFFF000000200000) (by decide)
  have hwindows : ∀ w ∈ b.windows, ¬ w.Has (block 0xFFFF000000200000) := by
    intro w hw
    obtain rfl | rfl | rfl := b.mem_windows.1 hw
    · decide
    · decide
    · decide
  have hdir : b.dir = 0x400D2000 := by decide
  have hend : b.load + b.size = 0x40280000 := by decide
  have hrun₁ := b.mapKernelImage_eq (fun _ => 0) (by decide : _ ≤ 4096 * 512)
  have hrun := b.toImage.createKernelMap_eq hbss 0x400D2000 (by decide : 2048 < 2049)
  have hnone := b.walk_none hbss hwindows
  rw [← b.layout.toNat_pgd] at hnone
  rw [hdir, hend] at hrun₁
  rw [hdir] at hboot
  exact ⟨_, _, hrun₁, hrun, by decide, by decide, ⟨leaf, hboot, hpa.trans (by decide)⟩, hnone⟩

end BootImage

end Eeos.Mmu
