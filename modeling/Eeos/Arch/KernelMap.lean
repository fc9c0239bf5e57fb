import Eeos.Arch.Mmu

/-!
# The final kernel address space (`create_kernel_map` of `arch/arm64/mmu_v3.c`)

Three runs of block descriptors in one PMD: the kernel image, the linear map of RAM, the devices.

* `Window` — a run of 2 MiB blocks with consecutive output addresses and one memory type.
* `writeAll_has` / `writeAll_none` — what a list of disjoint windows leaves in the PMD.
* `LoadedImage` — a loaded kernel image with its tables inside it; `Image` — one in RAM.
* `LoadedImage.createKernelMap_eq` — the memory that `create_kernel_map` leaves.
* `walk_some` / `walk_none` — the walk of the final tables, window by window.

Principal result: `createKernelMap_correct` — RAM is mapped as normal memory and the devices as
device memory, each at its window, and nothing else but the blocks of the image.
-/

namespace Eeos.Mmu

open Vmsa Memory

/-! ## Windows -/

structure Window where
  first : Nat
  count : Nat
  pa : Nat
  type : Word

namespace Window

/-- Block `b` is one of the window's. -/
def Has (w : Window) (b : Nat) : Prop := w.first ≤ b ∧ b < w.first + w.count

instance (w : Window) (b : Nat) : Decidable (w.Has b) :=
  inferInstanceAs (Decidable (_ ∧ _))

def Disjoint (w w' : Window) : Prop := ∀ b, w.Has b → ¬ w'.Has b

def desc (w : Window) (k : Nat) : Word := pmdSect (BitVec.ofNat 64 (w.pa + 2 ^ 21 * k)) w.type

def write (w : Window) (l : Layout) (m : Words) : Words := fill m l.pmd w.first w.count w.desc

theorem write_has (w : Window) (l : Layout) (m : Words) {b : Nat} (h : w.Has b) :
    w.write l m (l.pmd + 8 * b) = w.desc (b - w.first) := by
  have hk := fill_at m l.pmd w.first w.count w.desc (k := b - w.first) (by unfold Has at h; omega)
  rw [← hk, write]
  congr 2
  unfold Has at h
  omega

theorem write_none (w : Window) (l : Layout) (m : Words) {b : Nat} (h : ¬ w.Has b) :
    w.write l m (l.pmd + 8 * b) = m (l.pmd + 8 * b) := by
  apply fill_off
  unfold Has at h
  omega

theorem linked_write {w : Window} (hw : w.first + w.count ≤ 8192) {l : Layout} {m : Words}
    (h : Linked m l) : Linked (w.write l m) l :=
  h.fill hw w.desc

/-- A call of `create_simple_map` writes a window. -/
theorem createSimpleMap_eq_write (w : Window) {l : Layout} {m : Words} (h : Linked m l)
    {va size : Word} {fuel : Nat} (hfuel : w.count < fuel) (hfirst : block va = w.first)
    (hcount : blocks size = w.count) (hv : virtOffset.toNat ≤ va.toNat)
    (hv' : va.toNat + size.toNat ≤ virtOffset.toNat + 2 ^ 34) :
    createSimpleMap l.toStatics fuel m va (BitVec.ofNat 64 w.pa) size w.type =
      some (w.write l m) := by
  have hdesc : ∀ k, BitVec.ofNat 64 w.pa + pmdSize * BitVec.ofNat 64 k =
      BitVec.ofNat 64 (w.pa + 2 ^ 21 * k) := by
    intro k
    rw [BitVec.ofNat_add, BitVec.ofNat_mul]
    rfl
  rw [createSimpleMap_eq h (by omega) hv hv', hfirst, hcount]
  simp only [hdesc]
  rfl

end Window

/-- Windows written one after the other. -/
def writeAll (l : Layout) (m : Words) (ws : List Window) : Words :=
  ws.foldl (fun m w => w.write l m) m

theorem writeAll_none {l : Layout} {ws : List Window} {b : Nat} (h : ∀ w ∈ ws, ¬ w.Has b)
    (m : Words) : writeAll l m ws (l.pmd + 8 * b) = m (l.pmd + 8 * b) := by
  induction ws generalizing m with
  | nil => rfl
  | cons w ws ih =>
    rw [List.forall_mem_cons] at h
    rw [writeAll, List.foldl_cons, ← writeAll, ih h.2, w.write_none l m h.1]

/-- Each of some disjoint windows is read back. -/
theorem writeAll_has {l : Layout} {ws : List Window} (hd : ws.Pairwise Window.Disjoint)
    {w : Window} (hw : w ∈ ws) {b : Nat} (hb : w.Has b) (m : Words) :
    writeAll l m ws (l.pmd + 8 * b) = w.desc (b - w.first) := by
  induction ws generalizing m with
  | nil => exact absurd hw List.not_mem_nil
  | cons w' ws ih =>
    rw [List.pairwise_cons] at hd
    rw [writeAll, List.foldl_cons, ← writeAll]
    rcases List.mem_cons.1 hw with rfl | hw
    · rw [writeAll_none fun w' hw' => hd.1 w' hw' b hb, w.write_has l m hb]
    · exact ih hd.2 hw _

theorem writeAll_off {l : Layout} {ws : List Window} (hws : ∀ w ∈ ws, w.first + w.count ≤ 8192)
    {a : Nat} (ha : a < l.pmd ∨ l.pmd + 4096 * 16 ≤ a) (m : Words) : writeAll l m ws a = m a := by
  induction ws generalizing m with
  | nil => rfl
  | cons w ws ih =>
    rw [List.forall_mem_cons] at hws
    rw [writeAll, List.foldl_cons, ← writeAll, ih hws.2]
    exact fill_off _ _ _ _ _ (by omega)

theorem Linked.writeAll {l : Layout} {ws : List Window} (hws : ∀ w ∈ ws, w.first + w.count ≤ 8192)
    {m : Words} (h : Linked m l) : Linked (writeAll l m ws) l := by
  induction ws generalizing m with
  | nil => exact h
  | cons w ws ih =>
    rw [List.forall_mem_cons] at hws
    exact ih hws.2 (Window.linked_write hws.1 h)

/-! ## `init_pagetables` -/

theorem initPudEntries_eq (l : Layout) (n : Nat) (m : Words) (va pmdPhys : Word)
    (hn : bits 30 9 va + n ≤ 16) (hv : va.toNat + n * 2 ^ 30 < 2 ^ 64) :
    initPudEntries l.toStatics n m va pmdPhys =
      fill m l.pud (bits 30 9 va) n fun k => (pmdPhys + 4096 * BitVec.ofNat 64 k) ||| 3 := by
  induction n generalizing m va pmdPhys with
  | zero => rw [fill_zero]; rfl
  | succ n ih =>
    have := l.pud_lt
    have hindex : (pudIndex va).toNat = bits 30 9 va := toNat_index 30 va
    have hentry := toNat_kimg_entry l.kimageVoffset l.pudTable (pudIndex va)
      (by rw [hindex]; simp only [Statics.pud] at *; omega)
    have hwrite : writeq l.toStatics m (pmdPhys ||| pudTypeTable) (l.pudTable + 8 * pudIndex va) =
        Function.update m (l.pud + 8 * bits 30 9 va) (pmdPhys ||| 3) := by
      rw [writeq, hentry, hindex]
      rfl
    have hsum : (va + pudSize).toNat = va.toNat + 2 ^ 30 := by
      simp only [pudSize]
      bv_omega
    have hnext : bits 30 9 (va + pudSize) = bits 30 9 va + 1 := by
      simp only [bits, hsum] at hn ⊢
      omega
    rw [initPudEntries]
    simp only [hwrite]
    rw [ih _ _ _ (by omega) (by omega), hnext, ← fill_succ]
    simp only [stride_succ, stride_zero]

/-- The memory that `init_pagetables` leaves. -/
def Layout.linkedMem (l : Layout) (m : Words) : Words :=
  fill (Function.update m l.pgd (BitVec.ofNat 64 l.pud ||| 3)) l.pud 0 16 fun k =>
    (BitVec.ofNat 64 l.pmd + 4096 * BitVec.ofNat 64 k) ||| 3

theorem initPagetables_eq (l : Layout) (m : Words) (ttbr1 : Word) :
    initPagetables l.toStatics ⟨m, 0, ttbr1⟩ = ⟨l.linkedMem m, 1, ttbr1⟩ := by
  have hpud : virtToPhys l.kimageVoffset l.pudTable = BitVec.ofNat 64 l.pud := by
    rw [virtToPhys_kimg _ l.pud_low, Statics.pud, BitVec.ofNat_toNat, BitVec.setWidth_eq]
  have hpmd : virtToPhys l.kimageVoffset l.pmdTable = BitVec.ofNat 64 l.pmd := by
    rw [virtToPhys_kimg _ l.pmd_low, Statics.pmd, BitVec.ofNat_toNat, BitVec.setWidth_eq]
  have hpgd : l.pgdTable + 8 * pgdIndex virtOffset = l.pgdTable := BitVec.add_zero l.pgdTable
  have hindex : bits 30 9 virtOffset = 0 := rfl
  have hloop := initPudEntries_eq l 16
    (Function.update m l.pgd (BitVec.ofNat 64 l.pud ||| 3)) virtOffset (BitVec.ofNat 64 l.pmd)
    (by decide) (by decide)
  rw [hindex] at hloop
  simp only [initPagetables, hpud, hpmd, hpgd]
  exact congrArg (fun m => Cpu.mk m 1 ttbr1) hloop

/-- The tables are linked, when they were zero. -/
theorem linked_linkedMem {l : Layout} {m : Words}
    (hpgd : ∀ a, l.pgd ≤ a → a < l.pgd + 4096 → m a = 0)
    (hpud : ∀ a, l.pud ≤ a → a < l.pud + 4096 → m a = 0) : Linked (l.linkedMem m) l := by
  have := l.pgd_pud
  have hstep : ∀ i, BitVec.ofNat 64 l.pmd + 4096 * BitVec.ofNat 64 i =
      BitVec.ofNat 64 (l.pmd + 4096 * i) := by
    intro i
    rw [BitVec.ofNat_add, BitVec.ofNat_mul]
    rfl
  unfold Layout.linkedMem
  constructor
  · rw [fill_off _ _ _ _ _ (by omega), Function.update_self]
  · intro i hi hi'
    rw [fill_off _ _ _ _ _ (by omega), Function.update_of_ne (by omega)]
    exact hpgd _ (by omega) (by omega)
  · intro i hi
    have hat := fill_at (Function.update m l.pgd (BitVec.ofNat 64 l.pud ||| 3)) l.pud 0 16
      (fun k => (BitVec.ofNat 64 l.pmd + 4096 * BitVec.ofNat 64 k) ||| 3) hi
    rw [Nat.zero_add] at hat
    rw [hat, hstep]
  · intro i hi hi'
    rw [fill_off _ _ _ _ _ (by omega), Function.update_of_ne (by omega)]
    exact hpud _ (by omega) (by omega)

theorem linkedMem_off {l : Layout} {m : Words} {a : Nat}
    (hpgd : a < l.pgd ∨ l.pgd + 4096 ≤ a) (hpud : a < l.pud ∨ l.pud + 4096 ≤ a) :
    l.linkedMem m a = m a := by
  unfold Layout.linkedMem
  rw [fill_off _ _ _ _ _ (by omega), Function.update_of_ne (by omega)]

/-! ## The image -/

/-- A kernel image loaded at a physical address that agrees with the link address modulo 2 MiB, with
the tables of `mmu_v3.c` inside it. -/
structure LoadedImage where
  load : Nat
  kimageEnd : Word
  pgdTable : Word
  pudTable : Word
  pmdTable : Word
  load_aligned : load % 2 ^ 21 = kimageVaddr.toNat % 2 ^ 21
  load_end : load + (kimageEnd.toNat - kimageVaddr.toNat) ≤ 2 ^ 48
  end_low : kimageEnd ≤ pageOffset
  pgd_mem : kimageVaddr ≤ pgdTable ∧ pgdTable.toNat + 4096 ≤ kimageEnd.toNat
  pud_mem : kimageVaddr ≤ pudTable ∧ pudTable.toNat + 4096 ≤ kimageEnd.toNat
  pmd_mem : kimageVaddr ≤ pmdTable ∧ pmdTable.toNat + 4096 * 16 ≤ kimageEnd.toNat
  pgd_aligned : pgdTable.toNat % 4096 = 0
  pud_aligned : pudTable.toNat % 4096 = 0
  pmd_aligned : pmdTable.toNat % 4096 = 0
  pgd_pud : pgdTable.toNat + 4096 ≤ pudTable.toNat ∨ pudTable.toNat + 4096 ≤ pgdTable.toNat
  pgd_pmd : pgdTable.toNat + 4096 ≤ pmdTable.toNat ∨ pmdTable.toNat + 4096 * 16 ≤ pgdTable.toNat
  pud_pmd : pudTable.toNat + 4096 ≤ pmdTable.toNat ∨ pmdTable.toNat + 4096 * 16 ≤ pudTable.toNat

namespace LoadedImage

variable (im : LoadedImage)

/-- The size of the image. -/
def size : Nat := im.kimageEnd.toNat - kimageVaddr.toNat

/-- What `startup.S` stores in `kimage_voffset`. -/
def kimageVoffset : Word := kimageVaddr - BitVec.ofNat 64 im.load

theorem toNat_kimageEnd_le : im.kimageEnd.toNat ≤ 0xFFFF000100000000 := im.end_low

/-- Where an address of the image lies in physical memory. -/
theorem toNat_kimgToPhys {va : Word} (h : kimageVaddr ≤ va) :
    (kimgToPhys im.kimageVoffset va).toNat = im.load + (va.toNat - kimageVaddr.toNat) := by
  have hk : 0xFFFF000000080000 ≤ va.toNat := h
  have hload := im.load_end
  rw [toNat_kimageVaddr] at hload ⊢
  simp only [kimgToPhys, kimageVoffset, kimageVaddr]
  bv_omega

section Table

variable {table table' : Word} {n n' : Nat}
  (h : kimageVaddr ≤ table ∧ table.toNat + n ≤ im.kimageEnd.toNat)
  (h' : kimageVaddr ≤ table' ∧ table'.toNat + n' ≤ im.kimageEnd.toNat)

include h

/-- A table of the image, in physical memory. -/
theorem toNat_table :
    (kimgToPhys im.kimageVoffset table).toNat = im.load + (table.toNat - kimageVaddr.toNat) ∧
      kimageVaddr.toNat ≤ table.toNat :=
  ⟨im.toNat_kimgToPhys h.1, h.1⟩

theorem table_low (hn : 0 < n) : table < pageOffset := by
  have hend := im.toNat_kimageEnd_le
  rw [BitVec.lt_def, toNat_pageOffset]
  omega

theorem table_aligned (ha : table.toNat % 4096 = 0) :
    (kimgToPhys im.kimageVoffset table).toNat % 4096 = 0 := by
  obtain ⟨hphys, hle⟩ := im.toNat_table h
  have hload := im.load_aligned
  rw [toNat_kimageVaddr] at hphys hle hload
  omega

theorem table_lt : (kimgToPhys im.kimageVoffset table).toNat + n ≤ 2 ^ 48 := by
  obtain ⟨hphys, hle⟩ := im.toNat_table h
  have hload := im.load_end
  omega

include h'

/-- Tables of the image that are apart are apart in physical memory. -/
theorem table_apart (hapart : table.toNat + n ≤ table'.toNat ∨ table'.toNat + n' ≤ table.toNat) :
    (kimgToPhys im.kimageVoffset table).toNat + n ≤ (kimgToPhys im.kimageVoffset table').toNat ∨
      (kimgToPhys im.kimageVoffset table').toNat + n' ≤
        (kimgToPhys im.kimageVoffset table).toNat := by
  obtain ⟨hphys, hle⟩ := im.toNat_table h
  obtain ⟨hphys', hle'⟩ := im.toNat_table h'
  omega

end Table

/-- The image's tables, as pages of physical memory. -/
def layout : Layout where
  kimageVoffset := im.kimageVoffset
  pgdTable := im.pgdTable
  pudTable := im.pudTable
  pmdTable := im.pmdTable
  pgd_low := im.table_low im.pgd_mem (Nat.succ_pos _)
  pud_low := im.table_low im.pud_mem (Nat.succ_pos _)
  pmd_low := im.table_low im.pmd_mem (Nat.succ_pos _)
  pgd_aligned := im.table_aligned im.pgd_mem im.pgd_aligned
  pud_aligned := im.table_aligned im.pud_mem im.pud_aligned
  pmd_aligned := im.table_aligned im.pmd_mem im.pmd_aligned
  pgd_lt := im.table_lt im.pgd_mem
  pud_lt := im.table_lt im.pud_mem
  pmd_lt := im.table_lt im.pmd_mem
  pgd_pud := im.table_apart im.pgd_mem im.pud_mem im.pgd_pud
  pgd_pmd := im.table_apart im.pgd_mem im.pmd_mem im.pgd_pmd
  pud_pmd := im.table_apart im.pud_mem im.pmd_mem im.pud_pmd

/-- The window of the image: one block for every 2 MiB from `__kimage_start` on. -/
def imageWindow : Window := ⟨0, blocks (im.kimageEnd - kimageVaddr), im.load, mtNormal⟩

end LoadedImage

/-- One that is loaded into RAM. -/
structure Image extends LoadedImage where
  load_ram : physOffset.toNat ≤ load

/-- The window of the linear map. -/
def linearWindow : Window := ⟨2048, 512, 0x40000000, mtNormal⟩

/-- The window of the devices. -/
def deviceWindow : Window := ⟨6144, 256, 0, mtDeviceNGnRnE⟩

namespace LoadedImage

variable (im : LoadedImage)

def windows : List Window := [im.imageWindow, linearWindow, deviceWindow]

theorem mem_windows {w : Window} :
    w ∈ im.windows ↔ w = im.imageWindow ∨ w = linearWindow ∨ w = deviceWindow := by
  simp only [windows, List.mem_cons, List.not_mem_nil, or_false]

theorem toNat_size : (im.kimageEnd - kimageVaddr).toNat = im.size := by
  have h : kimageVaddr ≤ im.kimageEnd := by
    have := im.pgd_mem.2
    have hle : kimageVaddr.toNat ≤ im.pgdTable.toNat := im.pgd_mem.1
    rw [BitVec.le_def]
    omega
  exact BitVec.toNat_sub_of_le h

theorem size_pos : 0 < im.size := by
  have := im.pgd_mem.2
  have hle : kimageVaddr.toNat ≤ im.pgdTable.toNat := im.pgd_mem.1
  rw [size]
  omega

theorem size_le : im.size ≤ 0xFFF80000 := by
  have := im.toNat_kimageEnd_le
  rw [size, toNat_kimageVaddr]
  omega

theorem imageWindow_count : im.imageWindow.count = (im.size + (2 ^ 21 - 1)) / 2 ^ 21 := by
  rw [imageWindow, blocks, toNat_size]

theorem imageWindow_count_le : im.imageWindow.count ≤ 2048 := by
  have := im.size_le
  rw [imageWindow_count]
  omega

theorem windows_le : ∀ w ∈ im.windows, w.first + w.count ≤ 8192 := by
  have h := im.imageWindow_count_le
  intro w hw
  obtain rfl | rfl | rfl := im.mem_windows.1 hw
  · show 0 + im.imageWindow.count ≤ 8192
    omega
  · decide
  · decide

theorem windows_disjoint : im.windows.Pairwise Window.Disjoint := by
  have h := im.imageWindow_count_le
  have himage : ∀ b, im.imageWindow.Has b → b < 2048 := by
    intro b hb
    have : b < 0 + im.imageWindow.count := hb.2
    omega
  simp only [windows, List.pairwise_cons, List.mem_cons, List.not_mem_nil, or_false,
    forall_eq_or_imp, forall_eq, List.Pairwise.nil, and_true]
  refine ⟨⟨?_, ?_⟩, ?_, by simp⟩
  · intro b hb hb'
    have : 2048 ≤ b := hb'.1
    have := himage b hb
    omega
  · intro b hb hb'
    have : 6144 ≤ b := hb'.1
    have := himage b hb
    omega
  · intro b hb hb'
    have : b < 2048 + 512 := hb.2
    have : 6144 ≤ b := hb'.1
    omega

end LoadedImage

/-! ## The final tables -/

/-- The memory that `create_kernel_map` leaves. -/
def LoadedImage.finalMem (im : LoadedImage) (m : Words) : Words :=
  writeAll im.layout (im.layout.linkedMem m) im.windows

/-- The tables of the image are zero, as `.bss` is. -/
structure Zeroed (m : Words) (l : Layout) : Prop where
  pgd : ∀ a, l.pgd ≤ a → a < l.pgd + 4096 → m a = 0
  pud : ∀ a, l.pud ≤ a → a < l.pud + 4096 → m a = 0
  pmd : ∀ a, l.pmd ≤ a → a < l.pmd + 4096 * 16 → m a = 0

/-- `create_kernel_map` returns, with the three windows written. -/
theorem LoadedImage.createKernelMap_eq (im : LoadedImage) {m : Words} (hz : Zeroed m im.layout)
    (ttbr1 : Word) {fuel : Nat} (hfuel : 2048 < fuel) :
    createKernelMap im.layout.toStatics fuel im.kimageEnd ⟨m, 0, ttbr1⟩ =
      some ⟨im.finalMem m, 1, BitVec.ofNat 64 im.layout.pgd⟩ := by
  have hlinked := linked_linkedMem hz.pgd hz.pud
  have hcount := im.imageWindow_count_le
  have hpa : kimageVaddr - im.layout.kimageVoffset = BitVec.ofNat 64 im.load := by
    show kimageVaddr - (kimageVaddr - BitVec.ofNat 64 im.load) = _
    simp only [kimageVaddr]
    bv_omega
  have hsize : kimageVaddr.toNat + (im.kimageEnd - kimageVaddr).toNat ≤
      virtOffset.toNat + 2 ^ 34 := by
    have := im.size_le
    rw [im.toNat_size, toNat_kimageVaddr, toNat_virtOffset]
    omega
  -- the three calls, each on the memory that the one before it leaves
  have h₁ : createSimpleMap im.layout.toStatics fuel (im.layout.linkedMem m) kimageVaddr
      (BitVec.ofNat 64 im.load) (im.kimageEnd - kimageVaddr) mtNormal = some _ :=
    im.imageWindow.createSimpleMap_eq_write hlinked (by omega) rfl rfl (by decide) hsize
  have hlinked₁ := Window.linked_write (im.windows_le _ List.mem_cons_self) hlinked
  have h₂ : createSimpleMap im.layout.toStatics fuel _ pageOffset physOffset physSize mtNormal =
      some _ :=
    linearWindow.createSimpleMap_eq_write hlinked₁ (by show 512 < fuel; omega) rfl rfl (by decide)
      (by decide)
  have hlinked₂ := Window.linked_write (by decide : linearWindow.first + _ ≤ _) hlinked₁
  have h₃ : createSimpleMap im.layout.toStatics fuel _ deviceStart devicePhysOffset devicePhysSize
      mtDeviceNGnRnE = some _ :=
    deviceWindow.createSimpleMap_eq_write hlinked₂ (by show 256 < fuel; omega) rfl rfl (by decide)
      (by decide)
  have hpgd : virtToPhys im.layout.kimageVoffset im.layout.pgdTable =
      BitVec.ofNat 64 im.layout.pgd := by
    rw [virtToPhys_kimg _ im.layout.pgd_low, Statics.pgd, BitVec.ofNat_toNat, BitVec.setWidth_eq]
  simp only [createKernelMap, initPagetables_eq, hpa, h₁, h₂, h₃, switchMm, hpgd]
  rfl

/-! ## The final walk -/

/-- The leaf of a block of a window. -/
def Window.leaf (w : Window) (va : Word) : Leaf :=
  ⟨2, w.desc (block va - w.first),
    (w.pa / 2 ^ 21 + (block va - w.first)) * 2 ^ 21 + bits 0 21 va⟩

/-- An address of the upper half in a block of a window is in the window's range. -/
theorem Window.toNat_of_has {w : Window} {va : Word} (hva : bits 48 16 va = 0xFFFF)
    (hb : w.Has (block va)) :
    0xFFFF000000000000 + 2 ^ 21 * w.first ≤ va.toNat ∧
      va.toNat < 0xFFFF000000000000 + 2 ^ 21 * (w.first + w.count) := by
  obtain ⟨hfirst, hlast⟩ := hb
  have hsplit : va.toNat = 0xFFFF * 2 ^ 48 + block va * 2 ^ 21 + va.toNat % 2 ^ 21 := by
    simp only [block, bits] at hva ⊢
    omega
  omega

/-- Output addresses of a window are page-aligned and fit 48 bits, its type fits AttrIndx. -/
structure Window.Ok (w : Window) : Prop where
  aligned : w.pa % 4096 = 0
  lt : w.pa + 2 ^ 21 * w.count ≤ 2 ^ 48 + 2 ^ 21 - 1
  type_lt : w.type.toNat < 8

theorem Window.isSect_desc {w : Window} (hw : w.Ok) {b : Nat} (hb : w.Has b) :
    IsSect (w.desc (b - w.first)) (w.pa + 2 ^ 21 * (b - w.first)) w.type := by
  have := hw.lt
  have := hw.aligned
  unfold Window.Has at hb
  exact pmdSect_fields (by omega) (by omega) hw.type_lt

theorem Window.leaf_fields {w : Window} (hw : w.Ok) {va : Word} (hb : w.Has (block va)) :
    (w.leaf va).memType = w.type.toNat ∧ (w.leaf va).shareability = 3 ∧
      (w.leaf va).accessFlag = 1 := by
  have hs := w.isSect_desc hw hb
  exact ⟨hs.memType, hs.shareability, hs.accessFlag⟩

namespace LoadedImage

variable (im : LoadedImage)

theorem windows_ok : ∀ w ∈ im.windows, w.Ok := by
  intro w hw
  obtain rfl | rfl | rfl := im.mem_windows.1 hw
  · have hcount := im.imageWindow_count
    have hend := im.load_end
    have haligned := im.load_aligned
    have hk := toNat_kimageVaddr
    rw [size] at hcount
    constructor
    · show im.load % 4096 = 0
      omega
    · show im.load + 2 ^ 21 * im.imageWindow.count ≤ _
      omega
    · show mtNormal.toNat < 8
      decide
  · exact ⟨by decide, by decide, by decide⟩
  · exact ⟨by decide, by decide, by decide⟩

theorem linked_finalMem {m : Words} (hz : Zeroed m im.layout) :
    Linked (im.finalMem m) im.layout :=
  (linked_linkedMem hz.pgd hz.pud).writeAll im.windows_le

/-- The entry of a block of a window. -/
theorem finalMem_has {w : Window} (hw : w ∈ im.windows) {b : Nat} (hb : w.Has b) (m : Words) :
    im.finalMem m (im.layout.pmd + 8 * b) = w.desc (b - w.first) :=
  writeAll_has im.windows_disjoint hw hb (im.layout.linkedMem m)

/-- The other entries are still zero. -/
theorem finalMem_none {m : Words} (hz : Zeroed m im.layout) {b : Nat} (hb : b < 8192)
    (h : ∀ w ∈ im.windows, ¬ w.Has b) : im.finalMem m (im.layout.pmd + 8 * b) = 0 := by
  have := im.layout.pgd_pmd
  have := im.layout.pud_pmd
  rw [finalMem, writeAll_none h, linkedMem_off (by omega) (by omega)]
  exact hz.pmd _ (by omega) (by omega)

/-- The blocks of a window are mapped by it. -/
theorem walk_some {m : Words} (hz : Zeroed m im.layout) {w : Window} (hw : w ∈ im.windows)
    {va : Word} (hb : w.Has (block va)) :
    walk (im.finalMem m) im.layout.pgd va = some (w.leaf va) := by
  have hblock : block va < 8192 := Nat.lt_of_lt_of_le hb.2 (im.windows_le w hw)
  have hwalk := walk_mapped (im.linked_finalMem hz) hblock (im.finalMem_has hw hb m)
    (w.isSect_desc (im.windows_ok w hw) hb)
  rw [hwalk, Window.leaf, Nat.add_mul_div_left _ _ (by decide)]

/-- The other blocks are not mapped. -/
theorem walk_none {m : Words} (hz : Zeroed m im.layout) {va : Word}
    (h : ∀ w ∈ im.windows, ¬ w.Has (block va)) :
    walk (im.finalMem m) im.layout.pgd va = none :=
  walk_unmapped (im.linked_finalMem hz) fun hb => im.finalMem_none hz hb h

/-- Every leaf is one of a window. -/
theorem exists_window {m : Words} (hz : Zeroed m im.layout) {va : Word} {leaf : Leaf}
    (h : walk (im.finalMem m) im.layout.pgd va = some leaf) :
    ∃ w ∈ im.windows, w.Has (block va) ∧ leaf = w.leaf va := by
  by_cases hw : ∃ w ∈ im.windows, w.Has (block va)
  · obtain ⟨w, hw, hb⟩ := hw
    rw [im.walk_some hz hw hb] at h
    exact ⟨w, hw, hb, (Option.some.inj h).symm⟩
  · rw [im.walk_none hz fun w hw' hb => hw ⟨w, hw', hb⟩] at h
    cases h

/-- A block of the image window is touched by the image. -/
theorem exists_mem_image {b : Nat} (hb : im.imageWindow.Has b) :
    ∃ x, kimageVaddr ≤ x ∧ x < im.kimageEnd ∧ x.toNat / 2 ^ 21 = 0xFFFF * 2 ^ 27 + b := by
  have hlt : b < 0 + im.imageWindow.count := hb.2
  have hcount := im.imageWindow_count
  have hle := im.size_le
  have hend : im.kimageEnd.toNat = kimageVaddr.toNat + im.size := by
    have := im.size_pos
    rw [size] at this ⊢
    omega
  rw [toNat_kimageVaddr] at hend
  have hx : (BitVec.ofNat 64 (0xFFFF000000080000 + 2 ^ 21 * b)).toNat =
      0xFFFF000000080000 + 2 ^ 21 * b := by
    rw [BitVec.toNat_ofNat, Nat.mod_eq_of_lt (by omega)]
  refine ⟨BitVec.ofNat 64 (0xFFFF000000080000 + 2 ^ 21 * b), ?_, ?_, ?_⟩
  · rw [BitVec.le_def, hx, toNat_kimageVaddr]
    omega
  · rw [BitVec.lt_def, hx, hend]
    omega
  · rw [hx]
    omega

/-- An address at offset `d` of a window whose output addresses start at a block boundary. -/
theorem walk_window {m : Words} (hz : Zeroed m im.layout) {w : Window} (hw : w ∈ im.windows)
    (haligned : w.pa % 2 ^ 21 = 0) {va : Word} {d : Nat} (hd : d < 2 ^ 21 * w.count)
    (hva : va.toNat = 0xFFFF000000000000 + 2 ^ 21 * w.first + d) :
    ∃ leaf, walk (im.finalMem m) im.layout.pgd va = some leaf ∧ leaf.pa = w.pa + d ∧
      leaf.memType = w.type.toNat := by
  have hle := im.windows_le w hw
  have hblock : block va = w.first + d / 2 ^ 21 := by
    simp only [block, bits, hva]
    omega
  have hb : w.Has (block va) := by
    rw [Window.Has, hblock]
    omega
  refine ⟨_, im.walk_some hz hw hb, ?_, (Window.leaf_fields (im.windows_ok w hw) hb).1⟩
  show (w.pa / 2 ^ 21 + (block va - w.first)) * 2 ^ 21 + bits 0 21 va = w.pa + d
  rw [hblock]
  simp only [bits, hva]
  omega

/-- RAM is mapped at its linear addresses. -/
theorem walk_linear {m : Words} (hz : Zeroed m im.layout) {p : Word} (hp : physOffset ≤ p)
    (hp' : p < physOffset + physSize) :
    ∃ leaf, walk (im.finalMem m) im.layout.pgd (physToVirt p) = some leaf ∧ leaf.pa = p.toNat ∧
      leaf.memType = mtNormal.toNat := by
  have hlow : 0x40000000 ≤ p.toNat := hp
  have hhigh : p.toNat < 0x80000000 := hp'
  have hv := toNat_physToVirt hp (by simp only [physOffset] at hp ⊢; bv_omega)
  rw [toNat_pageOffset, toNat_physOffset] at hv
  have hw : linearWindow ∈ im.windows := im.mem_windows.2 (Or.inr (Or.inl rfl))
  have hd : p.toNat - 0x40000000 < 2 ^ 21 * linearWindow.count := by
    show p.toNat - 0x40000000 < 2 ^ 21 * 512
    omega
  have hva : (physToVirt p).toNat =
      0xFFFF000000000000 + 2 ^ 21 * linearWindow.first + (p.toNat - 0x40000000) := by
    show _ = 0xFFFF000000000000 + 2 ^ 21 * 2048 + (p.toNat - 0x40000000)
    omega
  obtain ⟨leaf, hwalk, hpa, htype⟩ := im.walk_window hz hw rfl hd hva
  refine ⟨leaf, hwalk, hpa.trans ?_, htype⟩
  show 0x40000000 + (p.toNat - 0x40000000) = p.toNat
  omega

/-- The devices are mapped behind `DEVICE_START`. -/
theorem walk_device {m : Words} (hz : Zeroed m im.layout) {p : Word} (hp : p < devicePhysSize) :
    ∃ leaf, walk (im.finalMem m) im.layout.pgd (deviceStart + p) = some leaf ∧
      leaf.pa = p.toNat ∧ leaf.memType = mtDeviceNGnRnE.toNat := by
  have hd : p.toNat < 2 ^ 21 * deviceWindow.count := hp
  have hlt : p.toNat < 0x20000000 := hp
  have hva : (deviceStart + p).toNat =
      0xFFFF000000000000 + 2 ^ 21 * deviceWindow.first + p.toNat := by
    show _ = 0xFFFF000000000000 + 2 ^ 21 * 6144 + p.toNat
    simp only [deviceStart]
    bv_omega
  have hw : deviceWindow ∈ im.windows := im.mem_windows.2 (Or.inr (Or.inr rfl))
  obtain ⟨leaf, hwalk, hpa, htype⟩ := im.walk_window hz hw rfl hd hva
  exact ⟨leaf, hwalk, hpa.trans (Nat.zero_add _), htype⟩

/-- Outside the windows and the blocks of the image nothing is mapped. -/
theorem walk_outside {m : Words} (hz : Zeroed m im.layout) {va : Word}
    (hva : bits 48 16 va = 0xFFFF) (hlinear : ¬ (pageOffset ≤ va ∧ va < pageOffset + physSize))
    (hdevice : ¬ (deviceStart ≤ va ∧ va < deviceStart + devicePhysSize))
    (himage : ∀ x, kimageVaddr ≤ x → x < im.kimageEnd → x >>> 21 ≠ va >>> 21) :
    walk (im.finalMem m) im.layout.pgd va = none := by
  apply im.walk_none hz
  intro w hw hb
  have hrange := Window.toNat_of_has hva hb
  obtain rfl | rfl | rfl := im.mem_windows.1 hw
  · obtain ⟨x, hx, hx', hblock⟩ := im.exists_mem_image hb
    apply himage x hx hx'
    apply BitVec.eq_of_toNat_eq
    rw [BitVec.toNat_ushiftRight, BitVec.toNat_ushiftRight, Nat.shiftRight_eq_div_pow,
      Nat.shiftRight_eq_div_pow, hblock]
    simp only [block, bits] at hva ⊢
    omega
  · exact hlinear hrange
  · exact hdevice hrange

end LoadedImage

namespace Image

variable (im : Image)

/-- Devices are mapped to memory below RAM, everything else to RAM. -/
theorem leaf_device_iff {w : Window} (hw : w ∈ im.windows) {va : Word} (hb : w.Has (block va)) :
    (w.leaf va).memType = mtDeviceNGnRnE.toNat ↔ (w.leaf va).pa < devicePhysSize.toNat := by
  have hfields := w.leaf_fields (im.windows_ok w hw) hb
  have hsize : devicePhysSize.toNat = 2 ^ 21 * 256 := rfl
  have hlow : bits 0 21 va < 2 ^ 21 := bits_lt 0 21 va
  rw [hfields.1, hsize]
  obtain rfl | rfl | rfl := im.mem_windows.1 hw
  · have hram := im.load_ram
    have hp : physOffset.toNat = 2 ^ 21 * 512 := rfl
    have htype : im.imageWindow.type.toNat ≠ mtDeviceNGnRnE.toNat := by
      show mtNormal.toNat ≠ _
      decide
    refine iff_of_false htype ?_
    show ¬ (im.load / 2 ^ 21 + (block va - 0)) * 2 ^ 21 + bits 0 21 va < _
    omega
  · refine iff_of_false (by decide) ?_
    show ¬ (0x40000000 / 2 ^ 21 + (block va - 2048)) * 2 ^ 21 + bits 0 21 va < _
    omega
  · have hb' : block va < 6144 + 256 := hb.2
    refine iff_of_true rfl ?_
    show (0 / 2 ^ 21 + (block va - 6144)) * 2 ^ 21 + bits 0 21 va < _
    omega

/-- No memory is mapped both as normal and as device memory. -/
theorem normal_ne_device {m : Words} (hz : Zeroed m im.layout) {va va' : Word} {leaf leaf' : Leaf}
    (h : walk (im.finalMem m) im.layout.pgd va = some leaf)
    (h' : walk (im.finalMem m) im.layout.pgd va' = some leaf')
    (hnormal : leaf.memType = mtNormal.toNat) (hdevice : leaf'.memType = mtDeviceNGnRnE.toNat) :
    leaf.pa ≠ leaf'.pa := by
  intro heq
  obtain ⟨w, hw, hb, rfl⟩ := im.exists_window hz h
  obtain ⟨w', hw', hb', rfl⟩ := im.exists_window hz h'
  have hlow := (im.leaf_device_iff hw' hb').1 hdevice
  rw [← heq] at hlow
  have htype := (im.leaf_device_iff hw hb).2 hlow
  rw [hnormal] at htype
  exact absurd htype (by decide)

end Image

/-- **The final kernel address space.**  RAM and the devices are mapped at their windows, the upper
half has nothing outside the windows and the blocks of the image, and no memory is mapped both as
normal and as device memory. -/
theorem createKernelMap_correct (im : Image) {m : Words} (hz : Zeroed m im.layout)
    (ttbr1 : Word) :
    ∃ s, (∀ fuel > 2048, createKernelMap im.layout.toStatics fuel im.kimageEnd ⟨m, 0, ttbr1⟩ =
        some s) ∧
      (∀ p, physOffset ≤ p → p < physOffset + physSize →
        virtToPhys im.kimageVoffset (physToVirt p) = p ∧
        ∃ leaf, walk s.mem s.ttbr1.toNat (physToVirt p) = some leaf ∧ leaf.pa = p.toNat ∧
          leaf.memType = mtNormal.toNat) ∧
      (∀ p, p < devicePhysSize →
        ∃ leaf, walk s.mem s.ttbr1.toNat (deviceStart + p) = some leaf ∧ leaf.pa = p.toNat ∧
          leaf.memType = mtDeviceNGnRnE.toNat) ∧
      (∀ va, bits 48 16 va = 0xFFFF → ¬ (pageOffset ≤ va ∧ va < pageOffset + physSize) →
        ¬ (deviceStart ≤ va ∧ va < deviceStart + devicePhysSize) →
        (∀ x, kimageVaddr ≤ x → x < im.kimageEnd → x >>> 21 ≠ va >>> 21) →
        walk s.mem s.ttbr1.toNat va = none) ∧
      (∀ va va' leaf leaf', walk s.mem s.ttbr1.toNat va = some leaf →
        walk s.mem s.ttbr1.toNat va' = some leaf' → leaf.memType = mtNormal.toNat →
        leaf'.memType = mtDeviceNGnRnE.toNat → leaf.pa ≠ leaf'.pa) := by
  have hpgd := im.layout.toNat_pgd
  refine ⟨_, fun fuel hfuel => im.createKernelMap_eq hz ttbr1 hfuel, ?_, ?_, ?_, ?_⟩
  all_goals simp only [hpgd]
  · intro p hp hp'
    exact ⟨virtToPhys_physToVirt _ hp hp', im.walk_linear hz hp hp'⟩
  · intro p hp
    exact im.walk_device hz hp
  · intro va hva hlinear hdevice himage
    exact im.walk_outside hz hva hlinear hdevice himage
  · intro va va' leaf leaf' h h' hnormal hdevice
    exact im.normal_ne_device hz h h' hnormal hdevice

/-- The end of an image of `n` pages. -/
def qemuEnd (n : Nat) : Word := kimageVaddr + BitVec.ofNat 64 (4096 * n)

theorem toNat_qemuEnd {n : Nat} (h : n ≤ 0xF80) :
    (qemuEnd n).toNat = 0xFFFF000000080000 + 4096 * n := by
  simp only [qemuEnd, kimageVaddr]
  bv_omega

theorem qemuEnd_le {n : Nat} (h : n ≤ 0xF80) : qemuEnd n ≤ pageOffset := by
  rw [BitVec.le_def, toNat_qemuEnd h, toNat_pageOffset]
  omega

theorem qemu_load_end {n : Nat} (h : n ≤ 0xF80) :
    0x40080000 + ((qemuEnd n).toNat - kimageVaddr.toNat) ≤ 2 ^ 48 := by
  rw [toNat_qemuEnd h, toNat_kimageVaddr]
  omega

theorem qemu_table {n : Nat} (h : 128 ≤ n) (h' : n ≤ 0xF80) {table : Word} {k : Nat}
    (ht : kimageVaddr ≤ table) (hk : table.toNat + k ≤ 0xFFFF0000000F0000) :
    kimageVaddr ≤ table ∧ table.toNat + k ≤ (qemuEnd n).toNat := by
  rw [toNat_qemuEnd h']
  exact ⟨ht, by omega⟩

/-- An image of `n` pages where QEMU loads it, with its tables after the first 256 KiB. -/
def Image.qemu (n : Nat) (h : 128 ≤ n) (h' : n ≤ 0xF80) : Image where
  load := 0x40080000
  kimageEnd := qemuEnd n
  pgdTable := 0xFFFF0000000C0000
  pudTable := 0xFFFF0000000C1000
  pmdTable := 0xFFFF0000000C2000
  load_aligned := rfl
  load_ram := by decide
  load_end := qemu_load_end h'
  end_low := qemuEnd_le h'
  pgd_mem := qemu_table h h' (by decide) (by decide)
  pud_mem := qemu_table h h' (by decide) (by decide)
  pmd_mem := qemu_table h h' (by decide) (by decide)
  pgd_aligned := rfl
  pud_aligned := rfl
  pmd_aligned := rfl
  pgd_pud := by decide
  pgd_pmd := by decide
  pud_pmd := by decide

/-- An image of 1.5 MiB. -/
def qemuImage : Image := Image.qemu 384 (by decide) (by decide)

theorem zeroed_qemuImage : Zeroed (fun _ => 0) qemuImage.layout :=
  ⟨fun _ _ _ => rfl, fun _ _ _ => rfl, fun _ _ _ => rfl⟩

theorem createKernelMap_correct_qemu :
    ∃ s, createKernelMap qemuImage.layout.toStatics 2049 qemuImage.kimageEnd ⟨fun _ => 0, 0, 0⟩ =
        some s ∧
      ∃ leaf, walk s.mem s.ttbr1.toNat (physToVirt 0x40001234) = some leaf ∧
        leaf.pa = 0x40001234 := by
  obtain ⟨s, hrun, hlinear, -⟩ := createKernelMap_correct qemuImage zeroed_qemuImage 0
  obtain ⟨-, leaf, hwalk, hpa, -⟩ := hlinear 0x40001234 (by decide) (by decide)
  exact ⟨s, hrun 2049 (by decide), leaf, hwalk, hpa⟩

end Eeos.Mmu
