import Eeos.Arch.KernelMap

/-!
# One call of `create_simple_map` (`arch/arm64/mmu_v3.c`)

`create_simple_map` for any `kimage_voffset` and whatever the PMD pages held before: which entries
a call writes, how their blocks are then translated, and what happens to every other address.

* `Arrays` — the static arrays as they are linked; `Arrays.layout` places them in physical memory
  by a page-aligned `kimage_voffset`.
* `Written` — the blocks whose entries a call writes; each has an address of the range.
* `ReadsWritten` — the walk of an address reads such an entry as a level-3 descriptor.  A PMD page
  can be a level-3 table only through a table descriptor that stood in the PMD before.
* `walk_written` / `walk_rest` — the translation after the call.

Principal result: `createSimpleMap_sound` — a call maps the blocks that meet its range to where the
range goes, and leaves all other addresses as they were.
-/

namespace Eeos.Mmu

open Vmsa Memory

/-! ## The arrays in physical memory -/

/-- The arrays of `mmu_v3.c` as they are linked: pages of the image, apart from one another. -/
structure Arrays where
  pgdTable : Word
  pudTable : Word
  pmdTable : Word
  pgd_low : pgdTable < pageOffset
  pud_low : pudTable < pageOffset
  pmd_low : pmdTable.toNat + 4096 * 16 ≤ pageOffset.toNat
  pgd_aligned : pgdTable.toNat % 4096 = 0
  pud_aligned : pudTable.toNat % 4096 = 0
  pmd_aligned : pmdTable.toNat % 4096 = 0
  pgd_pud : pgdTable.toNat + 4096 ≤ pudTable.toNat ∨ pudTable.toNat + 4096 ≤ pgdTable.toNat
  pgd_pmd : pgdTable.toNat + 4096 ≤ pmdTable.toNat ∨ pmdTable.toNat + 4096 * 16 ≤ pgdTable.toNat
  pud_pmd : pudTable.toNat + 4096 ≤ pmdTable.toNat ∨ pmdTable.toNat + 4096 * 16 ≤ pudTable.toNat

/-- A page-aligned `kimage_voffset` that puts the arrays at physical addresses, of 48 bits. -/
structure Arrays.Placed (t : Arrays) (kimageVoffset : Word) : Prop where
  aligned : kimageVoffset.toNat % 4096 = 0
  pgd_lt : (kimgToPhys kimageVoffset t.pgdTable).toNat + 4096 ≤ 2 ^ 48
  pud_lt : (kimgToPhys kimageVoffset t.pudTable).toNat + 4096 ≤ 2 ^ 48
  pmd_lt : (kimgToPhys kimageVoffset t.pmdTable).toNat + 4096 * 16 ≤ 2 ^ 48

theorem kimgToPhys_aligned {kimageVoffset table : Word} (hv : kimageVoffset.toNat % 4096 = 0)
    (ht : table.toNat % 4096 = 0) : (kimgToPhys kimageVoffset table).toNat % 4096 = 0 := by
  rw [kimgToPhys, BitVec.toNat_sub]
  omega

/-- Arrays that are apart stay apart. -/
theorem kimgToPhys_apart {kimageVoffset table table' : Word} {n n' : Nat}
    (hn : (kimgToPhys kimageVoffset table).toNat + n ≤ 2 ^ 48)
    (hn' : (kimgToPhys kimageVoffset table').toNat + n' ≤ 2 ^ 48)
    (hend : table.toNat + n ≤ 2 ^ 64) (hend' : table'.toNat + n' ≤ 2 ^ 64)
    (h : table.toNat + n ≤ table'.toNat ∨ table'.toNat + n' ≤ table.toNat) :
    (kimgToPhys kimageVoffset table).toNat + n ≤ (kimgToPhys kimageVoffset table').toNat ∨
      (kimgToPhys kimageVoffset table').toNat + n' ≤ (kimgToPhys kimageVoffset table).toNat := by
  simp only [kimgToPhys, BitVec.toNat_sub] at hn hn' ⊢
  omega

/-- The arrays end below `2^64`. -/
theorem Arrays.ends (t : Arrays) : t.pgdTable.toNat + 4096 ≤ 2 ^ 64 ∧
    t.pudTable.toNat + 4096 ≤ 2 ^ 64 ∧ t.pmdTable.toNat + 4096 * 16 ≤ 2 ^ 64 := by
  have hpgd : t.pgdTable.toNat < pageOffset.toNat := t.pgd_low
  have hpud : t.pudTable.toNat < pageOffset.toNat := t.pud_low
  have hpmd := t.pmd_low
  rw [toNat_pageOffset] at hpgd hpud hpmd
  omega

/-- The arrays in physical memory. -/
def Arrays.layout (t : Arrays) (kimageVoffset : Word) (h : t.Placed kimageVoffset) : Layout where
  kimageVoffset := kimageVoffset
  pgdTable := t.pgdTable
  pudTable := t.pudTable
  pmdTable := t.pmdTable
  pgd_low := t.pgd_low
  pud_low := t.pud_low
  pmd_low := by
    have := t.pmd_low
    rw [BitVec.lt_def]
    omega
  pgd_aligned := kimgToPhys_aligned h.aligned t.pgd_aligned
  pud_aligned := kimgToPhys_aligned h.aligned t.pud_aligned
  pmd_aligned := kimgToPhys_aligned h.aligned t.pmd_aligned
  pgd_lt := h.pgd_lt
  pud_lt := h.pud_lt
  pmd_lt := h.pmd_lt
  pgd_pud := kimgToPhys_apart h.pgd_lt h.pud_lt t.ends.1 t.ends.2.1 t.pgd_pud
  pgd_pmd := kimgToPhys_apart h.pgd_lt h.pmd_lt t.ends.1 t.ends.2.2 t.pgd_pmd
  pud_pmd := kimgToPhys_apart h.pud_lt h.pmd_lt t.ends.2.1 t.ends.2.2 t.pud_pmd

/-! ## The blocks of a call -/

/-- The entry of block `b` is one of those that a call on `[va, va + size)` writes. -/
def Written (va size : Word) (b : Nat) : Prop := block va ≤ b ∧ b < block va + blocks size

instance (va size : Word) (b : Nat) : Decidable (Written va size b) :=
  inferInstanceAs (Decidable (_ ∧ _))

/-- The walk of `x` reads one of the written entries as a level-3 descriptor. -/
def ReadsWritten (l : Layout) (m : Words) (va size x : Word) : Prop :=
  block x < 8192 ∧ kind 2 (m (l.pmd + 8 * block x)) = .table ∧
    ∃ b, Written va size b ∧
      entryAddr 3 (nextTable (m (l.pmd + 8 * block x))) x = l.pmd + 8 * b

/-- The memory that a call leaves. -/
def simpleMapMem (l : Layout) (m : Words) (va pa size type : Word) : Words :=
  fill m l.pmd (block va) (blocks size) fun k => pmdSect (pa + pmdSize * BitVec.ofNat 64 k) type

section Call

variable {l : Layout} {m : Words} {va pa size type : Word}

theorem simpleMapMem_written {b : Nat} (hb : Written va size b) :
    simpleMapMem l m va pa size type (l.pmd + 8 * b) =
      pmdSect (pa + pmdSize * BitVec.ofNat 64 (b - block va)) type := by
  obtain ⟨hfirst, hlast⟩ := hb
  have hb : l.pmd + 8 * b = l.pmd + 8 * (block va + (b - block va)) := by omega
  rw [hb, simpleMapMem, fill_at _ _ _ _ _ (by omega)]

theorem simpleMapMem_rest {a : Nat} (ha : ∀ b, Written va size b → a ≠ l.pmd + 8 * b) :
    simpleMapMem l m va pa size type a = m a := by
  unfold simpleMapMem fill
  split
  · rename_i hin
    obtain ⟨hfirst, hlast, haligned⟩ := hin
    exact absurd (by omega : a = l.pmd + 8 * ((a - l.pmd) / 8))
      (ha _ ⟨by omega, by omega⟩)
  · rfl

theorem simpleMapMem_block {b : Nat} (hb : ¬ Written va size b) :
    simpleMapMem l m va pa size type (l.pmd + 8 * b) = m (l.pmd + 8 * b) := by
  apply simpleMapMem_rest
  intro b' hb' heq
  have : b = b' := by omega
  exact hb (this ▸ hb')

variable (hv : virtOffset.toNat ≤ va.toNat)
  (hv' : va.toNat + size.toNat ≤ virtOffset.toNat + 2 ^ 34)

include hv hv'

/-- The blocks of a call are in the window. -/
theorem Written.lt {b : Nat} (hb : Written va size b) : b < 8192 := by
  obtain ⟨-, hlast⟩ := hb
  rw [toNat_virtOffset] at hv hv'
  simp only [block, bits, blocks] at hlast
  omega

/-- Every written block has an address of the range. -/
theorem Written.exists_mem {b : Nat} (hb : Written va size b) :
    ∃ x : Word, va.toNat ≤ x.toNat ∧ x.toNat < va.toNat + size.toNat ∧ block x = b := by
  obtain ⟨hfirst, hlast⟩ := hb
  rw [toNat_virtOffset] at hv hv'
  have hx : (BitVec.ofNat 64 (va.toNat + 2 ^ 21 * (b - block va))).toNat =
      va.toNat + 2 ^ 21 * (b - block va) := by
    simp only [block, bits, blocks] at hfirst hlast ⊢
    rw [BitVec.toNat_ofNat, Nat.mod_eq_of_lt (by omega)]
  refine ⟨BitVec.ofNat 64 (va.toNat + 2 ^ 21 * (b - block va)), ?_, ?_, ?_⟩
  · omega
  · rw [hx]
    simp only [block, bits, blocks] at hfirst hlast ⊢
    omega
  · simp only [block, bits] at hfirst hlast hx ⊢
    simp only [blocks] at hlast
    rw [hx]
    omega

end Call

/-! ## The walk after a call -/

/-- A block descriptor is no page descriptor. -/
theorem kind_pmdSect_three {pa : Nat} (hpa : pa < 2 ^ 48) (ha : pa % 4096 = 0) {type : Word}
    (ht : type.toNat < 8) : kind 3 (pmdSect (BitVec.ofNat 64 pa) type) = .invalid := by
  obtain ⟨h0, h1, -⟩ := sectAttrs_fields ht
  have hlow : ∀ lo n, lo + n ≤ 12 →
      bits lo n (BitVec.ofNat 64 pa ||| sectAttrs type) = bits lo n (sectAttrs type) := by
    intro lo n hn
    exact bits_or_aligned (by omega) (by omega : pa % 2 ^ 12 = 0) hn _
  rw [pmdSect_eq, kind, hlow 0 1 (by omega), hlow 1 1 (by omega), h0, h1]
  rfl

/-- The arguments of a call in the window, to physical memory of 48 bits. -/
structure Call (va pa size type : Word) : Prop where
  first : virtOffset.toNat ≤ va.toNat
  last : va.toNat + size.toNat ≤ virtOffset.toNat + 2 ^ 34
  aligned : pa.toNat % 4096 = 0
  congruent : pa.toNat % 2 ^ 21 = va.toNat % 2 ^ 21
  fits : pa.toNat + size.toNat ≤ 2 ^ 48
  type_lt : type.toNat < 8

section After

variable {l : Layout} {m : Words} {va pa size type : Word} (h : Call va pa size type)

include h

/-- The output address of a written block. -/
theorem Call.pa_block {b : Nat} (hb : Written va size b) :
    pa + pmdSize * BitVec.ofNat 64 (b - block va) =
        BitVec.ofNat 64 (pa.toNat + 2 ^ 21 * (b - block va)) ∧
      pa.toNat + 2 ^ 21 * (b - block va) < 2 ^ 48 := by
  obtain ⟨hfirst, hlast⟩ := hb
  have hfits := h.fits
  simp only [blocks] at hlast
  constructor
  · rw [BitVec.ofNat_add, BitVec.ofNat_mul, BitVec.ofNat_toNat, BitVec.setWidth_eq]
    rfl
  · omega

/-- What a written entry says. -/
theorem Call.isSect {b : Nat} (hb : Written va size b) :
    IsSect (simpleMapMem l m va pa size type (l.pmd + 8 * b))
        (pa.toNat + 2 ^ 21 * (b - block va)) type ∧
      kind 3 (simpleMapMem l m va pa size type (l.pmd + 8 * b)) = .invalid := by
  obtain ⟨hpa, hlt⟩ := h.pa_block hb
  have ha := h.aligned
  rw [simpleMapMem_written hb, hpa]
  exact ⟨pmdSect_fields hlt (by omega) h.type_lt, kind_pmdSect_three hlt (by omega) h.type_lt⟩

/-- The PGD and the PUD keep their entries. -/
theorem Call.linked (hm : Linked m l) : Linked (simpleMapMem l m va pa size type) l := by
  apply hm.fill
  have hfirst := h.first
  have hlast := h.last
  rw [toNat_virtOffset] at hfirst hlast
  simp only [block, bits, blocks]
  omega

/-- **An address of a written block** is translated at its distance from `va`. -/
theorem Call.walk_written (hm : Linked m l) {x : Word} (hx : bits 48 16 x = 0xFFFF)
    (hb : Written va size (block x)) :
    ∃ leaf, walk (simpleMapMem l m va pa size type) l.pgd x = some leaf ∧
      (leaf.pa : Int) = pa.toNat + (x.toNat - va.toNat : Int) ∧ leaf.memType = type.toNat ∧
      leaf.shareability = 3 ∧ leaf.accessFlag = 1 := by
  have hs := (h.isSect (l := l) (m := m) hb).1
  refine ⟨_, walk_mapped (h.linked hm) (hb.lt h.first h.last) rfl hs, ?_, hs.memType,
    hs.shareability, hs.accessFlag⟩
  have hva := va.isLt
  have hfirst := h.first
  have hcongruent := h.congruent
  have hle := hb.1
  rw [toNat_virtOffset] at hfirst
  simp only [block, bits] at hx hle ⊢
  omega

/-- **An address of any other block** is translated as before, unless its walk reads a written
entry as a level-3 descriptor: no block descriptor is one. -/
theorem Call.walk_rest (hm : Linked m l) {x : Word} (hb : ¬ Written va size (block x)) :
    (¬ ReadsWritten l m va size x →
      walk (simpleMapMem l m va pa size type) l.pgd x = walk m l.pgd x) ∧
    (ReadsWritten l m va size x →
      walk (simpleMapMem l m va pa size type) l.pgd x = none) := by
  have hentry := entryAddr_pmd (l := l) x
  have hread : simpleMapMem l m va pa size type
      (entryAddr (3 - 1) (l.pmd + 4096 * (block x / 512)) x) =
        m (entryAddr (3 - 1) (l.pmd + 4096 * (block x / 512)) x) := by
    show simpleMapMem l m va pa size type (entryAddr 2 _ x) = m (entryAddr 2 _ x)
    rw [hentry]
    exact simpleMapMem_block hb
  rw [walk_window (h.linked hm), walk_window hm]
  by_cases hlt : block x < 8192
  · rw [if_pos hlt, if_pos hlt]
    constructor
    · intro hno
      refine walkLevel_congr hread fun hk => walkLevel_congr ?_ fun hk' => rfl
      apply simpleMapMem_rest
      intro b hw heq
      rw [show entryAddr (3 - 1) _ x = l.pmd + 8 * block x from hentry] at hk heq
      exact hno ⟨hlt, hk, b, hw, heq⟩
    · rintro ⟨-, hk, b, hw, heq⟩
      rw [← hentry] at hk heq
      rw [walkLevel_table (n := 1) hread hk]
      have hinvalid := (h.isSect (l := l) (m := m) hw).2
      simp only [walkLevel]
      rw [show 3 - 0 = 3 from rfl, show 3 - 1 = 2 from rfl, heq, hinvalid]
  · rw [if_neg hlt, if_neg hlt]
    exact ⟨fun _ => rfl, fun _ => rfl⟩

end After

/-! ## After `init_pagetables` -/

/-- `init_pagetables` has run on arrays that were zero; the PMD pages hold anything. -/
def Initialized (l : Layout) (m : Words) : Prop :=
  ∃ s : Cpu, s.initPagetablesDone = 0 ∧
    (∀ a, l.pgd ≤ a → a < l.pgd + 4096 → s.mem a = 0) ∧
    (∀ a, l.pud ≤ a → a < l.pud + 4096 → s.mem a = 0) ∧
    ∀ a, a < l.pmd ∨ l.pmd + 4096 * 16 ≤ a → m a = (initPagetables l.toStatics s).mem a

theorem Initialized.linked {l : Layout} {m : Words} (h : Initialized l m) : Linked m l := by
  obtain ⟨⟨m₀, done, ttbr1⟩, hdone, hpgd, hpud, hm⟩ := h
  have hapart := l.pgd_pmd
  have hapart' := l.pud_pmd
  subst hdone
  rw [initPagetables_eq] at hm
  have hlinked := linked_linkedMem hpgd hpud
  constructor
  · rw [hm _ (by omega)]
    exact hlinked.pgd_zero
  · intro i hi hi'
    rw [hm _ (by omega)]
    exact hlinked.pgd_rest i hi hi'
  · intro i hi
    rw [hm _ (by omega)]
    exact hlinked.pud_entry i hi
  · intro i hi hi'
    rw [hm _ (by omega)]
    exact hlinked.pud_rest i hi hi'

/-- **`create_simple_map` is sound and local.**  It returns; it writes the entries of blocks that
meet the range and nothing else; each of these blocks is translated at its distance from `va`; and
every other address is translated as before, but one that reads a written entry through a table
descriptor of the PMD, which is no longer mapped. -/
theorem createSimpleMap_sound (t : Arrays) {kimageVoffset : Word} (ht : t.Placed kimageVoffset)
    {m : Words} (hm : Initialized (t.layout kimageVoffset ht) m) {va pa size type : Word}
    (h : Call va pa size type) :
    ∃ m', (∀ fuel > blocks size,
        createSimpleMap (t.layout kimageVoffset ht).toStatics fuel m va pa size type = some m') ∧
      (∀ b, Written va size b → b < 8192 ∧
        ∃ x : Word, va.toNat ≤ x.toNat ∧ x.toNat < va.toNat + size.toNat ∧ block x = b) ∧
      (∀ a, (∀ b, Written va size b → a ≠ (t.layout kimageVoffset ht).pmd + 8 * b) →
        m' a = m a) ∧
      (∀ i < 512, m' ((t.layout kimageVoffset ht).pgd + 8 * i) =
          m ((t.layout kimageVoffset ht).pgd + 8 * i) ∧
        m' ((t.layout kimageVoffset ht).pud + 8 * i) =
          m ((t.layout kimageVoffset ht).pud + 8 * i)) ∧
      (∀ x, bits 48 16 x = 0xFFFF → Written va size (block x) →
        ∃ leaf, walk m' (t.layout kimageVoffset ht).pgd x = some leaf ∧
          (leaf.pa : Int) = pa.toNat + (x.toNat - va.toNat : Int) ∧ leaf.memType = type.toNat ∧
          leaf.shareability = 3 ∧ leaf.accessFlag = 1) ∧
      (∀ x, ¬ Written va size (block x) →
        (¬ ReadsWritten (t.layout kimageVoffset ht) m va size x →
          walk m' (t.layout kimageVoffset ht).pgd x = walk m (t.layout kimageVoffset ht).pgd x) ∧
        (ReadsWritten (t.layout kimageVoffset ht) m va size x →
          walk m' (t.layout kimageVoffset ht).pgd x = none)) := by
  have hlinked := hm.linked
  generalize t.layout kimageVoffset ht = l at hlinked ⊢
  have hapart := l.pgd_pmd
  have hapart' := l.pud_pmd
  have hrest : ∀ a, (∀ b, Written va size b → a ≠ l.pmd + 8 * b) →
      simpleMapMem l m va pa size type a = m a := fun a ha => simpleMapMem_rest ha
  have hlt : ∀ b, Written va size b → b < 8192 := fun b hb => hb.lt h.first h.last
  refine ⟨simpleMapMem l m va pa size type, fun fuel hfuel => ?_, ?_, hrest, ?_, ?_, ?_⟩
  · exact createSimpleMap_eq hlinked hfuel h.first h.last
  · exact fun b hb => ⟨hlt b hb, hb.exists_mem h.first h.last⟩
  · intro i hi
    constructor
    · refine hrest _ fun b hb => ?_
      have := hlt b hb
      omega
    · refine hrest _ fun b hb => ?_
      have := hlt b hb
      omega
  · exact fun x hx hb => h.walk_written hlinked hx hb
  · exact fun x hb => h.walk_rest hlinked hb

/-- The arrays of an image where QEMU loads it. -/
def Arrays.qemu : Arrays where
  pgdTable := 0xFFFF0000000E0000
  pudTable := 0xFFFF0000000E1000
  pmdTable := 0xFFFF0000000E2000
  pgd_low := by decide
  pud_low := by decide
  pmd_low := by decide
  pgd_aligned := rfl
  pud_aligned := rfl
  pmd_aligned := rfl
  pgd_pud := by decide
  pgd_pmd := by decide
  pud_pmd := by decide

/-- The distance from the link address to where QEMU loads the image. -/
def qemuVoffset : Word := kimageVaddr - 0x40080000

theorem Arrays.qemu_placed : Arrays.qemu.Placed qemuVoffset := by
  constructor <;> decide

/-- The tables after `init_pagetables`, over a PMD of ones. -/
def stalePmd : Words := fun a =>
  if 0x400E2000 ≤ a ∧ a < 0x400F2000 then -1
  else (initPagetables (Arrays.qemu.layout qemuVoffset Arrays.qemu_placed).toStatics
    ⟨fun _ => 0, 0, 0⟩).mem a

theorem stalePmd_initialized :
    Initialized (Arrays.qemu.layout qemuVoffset Arrays.qemu_placed) stalePmd := by
  have hpmd : (Arrays.qemu.layout qemuVoffset Arrays.qemu_placed).pmd = 0x400E2000 := rfl
  refine ⟨⟨fun _ => 0, 0, 0⟩, rfl, fun _ _ _ => rfl, fun _ _ _ => rfl, fun a ha => ?_⟩
  rw [hpmd] at ha
  rw [stalePmd, if_neg (by omega)]

/-- A call on 3 MiB from the middle of a block on, over a boundary of 1 GiB, in a PMD that held
ones: both blocks are mapped from their start on. -/
theorem createSimpleMap_sound_qemu :
    ∃ m', createSimpleMap (Arrays.qemu.layout qemuVoffset Arrays.qemu_placed).toStatics 3
        stalePmd 0xFFFF00003FF01000 0x80101000 0x300000 0 = some m' ∧
      (∃ leaf, walk m' (Arrays.qemu.layout qemuVoffset Arrays.qemu_placed).pgd
        0xFFFF00003FE00010 = some leaf ∧ leaf.pa = 0x80000010) ∧
      ∃ leaf, walk m' (Arrays.qemu.layout qemuVoffset Arrays.qemu_placed).pgd
        0xFFFF000040000010 = some leaf ∧ leaf.pa = 0x80200010 := by
  have hcall : Call 0xFFFF00003FF01000 0x80101000 0x300000 0 :=
    ⟨by decide, by decide, rfl, rfl, by decide, by decide⟩
  obtain ⟨m', hrun, -, -, -, hwritten, -⟩ := createSimpleMap_sound Arrays.qemu Arrays.qemu_placed
    stalePmd_initialized hcall
  obtain ⟨leaf, hwalk, hpa, -⟩ := hwritten 0xFFFF00003FE00010 rfl (by decide)
  obtain ⟨leaf', hwalk', hpa', -⟩ := hwritten 0xFFFF000040000010 rfl (by decide)
  exact ⟨m', hrun 3 (by decide), ⟨leaf, hwalk, Int.ofNat.inj hpa⟩, leaf', hwalk',
    Int.ofNat.inj hpa'⟩

/-- A PMD whose second entry makes its first page a level-3 table, with one page in it. -/
def selfMapped : Words :=
  Function.update (Function.update
    (initPagetables (Arrays.qemu.layout qemuVoffset Arrays.qemu_placed).toStatics
      ⟨fun _ => 0, 0, 0⟩).mem 0x400E2000 0x40000403) 0x400E2008 0x400E2003

theorem selfMapped_initialized :
    Initialized (Arrays.qemu.layout qemuVoffset Arrays.qemu_placed) selfMapped := by
  have hpmd : (Arrays.qemu.layout qemuVoffset Arrays.qemu_placed).pmd = 0x400E2000 := rfl
  refine ⟨⟨fun _ => 0, 0, 0⟩, rfl, fun _ _ _ => rfl, fun _ _ _ => rfl, fun a ha => ?_⟩
  rw [hpmd] at ha
  rw [selfMapped, Function.update_of_ne (by omega), Function.update_of_ne (by omega)]

/-- The arrays with `kimage_voffset` zero, as it is until the boot code stores it: their physical
addresses would have 64 bits. -/
def unplaced : Statics where
  kimageVoffset := 0
  pgdTable := Arrays.qemu.pgdTable
  pudTable := Arrays.qemu.pudTable
  pmdTable := Arrays.qemu.pmdTable

/-- A walk of tables that are no 48-bit physical addresses reads other memory. -/
theorem unplaced_unmapped :
    (createSimpleMap unplaced 2 (initPagetables unplaced ⟨fun _ => 0, 0, 0⟩).mem virtOffset
      0x40000000 0x200000 0).map
        (fun m' => walk m' (kimgToPhys 0 Arrays.qemu.pgdTable).toNat virtOffset) = some none := by
  decide +kernel

/-- A call on the first block unmaps an address of the second, which had been mapped through the
entry that the call writes; and where the arrays are not placed, the first block stays unmapped. -/
theorem createSimpleMap_unmaps_other_block :
    (Initialized (Arrays.qemu.layout qemuVoffset Arrays.qemu_placed) selfMapped ∧
      Call virtOffset 0x40000000 0x200000 0 ∧
      ¬ Written virtOffset 0x200000 (block 0xFFFF000000200000) ∧
      (∃ leaf, walk selfMapped (Arrays.qemu.layout qemuVoffset Arrays.qemu_placed).pgd
        0xFFFF000000200000 = some leaf ∧ leaf.pa = 0x40000000) ∧
      ∃ m', createSimpleMap (Arrays.qemu.layout qemuVoffset Arrays.qemu_placed).toStatics 2
          selfMapped virtOffset 0x40000000 0x200000 0 = some m' ∧
        walk m' (Arrays.qemu.layout qemuVoffset Arrays.qemu_placed).pgd 0xFFFF000000200000 =
          none) ∧
      (createSimpleMap unplaced 2 (initPagetables unplaced ⟨fun _ => 0, 0, 0⟩).mem virtOffset
        0x40000000 0x200000 0).map
          (fun m' => walk m' (kimgToPhys 0 Arrays.qemu.pgdTable).toNat virtOffset) =
        some none := by
  have hcall : Call virtOffset 0x40000000 0x200000 0 :=
    ⟨by decide, by decide, rfl, rfl, by decide, by decide⟩
  have hother : ¬ Written virtOffset 0x200000 (block 0xFFFF000000200000) := by decide
  have hlinked := selfMapped_initialized.linked
  refine ⟨⟨selfMapped_initialized, hcall, hother, ⟨⟨3, 0x40000403, 0x40000000⟩, ?_, rfl⟩, _,
    createSimpleMap_eq hlinked (by decide) hcall.first hcall.last, ?_⟩, unplaced_unmapped⟩
  · decide +kernel
  · exact (hcall.walk_rest hlinked hother).2
      ⟨by decide, by decide +kernel, 0, by decide, by decide +kernel⟩

end Eeos.Mmu
