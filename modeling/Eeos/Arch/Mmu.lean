import Eeos.Arch.Memory

/-!
# The kernel's page tables (`arch/arm64/mmu_v3.c`)

`init_pagetables`, `create_simple_map` and `create_kernel_map`.  The kernel reads and writes its
tables at their virtual addresses, which the running tables translate by `__kimg_to_phys`; the
memory here is physical, so that the same memory can be walked.  `create_simple_map` is a while
loop over unsigned addresses; it is given fuel, and failure means that it is still running.

The sixteen pages of `pmd_table` are one array of 8192 entries, one for each 2 MiB block of the
16 GiB from `VIRT_OFFSET` on.

* `Linked` — the PGD and the PUD as `init_pagetables` leaves them.
* `walk_window` — the walk through them ends in the entry of the address's block.

Principal result: `createSimpleMap_eq` (a call is one run of block descriptors).
-/

namespace Eeos.Mmu

open Vmsa Memory

/-! ## The code -/

/-- The static data that the code refers to: `kimage_voffset` and the tables' virtual addresses. -/
structure Statics where
  kimageVoffset : Word
  pgdTable : Word
  pudTable : Word
  pmdTable : Word

def pgdIndex (va : Word) : Word := (va >>> 39) &&& (512 - 1)

def pudIndex (va : Word) : Word := (va >>> 30) &&& (512 - 1)

def pmdIndex (va : Word) : Word := (va >>> 21) &&& (512 - 1)

def pgdTypeTable : Word := 3

def pudTypeTable : Word := 3

def pudSize : Word := 0x40000000

def pmdSize : Word := 0x200000

def pmdTypeSect : Word := 0x1

def pmdSectS : Word := 0x300

def pmdSectAf : Word := 0x400

def pmdAttrindx (t : Word) : Word := t <<< 2

/-- The state that `create_kernel_map` works on. -/
structure Cpu where
  mem : Words
  initPagetablesDone : Int
  ttbr1 : Word

section Code

variable (l : Statics)

/-- A load at a virtual address of the image. -/
def readq (m : Words) (p : Word) : Word := m (kimgToPhys l.kimageVoffset p).toNat

/-- `writeq`, at a virtual address of the image. -/
def writeq (m : Words) (v p : Word) : Words :=
  Function.update m (kimgToPhys l.kimageVoffset p).toNat v

/-- The loop over the entries of the PUD, with `n` to go. -/
def initPudEntries : Nat → Words → Word → Word → Words
  | 0, m, _, _ => m
  | n + 1, m, va, pmdPhys =>
    let pudEntry := l.pudTable + 8 * pudIndex va
    let m := writeq l m (pmdPhys ||| pudTypeTable) pudEntry
    initPudEntries n m (va + pudSize) (pmdPhys + 4096)

/-- `init_pagetables`. -/
def initPagetables (s : Cpu) : Cpu :=
  if s.initPagetablesDone ≠ 0 then s
  else
    let va := virtOffset
    let pudPhys := virtToPhys l.kimageVoffset l.pudTable
    let pmdPhys := virtToPhys l.kimageVoffset l.pmdTable
    let pgdEntry := l.pgdTable + 8 * pgdIndex va
    let m := writeq l s.mem (pudPhys ||| pgdTypeTable) pgdEntry
    { s with mem := initPudEntries l 16 m va pmdPhys, initPagetablesDone := 1 }

/-- The block descriptor that `create_simple_map` builds. -/
def pmdSect (pa type : Word) : Word :=
  pa ||| pmdSectAf ||| pmdAttrindx type ||| pmdSectS ||| pmdTypeSect

/-- The loop of `create_simple_map`. -/
def createSimpleMapLoop : Nat → Words → Word → Word → Word → Word → Option Words
  | 0, _, _, _, _, _ => none
  | fuel + 1, m, va, vaEnd, pa, type =>
    if va < vaEnd then
      let pudEntry := l.pudTable + 8 * pudIndex va
      let pmdPageTable := physToKimg l.kimageVoffset (readq l m pudEntry &&& 0xFFFFFFFFFFFFF000)
      let pmdEntry := pmdPageTable + 8 * pmdIndex va
      let m := writeq l m (pmdSect pa type) pmdEntry
      createSimpleMapLoop fuel m (va + pmdSize) vaEnd (pa + pmdSize) type
    else some m

/-- `create_simple_map`. -/
def createSimpleMap (fuel : Nat) (m : Words) (va pa size type : Word) : Option Words :=
  createSimpleMapLoop l fuel m va (va + size) pa type

/-- `switch_mm`. -/
def switchMm (s : Cpu) (pgd : Word) : Cpu := { s with ttbr1 := virtToPhys l.kimageVoffset pgd }

/-- `create_kernel_map`, for an image that ends at `kimageEnd`. -/
def createKernelMap (fuel : Nat) (kimageEnd : Word) (s : Cpu) : Option Cpu :=
  let s := initPagetables l s
  match createSimpleMap l fuel s.mem kimageVaddr (kimageVaddr - l.kimageVoffset)
      (kimageEnd - kimageVaddr) mtNormal with
  | none => none
  | some m =>
    match createSimpleMap l fuel m pageOffset physOffset physSize mtNormal with
    | none => none
    | some m =>
      match createSimpleMap l fuel m deviceStart devicePhysOffset devicePhysSize
          mtDeviceNGnRnE with
      | none => none
      | some m => some (switchMm l { s with mem := m } l.pgdTable)

end Code

/-! ## The tables -/

namespace Statics

variable (l : Statics)

/-- The physical addresses of the tables. -/
def pgd : Nat := (kimgToPhys l.kimageVoffset l.pgdTable).toNat

def pud : Nat := (kimgToPhys l.kimageVoffset l.pudTable).toNat

def pmd : Nat := (kimgToPhys l.kimageVoffset l.pmdTable).toNat

end Statics

/-- Static data whose tables are pages of the image, apart from one another in physical memory. -/
structure Layout extends Statics where
  pgd_low : pgdTable < pageOffset
  pud_low : pudTable < pageOffset
  pmd_low : pmdTable < pageOffset
  pgd_aligned : toStatics.pgd % 4096 = 0
  pud_aligned : toStatics.pud % 4096 = 0
  pmd_aligned : toStatics.pmd % 4096 = 0
  pgd_lt : toStatics.pgd + 4096 ≤ 2 ^ 48
  pud_lt : toStatics.pud + 4096 ≤ 2 ^ 48
  pmd_lt : toStatics.pmd + 4096 * 16 ≤ 2 ^ 48
  pgd_pud : toStatics.pgd + 4096 ≤ toStatics.pud ∨ toStatics.pud + 4096 ≤ toStatics.pgd
  pgd_pmd : toStatics.pgd + 4096 ≤ toStatics.pmd ∨ toStatics.pmd + 4096 * 16 ≤ toStatics.pgd
  pud_pmd : toStatics.pud + 4096 ≤ toStatics.pmd ∨ toStatics.pmd + 4096 * 16 ≤ toStatics.pud

theorem Layout.toNat_pgd (l : Layout) : (BitVec.ofNat 64 l.pgd).toNat = l.pgd := by
  have := l.pgd_lt
  rw [BitVec.toNat_ofNat, Nat.mod_eq_of_lt (by omega)]

/-- The number of the 2 MiB block of `va`, in the 48-bit space. -/
def block (va : Word) : Nat := bits 21 27 va

/-- The PGD and the PUD as `init_pagetables` leaves them. -/
structure Linked (m : Words) (l : Layout) : Prop where
  pgd_zero : m l.pgd = BitVec.ofNat 64 l.pud ||| 3
  pgd_rest : ∀ i, 0 < i → i < 512 → m (l.pgd + 8 * i) = 0
  pud_entry : ∀ i < 16, m (l.pud + 8 * i) = BitVec.ofNat 64 (l.pmd + 4096 * i) ||| 3
  pud_rest : ∀ i, 16 ≤ i → i < 512 → m (l.pud + 8 * i) = 0

/-- Writing the PMD keeps the tables linked. -/
theorem Linked.fill {m : Words} {l : Layout} (h : Linked m l) {i n : Nat} (hn : i + n ≤ 8192)
    (d : Nat → Word) : Linked (fill m l.pmd i n d) l := by
  have := l.pgd_pmd
  have := l.pud_pmd
  constructor
  · rw [fill_off _ _ _ _ _ (by omega), h.pgd_zero]
  · intro j hj hj'
    rw [fill_off _ _ _ _ _ (by omega), h.pgd_rest j hj hj']
  · intro j hj
    rw [fill_off _ _ _ _ _ (by omega), h.pud_entry j hj]
  · intro j hj hj'
    rw [fill_off _ _ _ _ _ (by omega), h.pud_rest j hj hj']

/-! ## The walk -/

theorem kind_table {level x : Nat} (hl : level ≠ 3) (hx : x < 2 ^ 48) (ha : x % 4096 = 0) :
    kind level (BitVec.ofNat 64 x ||| 3) = .table := by
  have hlow : ∀ lo, lo + 1 ≤ 12 → bits lo 1 (BitVec.ofNat 64 x ||| 3) = bits lo 1 3 := by
    intro lo hlo
    exact bits_or_aligned (by omega) (by omega : x % 2 ^ 12 = 0) hlo 3
  rw [kind, hlow 0 (by omega), hlow 1 (by omega), if_neg (by decide), if_pos (by decide),
    if_neg hl]

section Walk

variable {m : Words} {l : Layout}

/-- The walk through the PGD and the PUD. -/
theorem walk_window (h : Linked m l) (va : Word) :
    walk m l.pgd va =
      if block va < 8192 then walkLevel m va 2 (l.pmd + 4096 * (block va / 512)) else none := by
  have := l.pud_lt
  have := l.pmd_lt
  have hblock : block va = bits 39 9 va * 2 ^ 18 + bits 30 9 va * 2 ^ 9 + bits 21 9 va := by
    simp only [block, bits]
    omega
  have h9 : ∀ lo, bits lo 9 va < 512 := fun lo => bits_lt lo 9 va
  have h21 := h9 21
  have h30 := h9 30
  rw [walk]
  by_cases hpgd : bits 39 9 va = 0
  case neg =>
    have hread : m (entryAddr (3 - 3) l.pgd va) = 0 := h.pgd_rest _ (Nat.pos_of_ne_zero hpgd) (h9 39)
    rw [walkLevel_invalid hread, if_neg (by omega)]
  have hread : m (entryAddr (3 - 3) l.pgd va) = BitVec.ofNat 64 l.pud ||| 3 := by
    rw [entryAddr, shift, hpgd]
    exact h.pgd_zero
  rw [walkLevel_table hread (kind_table (by decide) (by omega) l.pud_aligned),
    nextTable_or (by omega) l.pud_aligned (by decide)]
  by_cases hpud : bits 30 9 va < 16
  case neg =>
    have hread : m (entryAddr (3 - 2) l.pud va) = 0 := h.pud_rest _ (Nat.le_of_not_lt hpud) h30
    rw [walkLevel_invalid hread, if_neg (by omega)]
  have hread : m (entryAddr (3 - 2) l.pud va) =
      BitVec.ofNat 64 (l.pmd + 4096 * bits 30 9 va) ||| 3 := h.pud_entry _ hpud
  have ha := l.pmd_aligned
  rw [walkLevel_table hread (kind_table (by decide) (by omega) (by omega)),
    nextTable_or (by omega) (by omega) (by decide), if_pos (by omega)]
  congr 2
  omega

/-- The entry of the PMD that the walk reads. -/
theorem entryAddr_pmd (va : Word) :
    entryAddr 2 (l.pmd + 4096 * (block va / 512)) va = l.pmd + 8 * block va := by
  have hb : block va % 512 = bits 21 9 va := by
    simp only [block, bits]
    omega
  rw [entryAddr, show shift 2 = 21 from rfl]
  omega

/-- A block whose entry is zero is not mapped. -/
theorem walk_unmapped (h : Linked m l) {va : Word}
    (hz : block va < 8192 → m (l.pmd + 8 * block va) = 0) : walk m l.pgd va = none := by
  rw [walk_window h]
  split
  · rename_i hb
    exact walkLevel_invalid (n := 1) ((congrArg m (entryAddr_pmd va)).trans (hz hb))
  · rfl

end Walk

/-! ## Block descriptors -/

/-- The attributes of a block descriptor. -/
def sectAttrs (type : Word) : Word := pmdSectAf ||| pmdAttrindx type ||| pmdSectS ||| pmdTypeSect

theorem pmdSect_eq (pa type : Word) : pmdSect pa type = pa ||| sectAttrs type := by
  simp only [pmdSect, sectAttrs, BitVec.or_assoc]

/-- The fields of the attributes, for a memory type of three bits. -/
theorem sectAttrs_fields {type : Word} (ht : type.toNat < 8) :
    bits 0 1 (sectAttrs type) = 1 ∧ bits 1 1 (sectAttrs type) = 0 ∧
      bits 2 3 (sectAttrs type) = type.toNat ∧ bits 8 2 (sectAttrs type) = 3 ∧
      bits 10 1 (sectAttrs type) = 1 ∧ bits 21 27 (sectAttrs type) = 0 := by
  obtain ⟨k, hk, rfl⟩ : ∃ k < 8, type = BitVec.ofNat 64 k := ⟨type.toNat, ht, by simp⟩
  have hall : ∀ k < 8, bits 0 1 (sectAttrs (BitVec.ofNat 64 k)) = 1 ∧
      bits 1 1 (sectAttrs (BitVec.ofNat 64 k)) = 0 ∧
      bits 2 3 (sectAttrs (BitVec.ofNat 64 k)) = (BitVec.ofNat 64 k).toNat ∧
      bits 8 2 (sectAttrs (BitVec.ofNat 64 k)) = 3 ∧
      bits 10 1 (sectAttrs (BitVec.ofNat 64 k)) = 1 ∧
      bits 21 27 (sectAttrs (BitVec.ofNat 64 k)) = 0 := by decide
  exact hall k hk

/-- What a block descriptor says. -/
structure IsSect (d : Word) (pa : Nat) (type : Word) : Prop where
  kind : kind 2 d = .leaf
  base : bits 21 27 d = pa / 2 ^ 21
  memType : bits 2 3 d = type.toNat
  shareability : bits 8 2 d = 3
  accessFlag : bits 10 1 d = 1

theorem pmdSect_fields {pa : Nat} (hpa : pa < 2 ^ 48) (ha : pa % 4096 = 0) {type : Word}
    (ht : type.toNat < 8) : IsSect (pmdSect (BitVec.ofNat 64 pa) type) pa type := by
  obtain ⟨h0, h1, h2, h8, h10, h21⟩ := sectAttrs_fields ht
  have hlow : ∀ lo n, lo + n ≤ 12 →
      bits lo n (BitVec.ofNat 64 pa ||| sectAttrs type) = bits lo n (sectAttrs type) := by
    intro lo n hn
    exact bits_or_aligned (by omega) (by omega : pa % 2 ^ 12 = 0) hn _
  rw [pmdSect_eq]
  constructor
  · rw [Vmsa.kind, hlow 0 1 (by omega), hlow 1 1 (by omega), h0, h1]
    rfl
  · rw [bits_or, h21, Nat.or_zero, bits_ofNat (by omega)]
    omega
  · rw [hlow 2 3 (by omega), h2]
  · rw [hlow 8 2 (by omega), h8]
  · rw [hlow 10 1 (by omega), h10]

/-- A block is translated by its descriptor: bits 47:21 from there, the others from the address. -/
theorem walk_mapped {m : Words} {l : Layout} (h : Linked m l) {va d : Word} (hb : block va < 8192)
    (hd : m (l.pmd + 8 * block va) = d) {pa : Nat} {type : Word} (hs : IsSect d pa type) :
    walk m l.pgd va = some ⟨2, d, pa / 2 ^ 21 * 2 ^ 21 + bits 0 21 va⟩ := by
  have hread : m (entryAddr (3 - 1) (l.pmd + 4096 * (block va / 512)) va) = d :=
    (congrArg m (entryAddr_pmd va)).trans hd
  rw [walk_window h, if_pos hb, walkLevel_leaf hread hs.kind, ← hs.base]
  rfl

/-! ## `create_simple_map` -/

/-- The entry at `table + 8 * index`, in physical memory. -/
theorem toNat_kimg_entry (kimageVoffset table index : Word)
    (h : (kimgToPhys kimageVoffset table).toNat + 8 * index.toNat < 2 ^ 64) :
    (kimgToPhys kimageVoffset (table + 8 * index)).toNat =
      (kimgToPhys kimageVoffset table).toNat + 8 * index.toNat := by
  simp only [kimgToPhys] at h ⊢
  bv_omega

section SimpleMap

variable {m : Words} {l : Layout}

/-- The page of the PMD that the code finds in the PUD. -/
theorem pmdPageTable_eq (h : Linked m l) {va : Word} (hb : block va < 8192) :
    readq l.toStatics m (l.pudTable + 8 * pudIndex va) &&& 0xFFFFFFFFFFFFF000 =
      BitVec.ofNat 64 (l.pmd + 4096 * (block va / 512)) := by
  have := l.pud_lt
  have ha := l.pmd_aligned
  have hindex : (pudIndex va).toNat = block va / 512 := by
    rw [pudIndex, toNat_index]
    simp only [block, bits] at hb ⊢
    omega
  have hentry := toNat_kimg_entry l.kimageVoffset l.pudTable (pudIndex va)
    (by rw [hindex]; simp only [Statics.pud] at *; omega)
  have hread : readq l.toStatics m (l.pudTable + 8 * pudIndex va) =
      BitVec.ofNat 64 (l.pmd + 4096 * (block va / 512)) ||| 3 := by
    rw [readq, hentry, hindex]
    exact h.pud_entry _ (by omega)
  have hmask : (0xFFFFFFFFFFFFF000 : Word) = ~~~4095 := rfl
  have hflags : (3 : Word) &&& ~~~4095 = 0 := rfl
  rw [hread, hmask, BitVec.and_or_distrib_right, hflags, page_mask]
  · exact BitVec.or_zero
  · rw [BitVec.toNat_ofNat]
    omega

/-- The store of one turn of the loop. -/
theorem writeq_pmdEntry (h : Linked m l) (va : Word) (hb : block va < 8192) (d : Word) :
    writeq l.toStatics m d (physToKimg l.kimageVoffset
        (readq l.toStatics m (l.pudTable + 8 * pudIndex va) &&& 0xFFFFFFFFFFFFF000) +
          8 * pmdIndex va) =
      Function.update m (l.pmd + 8 * block va) d := by
  have := l.pmd_lt
  have hindex : (pmdIndex va).toNat = block va % 512 := by
    rw [pmdIndex, toNat_index]
    simp only [block, bits]
    omega
  have hpage : (kimgToPhys l.kimageVoffset (physToKimg l.kimageVoffset
      (BitVec.ofNat 64 (l.pmd + 4096 * (block va / 512))))).toNat =
      l.pmd + 4096 * (block va / 512) := by
    rw [kimgToPhys_physToKimg, BitVec.toNat_ofNat]
    omega
  rw [pmdPageTable_eq h hb, writeq, toNat_kimg_entry _ _ _ (by rw [hpage, hindex]; omega), hpage,
    hindex]
  congr 1
  omega

theorem block_add_pmdSize (va : Word) (hb : block va < 8192)
    (hv : va.toNat + 2 ^ 21 < 2 ^ 64) : block (va + pmdSize) = block va + 1 := by
  have hsum : (va + pmdSize).toNat = va.toNat + 2 ^ 21 := by
    simp only [pmdSize]
    bv_omega
  simp only [block, bits, hsum] at hb ⊢
  omega

/-- The loop, with `n` blocks to go. -/
theorem createSimpleMapLoop_eq {n fuel : Nat} (hfuel : n < fuel) (h : Linked m l)
    {va vaEnd : Word} (hend : vaEnd.toNat ≤ va.toNat + n * 2 ^ 21)
    (hlast : n ≠ 0 → va.toNat + (n - 1) * 2 ^ 21 < vaEnd.toNat)
    (hv : va.toNat + n * 2 ^ 21 < 2 ^ 64) (hb : block va + n ≤ 8192) (pa type : Word) :
    createSimpleMapLoop l.toStatics fuel m va vaEnd pa type =
      some (fill m l.pmd (block va) n fun k => pmdSect (pa + pmdSize * BitVec.ofNat 64 k) type) := by
  induction n generalizing fuel m va pa with
  | zero =>
    obtain ⟨fuel, rfl⟩ : ∃ f, fuel = f + 1 := ⟨fuel - 1, by omega⟩
    have hstop : ¬ va < vaEnd := by rw [BitVec.lt_def]; omega
    rw [createSimpleMapLoop, if_neg hstop, fill_zero]
  | succ n ih =>
    obtain ⟨fuel, rfl⟩ : ∃ f, fuel = f + 1 := ⟨fuel - 1, by omega⟩
    have hgo : va < vaEnd := by
      have := hlast (by omega)
      rw [BitVec.lt_def]
      omega
    have hsum : (va + pmdSize).toNat = va.toNat + 2 ^ 21 := by
      simp only [pmdSize]
      bv_omega
    have hnext := block_add_pmdSize va (by omega) (by omega)
    have hlinked := h.fill (i := block va) (n := 1) (by omega) fun _ => pmdSect pa type
    rw [fill_one] at hlinked
    rw [createSimpleMapLoop, if_pos hgo]
    simp only [writeq_pmdEntry h va (by omega)]
    rw [ih (by omega) hlinked (by omega) (fun hn => by have := hlast (by omega); omega) (by omega)
      (by omega), hnext, ← fill_succ]
    simp only [stride_succ, stride_zero]

/-- How many blocks a call writes. -/
def blocks (size : Word) : Nat := (size.toNat + (2 ^ 21 - 1)) / 2 ^ 21

/-- **`create_simple_map` in the 16 GiB window writes one run of block descriptors**, one for every
2 MiB from `va` on. -/
theorem createSimpleMap_eq (h : Linked m l) {va pa size type : Word} {fuel : Nat}
    (hfuel : blocks size < fuel) (hv : virtOffset.toNat ≤ va.toNat)
    (hv' : va.toNat + size.toNat ≤ virtOffset.toNat + 2 ^ 34) :
    createSimpleMap l.toStatics fuel m va pa size type =
      some (fill m l.pmd (block va) (blocks size) fun k =>
        pmdSect (pa + pmdSize * BitVec.ofNat 64 k) type) := by
  have hoff : virtOffset.toNat = 0xFFFF000000000000 := rfl
  have hsum : (va + size).toNat = va.toNat + size.toNat := by
    rw [BitVec.toNat_add]
    omega
  apply createSimpleMapLoop_eq hfuel h
  · rw [hsum, blocks]
    omega
  · rw [hsum, blocks]
    omega
  · rw [blocks]
    omega
  · simp only [block, bits, blocks]
    omega

end SimpleMap

end Eeos.Mmu
