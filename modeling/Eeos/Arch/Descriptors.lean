import Eeos.Arch.KernelMap

/-!
# The descriptors of the final page tables (`create_kernel_map` of `arch/arm64/mmu_v3.c`)

`create_simple_map` ors the output address into a block descriptor without masking it to 2 MiB.  The
linear map and the devices start at a 2 MiB boundary; the image is loaded 512 KiB after one, so its
descriptors have bit 19 set, one of the bits 20:12 that a block descriptor reserves.

* `Legal` — what the architecture allows a valid descriptor of the image's tables to be.
* `reachable_cases` — the tables that a walk from `pgd_table` can come to.
* `LoadedImage.legal_iff` — the reachable entries that are legal.

Principal result: `createKernelMap_not_legal` — wherever the image is loaded, the descriptors of its
blocks, and only these, have a reserved bit set.
-/

namespace Eeos.Mmu

open Vmsa Memory

/-! ## Legal descriptors -/

/-- A table descriptor that points to a page of `pud_table` from level 0, or of `pmd_table` from
level 1. -/
def IsTable (l : Layout) (level : Nat) (d : Word) : Prop :=
  bits 0 2 d = 3 ∧
    (level = 0 ∧ nextTable d = l.pud ∨ level = 1 ∧ ∃ i < 16, nextTable d = l.pmd + 4096 * i)

/-- A block descriptor of level 2.  Its output address is aligned to 2 MiB: the reserved bits 20:12
are zero. -/
def IsBlock (level : Nat) (d : Word) : Prop :=
  level = 2 ∧ bits 0 2 d = 1 ∧ bits 12 9 d = 0

def Legal (l : Layout) (level : Nat) (d : Word) : Prop := IsTable l level d ∨ IsBlock level d

/-- Every valid entry that a walk from `pgd_table` can come to is legal. -/
def AllLegal (m : Words) (l : Layout) : Prop :=
  ∀ level tbl i, Reachable m l.pgd level tbl → i < 512 → bits 0 1 (m (tbl + 8 * i)) = 1 →
    Legal l level (m (tbl + 8 * i))

/-- The descriptors that link the tables. -/
theorem bits_table {x : Nat} (hx : x < 2 ^ 48) (ha : x % 4096 = 0) :
    bits 0 2 (BitVec.ofNat 64 x ||| 3) = 3 ∧ nextTable (BitVec.ofNat 64 x ||| 3) = x := by
  constructor
  · exact bits_or_aligned (by omega) (by omega : x % 2 ^ 12 = 0) (by omega) 3
  · exact nextTable_or hx ha (by decide)

/-! ## Reachable tables -/

section Reachable

variable {m : Words} {l : Layout}

/-- The tables that a walk from `pgd_table` can come to, when the PMD has no tables under it. -/
theorem reachable_cases (h : Linked m l)
    (hpmd : ∀ b < 8192, kind 2 (m (l.pmd + 8 * b)) ≠ .table) {level tbl : Nat}
    (hr : Reachable m l.pgd level tbl) :
    (level = 0 ∧ tbl = l.pgd) ∨ (level = 1 ∧ tbl = l.pud) ∨
      (level = 2 ∧ ∃ k < 16, tbl = l.pmd + 4096 * k) := by
  have := l.pud_lt
  have := l.pmd_lt
  have ha := l.pmd_aligned
  induction hr with
  | root => exact Or.inl ⟨rfl, rfl⟩
  | @next level tbl i hr hi hk ih =>
    obtain ⟨rfl, rfl⟩ | ⟨rfl, rfl⟩ | ⟨rfl, k, hk', rfl⟩ := ih
    · cases i with
      | zero =>
        refine Or.inr (Or.inl ⟨rfl, ?_⟩)
        rw [Nat.mul_zero, Nat.add_zero, h.pgd_zero]
        exact (bits_table (by omega) l.pud_aligned).2
      | succ i =>
        rw [h.pgd_rest (i + 1) (Nat.succ_pos i) hi, kind_zero] at hk
        cases hk
    · by_cases hi' : i < 16
      · refine Or.inr (Or.inr ⟨rfl, i, hi', ?_⟩)
        rw [h.pud_entry i hi']
        exact (bits_table (by omega) (by omega)).2
      · rw [h.pud_rest i (by omega) hi, kind_zero] at hk
        cases hk
    · have hentry : l.pmd + 4096 * k + 8 * i = l.pmd + 8 * (512 * k + i) := by omega
      rw [hentry] at hk
      exact absurd hk (hpmd _ (by omega))

/-- A walk comes to every page of `pmd_table`. -/
theorem reachable_pmd (h : Linked m l) {k : Nat} (hk : k < 16) :
    Reachable m l.pgd 2 (l.pmd + 4096 * k) := by
  have := l.pud_lt
  have := l.pmd_lt
  have ha := l.pmd_aligned
  have hpgd : m (l.pgd + 8 * 0) = BitVec.ofNat 64 l.pud ||| 3 := h.pgd_zero
  have hpud : Reachable m l.pgd 1 l.pud := by
    have hnext := Reachable.next (i := 0) (.root : Reachable m l.pgd 0 l.pgd) (by omega)
      (by rw [hpgd]; exact kind_table (by decide) (by omega) l.pud_aligned)
    rwa [hpgd, (bits_table (by omega) l.pud_aligned).2] at hnext
  have hentry := h.pud_entry k hk
  have hnext := Reachable.next hpud (by omega : k < 512)
    (by rw [hentry]; exact kind_table (by decide) (by omega) (by omega))
  rwa [hentry, (bits_table (by omega) (by omega)).2] at hnext

end Reachable

/-! ## Block descriptors -/

theorem sectAttrs_low {type : Word} (ht : type.toNat < 8) :
    bits 0 2 (sectAttrs type) = 1 ∧ bits 12 9 (sectAttrs type) = 0 := by
  obtain ⟨k, hk, rfl⟩ : ∃ k < 8, type = BitVec.ofNat 64 k := ⟨type.toNat, ht, by simp⟩
  have hall : ∀ k < 8, bits 0 2 (sectAttrs (BitVec.ofNat 64 k)) = 1 ∧
      bits 12 9 (sectAttrs (BitVec.ofNat 64 k)) = 0 := by decide
  exact hall k hk

/-- The reserved bits of a window's descriptors are those that its start has under 2 MiB. -/
theorem Window.desc_low {w : Window} (hw : w.Ok) {b : Nat} (hb : w.Has b) :
    bits 0 2 (w.desc (b - w.first)) = 1 ∧
      bits 12 9 (w.desc (b - w.first)) = w.pa % 2 ^ 21 / 4096 := by
  have hlt := hw.lt
  have haligned := hw.aligned
  obtain ⟨hlow, hreserved⟩ := sectAttrs_low hw.type_lt
  unfold Window.Has at hb
  rw [Window.desc, pmdSect_eq]
  constructor
  · rw [bits_or_aligned (by omega) (by omega : (w.pa + 2 ^ 21 * (b - w.first)) % 2 ^ 12 = 0)
      (by omega), hlow]
  · rw [bits_or, hreserved, Nat.or_zero, bits_ofNat (by omega)]
    omega

/-- A window's descriptors are legal when it starts at a 2 MiB boundary. -/
theorem Window.isBlock_iff {w : Window} (hw : w.Ok) {b : Nat} (hb : w.Has b) :
    IsBlock 2 (w.desc (b - w.first)) ↔ w.pa % 2 ^ 21 = 0 := by
  have haligned := hw.aligned
  obtain ⟨hlow, hreserved⟩ := w.desc_low hw hb
  rw [IsBlock, hlow, hreserved]
  omega

namespace LoadedImage

variable (im : LoadedImage)

/-- The entry of a block of the image. -/
def IsImageEntry (a : Nat) : Prop := ∃ b, im.imageWindow.Has b ∧ a = im.layout.pmd + 8 * b

theorem imageWindow_lt {b : Nat} (hb : im.imageWindow.Has b) : b < 2048 := by
  have hcount := im.imageWindow_count_le
  have hlt : b < 0 + im.imageWindow.count := hb.2
  omega

theorem isImageEntry_iff {b : Nat} :
    im.IsImageEntry (im.layout.pmd + 8 * b) ↔ im.imageWindow.Has b := by
  constructor
  · rintro ⟨b', hb', h⟩
    obtain rfl : b = b' := by omega
    exact hb'
  · intro hb
    exact ⟨b, hb, rfl⟩

/-- A valid entry of the PMD is one of a window. -/
theorem exists_window_entry {m : Words} (hz : Zeroed m im.layout) {b : Nat} (hb : b < 8192)
    (h : im.finalMem m (im.layout.pmd + 8 * b) ≠ 0) :
    ∃ w ∈ im.windows, w.Has b ∧
      im.finalMem m (im.layout.pmd + 8 * b) = w.desc (b - w.first) := by
  by_cases hw : ∃ w ∈ im.windows, w.Has b
  · obtain ⟨w, hw, hhas⟩ := hw
    exact ⟨w, hw, hhas, im.finalMem_has hw hhas m⟩
  · exact absurd (im.finalMem_none hz hb fun w hw' hhas => hw ⟨w, hw', hhas⟩) h

theorem pmd_not_table {m : Words} (hz : Zeroed m im.layout) (b : Nat) (hb : b < 8192) :
    kind 2 (im.finalMem m (im.layout.pmd + 8 * b)) ≠ .table := by
  intro hk
  have hne : im.finalMem m (im.layout.pmd + 8 * b) ≠ 0 := by
    intro hzero
    rw [hzero, kind_zero] at hk
    cases hk
  obtain ⟨w, hw, hhas, heq⟩ := im.exists_window_entry hz hb hne
  rw [heq, (w.isSect_desc (im.windows_ok w hw) hhas).kind] at hk
  cases hk

/-- An entry of a window is legal, unless the window is the image's. -/
theorem legal_window_iff {w : Window} (hw : w ∈ im.windows) {b : Nat} (hb : w.Has b) :
    Legal im.layout 2 (w.desc (b - w.first)) ↔ ¬ im.imageWindow.Has b := by
  have hblock := w.isBlock_iff (im.windows_ok w hw) hb
  have hlegal : Legal im.layout 2 (w.desc (b - w.first)) ↔ w.pa % 2 ^ 21 = 0 := by
    rw [← hblock]
    constructor
    · rintro (⟨-, ⟨h, -⟩ | ⟨h, -⟩⟩ | h)
      · cases h
      · cases h
      · exact h
    · exact Or.inr
  rw [hlegal]
  obtain rfl | rfl | rfl := im.mem_windows.1 hw
  · have hload := im.load_aligned
    rw [toNat_kimageVaddr] at hload
    refine iff_of_false ?_ fun h => h hb
    show ¬ im.load % 2 ^ 21 = 0
    omega
  · refine iff_of_true rfl fun h => ?_
    have hlt := im.imageWindow_lt h
    have hge : 2048 ≤ b := hb.1
    omega
  · refine iff_of_true rfl fun h => ?_
    have hlt := im.imageWindow_lt h
    have hge : 6144 ≤ b := hb.1
    omega

/-- **The entries that a walk can come to are legal, but for those of the image's blocks.** -/
theorem legal_iff {m : Words} (hz : Zeroed m im.layout) {level tbl i : Nat}
    (hr : Reachable (im.finalMem m) im.layout.pgd level tbl) (hi : i < 512)
    (hv : bits 0 1 (im.finalMem m (tbl + 8 * i)) = 1) :
    Legal im.layout level (im.finalMem m (tbl + 8 * i)) ↔ ¬ im.IsImageEntry (tbl + 8 * i) := by
  have hlinked := im.linked_finalMem hz
  have hne : im.finalMem m (tbl + 8 * i) ≠ 0 := by
    intro hzero
    rw [hzero, bits_zero] at hv
    cases hv
  have := im.layout.pgd_pmd
  have := im.layout.pud_pmd
  have := im.layout.pud_lt
  have := im.layout.pmd_lt
  have ha := im.layout.pmd_aligned
  have hfar : ∀ b, im.imageWindow.Has b → b < 8192 := by
    intro b hb
    have := im.imageWindow_lt hb
    omega
  have hcases := reachable_cases hlinked (im.pmd_not_table hz) hr
  obtain ⟨rfl, rfl⟩ | ⟨rfl, rfl⟩ | ⟨rfl, k, hk, rfl⟩ := hcases
  · refine iff_of_true ?_ ?_
    · cases i with
      | zero =>
        obtain ⟨hlow, hnext⟩ := bits_table (by omega : im.layout.pud < 2 ^ 48) im.layout.pud_aligned
        rw [Nat.mul_zero, Nat.add_zero, hlinked.pgd_zero]
        exact Or.inl ⟨hlow, Or.inl ⟨rfl, hnext⟩⟩
      | succ i => exact absurd (hlinked.pgd_rest (i + 1) (Nat.succ_pos i) hi) hne
    · rintro ⟨b, hb, h⟩
      have := hfar b hb
      omega
  · refine iff_of_true ?_ ?_
    · by_cases hi' : i < 16
      · obtain ⟨hlow, hnext⟩ := bits_table (by omega : im.layout.pmd + 4096 * i < 2 ^ 48) (by omega)
        rw [hlinked.pud_entry i hi']
        exact Or.inl ⟨hlow, Or.inr ⟨rfl, i, hi', hnext⟩⟩
      · exact absurd (hlinked.pud_rest i (by omega) hi) hne
    · rintro ⟨b, hb, h⟩
      have := hfar b hb
      omega
  · have hentry : im.layout.pmd + 4096 * k + 8 * i = im.layout.pmd + 8 * (512 * k + i) := by omega
    rw [hentry] at hne ⊢
    obtain ⟨w, hw, hhas, heq⟩ := im.exists_window_entry hz (by omega) hne
    rw [heq, im.legal_window_iff hw hhas, im.isImageEntry_iff]

/-- The image's first block is mapped by an entry that has a reserved bit set. -/
theorem exists_not_legal {m : Words} (hz : Zeroed m im.layout) :
    ∃ tbl i, Reachable (im.finalMem m) im.layout.pgd 2 tbl ∧ i < 512 ∧
      bits 0 2 (im.finalMem m (tbl + 8 * i)) = 1 ∧ bits 12 9 (im.finalMem m (tbl + 8 * i)) = 0x80 ∧
      ¬ Legal im.layout 2 (im.finalMem m (tbl + 8 * i)) := by
  have hcount := im.imageWindow_count
  have hpos := im.size_pos
  have hload := im.load_aligned
  rw [toNat_kimageVaddr] at hload
  have hhas : im.imageWindow.Has 0 := by
    refine ⟨Nat.le_refl 0, ?_⟩
    show 0 < 0 + im.imageWindow.count
    omega
  have hw : im.imageWindow ∈ im.windows := List.mem_cons_self
  obtain ⟨hlow, hreserved⟩ := im.imageWindow.desc_low (im.windows_ok _ hw) hhas
  have hpa : im.imageWindow.pa % 2 ^ 21 / 4096 = 0x80 := by
    show im.load % 2 ^ 21 / 4096 = 0x80
    omega
  have hr := reachable_pmd (im.linked_finalMem hz) (by omega : 0 < 16)
  rw [Nat.mul_zero, Nat.add_zero] at hr
  refine ⟨im.layout.pmd, 0, hr, by omega, ?_⟩
  rw [im.finalMem_has hw hhas m, im.legal_window_iff hw hhas]
  exact ⟨hlow, hreserved.trans hpa, fun h => h hhas⟩

theorem not_allLegal {m : Words} (hz : Zeroed m im.layout) :
    ¬ AllLegal (im.finalMem m) im.layout := by
  intro h
  obtain ⟨tbl, i, hr, hi, hv, -, hnot⟩ := im.exists_not_legal hz
  refine hnot (h 2 tbl i hr hi ?_)
  simp only [bits] at hv ⊢
  omega

end LoadedImage

/-- **The final tables are never legal.**  Wherever the image is loaded, the entries of its blocks
have a reserved bit set; all others that a walk can come to are legal. -/
theorem createKernelMap_not_legal (im : LoadedImage) {m : Words} (hz : Zeroed m im.layout)
    (ttbr1 : Word) :
    ∃ s, (∀ fuel > 2048, createKernelMap im.layout.toStatics fuel im.kimageEnd ⟨m, 0, ttbr1⟩ =
        some s) ∧
      ¬ AllLegal s.mem im.layout ∧
      ∀ level tbl i, Reachable s.mem im.layout.pgd level tbl → i < 512 →
        bits 0 1 (s.mem (tbl + 8 * i)) = 1 →
        (Legal im.layout level (s.mem (tbl + 8 * i)) ↔ ¬ im.IsImageEntry (tbl + 8 * i)) := by
  refine ⟨_, fun fuel hfuel => im.createKernelMap_eq hz ttbr1 hfuel, im.not_allLegal hz, ?_⟩
  intro level tbl i hr hi hv
  exact im.legal_iff hz hr hi hv

theorem createKernelMap_not_legal_qemu :
    ∃ s, createKernelMap qemuImage.layout.toStatics 2049 qemuImage.kimageEnd ⟨fun _ => 0, 0, 0⟩ =
        some s ∧ ¬ AllLegal s.mem qemuImage.layout := by
  obtain ⟨s, hrun, hnot, -⟩ := createKernelMap_not_legal qemuImage.toLoadedImage zeroed_qemuImage 0
  exact ⟨s, hrun 2049 (by decide), hnot⟩

/-- There the first block's entry has bit 19 set. -/
theorem createKernelMap_sets_reserved :
    ∃ s, createKernelMap qemuImage.layout.toStatics 2049 qemuImage.kimageEnd ⟨fun _ => 0, 0, 0⟩ =
        some s ∧
      ∃ tbl i, Reachable s.mem qemuImage.layout.pgd 2 tbl ∧ i < 512 ∧
        bits 0 2 (s.mem (tbl + 8 * i)) = 1 ∧ bits 12 9 (s.mem (tbl + 8 * i)) = 0x80 ∧
        ¬ Legal qemuImage.layout 2 (s.mem (tbl + 8 * i)) :=
  ⟨_, qemuImage.createKernelMap_eq zeroed_qemuImage 0 (by decide),
    qemuImage.exists_not_legal zeroed_qemuImage⟩

end Eeos.Mmu
