import Eeos.Lib.Vmsa

/-!
# The boot page tables (`map_memory` of `arch/arm64/startup.S`)

The three macros, register by register.  They run with the MMU off, so a table address is a
physical address and `str` writes the word there.  `populate_entries` is a do-while loop; it is
given fuel, and failure means that it is still running.

A level whose range touches `n` regions is followed by `n` contiguous pages for the next level,
indexed as one array: `compute_indices` scales the end index by the regions of the level above.
Numbering the regions of a level through the whole 48-bit space, region `x` has its descriptor at
`8 * (x - base)` in the array, where `base` is the first region of the array's first page
(`Span.base`).

* `levelIndices` — the indices that `compute_indices` gives each level, which do not depend on what
  is written; `mapMemory_levels` — the macro as four calls of `populate_entries` with them.

Principal results: `populateEntries_eq` and `computeIndices_eq` (each macro in closed form) and
`mapMemory_eq` (the four runs of descriptors that the whole macro writes).
-/

namespace Eeos.Startup

open Vmsa

/-! ## The macros -/

/-- `populate_entries`: the memory and `rtbl` after it. -/
def populateEntries : Nat → Words → Word → Word → Word → Word → Word → Word → Option (Words × Word)
  | 0, _, _, _, _, _, _, _ => none
  | fuel + 1, m, tbl, rtbl, index, eindex, flags, inc =>
    let tmp1 := rtbl
    let tmp1 := tmp1 ||| flags
    let m := Function.update m (tbl + index <<< 3).toNat tmp1
    let rtbl := rtbl + inc
    let index := index + 1
    if index ≤ eindex then populateEntries fuel m tbl rtbl index eindex flags inc
    else some (m, rtbl)

structure Indices where
  istart : Word
  iend : Word
  count : Word

/-- `compute_indices`. -/
def computeIndices (vstart vend : Word) (shift : Nat) (ptrs count : Word) : Indices :=
  let iend := vend >>> shift
  let istart := ptrs
  let istart := istart - 1
  let iend := iend &&& istart
  let istart := ptrs
  let istart := istart * count
  let iend := iend + istart
  let istart := vstart >>> shift
  let count := ptrs
  let count := count - 1
  let istart := istart &&& count
  let count := iend - istart
  ⟨istart, iend, count⟩

/-- `map_memory`: the memory after it. -/
def mapMemory (fuel : Nat) (m : Words) (tbl vstart vend flags phys pgds : Word) : Option Words :=
  let vend := vend - 1
  let rtbl := tbl + 4096
  let sv := rtbl
  let count := 0
  let i := computeIndices vstart vend 39 pgds count
  match populateEntries fuel m tbl rtbl i.istart i.iend 3 4096 with
  | none => none
  | some (m, rtbl) =>
    let tbl := sv
    let sv := rtbl
    let i := computeIndices vstart vend 30 512 i.count
    match populateEntries fuel m tbl rtbl i.istart i.iend 3 4096 with
    | none => none
    | some (m, rtbl) =>
      let tbl := sv
      let sv := rtbl
      let i := computeIndices vstart vend 21 512 i.count
      match populateEntries fuel m tbl rtbl i.istart i.iend 3 4096 with
      | none => none
      | some (m, _) =>
        let tbl := sv
        let i := computeIndices vstart vend 12 512 i.count
        let count := phys &&& ~~~4095
        (populateEntries fuel m tbl count i.istart i.iend flags 4096).map Prod.fst

/-- The flags that `_startup` maps pages with: a page, inner shareable, access flag set. -/
def pageFlags : Word := (3 : Word) <<< 0 ||| (1 : Word) <<< 10 ||| (3 : Word) <<< 8

/-- The call of `map_memory` for the kernel image, given the physical addresses that `adrp` finds. -/
def mapKernelImage (fuel : Nat) (m : Words) (initPgDir kimageStart kimageEnd : Word) :
    Option Words :=
  let vstart := 0xFFFF000000080000
  let vend := kimageEnd
  let vend := vend - kimageStart
  let vend := vend + vstart
  mapMemory fuel m initPgDir vstart vend pageFlags kimageStart 512

/-! ## The macros in closed form -/

/-- The address of `str tmp1, [tbl, index, lsl #3]`. -/
theorem entry_address (tbl index : Word) (h : tbl.toNat + 8 * index.toNat < 2 ^ 64) :
    (tbl + index <<< 3).toNat = tbl.toNat + 8 * index.toNat := by
  have hs : (index <<< 3).toNat = 8 * index.toNat := by
    rw [BitVec.toNat_shiftLeft, Nat.shiftLeft_eq]
    omega
  rw [BitVec.toNat_add, hs]
  omega

/-- The loop runs once before it looks at the end index, so an end index that is not above the start
index does not matter. -/
theorem populateEntries_once {index eindex eindex' : Word} (h : ¬ index + 1 ≤ eindex)
    (h' : ¬ index + 1 ≤ eindex') (fuel : Nat) (m : Words) (tbl rtbl flags inc : Word) :
    populateEntries fuel m tbl rtbl index eindex flags inc =
      populateEntries fuel m tbl rtbl index eindex' flags inc := by
  cases fuel with
  | zero => rfl
  | succ fuel => simp only [populateEntries, if_neg h, if_neg h']

/-- No index is above the end index of all ones: the loop does not end. -/
theorem populateEntries_forever (fuel : Nat) (m : Words) (tbl rtbl index flags inc : Word) :
    populateEntries fuel m tbl rtbl index (BitVec.allOnes 64) flags inc = none := by
  induction fuel generalizing m rtbl index with
  | zero => rfl
  | succ fuel ih =>
    have hgo : index + 1 ≤ BitVec.allOnes 64 := Nat.le_sub_one_of_lt (index + 1).isLt
    simp only [populateEntries, if_pos hgo, ih]

/-- `populate_entries` writes one run of descriptors. -/
theorem populateEntries_eq {n : Nat} {fuel : Nat} (hfuel : n < fuel) (m : Words)
    (tbl rtbl flags inc : Word) {index eindex : Word} (hn : eindex.toNat = index.toNat + n)
    (he : tbl.toNat + 8 * eindex.toNat + 8 ≤ 2 ^ 64) :
    populateEntries fuel m tbl rtbl index eindex flags inc =
      some (fill m tbl.toNat index.toNat (n + 1) fun k => (rtbl + inc * BitVec.ofNat 64 k) ||| flags,
        rtbl + inc * BitVec.ofNat 64 (n + 1)) := by
  induction n generalizing fuel m rtbl index with
  | zero =>
    obtain ⟨fuel, rfl⟩ : ∃ f, fuel = f + 1 := ⟨fuel - 1, by omega⟩
    have hstop : ¬ index + 1 ≤ eindex := by bv_omega
    have haddr := entry_address tbl index (by omega)
    have hone : rtbl + inc = rtbl + inc * BitVec.ofNat 64 (0 + 1) := by
      rw [← stride_succ, stride_zero]
    rw [← fill_succ, fill_zero, stride_zero, ← hone]
    simp only [populateEntries, if_neg hstop, haddr]
  | succ n ih =>
    obtain ⟨fuel, rfl⟩ : ∃ f, fuel = f + 1 := ⟨fuel - 1, by omega⟩
    have hgo : index + 1 ≤ eindex := by bv_omega
    have haddr := entry_address tbl index (by omega)
    have hindex : (index + 1).toNat = index.toNat + 1 := by bv_omega
    have hfill := fill_succ m tbl.toNat index.toNat (n + 1)
      fun k => (rtbl + inc * BitVec.ofNat 64 k) ||| flags
    simp only [populateEntries, if_pos hgo, haddr]
    rw [ih (by omega) _ _ (by omega), hindex, ← hfill, stride_zero]
    simp only [stride_succ]

/-! ## Spans -/

/-- The range of regions that a level covers: the first and the last one, numbered through the
whole 48-bit space. -/
structure Span where
  first : Nat
  last : Nat
  le : first ≤ last
  lt : last < 2 ^ 36

/-- The regions of one level up that contain these. -/
def Span.up (s : Span) : Span :=
  ⟨s.first / 512, s.last / 512, Nat.div_le_div_right s.le, by have := s.lt; omega⟩

def Span.count (s : Span) : Nat := s.last - s.first + 1

/-- The region that the first descriptor of the level's first page stands for. -/
def Span.base (s : Span) : Nat := s.first / 512 * 512

/-- `compute_indices`, given how many extra pages the level above needed. -/
theorem computeIndices_eq (vstart vend : Word) (shift : Nat) (s : Span) (count : Word)
    (hfirst : vstart.toNat / 2 ^ shift % 512 = s.first % 512)
    (hlast : vend.toNat / 2 ^ shift % 512 = s.last % 512)
    (hcount : count.toNat = s.last / 512 - s.first / 512) :
    let i := computeIndices vstart vend shift 512 count
    i.istart.toNat = s.first - s.base ∧ i.iend.toNat = s.last - s.base ∧
      i.count.toNat = s.last - s.first := by
  have hstart : ((vstart >>> shift) &&& (512 - 1)).toNat = s.first % 512 :=
    (toNat_index shift vstart).trans hfirst
  have hend : ((vend >>> shift) &&& (512 - 1)).toNat = s.last % 512 :=
    (toNat_index shift vend).trans hlast
  have hle := s.le
  have hlt := s.lt
  have hmul : (512 * count).toNat = 512 * count.toNat := by
    rw [BitVec.toNat_mul]
    have : (512 : Word).toNat = 512 := rfl
    rw [this]
    omega
  have hiend : (((vend >>> shift) &&& (512 - 1)) + 512 * count).toNat = s.last - s.base := by
    rw [BitVec.toNat_add, hend, hmul, Span.base]
    omega
  refine ⟨?_, hiend, ?_⟩
  · rw [show (computeIndices vstart vend shift 512 count).istart =
      (vstart >>> shift) &&& (512 - 1) from rfl, hstart, Span.base]
    omega
  · rw [show (computeIndices vstart vend shift 512 count).count =
      ((vend >>> shift) &&& (512 - 1)) + 512 * count - ((vstart >>> shift) &&& (512 - 1)) from rfl]
    rw [BitVec.toNat_sub_of_le, hiend, hstart, Span.base]
    · omega
    · rw [BitVec.le_def, hiend, hstart, Span.base]
      omega

/-! ## Levels -/

/-- A level of the tables: where its pages start, the regions it covers, and what its descriptors
point to, the first one at `next` and each following one 4 KiB on. -/
structure Level where
  tbl : Nat
  span : Span
  next : Nat
  flags : Word

def Level.desc (l : Level) (k : Nat) : Word := BitVec.ofNat 64 (l.next + 4096 * k) ||| l.flags

/-- The level's descriptors written into memory. -/
def Level.write (l : Level) (m : Words) : Words :=
  fill m l.tbl (l.span.first - l.span.base) l.span.count l.desc

/-- `populate_entries` on a level, from the cursors of the macro. -/
theorem populateEntries_level (l : Level) (fuel : Nat) (hfuel : l.span.count ≤ fuel) (m : Words)
    {tbl rtbl istart iend flags : Word} (htbl : tbl.toNat = l.tbl)
    (hrtbl : rtbl = BitVec.ofNat 64 l.next) (hflags : flags = l.flags)
    (hi : istart.toNat = l.span.first - l.span.base) (he : iend.toNat = l.span.last - l.span.base)
    (ht : l.tbl + 4096 * l.span.up.count ≤ 2 ^ 63) :
    populateEntries fuel m tbl rtbl istart iend flags 4096 =
      some (l.write m, BitVec.ofNat 64 (l.next + 4096 * l.span.count)) := by
  have hle := l.span.le
  have hcount : l.span.last - l.span.first + 1 = l.span.count := rfl
  have hstep : ∀ k, BitVec.ofNat 64 l.next + 4096 * BitVec.ofNat 64 k =
      BitVec.ofNat 64 (l.next + 4096 * k) := by
    intro k
    rw [BitVec.ofNat_add, BitVec.ofNat_mul]
    rfl
  have hroom : 8 * (l.span.last - l.span.base) + 8 ≤ 4096 * l.span.up.count := by
    simp only [Span.base, Span.up, Span.count]
    omega
  rw [populateEntries_eq (n := l.span.last - l.span.first) (by omega) m _ _ _ _
    (by rw [hi, he]; simp only [Span.base]; omega) (by rw [htbl, he]; omega), htbl, hi, hcount, hrtbl,
    hflags]
  simp only [hstep]
  rfl

/-- How many pages the tables for the pages `s` take. -/
def Span.tables (s : Span) : Nat := 1 + s.up.up.up.count + s.up.up.count + s.up.count

/-- The four levels that map the pages `s` to the memory from `phys` on, with tables at `tbl`. -/
def level0 (tbl : Nat) (s : Span) : Level := ⟨tbl, s.up.up.up, tbl + 4096, 3⟩

def level1 (tbl : Nat) (s : Span) : Level :=
  ⟨tbl + 4096, s.up.up, tbl + 4096 * (1 + s.up.up.up.count), 3⟩

def level2 (tbl : Nat) (s : Span) : Level :=
  ⟨tbl + 4096 * (1 + s.up.up.up.count), s.up,
    tbl + 4096 * (1 + s.up.up.up.count + s.up.up.count), 3⟩

def level3 (tbl : Nat) (s : Span) (phys : Nat) (flags : Word) : Level :=
  ⟨tbl + 4096 * (1 + s.up.up.up.count + s.up.up.count), s, phys, flags⟩

/-- What the last descriptor of a level is followed by is where the next level's tables start. -/
theorem level0_next (tbl : Nat) (s : Span) :
    (level0 tbl s).next + 4096 * (level0 tbl s).span.count = (level1 tbl s).next := by
  simp only [level0, level1]
  omega

theorem level1_next (tbl : Nat) (s : Span) :
    (level1 tbl s).next + 4096 * (level1 tbl s).span.count = (level2 tbl s).next := by
  simp only [level1, level2]
  omega

/-- Above the top level there is one region. -/
theorem Span.up_count_top (s : Span) : s.up.up.up.up.count = 1 := by
  have := s.lt
  simp only [Span.count, Span.up]
  omega

/-- The indices of each level. -/
def levelIndices (vstart vend : Word) : Nat → Indices
  | 0 => computeIndices vstart (vend - 1) (shift 0) 512 0
  | level + 1 =>
    computeIndices vstart (vend - 1) (shift (level + 1)) 512 (levelIndices vstart vend level).count

/-- The macro, level by level. -/
theorem mapMemory_levels (fuel : Nat) (m : Words) (tbl vstart vend flags phys : Word) :
    let i := levelIndices vstart vend
    mapMemory fuel m tbl vstart vend flags phys 512 =
      (populateEntries fuel m tbl (tbl + 4096) (i 0).istart (i 0).iend 3 4096).bind fun r₀ =>
      (populateEntries fuel r₀.1 (tbl + 4096) r₀.2 (i 1).istart (i 1).iend 3 4096).bind fun r₁ =>
      (populateEntries fuel r₁.1 r₀.2 r₁.2 (i 2).istart (i 2).iend 3 4096).bind fun r₂ =>
      (populateEntries fuel r₂.1 r₁.2 (phys &&& ~~~4095) (i 3).istart (i 3).iend flags 4096).map
        Prod.fst := by
  simp only [mapMemory, levelIndices, shift]
  cases populateEntries fuel m tbl (tbl + 4096) _ _ 3 4096 with
  | none => rfl
  | some r₀ =>
    simp only [Option.bind_some]
    cases populateEntries fuel r₀.1 (tbl + 4096) r₀.2 _ _ 3 4096 with
    | none => rfl
    | some r₁ =>
      simp only [Option.bind_some]
      cases populateEntries fuel r₁.1 r₀.2 r₁.2 _ _ 3 4096 with
      | none => rfl
      | some r₂ => rfl

/-- The regions of a level that contain the pages `s`. -/
def Span.level (s : Span) : Nat → Span
  | 0 => s.up.up.up
  | 1 => s.up.up
  | 2 => s.up
  | _ => s

/-- The indices of each level are those of its regions. -/
theorem levelIndices_eq {s : Span} {vstart vend : Word}
    (hfirst : s.first = vstart.toNat % 2 ^ 48 / 4096)
    (hlast : s.last = (vend - 1).toNat % 2 ^ 48 / 4096) {level : Nat} (hlevel : level ≤ 3) :
    let i := levelIndices vstart vend level
    i.istart.toNat = (s.level level).first - (s.level level).base ∧
      i.iend.toNat = (s.level level).last - (s.level level).base ∧
      i.count.toNat = (s.level level).last - (s.level level).first := by
  have hlt := s.lt
  induction level with
  | zero =>
    refine computeIndices_eq _ _ _ s.up.up.up _ ?_ ?_ ?_
    · simp only [Span.up, shift, hfirst]
      omega
    · simp only [Span.up, shift, hlast]
      omega
    · have hzero : (0 : Word).toNat = 0 := rfl
      simp only [Span.up, hzero]
      omega
  | succ level ih =>
    have hcount := (ih (by omega)).2.2
    obtain rfl | rfl | rfl : level = 0 ∨ level = 1 ∨ level = 2 := by omega
    · refine computeIndices_eq _ _ _ s.up.up _ ?_ ?_ hcount
      · simp only [Span.up, shift, hfirst]
        omega
      · simp only [Span.up, shift, hlast]
        omega
    · refine computeIndices_eq _ _ _ s.up _ ?_ ?_ hcount
      · simp only [Span.up, shift, hfirst]
        omega
      · simp only [Span.up, shift, hlast]
        omega
    · refine computeIndices_eq _ _ _ s _ ?_ ?_ hcount
      · simp only [shift, hfirst]
        omega
      · simp only [shift, hlast]
        omega

/-- `map_memory` writes the four levels. -/
theorem mapMemory_eq {s : Span} {vstart vend tbl phys : Word}
    (hfirst : s.first = vstart.toNat % 2 ^ 48 / 4096)
    (hlast : s.last = (vend - 1).toNat % 2 ^ 48 / 4096) {fuel : Nat} (hfuel : s.count ≤ fuel)
    (m : Words) (flags : Word) (hphys : phys &&& ~~~4095 = phys)
    (ht : tbl.toNat + 4096 * s.tables ≤ 2 ^ 63) :
    mapMemory fuel m tbl vstart vend flags phys 512 =
      some ((level3 tbl.toNat s phys.toNat flags).write ((level2 tbl.toNat s).write
        ((level1 tbl.toNat s).write ((level0 tbl.toNat s).write m)))) := by
  have hle := s.le
  have htables : s.tables = 1 + s.up.up.up.count + s.up.up.count + s.up.count := rfl
  have hcounts : s.up.count ≤ s.count ∧ s.up.up.count ≤ s.count ∧ s.up.up.up.count ≤ s.count := by
    simp only [Span.count, Span.up]
    omega
  have htop := s.up_count_top
  obtain ⟨hs0, he0, -⟩ := levelIndices_eq hfirst hlast (by omega : 0 ≤ 3)
  obtain ⟨hs1, he1, -⟩ := levelIndices_eq hfirst hlast (by omega : 1 ≤ 3)
  obtain ⟨hs2, he2, -⟩ := levelIndices_eq hfirst hlast (by omega : 2 ≤ 3)
  obtain ⟨hs3, he3, -⟩ := levelIndices_eq hfirst hlast (by omega : 3 ≤ 3)
  -- where the cursors of the macro are, as the starts of the levels
  have ht1 : (tbl + 4096).toNat = (level1 tbl.toNat s).tbl := by
    simp only [level1]
    bv_omega
  have hr0 : tbl + 4096 = BitVec.ofNat 64 (level0 tbl.toNat s).next := by
    simp only [level0]
    bv_omega
  have ht2 : (BitVec.ofNat 64 (level1 tbl.toNat s).next).toNat = (level2 tbl.toNat s).tbl := by
    rw [BitVec.toNat_ofNat, Nat.mod_eq_of_lt (by simp only [level1]; omega)]
    rfl
  have ht3 : (BitVec.ofNat 64 (level2 tbl.toNat s).next).toNat =
      (level3 tbl.toNat s phys.toNat flags).tbl := by
    rw [BitVec.toNat_ofNat, Nat.mod_eq_of_lt (by simp only [level2]; omega)]
    rfl
  have hr3 : phys = BitVec.ofNat 64 (level3 tbl.toNat s phys.toNat flags).next := by simp [level3]
  have hf0 : (3 : Word) = (level0 tbl.toNat s).flags := rfl
  have hf1 : (3 : Word) = (level1 tbl.toNat s).flags := rfl
  have hf2 : (3 : Word) = (level2 tbl.toNat s).flags := rfl
  have hf3 : flags = (level3 tbl.toNat s phys.toNat flags).flags := rfl
  rw [mapMemory_levels, hphys,
    populateEntries_level (level0 tbl.toNat s) fuel (by simp only [level0]; omega) m rfl hr0 hf0 hs0
      he0 (by simp only [level0, htop]; omega), Option.bind_some, level0_next,
    populateEntries_level (level1 tbl.toNat s) fuel (by simp only [level1]; omega) _ ht1 rfl hf1 hs1
      he1 (by simp only [level1]; omega), Option.bind_some, level1_next,
    populateEntries_level (level2 tbl.toNat s) fuel (by simp only [level2]; omega) _ ht2 rfl hf2 hs2
      he2 (by simp only [level2]; omega), Option.bind_some,
    populateEntries_level (level3 tbl.toNat s phys.toNat flags) fuel (by simp only [level3]; omega) _
      ht3 hr3 hf3 hs3 he3 (by simp only [level3]; omega), Option.map_some]

end Eeos.Startup
