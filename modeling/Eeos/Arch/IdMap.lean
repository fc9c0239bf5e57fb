import Eeos.Arch.BootTables

/-!
# The identity map (`_startup` of `arch/arm64/startup.S`)

The first call of `map_memory`, for the section that turns the MMU on.  `adrp` finds the pages of the
section's first byte and of its end, so the end is rounded down, and `map_memory` takes one off it:
for a section of less than a page the range is empty, and what is mapped is what `populate_entries`
does before it looks at the end index.

* `StartupText` — a loaded startup section, inside one 2 MiB region.
* `mapMemory_identity` — the call maps a range inside one 2 MiB region, from any memory.
* `mapMemory_empty` — a range that is empty, inside a 2 MiB region, is mapped as its first page.
* `mapMemory_empty_none` — at the start of a 2 MiB region the call does not return.

Principal result: `idmap_covers_iff` — the identity map covers the startup section exactly if this
is whole pages, or less than a page that is not the first of its 2 MiB region.
-/

namespace Eeos.Startup

open Vmsa

/-- The page of a symbol's address. -/
def adrp (sym : Word) : Word := sym &&& ~~~4095

/-- The call of `map_memory` for the startup section. -/
def mapIdmap (fuel : Nat) (m : Words) (idmapPgStart idmapTextStart idmapTextEnd : Word) :
    Option Words :=
  let x0 := adrp idmapPgStart
  let x3 := adrp idmapTextStart
  let x6 := adrp idmapTextEnd
  mapMemory fuel m x0 x3 x6 pageFlags x3 512

/-! ## Empty ranges -/

section Empty

variable {vstart vend : Word} {k : Nat}

/-- A level where the range is inside one region. -/
theorem computeIndices_same (h : vend >>> k = vstart >>> k) :
    computeIndices vstart vend k 512 0 =
      ⟨(vstart >>> k) &&& (512 - 1), (vstart >>> k) &&& (512 - 1), 0⟩ := by
  have hmul : (512 : Word) * 0 = 0 := rfl
  simp only [computeIndices, h, hmul]
  congr 1
  · exact BitVec.add_zero _
  · bv_omega

/-- A level where the range ends in the region before the one it starts in. -/
theorem computeIndices_before (h : bits k 9 vend + 1 = bits k 9 vstart) :
    (computeIndices vstart vend k 512 0).count = BitVec.allOnes 64 := by
  have hmul : (512 : Word) * 0 = 0 := rfl
  have hones : (BitVec.allOnes 64).toNat = 2 ^ 64 - 1 := rfl
  have hcount : (computeIndices vstart vend k 512 0).count =
      ((vend >>> k) &&& (512 - 1)) - ((vstart >>> k) &&& (512 - 1)) := by
    simp only [computeIndices, hmul]
    congr 1
    exact BitVec.add_zero _
  apply BitVec.eq_of_toNat_eq
  rw [hcount, hones, BitVec.toNat_sub, toNat_index, toNat_index, ← h]
  have := bits_lt k 9 vend
  omega

/-- The level under it, where the end index wraps around. -/
theorem computeIndices_wrap (h : bits k 9 vend = 511) :
    (computeIndices vstart vend k 512 (BitVec.allOnes 64)).iend = BitVec.allOnes 64 := by
  have hmul : ((512 : Word) * BitVec.allOnes 64).toNat = 2 ^ 64 - 512 := rfl
  have hones : (BitVec.allOnes 64).toNat = 2 ^ 64 - 1 := rfl
  apply BitVec.eq_of_toNat_eq
  simp only [computeIndices]
  rw [BitVec.toNat_add, toNat_index, h, hmul, hones]
  omega

/-- When some level's end index is all ones, the macro does not return. -/
theorem mapMemory_none (level : Nat) (hlevel : level ≤ 3)
    (h : (levelIndices vstart vend level).iend = BitVec.allOnes 64) (fuel : Nat) (m : Words)
    (tbl flags phys : Word) : mapMemory fuel m tbl vstart vend flags phys 512 = none := by
  have hlevels : level = 0 ∨ level = 1 ∨ level = 2 ∨ level = 3 := by omega
  rw [mapMemory_levels]
  obtain rfl | rfl | rfl | rfl := hlevels
  all_goals simp only [h, populateEntries_forever, Option.bind_none, Option.bind_fun_none,
    Option.map_none]

theorem ushiftRight_congr {x y : Word} (h : x.toNat / 2 ^ k = y.toNat / 2 ^ k) :
    x >>> k = y >>> k := by
  apply BitVec.eq_of_toNat_eq
  rw [BitVec.toNat_ushiftRight, BitVec.toNat_ushiftRight, Nat.shiftRight_eq_div_pow,
    Nat.shiftRight_eq_div_pow, h]

/-- Down to a level where the range is inside one region, each level has one entry. -/
theorem levelIndices_same {level : Nat} (hlevel : level ≤ 3)
    (h : (vend - 1).toNat / 2 ^ shift level = vstart.toNat / 2 ^ shift level) :
    levelIndices vstart vend level =
      ⟨(vstart >>> shift level) &&& (512 - 1), (vstart >>> shift level) &&& (512 - 1), 0⟩ := by
  induction level with
  | zero => exact computeIndices_same (ushiftRight_congr h)
  | succ level ih =>
    have hup : ∀ x : Nat, x / 2 ^ shift level = x / 2 ^ shift (level + 1) / 2 ^ 9 := by
      intro x
      rw [Nat.div_div_eq_div_mul, ← Nat.pow_add]
      congr 2
      simp only [shift]
      omega
    have habove := ih (by omega) (by rw [hup, hup, h])
    rw [levelIndices, habove]
    exact computeIndices_same (ushiftRight_congr h)

/-- The last level, under levels that have one entry each. -/
theorem levelIndices_last (vstart vend : Word)
    (h : (vend - 1).toNat / 2 ^ 21 = vstart.toNat / 2 ^ 21) :
    (levelIndices vstart vend 3).istart.toNat = bits (shift 3) 9 vstart ∧
      (levelIndices vstart vend 3).iend.toNat = bits (shift 3) 9 (vend - 1) := by
  have habove : (levelIndices vstart vend 2).count = 0 := by
    rw [levelIndices_same (by omega) h]
  have hend : (levelIndices vstart vend 3).iend = ((vend - 1) >>> shift 3) &&& (512 - 1) := by
    rw [levelIndices, habove]
    exact BitVec.add_zero _
  exact ⟨toNat_index (shift 3) vstart, by rw [hend]; exact toNat_index (shift 3) (vend - 1)⟩

/-- An empty range inside a 2 MiB region: its first page is mapped all the same. -/
theorem mapMemory_empty (hstart : vstart.toNat % 4096 = 0) (hregion : vstart.toNat % 2 ^ 21 ≠ 0)
    (fuel : Nat) (m : Words) (tbl flags phys : Word) :
    mapMemory fuel m tbl vstart vstart flags phys 512 =
      mapMemory fuel m tbl vstart (vstart + 4096) flags phys 512 := by
  have hbefore : (vstart - 1).toNat = vstart.toNat - 1 := by bv_omega
  have hpage : (vstart + 4096 - 1).toNat = vstart.toNat + 4095 := by bv_omega
  -- levels 0 to 2 have one entry in both cases
  have hsame : ∀ level ≤ 2,
      levelIndices vstart vstart level = levelIndices vstart (vstart + 4096) level := by
    intro level hlevel
    obtain rfl | rfl | rfl : level = 0 ∨ level = 1 ∨ level = 2 := by omega
    all_goals
      rw [levelIndices_same (by omega) (by rw [hbefore]; simp only [shift]; omega),
        levelIndices_same (by omega) (by rw [hpage]; simp only [shift]; omega)]
  -- level 3 writes its one entry before it looks at the end index
  obtain ⟨hs, he⟩ := levelIndices_last vstart vstart (by rw [hbefore]; omega)
  obtain ⟨-, he'⟩ := levelIndices_last vstart (vstart + 4096) (by rw [hpage]; omega)
  have histart : (levelIndices vstart (vstart + 4096) 3).istart =
      (levelIndices vstart vstart 3).istart := by
    simp only [levelIndices, computeIndices]
  simp only [bits, shift, hbefore, hpage] at hs he he'
  have hlast : ∀ m tbl rtbl flags, populateEntries fuel m tbl rtbl
        (levelIndices vstart vstart 3).istart (levelIndices vstart vstart 3).iend flags 4096 =
      populateEntries fuel m tbl rtbl (levelIndices vstart vstart 3).istart
        (levelIndices vstart (vstart + 4096) 3).iend flags 4096 := by
    intro m tbl rtbl flags
    apply populateEntries_once
    · rw [BitVec.le_def]
      bv_omega
    · rw [BitVec.le_def]
      bv_omega
  rw [mapMemory_levels, mapMemory_levels]
  simp only [hsame 0 (by omega), hsame 1 (by omega), hsame 2 (by omega), histart, hlast]

/-- A level that goes back one entry, the first to do so: the end index of the next one wraps
around. -/
theorem levelIndices_wrap {level : Nat} (hlevel : level ≤ 2)
    (hin : levelIndices vstart vstart level =
      computeIndices vstart (vstart - 1) (shift level) 512 0)
    (hback : vstart.toNat % 2 ^ shift level = 0) (hpos : 0 < bits (shift level) 9 vstart) :
    (levelIndices vstart vstart (level + 1)).iend = BitVec.allOnes 64 := by
  have hlevels : level = 0 ∨ level = 1 ∨ level = 2 := by omega
  have hpos' : 0 < vstart.toNat := by
    apply Nat.pos_of_ne_zero
    intro hzero
    simp only [bits, hzero, Nat.zero_div, Nat.zero_mod, Nat.lt_irrefl] at hpos
  have hbefore : (vstart - 1).toNat = vstart.toNat - 1 := by bv_omega
  have hcount : (levelIndices vstart vstart level).count = BitVec.allOnes 64 := by
    rw [hin]
    apply computeIndices_before
    obtain rfl | rfl | rfl := hlevels
    all_goals
      simp only [bits, shift, hbefore] at hback hpos ⊢
      omega
  rw [levelIndices, hcount]
  apply computeIndices_wrap
  obtain rfl | rfl | rfl := hlevels
  all_goals
    simp only [bits, shift, hbefore] at hback hpos ⊢
    omega

/-- An empty range at the start of a 2 MiB region: the first level that starts a table goes back one
entry, and the macro does not return. -/
theorem mapMemory_empty_none (hregion : vstart.toNat % 2 ^ 21 = 0) (hpos : vstart ≠ 0)
    (hlt : vstart.toNat < 2 ^ 48) (fuel : Nat) (m : Words) (tbl flags phys : Word) :
    mapMemory fuel m tbl vstart vstart flags phys 512 = none := by
  have hpos' : 0 < vstart.toNat := by bv_omega
  have hbefore : (vstart - 1).toNat = vstart.toNat - 1 := by bv_omega
  have hin : ∀ level ≤ 1, vstart.toNat % 2 ^ shift level ≠ 0 →
      levelIndices vstart vstart (level + 1) =
        computeIndices vstart (vstart - 1) (shift (level + 1)) 512 0 := by
    intro level hlevel hne
    have hsame : (vstart - 1).toNat / 2 ^ shift level = vstart.toNat / 2 ^ shift level := by
      rw [hbefore]
      obtain rfl | rfl : level = 0 ∨ level = 1 := by omega
      all_goals
        simp only [shift] at hne ⊢
        omega
    rw [levelIndices, levelIndices_same (by omega) hsame]
  by_cases h39 : vstart.toNat % 2 ^ 39 = 0
  case pos =>
    refine mapMemory_none 1 (by omega) (levelIndices_wrap (by omega) rfl h39 ?_) fuel m tbl flags phys
    simp only [bits, shift]
    omega
  by_cases h30 : vstart.toNat % 2 ^ 30 = 0
  case pos =>
    refine mapMemory_none 2 (by omega) (levelIndices_wrap (by omega) (hin 0 (by omega) h39) h30 ?_)
      fuel m tbl flags phys
    simp only [bits, shift]
    omega
  case neg =>
    refine mapMemory_none 3 (by omega)
      (levelIndices_wrap (by omega) (hin 1 (by omega) h30) hregion ?_) fuel m tbl flags phys
    simp only [bits, shift]
    omega

end Empty

/-! ## The range from zero to zero -/

/-- All pages. -/
def allPages : Span := ⟨0, 2 ^ 36 - 1, Nat.zero_le _, by decide⟩

theorem allPages_tables :
    allPages.tables = 1 + 2 ^ 9 + 2 ^ 18 + 2 ^ 27 ∧ allPages.up.up.up.count = 2 ^ 9 := by
  simp only [Span.tables, Span.count, Span.up, allPages]
  omega

/-- With an end of zero the last address wraps around, and all pages are mapped. -/
theorem mapMemory_allPages {fuel : Nat} (hfuel : 2 ^ 36 ≤ fuel) (m : Words) {tbl : Word}
    (flags : Word) (hroom : tbl.toNat ≤ 2 ^ 48) :
    mapMemory fuel m tbl 0 0 flags 0 512 =
      some ((level3 tbl.toNat allPages (0 : Word).toNat flags).write
        ((level2 tbl.toNat allPages).write ((level1 tbl.toNat allPages).write
          ((level0 tbl.toNat allPages).write m)))) := by
  have hpred : ((0 : Word) - 1).toNat = 2 ^ 64 - 1 := by decide
  have hfirst : allPages.first = (0 : Word).toNat % 2 ^ 48 / 4096 := rfl
  have hlast : allPages.last = ((0 : Word) - 1).toNat % 2 ^ 48 / 4096 := by
    rw [hpred]
    simp only [allPages]
    omega
  have hpages : allPages.count ≤ fuel := by
    simp only [Span.count, allPages]
    omega
  exact mapMemory_eq hfirst hlast hpages m flags rfl (by rw [allPages_tables.1]; omega)

/-- The second level alone then goes on after the four pages at `tbl`. -/
theorem mapMemory_zero {fuel : Nat} (hfuel : 2 ^ 36 ≤ fuel) {m' : Words} {tbl flags : Word}
    (hroom : tbl.toNat + 4096 * 4 ≤ 2 ^ 48)
    (hrun : mapMemory fuel (fun _ => 0) tbl 0 0 flags 0 512 = some m') :
    ¬ ∀ a, a < tbl.toNat ∨ tbl.toNat + 4096 * 4 ≤ a → m' a = 0 := by
  intro hinside
  have hzero := hinside (tbl.toNat + 4096 * 4) (Or.inr (Nat.le_refl _))
  have hcount := allPages_tables.2
  have hbase : (level1 tbl.toNat allPages).span.base = 0 := by
    simp only [level1, Span.base, Span.up, allPages, Nat.zero_div, Nat.zero_mul]
  have hentry := (level1 tbl.toNat allPages).write_entry
    ((level0 tbl.toNat allPages).write fun _ => 0) (x := 1536) (by rw [hbase]; omega)
  have haddr : (level1 tbl.toNat allPages).tbl + 8 * (1536 - (level1 tbl.toNat allPages).span.base) =
      tbl.toNat + 4096 * 4 := by
    have htbl : (level1 tbl.toNat allPages).tbl = tbl.toNat + 4096 := rfl
    omega
  have hspan : (level1 tbl.toNat allPages).span.first ≤ 1536 ∧
      1536 ≤ (level1 tbl.toNat allPages).span.last := by
    simp only [level1, Span.up, allPages]
    omega
  rw [haddr, if_pos hspan] at hentry
  rw [mapMemory_allPages hfuel _ flags (by omega)] at hrun
  rw [← Option.some.inj hrun, Level.write_off _ _ (by simp only [level3, hcount]; omega),
    Level.write_off _ _ (by simp only [level2, hcount]; omega), hentry, Level.desc] at hzero
  have hbit := congrArg (bits 0 1) hzero
  rw [bits_or, bits_zero] at hbit
  exact absurd (Nat.or_eq_zero_iff.1 hbit).2 (by simp only [level1]; decide)

/-! ## Ranges inside one region -/

/-- Such a range takes one page of tables for each level. -/
theorem Range.tablePages_region (r : Range)
    (hregion : r.vstart.toNat / 2 ^ 21 = (r.vend.toNat - 1) / 2 ^ 21) :
    tablePages r.vstart r.vend = 4 := by
  simp only [tablePages, regions]
  omega

theorem bits_high_zero {x : Word} (h : x.toNat < 2 ^ 48) : bits 48 16 x = 0 := by
  simp only [bits]
  omega

theorem low_half {vstart vend : Word} (hlt : vstart < vend) (hend : vend.toNat ≤ 2 ^ 48) :
    bits 48 16 vstart = bits 48 16 (vend - 1) := by
  have hlt' : vstart.toNat < vend.toNat := hlt
  have hpred : (vend - 1).toNat = vend.toNat - 1 := by bv_omega
  rw [bits_high_zero (by omega), bits_high_zero (by omega)]

/-- A range of the lower half. -/
def lowRange {vstart vend : Word} (hlt : vstart < vend) (hend : vend.toNat ≤ 2 ^ 48)
    (hstart : vstart.toNat % 4096 = 0) (haligned : vend.toNat % 4096 = 0) : Range :=
  ⟨vstart, vend, hlt, low_half hlt hend, hstart, haligned⟩

/-- What is left of memory `m` when a range is mapped to itself with tables at `tbl`. -/
structure Identity (m m' : Words) (tbl : Nat) (r : Range) : Prop where
  inside : ∀ a, a < tbl ∨ tbl + 4096 * 4 ≤ a → m' a = m a
  mapped : ∀ va, r.vstart ≤ va → va < r.vend →
    ∃ leaf, walk m' tbl va = some leaf ∧ leaf.pa = va.toNat
  unmapped : (∀ a, m a = 0) → ∀ va, bits 48 16 va = bits 48 16 r.vstart →
    ¬ (r.vstart ≤ va ∧ va < r.vend) → walk m' tbl va = none

/-- `map_memory` maps a range inside one 2 MiB region to itself, from any memory. -/
theorem mapMemory_identity (r : Range)
    (hregion : r.vstart.toNat / 2 ^ 21 = (r.vend.toNat - 1) / 2 ^ 21)
    (hend : r.vend.toNat ≤ 2 ^ 48) {tbl : Word} (htbl : tbl.toNat % 4096 = 0)
    (hroom : tbl.toNat + 4096 * 4 ≤ 2 ^ 48) (m : Words) :
    ∃ m', (∀ fuel, r.vend.toNat - r.vstart.toNat ≤ 4096 * fuel →
        mapMemory fuel m tbl r.vstart r.vend pageFlags r.vstart 512 = some m') ∧
      Identity m m' tbl.toNat r := by
  have hpages := r.tablePages_region hregion
  have htables : r.span.tables = 4 := r.tables_eq.trans hpages
  have hlt := r.toNat_lt
  have hcount := r.count_eq
  have hroom' : tbl.toNat + 4096 * tablePages r.vstart r.vend ≤ 2 ^ 48 := by
    rw [hpages]
    exact hroom
  have hphys : r.vstart.toNat + (r.vend.toNat - r.vstart.toNat) ≤ 2 ^ 48 := by omega
  refine ⟨_, fun fuel => mapMemory_range r hroom' r.start_aligned, ?_, ?_, ?_⟩
  · intro a ha
    exact tables_write_off (by rw [htables]; exact ha)
  · intro va hva hva'
    have hoff := r.offset_eq ⟨hva, hva'⟩
    have hspan := (r.mem_span (r.half_of_mem ⟨hva, hva'⟩)).2 ⟨hva, hva'⟩
    have hwalk := walk_shown (shown_write tbl.toNat r.vstart.toNat r.span pageFlags m) htbl
      (by rw [htables]; exact hroom) r.start_aligned (by rw [hcount]; exact hphys) rfl rfl hspan
    refine ⟨_, hwalk, ?_⟩
    have hle : r.vstart.toNat ≤ va.toNat := hva
    show r.vstart.toNat + 4096 * (page va - r.span.first) + bits 0 12 va = va.toNat
    omega
  · intro hz
    exact (maps_of_tables (tables_write fun a _ _ => hz a) htbl hroom' r.start_aligned hphys rfl
      rfl).outside

/-! ## The startup section -/

/-- A loaded startup section inside one 2 MiB region, and the four pages of `.idmap_pg_dir`. -/
structure StartupText where
  idmapTextStart : Word
  idmapTextEnd : Word
  idmapPgStart : Word
  start_aligned : idmapTextStart.toNat % 4096 = 0
  lt : idmapTextStart < idmapTextEnd
  region : idmapTextStart.toNat / 2 ^ 21 = (idmapTextEnd.toNat - 1) / 2 ^ 21
  end_le : idmapTextEnd.toNat ≤ 2 ^ 48
  pg_aligned : idmapPgStart.toNat % 4096 = 0
  pg_end : idmapPgStart.toNat + 4096 * 4 ≤ 2 ^ 48

namespace StartupText

variable (t : StartupText)

def size : Nat := t.idmapTextEnd.toNat - t.idmapTextStart.toNat

/-- The call on the section. -/
def map (fuel : Nat) (m : Words) : Option Words :=
  mapIdmap fuel m t.idmapPgStart t.idmapTextStart t.idmapTextEnd

/-- What the call is for: it returns, writes in its four pages, and maps every byte of the section
to itself. -/
structure Covered (m m' : Words) : Prop where
  returns : ∃ k, ∀ fuel ≥ k, t.map fuel m = some m'
  inside : ∀ a, a < t.idmapPgStart.toNat ∨ t.idmapPgStart.toNat + 4096 * 4 ≤ a → m' a = m a
  identity : ∀ va, t.idmapTextStart ≤ va → va < t.idmapTextEnd →
    ∃ leaf, walk m' t.idmapPgStart.toNat va = some leaf ∧ leaf.pa = va.toNat

def Covers : Prop := ∀ m, ∃ m', t.Covered m m'

theorem toNat_lt : t.idmapTextStart.toNat < t.idmapTextEnd.toNat := t.lt

/-- The call, with the addresses that `adrp` leaves as they are. -/
theorem map_eq (fuel : Nat) (m : Words) :
    t.map fuel m = mapMemory fuel m t.idmapPgStart t.idmapTextStart (adrp t.idmapTextEnd) pageFlags
      t.idmapTextStart 512 := by
  have hpg : adrp t.idmapPgStart = t.idmapPgStart := page_mask t.pg_aligned
  have hstart : adrp t.idmapTextStart = t.idmapTextStart := page_mask t.start_aligned
  simp only [map, mapIdmap, hpg, hstart]

theorem toNat_adrp_end : (adrp t.idmapTextEnd).toNat = t.idmapTextEnd.toNat / 4096 * 4096 :=
  toNat_page_mask t.idmapTextEnd

/-- The section is covered when the call is that of a range that reaches to its end. -/
theorem covers_of_range (vend : Word) (hlt : t.idmapTextStart < vend)
    (haligned : vend.toNat % 4096 = 0) (hend : t.idmapTextEnd ≤ vend)
    (hregion : t.idmapTextStart.toNat / 2 ^ 21 = (vend.toNat - 1) / 2 ^ 21)
    (hend' : vend.toNat ≤ 2 ^ 48)
    (hmap : ∀ fuel m, t.map fuel m = mapMemory fuel m t.idmapPgStart t.idmapTextStart vend pageFlags
      t.idmapTextStart 512) : t.Covers := by
  intro m
  obtain ⟨m', hrun, hid⟩ := mapMemory_identity (lowRange hlt hend' t.start_aligned haligned) hregion
    hend' t.pg_aligned t.pg_end m
  refine ⟨m', ⟨2 ^ 48, ?_⟩, hid.inside, ?_⟩
  · intro fuel hfuel
    rw [hmap]
    apply hrun
    show vend.toNat - t.idmapTextStart.toNat ≤ 4096 * fuel
    omega
  · intro va hva hva'
    exact hid.mapped va hva (Nat.lt_of_lt_of_le hva' hend)

/-- A section of whole pages is covered. -/
theorem covers_whole_pages (h : t.size % 4096 = 0) : t.Covers := by
  have hlt := t.toNat_lt
  have hstart := t.start_aligned
  have haligned : t.idmapTextEnd.toNat % 4096 = 0 := by
    rw [size] at h
    omega
  have hadrp : adrp t.idmapTextEnd = t.idmapTextEnd := page_mask haligned
  apply t.covers_of_range t.idmapTextEnd t.lt haligned (BitVec.le_refl _) t.region t.end_le
  intro fuel m
  rw [t.map_eq, hadrp]

/-- Less than a page is cut down to nothing. -/
theorem adrp_part_page (h : t.size < 4096) : adrp t.idmapTextEnd = t.idmapTextStart := by
  have hlt := t.toNat_lt
  have hstart := t.start_aligned
  rw [size] at h
  apply BitVec.eq_of_toNat_eq
  rw [toNat_adrp_end]
  omega

/-- A section of less than a page is covered inside a 2 MiB region. -/
theorem covers_part_page (h : t.size < 4096) (hregion : t.idmapTextStart.toNat % 2 ^ 21 ≠ 0) :
    t.Covers := by
  have hlt := t.toNat_lt
  have hend := t.end_le
  have hstart := t.start_aligned
  have hadrp := t.adrp_part_page h
  rw [size] at h
  have hpage : (t.idmapTextStart + 4096).toNat = t.idmapTextStart.toNat + 4096 := by bv_omega
  apply t.covers_of_range (t.idmapTextStart + 4096)
  · rw [BitVec.lt_def]
    omega
  · omega
  · rw [BitVec.le_def]
    omega
  · omega
  · omega
  · intro fuel m
    rw [t.map_eq, hadrp, mapMemory_empty hstart hregion]

/-- The pages after the first one: the last one is not mapped when it is not whole. -/
theorem not_covers_pages (h : 4096 < t.size) (hpart : t.size % 4096 ≠ 0) : ¬ t.Covers := by
  intro hcovers
  have hlt := t.toNat_lt
  have hstart := t.start_aligned
  have hregion := t.region
  have hend := t.end_le
  have hadrp := t.toNat_adrp_end
  rw [size] at h hpart
  have hlt' : t.idmapTextStart < adrp t.idmapTextEnd := by
    rw [BitVec.lt_def]
    omega
  have hregion' : t.idmapTextStart.toNat / 2 ^ 21 = ((adrp t.idmapTextEnd).toNat - 1) / 2 ^ 21 := by
    omega
  have hend' : (adrp t.idmapTextEnd).toNat ≤ 2 ^ 48 := by omega
  have haligned : (adrp t.idmapTextEnd).toNat % 4096 = 0 := by omega
  obtain ⟨m', hrun, hid⟩ := mapMemory_identity (lowRange hlt' hend' hstart haligned) hregion' hend'
    t.pg_aligned t.pg_end fun _ => 0
  obtain ⟨m'', ⟨k, hk⟩, -, hid'⟩ := hcovers fun _ => 0
  have hm : m'' = m' := by
    have hsome := hk (max k (2 ^ 48)) (Nat.le_max_left _ _)
    rw [t.map_eq] at hsome
    have hsome' := hrun (max k (2 ^ 48)) (by
      show (adrp _).toNat - _ ≤ _
      omega)
    exact Option.some.inj (hsome.symm.trans hsome')
  obtain ⟨leaf, hleaf, -⟩ := hid' (adrp t.idmapTextEnd) (BitVec.le_of_lt hlt') (by
    rw [BitVec.lt_def]
    omega)
  have hnone := hid.unmapped (fun _ => rfl) (adrp t.idmapTextEnd)
    ((bits_high_zero (by omega)).trans (bits_high_zero (by show t.idmapTextStart.toNat < _; omega)).symm)
    fun h => absurd h.2 (BitVec.lt_irrefl _)
  rw [hm] at hleaf
  exact absurd (hleaf.symm.trans hnone) (by simp)

/-- A section of less than a page at the start of a 2 MiB region: the call does not return, and at
address zero it writes outside its four pages. -/
theorem not_covers_region_start (h : t.size < 4096)
    (hregion : t.idmapTextStart.toNat % 2 ^ 21 = 0) : ¬ t.Covers := by
  intro hcovers
  have hlt := t.toNat_lt
  have hend := t.end_le
  have hadrp := t.adrp_part_page h
  obtain ⟨m', ⟨k, hk⟩, hinside, -⟩ := hcovers fun _ => 0
  by_cases hzero : t.idmapTextStart = 0
  case neg =>
    have hsome := hk k (Nat.le_refl k)
    rw [t.map_eq, hadrp, mapMemory_empty_none hregion hzero (by omega)] at hsome
    cases hsome
  have hsome := hk (max k (2 ^ 36)) (Nat.le_max_left _ _)
  rw [t.map_eq, hadrp, hzero] at hsome
  exact mapMemory_zero (Nat.le_max_right _ _) t.pg_end hsome hinside

end StartupText

/-- **When the identity map covers the startup section.**  The call does what it is for when the
section is whole pages, or less than a page that is not the first of its 2 MiB region. -/
theorem idmap_covers_iff (t : StartupText) :
    t.Covers ↔ t.size % 4096 = 0 ∨ (t.size < 4096 ∧ t.idmapTextStart.toNat % 2 ^ 21 ≠ 0) := by
  constructor
  · intro hcovers
    by_cases hwhole : t.size % 4096 = 0
    · exact Or.inl hwhole
    by_cases hsmall : t.size < 4096
    · exact Or.inr ⟨hsmall, fun hregion => t.not_covers_region_start hsmall hregion hcovers⟩
    · exact absurd hcovers (t.not_covers_pages (by omega) hwhole)
  · rintro (hwhole | ⟨hsmall, hregion⟩)
    · exact t.covers_whole_pages hwhole
    · exact t.covers_part_page hsmall hregion

/-- A section of two pages less one word, where QEMU loads the image. -/
def shortText : StartupText where
  idmapTextStart := 0x40080000
  idmapTextEnd := 0x40081FF8
  idmapPgStart := 0x40100000
  start_aligned := rfl
  lt := by decide
  region := rfl
  end_le := by decide
  pg_aligned := rfl
  pg_end := by decide

theorem idmap_covers_fails : ¬ shortText.Covers :=
  shortText.not_covers_pages (by decide) (by decide)

end Eeos.Startup
