import Eeos.Arch.MapMemory

/-!
# The boot page tables map the range, and nothing else

The walk of the tables that `map_memory` leaves, level by level.

* `Level.write_entry` / `Level.write_off` — what writing a level changes.
* `Shows m l` — memory `m` shows the descriptors of level `l`, whatever is around them.
* `Reads m l` — it shows them, and zeros in the rest of the level's pages.
* `walkLevel_table_level` / `walkLevel_page_level` — one level of the walk through such pages.

Principal results: `walk_shown` (the walk inside the range, from any memory), `walk_levels` (the walk
of the four levels, for every address) and `mapMemory_correct` (the range is mapped, page by page,
nothing else of its half is, and nothing is written but the tables).
-/

namespace Eeos.Startup

open Vmsa

/-! ## Writing levels -/

theorem Level.write_entry (l : Level) (m : Words) {x : Nat} (hx : l.span.base ≤ x) :
    l.write m (l.tbl + 8 * (x - l.span.base)) =
      if l.span.first ≤ x ∧ x ≤ l.span.last then l.desc (x - l.span.first)
      else m (l.tbl + 8 * (x - l.span.base)) := by
  have hle := l.span.le
  have hbase : l.span.base ≤ l.span.first := by simp only [Span.base]; omega
  have hcount : l.span.count = l.span.last - l.span.first + 1 := rfl
  unfold Level.write
  split
  · rename_i h
    have := fill_at m l.tbl (l.span.first - l.span.base) l.span.count l.desc
      (k := x - l.span.first) (by omega)
    rw [← this]
    congr 2
    omega
  · rename_i h
    exact fill_off _ _ _ _ _ (by omega)

theorem Level.write_off (l : Level) (m : Words) {a : Nat}
    (h : a < l.tbl ∨ l.tbl + 4096 * l.span.up.count ≤ a) : l.write m a = m a := by
  have hle := l.span.le
  apply fill_off
  simp only [Span.base, Span.count, Span.up] at h ⊢
  omega

/-- `m` shows the level's descriptors. -/
def Shows (m : Words) (l : Level) : Prop :=
  ∀ x, l.span.first ≤ x → x ≤ l.span.last →
    m (l.tbl + 8 * (x - l.span.base)) = l.desc (x - l.span.first)

theorem Span.base_le (s : Span) : s.base ≤ s.first := by
  simp only [Span.base]
  omega

theorem shows_write (l : Level) (m : Words) : Shows (l.write m) l := by
  intro x hx hx'
  have hbase := l.span.base_le
  rw [l.write_entry m (by omega), if_pos ⟨hx, hx'⟩]

/-- Writing a level elsewhere does not disturb it. -/
theorem Shows.write {l l' : Level} {m : Words} (h : Shows m l)
    (hd : l.tbl + 4096 * l.span.up.count ≤ l'.tbl) : Shows (l'.write m) l := by
  intro x hx hx'
  have hin : x - l.span.base < 512 * l.span.up.count := by
    simp only [Span.base, Span.up, Span.count]
    omega
  rw [l'.write_off m (by omega), h x hx hx']

/-- `m` shows the level's descriptors, and zeros around them in its pages. -/
def Reads (m : Words) (l : Level) : Prop :=
  ∀ x, l.span.base ≤ x → x < l.span.base + 512 * l.span.up.count →
    m (l.tbl + 8 * (x - l.span.base)) =
      if l.span.first ≤ x ∧ x ≤ l.span.last then l.desc (x - l.span.first) else 0

theorem Reads.shows {l : Level} {m : Words} (h : Reads m l) : Shows m l := by
  intro x hx hx'
  have hbase := l.span.base_le
  have hin : x < l.span.base + 512 * l.span.up.count := by
    simp only [Span.base, Span.up, Span.count]
    omega
  rw [h x (by omega) hin, if_pos ⟨hx, hx'⟩]

/-- A level written into zeroed pages is read back. -/
theorem reads_write {l : Level} {m : Words}
    (hz : ∀ a, l.tbl ≤ a → a < l.tbl + 4096 * l.span.up.count → m a = 0) :
    Reads (l.write m) l := by
  intro x hx hx'
  rw [l.write_entry m hx]
  split
  · rfl
  · exact hz _ (by omega) (by omega)

/-- Writing a level elsewhere does not disturb it. -/
theorem Reads.write {l l' : Level} {m : Words} (h : Reads m l)
    (hd : l.tbl + 4096 * l.span.up.count ≤ l'.tbl) : Reads (l'.write m) l := by
  intro x hx hx'
  rw [l'.write_off m (by omega), h x hx hx']

/-! ## Walking levels -/

section Walk

variable {m : Words} {va : Word} {l : Level} {n x : Nat}

/-- The entry of region `x`, found from the page for the region above it. -/
theorem entryAddr_level (hx : bits (shift (3 - n)) 9 va = x % 512)
    (hp : l.span.first / 512 ≤ x / 512) :
    entryAddr (3 - n) (l.tbl + 4096 * (x / 512 - l.span.first / 512)) va =
      l.tbl + 8 * (x - l.span.base) := by
  rw [entryAddr, hx, Span.base]
  omega

theorem reads_region (hr : Reads m l) (hp : l.span.first / 512 ≤ x / 512)
    (hp' : x / 512 ≤ l.span.last / 512) :
    m (l.tbl + 8 * (x - l.span.base)) =
      if l.span.first ≤ x ∧ x ≤ l.span.last then l.desc (x - l.span.first) else 0 := by
  apply hr
  · simp only [Span.base]; omega
  · simp only [Span.base, Span.up, Span.count]; omega

/-- One level of tables, at a region that has a table. -/
theorem walkLevel_table_shown (hs : Shows m l) (hn : n ≠ 0) (hf : l.flags = 3)
    (hx : bits (shift (3 - n)) 9 va = x % 512) (h : l.span.first ≤ x ∧ x ≤ l.span.last)
    (ha : l.next % 4096 = 0) (hb : l.next + 4096 * l.span.count ≤ 2 ^ 48) :
    walkLevel m va (n + 1) (l.tbl + 4096 * (x / 512 - l.span.first / 512)) =
      walkLevel m va n (l.next + 4096 * (x - l.span.first)) := by
  have haddr := entryAddr_level (l := l) hx (Nat.div_le_div_right h.1)
  have hread := hs x h.1 h.2
  have hcount : l.span.count = l.span.last - l.span.first + 1 := rfl
  have hlow : ∀ lo n, lo + n ≤ 12 → bits lo n (l.desc (x - l.span.first)) = bits lo n 3 := by
    intro lo n hln
    rw [Level.desc, hf, bits_or_aligned (k := 12) (by omega) (by omega) hln]
  have hk : kind (3 - n) (l.desc (x - l.span.first)) = .table := by
    rw [kind, hlow 0 1 (by omega), hlow 1 1 (by omega), if_neg (by decide), if_pos (by decide),
      if_neg (by omega)]
  have hnext : nextTable (l.desc (x - l.span.first)) = l.next + 4096 * (x - l.span.first) := by
    rw [Level.desc, hf]
    exact nextTable_or (by omega) (by omega) (by decide)
  rw [walkLevel_table (haddr ▸ hread) hk, hnext]

/-- One level of tables. -/
theorem walkLevel_table_level (hr : Reads m l) (hn : n ≠ 0) (hf : l.flags = 3)
    (hx : bits (shift (3 - n)) 9 va = x % 512) (hp : l.span.first / 512 ≤ x / 512)
    (hp' : x / 512 ≤ l.span.last / 512) (ha : l.next % 4096 = 0)
    (hb : l.next + 4096 * l.span.count ≤ 2 ^ 48) :
    walkLevel m va (n + 1) (l.tbl + 4096 * (x / 512 - l.span.first / 512)) =
      if l.span.first ≤ x ∧ x ≤ l.span.last then
        walkLevel m va n (l.next + 4096 * (x - l.span.first))
      else none := by
  by_cases h : l.span.first ≤ x ∧ x ≤ l.span.last
  · rw [if_pos h]
    exact walkLevel_table_shown hr.shows hn hf hx h ha hb
  · have hread := reads_region hr hp hp'
    rw [if_neg h] at hread ⊢
    exact walkLevel_invalid (entryAddr_level (l := l) hx hp ▸ hread)

/-- The walk below a table level gives the walk from it, when what is mapped is among the level's
regions. -/
theorem walkLevel_descend {mapped : Prop} [Decidable mapped] {leaf : Leaf} (hr : Reads m l)
    (hn : n ≠ 0) (hf : l.flags = 3) (hx : bits (shift (3 - n)) 9 va = x % 512)
    (hp : l.span.first / 512 ≤ x / 512) (hp' : x / 512 ≤ l.span.last / 512)
    (ha : l.next % 4096 = 0) (hb : l.next + 4096 * l.span.count ≤ 2 ^ 48)
    (hmapped : mapped → l.span.first ≤ x ∧ x ≤ l.span.last)
    (hdown : l.span.first ≤ x ∧ x ≤ l.span.last →
      walkLevel m va n (l.next + 4096 * (x - l.span.first)) =
        if mapped then some leaf else none) :
    walkLevel m va (n + 1) (l.tbl + 4096 * (x / 512 - l.span.first / 512)) =
      if mapped then some leaf else none := by
  rw [walkLevel_table_level hr hn hf hx hp hp' ha hb]
  by_cases h : l.span.first ≤ x ∧ x ≤ l.span.last
  · rw [if_pos h]
    exact hdown h
  · rw [if_neg h, if_neg fun hm => h (hmapped hm)]

/-- The level of pages, at a page that is mapped. -/
theorem walkLevel_page_shown (hs : Shows m l) (hf : bits 0 2 l.flags = 3)
    (hf' : bits 12 36 l.flags = 0) (hx : bits 12 9 va = x % 512)
    (h : l.span.first ≤ x ∧ x ≤ l.span.last) (ha : l.next % 4096 = 0)
    (hb : l.next + 4096 * l.span.count ≤ 2 ^ 48) :
    walkLevel m va 1 (l.tbl + 4096 * (x / 512 - l.span.first / 512)) =
      some ⟨3, l.desc (x - l.span.first), l.next + 4096 * (x - l.span.first) + bits 0 12 va⟩ := by
  have haddr := entryAddr_level (n := 0) (l := l) hx (Nat.div_le_div_right h.1)
  have hread := hs x h.1 h.2
  have hcount : l.span.count = l.span.last - l.span.first + 1 := rfl
  have hlow : ∀ lo n, lo + n ≤ 12 →
      bits lo n (l.desc (x - l.span.first)) = bits lo n l.flags := by
    intro lo n hln
    rw [Level.desc, bits_or_aligned (k := 12) (by omega) (by omega) hln]
  have hflags : bits 0 1 l.flags = 1 ∧ bits 1 1 l.flags = 1 := by
    simp only [bits] at hf ⊢
    omega
  have hk : kind 3 (l.desc (x - l.span.first)) = .leaf := by
    rw [kind, hlow 0 1 (by omega), hlow 1 1 (by omega), hflags.1, hflags.2]
    rfl
  have hout : outputAddr 3 (l.desc (x - l.span.first)) va =
      l.next + 4096 * (x - l.span.first) + bits 0 12 va := by
    have hnext := nextTable_or (x := l.next + 4096 * (x - l.span.first)) (by omega) (by omega) hf'
    rw [← hnext]
    rfl
  rw [walkLevel_leaf (n := 0) (haddr ▸ hread) hk, hout]

/-- The level of pages. -/
theorem walkLevel_page_level (hr : Reads m l) (hf : bits 0 2 l.flags = 3)
    (hf' : bits 12 36 l.flags = 0) (hx : bits 12 9 va = x % 512)
    (hp : l.span.first / 512 ≤ x / 512) (hp' : x / 512 ≤ l.span.last / 512)
    (ha : l.next % 4096 = 0) (hb : l.next + 4096 * l.span.count ≤ 2 ^ 48) :
    walkLevel m va 1 (l.tbl + 4096 * (x / 512 - l.span.first / 512)) =
      if l.span.first ≤ x ∧ x ≤ l.span.last then
        some ⟨3, l.desc (x - l.span.first), l.next + 4096 * (x - l.span.first) + bits 0 12 va⟩
      else none := by
  by_cases h : l.span.first ≤ x ∧ x ≤ l.span.last
  · rw [if_pos h]
    exact walkLevel_page_shown hr.shows hf hf' hx h ha hb
  · have hread := reads_region hr hp hp'
    rw [if_neg h] at hread ⊢
    exact walkLevel_invalid (n := 0) (entryAddr_level (n := 0) (l := l) hx hp ▸ hread)

end Walk

/-! ## The whole walk -/

/-- The page of `va`, numbered through the 48-bit space. -/
def page (va : Word) : Nat := va.toNat % 2 ^ 48 / 4096

/-- `m` shows all four levels. -/
structure Tables (m : Words) (tbl : Nat) (s : Span) (phys : Nat) (flags : Word) : Prop where
  reads0 : Reads m (level0 tbl s)
  reads1 : Reads m (level1 tbl s)
  reads2 : Reads m (level2 tbl s)
  reads3 : Reads m (level3 tbl s phys flags)

theorem up_up_up_first (s : Span) : s.up.up.up.first / 512 = 0 := by
  have := s.le
  have := s.lt
  simp only [Span.up]
  omega

/-- The page of level 0 that a walk starts in is the first. -/
theorem level0_root (tbl : Nat) (s : Span) {x : Nat} (hx : x < 2 ^ 36) :
    (level0 tbl s).tbl + 4096 * (x / 512 / 512 / 512 / 512 - (level0 tbl s).span.first / 512) =
      tbl := by
  simp only [level0]
  omega

section Apart

variable (tbl phys : Nat) (s : Span) (flags : Word)

/-- Each level's pages end where those of the next level start. -/
theorem level0_end :
    (level0 tbl s).tbl + 4096 * (level0 tbl s).span.up.count ≤ (level1 tbl s).tbl := by
  have htop := s.up_count_top
  simp only [level0, level1, htop]
  omega

theorem level1_end :
    (level1 tbl s).tbl + 4096 * (level1 tbl s).span.up.count ≤ (level2 tbl s).tbl := by
  simp only [level1, level2]
  omega

theorem level2_end :
    (level2 tbl s).tbl + 4096 * (level2 tbl s).span.up.count ≤ (level3 tbl s phys flags).tbl := by
  simp only [level2, level3]
  omega

end Apart

/-- The four levels, written one after the other into zeroed pages, are all read back. -/
theorem tables_write {tbl phys : Nat} {s : Span} {flags : Word} {m : Words}
    (hz : ∀ a, tbl ≤ a → a < tbl + 4096 * s.tables → m a = 0) :
    Tables ((level3 tbl s phys flags).write ((level2 tbl s).write
      ((level1 tbl s).write ((level0 tbl s).write m)))) tbl s phys flags := by
  have htables : s.tables = 1 + s.up.up.up.count + s.up.up.count + s.up.count := rfl
  have d01 := level0_end tbl s
  have d12 := level1_end tbl s
  have d23 := level2_end tbl phys s flags
  have hend : (level3 tbl s phys flags).tbl + 4096 * (level3 tbl s phys flags).span.up.count =
      tbl + 4096 * s.tables := by
    simp only [level3, htables]
    omega
  have hstart : (level0 tbl s).tbl = tbl := rfl
  have r0 : Reads ((level0 tbl s).write m) (level0 tbl s) := by
    apply reads_write
    intro a h h'
    exact hz a (by omega) (by omega)
  have r1 : Reads ((level1 tbl s).write ((level0 tbl s).write m)) (level1 tbl s) := by
    apply reads_write
    intro a h h'
    rw [Level.write_off _ _ (by omega)]
    exact hz a (by omega) (by omega)
  have r2 : Reads ((level2 tbl s).write ((level1 tbl s).write ((level0 tbl s).write m)))
      (level2 tbl s) := by
    apply reads_write
    intro a h h'
    rw [Level.write_off _ _ (by omega), Level.write_off _ _ (by omega)]
    exact hz a (by omega) (by omega)
  refine ⟨?_, ?_, ?_, ?_⟩
  · exact ((r0.write d01).write (by omega)).write (by omega)
  · exact (r1.write d12).write (by omega)
  · exact r2.write d23
  · apply reads_write
    intro a h h'
    rw [Level.write_off _ _ (by omega), Level.write_off _ _ (by omega),
      Level.write_off _ _ (by omega)]
    exact hz a (by omega) (by omega)

/-- Writing the four levels changes nothing outside their pages. -/
theorem tables_write_off {tbl phys : Nat} {s : Span} {flags : Word} {m : Words} {a : Nat}
    (ha : a < tbl ∨ tbl + 4096 * s.tables ≤ a) :
    (level3 tbl s phys flags).write ((level2 tbl s).write
      ((level1 tbl s).write ((level0 tbl s).write m))) a = m a := by
  have htop := s.up_count_top
  simp only [Span.tables] at ha
  rw [Level.write_off _ _ (by simp only [level3]; omega),
    Level.write_off _ _ (by simp only [level2]; omega),
    Level.write_off _ _ (by simp only [level1]; omega),
    Level.write_off _ _ (by simp only [level0, htop]; omega)]

/-- `m` shows all four levels, whatever is around them. -/
structure Shown (m : Words) (tbl : Nat) (s : Span) (phys : Nat) (flags : Word) : Prop where
  shows0 : Shows m (level0 tbl s)
  shows1 : Shows m (level1 tbl s)
  shows2 : Shows m (level2 tbl s)
  shows3 : Shows m (level3 tbl s phys flags)

theorem Tables.shown {m : Words} {tbl phys : Nat} {s : Span} {flags : Word}
    (t : Tables m tbl s phys flags) : Shown m tbl s phys flags :=
  ⟨t.reads0.shows, t.reads1.shows, t.reads2.shows, t.reads3.shows⟩

/-- The four levels, written one after the other into any memory, are all shown. -/
theorem shown_write (tbl phys : Nat) (s : Span) (flags : Word) (m : Words) :
    Shown ((level3 tbl s phys flags).write ((level2 tbl s).write
      ((level1 tbl s).write ((level0 tbl s).write m)))) tbl s phys flags := by
  have d01 := level0_end tbl s
  have d12 := level1_end tbl s
  have d23 := level2_end tbl phys s flags
  refine ⟨?_, ?_, ?_, ?_⟩
  · exact (((shows_write _ m).write d01).write (by omega)).write (by omega)
  · exact ((shows_write _ _).write d12).write (by omega)
  · exact (shows_write _ _).write d23
  · exact shows_write _ _

/-- A level is shown by its own pages. -/
theorem Shows.congr {m m' : Words} {l : Level} (h : Shows m l)
    (hm : ∀ a, l.tbl ≤ a → a < l.tbl + 4096 * l.span.up.count → m' a = m a) : Shows m' l := by
  intro x hx hx'
  have hin : x - l.span.base < 512 * l.span.up.count := by
    simp only [Span.base, Span.up, Span.count]
    omega
  rw [hm _ (by omega) (by omega), h x hx hx']

theorem Shown.congr {m m' : Words} {tbl phys : Nat} {s : Span} {flags : Word}
    (t : Shown m tbl s phys flags)
    (hm : ∀ a, tbl ≤ a → a < tbl + 4096 * s.tables → m' a = m a) :
    Shown m' tbl s phys flags := by
  have htop := s.up_count_top
  have htables : s.tables = 1 + s.up.up.up.count + s.up.up.count + s.up.count := rfl
  constructor
  · apply Shows.congr t.shows0
    intro a h h'
    simp only [level0, htop] at h h'
    exact hm a (by omega) (by omega)
  · apply Shows.congr t.shows1
    intro a h h'
    simp only [level1] at h h'
    exact hm a (by omega) (by omega)
  · apply Shows.congr t.shows2
    intro a h h'
    simp only [level2] at h h'
    exact hm a (by omega) (by omega)
  · apply Shows.congr t.shows3
    intro a h h'
    simp only [level3] at h h'
    exact hm a (by omega) (by omega)

/-- The indices of an address: its page, and the regions of the three levels above. -/
theorem index_page {va : Word} {x : Nat} (hx : page va = x) :
    x < 2 ^ 36 ∧ bits 12 9 va = x % 512 ∧ bits (shift (3 - 1)) 9 va = x / 512 % 512 ∧
      bits (shift (3 - 2)) 9 va = x / 512 / 512 % 512 ∧
      bits (shift (3 - 3)) 9 va = x / 512 / 512 / 512 % 512 := by
  rw [page] at hx
  simp only [bits, shift]
  omega

/-- A page of the span is mapped. -/
theorem walk_shown {m : Words} {tbl phys : Nat} {s : Span} {flags : Word}
    (t : Shown m tbl s phys flags) (htbl : tbl % 4096 = 0)
    (hroom : tbl + 4096 * s.tables ≤ 2 ^ 48) (hphys : phys % 4096 = 0)
    (hend : phys + 4096 * s.count ≤ 2 ^ 48) (hf : bits 0 2 flags = 3)
    (hf' : bits 12 36 flags = 0) {va : Word} (hva : s.first ≤ page va ∧ page va ≤ s.last) :
    walk m tbl va = some ⟨3, (level3 tbl s phys flags).desc (page va - s.first),
      phys + 4096 * (page va - s.first) + bits 0 12 va⟩ := by
  have htables : s.tables = 1 + s.up.up.up.count + s.up.up.count + s.up.count := rfl
  obtain ⟨hx, b3, b2, b1, b0⟩ := index_page (rfl : page va = page va)
  generalize page va = x at hva hx b3 b2 b1 b0 ⊢
  have h2 : s.up.first ≤ x / 512 ∧ x / 512 ≤ s.up.last :=
    ⟨Nat.div_le_div_right hva.1, Nat.div_le_div_right hva.2⟩
  have h1 : s.up.up.first ≤ x / 512 / 512 ∧ x / 512 / 512 ≤ s.up.up.last :=
    ⟨Nat.div_le_div_right h2.1, Nat.div_le_div_right h2.2⟩
  have h0 : s.up.up.up.first ≤ x / 512 / 512 / 512 ∧ x / 512 / 512 / 512 ≤ s.up.up.up.last :=
    ⟨Nat.div_le_div_right h1.1, Nat.div_le_div_right h1.2⟩
  have w0 := walkLevel_table_shown t.shows0 (by omega) rfl b0 h0 (by simp only [level0]; omega)
    (by simp only [level0]; omega)
  have w1 := walkLevel_table_shown t.shows1 (by omega) rfl b1 h1 (by simp only [level1]; omega)
    (by simp only [level1]; omega)
  have w2 := walkLevel_table_shown t.shows2 (by omega) rfl b2 h2 (by simp only [level2]; omega)
    (by simp only [level2]; omega)
  have w3 := walkLevel_page_shown t.shows3 hf hf' b3 hva hphys hend
  rw [level0_root tbl s hx] at w0
  exact w0.trans (w1.trans (w2.trans w3))

/-- The walk of the tables: the pages of the span are mapped, the others are not. -/
theorem walk_levels {m : Words} {tbl phys : Nat} {s : Span} {flags : Word}
    (t : Tables m tbl s phys flags) (htbl : tbl % 4096 = 0)
    (hroom : tbl + 4096 * s.tables ≤ 2 ^ 48) (hphys : phys % 4096 = 0)
    (hend : phys + 4096 * s.count ≤ 2 ^ 48) (hf : bits 0 2 flags = 3)
    (hf' : bits 12 36 flags = 0) (va : Word) :
    walk m tbl va =
      if s.first ≤ page va ∧ page va ≤ s.last then
        some ⟨3, (level3 tbl s phys flags).desc (page va - s.first),
          phys + 4096 * (page va - s.first) + bits 0 12 va⟩
      else none := by
  have htables : s.tables = 1 + s.up.up.up.count + s.up.up.count + s.up.count := rfl
  have htop := up_up_up_first s
  obtain ⟨hx, b3, b2, b1, b0⟩ := index_page (rfl : page va = page va)
  generalize page va = x at hx b3 b2 b1 b0 ⊢
  -- the walk, from the level of pages up
  have w3 := fun h : (level2 tbl s).span.first ≤ x / 512 ∧ x / 512 ≤ (level2 tbl s).span.last =>
    walkLevel_page_level t.reads3 hf hf' b3 h.1 h.2 hphys hend
  have w2 := fun h : (level1 tbl s).span.first ≤ x / 512 / 512 ∧
      x / 512 / 512 ≤ (level1 tbl s).span.last =>
    walkLevel_descend t.reads2 (by omega) rfl b2 h.1 h.2 (by simp only [level2]; omega)
      (by simp only [level2]; omega) (by simp only [level2, level3, Span.up]; omega) w3
  have w1 := fun h : (level0 tbl s).span.first ≤ x / 512 / 512 / 512 ∧
      x / 512 / 512 / 512 ≤ (level0 tbl s).span.last =>
    walkLevel_descend t.reads1 (by omega) rfl b1 h.1 h.2 (by simp only [level1]; omega)
      (by simp only [level1]; omega) (by simp only [level1, level3, Span.up]; omega) w2
  have w0 := walkLevel_descend t.reads0 (by omega) rfl b0 (by simp only [level0]; omega)
    (by simp only [level0, Span.up]; omega) (by simp only [level0]; omega)
    (by simp only [level0]; omega) (by simp only [level0, level3, Span.up]; omega) w1
  rw [level0_root tbl s hx] at w0
  exact w0

/-! ## The macro on a range -/

/-- How many regions of `2 ^ k` bytes the range touches. -/
def regions (k : Nat) (vstart vend : Word) : Nat :=
  (vend.toNat - 1) / 2 ^ k - vstart.toNat / 2 ^ k + 1

/-- The pages of the tables for the range, over its 512 GiB, 1 GiB and 2 MiB regions. -/
def tablePages (vstart vend : Word) : Nat :=
  1 + regions 39 vstart vend + regions 30 vstart vend + regions 21 vstart vend

/-- A page-aligned range inside one half of the address space. -/
structure Range where
  vstart : Word
  vend : Word
  lt : vstart < vend
  half : bits 48 16 vstart = bits 48 16 (vend - 1)
  start_aligned : vstart.toNat % 4096 = 0
  end_aligned : vend.toNat % 4096 = 0

namespace Range

variable (r : Range)

theorem toNat_lt : r.vstart.toNat < r.vend.toNat := r.lt

theorem toNat_pred : (r.vend - 1).toNat = r.vend.toNat - 1 := by
  have := r.toNat_lt
  bv_omega

/-- Both ends lie over the same multiple of `2 ^ 48`. -/
theorem same_half : r.vstart.toNat / 2 ^ 48 = (r.vend.toNat - 1) / 2 ^ 48 := by
  have hh := r.half
  have := r.vstart.isLt
  have := r.vend.isLt
  simp only [bits, r.toNat_pred] at hh
  omega

/-- The pages of the range. -/
def span : Span where
  first := page r.vstart
  last := page (r.vend - 1)
  le := by
    have := r.toNat_lt
    have := r.same_half
    simp only [page, r.toNat_pred]
    omega
  lt := by
    simp only [page]
    omega

theorem region_count {a b k j : Nat} (h : a / 2 ^ 48 = b / 2 ^ 48) (hk : k + j = 48) :
    b / 2 ^ k - a / 2 ^ k = b % 2 ^ 48 / 2 ^ k - a % 2 ^ 48 / 2 ^ k := by
  have hsplit : ∀ x : Nat, x / 2 ^ k = 2 ^ j * (x / 2 ^ 48) + x % 2 ^ 48 / 2 ^ k := by
    intro x
    rw [← hk, Nat.pow_add, Nat.mod_mul_right_div_self, ← Nat.div_div_eq_div_mul, Nat.div_add_mod]
  rw [hsplit a, hsplit b, h, Nat.add_sub_add_left]

theorem tables_eq : r.span.tables = tablePages r.vstart r.vend := by
  have h := r.same_half
  have h39 := region_count h (rfl : 39 + 9 = 48)
  have h30 := region_count h (rfl : 30 + 18 = 48)
  have h21 := region_count h (rfl : 21 + 27 = 48)
  simp only [Span.tables, Span.count, Span.up, tablePages, regions, span, page, r.toNat_pred,
    Nat.div_div_eq_div_mul]
  omega

theorem count_eq : 4096 * r.span.count = r.vend.toNat - r.vstart.toNat := by
  have := r.toNat_lt
  have := r.same_half
  have := r.start_aligned
  have := r.end_aligned
  simp only [Span.count, span, page, r.toNat_pred]
  omega

/-- In the range's half, the pages of the span are the pages of the range. -/
theorem mem_span {va : Word} (hva : bits 48 16 va = bits 48 16 r.vstart) :
    (r.span.first ≤ page va ∧ page va ≤ r.span.last) ↔ r.vstart ≤ va ∧ va < r.vend := by
  have := r.toNat_lt
  have := r.same_half
  have := r.start_aligned
  have := r.end_aligned
  simp only [bits] at hva
  simp only [span, page, r.toNat_pred, BitVec.le_def, BitVec.lt_def]
  omega

/-- The addresses of the range are in its half. -/
theorem half_of_mem {va : Word} (h : r.vstart ≤ va ∧ va < r.vend) :
    bits 48 16 va = bits 48 16 r.vstart := by
  have := r.same_half
  have h₁ : r.vstart.toNat ≤ va.toNat := h.1
  have h₂ : va.toNat < r.vend.toNat := h.2
  simp only [bits]
  omega

/-- Where in the range the address lies. -/
theorem offset_eq {va : Word} (h : r.vstart ≤ va ∧ va < r.vend) :
    4096 * (page va - r.span.first) + bits 0 12 va = va.toNat - r.vstart.toNat := by
  have := r.same_half
  have := r.start_aligned
  have h₁ : r.vstart.toNat ≤ va.toNat := h.1
  have h₂ : va.toNat < r.vend.toNat := h.2
  simp only [bits, span, page]
  omega

end Range

/-- What the tables of a call say: the memory `m` translates the range to `phys` on, page by page,
with `flags` on every page. -/
structure Maps (m : Words) (tbl : Nat) (r : Range) (phys : Nat) (flags : Word) : Prop where
  inside : ∀ va, r.vstart ≤ va ∧ va < r.vend → ∃ leaf, walk m tbl va = some leaf ∧
    leaf.level = 3 ∧ leaf.pa = phys + (va.toNat - r.vstart.toNat) ∧
    leaf.desc = BitVec.ofNat 64 (leaf.pa / 4096 * 4096) ||| flags
  outside : ∀ va, bits 48 16 va = bits 48 16 r.vstart → ¬ (r.vstart ≤ va ∧ va < r.vend) →
    walk m tbl va = none

/-- Tables that are shown translate the range. -/
theorem Shown.inside {m : Words} {tbl phys : Nat} {r : Range} {flags : Word}
    (t : Shown m tbl r.span phys flags) (htbl : tbl % 4096 = 0)
    (hroom : tbl + 4096 * tablePages r.vstart r.vend ≤ 2 ^ 48) (hphys : phys % 4096 = 0)
    (hend : phys + (r.vend.toNat - r.vstart.toNat) ≤ 2 ^ 48) (hf : bits 0 2 flags = 3)
    (hf' : bits 12 36 flags = 0) {va : Word} (hva : r.vstart ≤ va ∧ va < r.vend) :
    ∃ leaf, walk m tbl va = some leaf ∧ leaf.level = 3 ∧
      leaf.pa = phys + (va.toNat - r.vstart.toNat) ∧
      leaf.desc = BitVec.ofNat 64 (leaf.pa / 4096 * 4096) ||| flags := by
  have hoff := r.offset_eq hva
  have hlow : bits 0 12 va < 4096 := bits_lt 0 12 va
  refine ⟨_, walk_shown t htbl (by rw [r.tables_eq]; exact hroom) hphys
    (by rw [r.count_eq]; exact hend) hf hf' ((r.mem_span (r.half_of_mem hva)).2 hva), rfl, ?_, ?_⟩
  · show phys + 4096 * (page va - r.span.first) + bits 0 12 va = _
    omega
  · show BitVec.ofNat 64 (phys + 4096 * (page va - r.span.first)) ||| flags = _
    congr 2
    show _ = (phys + 4096 * (page va - r.span.first) + bits 0 12 va) / 4096 * 4096
    omega

theorem maps_of_tables {m : Words} {tbl phys : Nat} {r : Range} {flags : Word}
    (t : Tables m tbl r.span phys flags) (htbl : tbl % 4096 = 0)
    (hroom : tbl + 4096 * tablePages r.vstart r.vend ≤ 2 ^ 48) (hphys : phys % 4096 = 0)
    (hend : phys + (r.vend.toNat - r.vstart.toNat) ≤ 2 ^ 48) (hf : bits 0 2 flags = 3)
    (hf' : bits 12 36 flags = 0) : Maps m tbl r phys flags := by
  have hwalk := walk_levels t htbl (by rw [r.tables_eq]; exact hroom) hphys
    (by rw [r.count_eq]; exact hend) hf hf'
  constructor
  · intro va hva
    exact t.shown.inside htbl hroom hphys hend hf hf' hva
  · intro va hva hout
    exact (hwalk va).trans (if_neg fun h => hout ((r.mem_span hva).1 h))

/-- `map_memory` on a range: with fuel for its pages it returns, and leaves the four levels. -/
theorem mapMemory_range (r : Range) {m : Words} {tbl phys flags : Word}
    (hroom : tbl.toNat + 4096 * tablePages r.vstart r.vend ≤ 2 ^ 48)
    (hphys : phys.toNat % 4096 = 0) {fuel : Nat}
    (hfuel : r.vend.toNat - r.vstart.toNat ≤ 4096 * fuel) :
    mapMemory fuel m tbl r.vstart r.vend flags phys 512 =
      some ((level3 tbl.toNat r.span phys.toNat flags).write ((level2 tbl.toNat r.span).write
        ((level1 tbl.toNat r.span).write ((level0 tbl.toNat r.span).write m)))) := by
  have hcount := r.count_eq
  exact mapMemory_eq rfl rfl (by omega) m flags (page_mask hphys) (by rw [r.tables_eq]; omega)

/-- `map_memory` maps the range, and nothing else of its half, inside the pages of its tables. -/
theorem mapMemory_correct {m : Words} {tbl vstart vend flags phys : Word} (hlt : vstart < vend)
    (hhalf : bits 48 16 vstart = bits 48 16 (vend - 1)) (hstart : vstart.toNat % 4096 = 0)
    (hend : vend.toNat % 4096 = 0) (hphys : phys.toNat % 4096 = 0)
    (hphys_end : phys.toNat + (vend.toNat - vstart.toNat) ≤ 2 ^ 48) (hf : bits 0 2 flags = 3)
    (hf' : bits 12 36 flags = 0) (htbl : tbl.toNat % 4096 = 0)
    (hroom : tbl.toNat + 4096 * tablePages vstart vend ≤ 2 ^ 48)
    (hz : ∀ a, tbl.toNat ≤ a → a < tbl.toNat + 4096 * tablePages vstart vend → m a = 0) :
    ∃ m', (∀ fuel, vend.toNat - vstart.toNat ≤ 4096 * fuel →
        mapMemory fuel m tbl vstart vend flags phys 512 = some m') ∧
      (∀ va, vstart ≤ va ∧ va < vend → ∃ leaf, walk m' tbl.toNat va = some leaf ∧
        leaf.level = 3 ∧ leaf.pa = phys.toNat + (va.toNat - vstart.toNat) ∧
        leaf.desc = BitVec.ofNat 64 (leaf.pa / 4096 * 4096) ||| flags) ∧
      (∀ va, bits 48 16 va = bits 48 16 vstart → ¬ (vstart ≤ va ∧ va < vend) →
        walk m' tbl.toNat va = none) ∧
      (∀ a, a < tbl.toNat ∨ tbl.toNat + 4096 * tablePages vstart vend ≤ a → m' a = m a) ∧
      (vstart = 0xFFFF000000080000 → vend.toNat - vstart.toNat ≤ 0x1000000 - 0x80000 →
        tablePages vstart vend ≤ 11) := by
  let r : Range := ⟨vstart, vend, hlt, hhalf, hstart, hend⟩
  have htables : r.span.tables = tablePages vstart vend := r.tables_eq
  have hmaps := maps_of_tables (r := r) (tables_write (by rw [htables]; exact hz)) htbl hroom hphys
    hphys_end hf hf'
  refine ⟨_, fun fuel => mapMemory_range r hroom hphys, hmaps.inside, hmaps.outside, ?_, ?_⟩
  · intro a ha
    exact tables_write_off (by rw [htables]; exact ha)
  · rintro rfl hsize
    have : vend.toNat > 0xFFFF000000080000 := r.toNat_lt
    have hk : (0xFFFF000000080000 : Word).toNat = 0xFFFF000000080000 := rfl
    simp only [tablePages, regions, hk] at hsize ⊢
    omega

/-- The last page under a 2 MiB boundary, the 512 up to the next boundary of 1 GiB, and the first
page behind it. -/
theorem mapMemory_correct_boundaries :
    ∃ m', mapMemory 514 (fun _ => 0) 0x40100000 0xFFFF00003FDFF000 0xFFFF000040001000 0x703
        0x4FDFF000 512 = some m' ∧
      (∃ leaf, walk m' 0x40100000 0xFFFF00003FDFFFFF = some leaf ∧ leaf.pa = 0x4FDFFFFF) ∧
      (∃ leaf, walk m' 0x40100000 0xFFFF00003FE00000 = some leaf ∧ leaf.pa = 0x4FE00000) ∧
      (∃ leaf, walk m' 0x40100000 0xFFFF000040000123 = some leaf ∧ leaf.pa = 0x50000123) ∧
      walk m' 0x40100000 0xFFFF00003FDFEFFF = none ∧
      walk m' 0x40100000 0xFFFF000040001000 = none := by
  obtain ⟨m', hrun, hin, hout, -, -⟩ := @mapMemory_correct (fun _ => 0) 0x40100000
    0xFFFF00003FDFF000 0xFFFF000040001000 0x703 0x4FDFF000 (by decide) rfl rfl rfl rfl (by decide)
    rfl rfl rfl (by decide) (fun _ _ _ => rfl)
  obtain ⟨leaf, hleaf, -, hpa, -⟩ := hin 0xFFFF00003FDFFFFF (by decide)
  obtain ⟨leaf', hleaf', -, hpa', -⟩ := hin 0xFFFF00003FE00000 (by decide)
  obtain ⟨leaf'', hleaf'', -, hpa'', -⟩ := hin 0xFFFF000040000123 (by decide)
  exact ⟨m', hrun 514 (by decide), ⟨leaf, hleaf, hpa⟩, ⟨leaf', hleaf', hpa'⟩,
    ⟨leaf'', hleaf'', hpa''⟩, hout 0xFFFF00003FDFEFFF (by decide) (by decide),
    hout 0xFFFF000040001000 (by decide) (by decide)⟩

end Eeos.Startup
