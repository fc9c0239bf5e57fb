import Eeos.Driver.Gicv3

/-!
# What `gicv3_hw_init` leaves behind

The driver takes `32 * TYPER[4:0]` as the number of lines; the architecture has another 32 after
them.

* `gicd_loop`, `gicr_loop` — the loops over a bank.
* `initLines` — what the whole function does to the lines.
* `Complete` — the controller as it should be after initialisation.

Principal result: `gicv3HwInit_complete_iff` — every implemented line is set up exactly if the SPIs
of the last block were before, which no loop comes to.
-/

namespace Eeos.Gicv3

open Packed CLoop

/-! ## The loops -/

theorem Bank.width_dvd (b : Bank) : 32 / b.width * b.width = 32 ∧ 0 < b.width := by
  cases b <;> decide

/-- A loop over the lines from 32 up to `32 * N`. -/
theorem gicd_loop (b : Bank) (v : BitVec 32) (g : Gic) {N : Nat} (hN : N ≤ 31) :
    forStep 32 (32 * N) b.width (fun i => gicdWrite (b.base + i / b.width * 4) v) g =
      { g with line := cover b.width 32 (32 * N) (b.apply v) g.line } := by
  obtain ⟨hc, hw⟩ := b.width_dvd
  generalize 32 / b.width = c at hc
  by_cases h0 : N = 0
  · subst h0
    have hnone : cover b.width 32 (32 * 0) (b.apply v) g.line = g.line := by
      funext i
      exact cover_out (by omega) _ _
    rw [hnone]
    rfl
  · obtain ⟨n, rfl⟩ : ∃ n, N = n + 1 := ⟨N - 1, by omega⟩
    have hhi : (c + c * n) * b.width = 32 * (n + 1) := by
      rw [Nat.add_mul, hc, Nat.mul_right_comm, hc]
      ring
    have hwrite : ∀ k, c ≤ k → k < c + c * n → ∀ line : Nat → Line,
        gicdWrite (b.base + k * b.width / b.width * 4) v { g with line := line } =
          { g with line := packed b.width (b.apply v) k line } := by
      intro k hk hk' line
      have hlow : c * b.width ≤ k * b.width := Nat.mul_le_mul_right _ hk
      have hhigh : k * b.width < (c + c * n) * b.width := Nat.mul_lt_mul_of_pos_right hk' hw
      have hsize : k < b.size := by
        apply Nat.lt_of_mul_lt_mul_right (a := b.width)
        rw [b.size_width]
        omega
      rw [Nat.mul_div_cancel _ hw]
      exact gicdWrite_bank b hsize (by omega) v _
    have hloop := forStep_packed hw (b.apply v) (fun line => ({ g with line := line } : Gic))
      (fun i => gicdWrite (b.base + i / b.width * 4) v) hwrite g.line
    rw [hc, hhi] at hloop
    exact hloop

/-- The loops over the priorities of the SGIs and PPIs. -/
theorem gicr_loop (v : BitVec 32) (g : Gic) (lo n : Nat) (h : lo + n ≤ 8) :
    forStep (lo * 4) ((lo + n) * 4) 4 (fun i => gicrSgiWrite (gicrIpriorityr0 + i / 4 * 4) v) g =
      { g with line := cover 4 (lo * 4) ((lo + n) * 4) (Bank.ipriorityr.apply v) g.line } := by
  apply forStep_packed (by decide) (Bank.ipriorityr.apply v)
    (fun line : Nat → Line => ({ g with line := line } : Gic)) _ _ g.line
  intro k hk hk' line
  show gicrSgiWrite (gicrIpriorityr0 + k * 4 / 4 * 4) v _ = _
  rw [Nat.mul_div_cancel k (by decide)]
  exact gicrSgiWrite_bank .ipriorityr (by simp only [Bank.size]; omega)
    (by simp only [Bank.width]; omega) v _

/-! ## The whole function -/

/-- What `gicv3_hw_init` does to the lines. -/
def initLines (N : Nat) (line : Nat → Line) : Nat → Line :=
  let line := cover 16 32 (32 * N) (Bank.icfgr.apply 0) line
  let line := cover 4 32 (32 * N) (Bank.ipriorityr.apply 0xa0a0a0a0) line
  let line := cover 32 32 (32 * N) (Bank.icenabler.apply 0xffffffff) line
  let line := cover 32 32 (32 * N) (Bank.igroupr.apply 0xffffffff) line
  let line := cover 4 0 16 (Bank.ipriorityr.apply 0x90909090) line
  let line := cover 4 16 32 (Bank.ipriorityr.apply 0xa0a0a0a0) line
  let line := packed 32 (Bank.icenabler.apply 0xffff0000) 0 line
  let line := packed 32 (Bank.isenabler.apply 0x0000ffff) 0 line
  packed 32 (Bank.igroupr.apply 0xffffffff) 0 line

/-- `TYPER[4:0]`. -/
def Gic.itLines (g : Gic) : Nat := (g.typer &&& 0x1f).toNat

theorem Gic.itLines_le (g : Gic) : g.itLines ≤ 31 := by
  have h := Nat.and_two_pow_sub_one_eq_mod g.typer.toNat 5
  rw [itLines, BitVec.toNat_and, show (0x1f : BitVec 32).toNat = 2 ^ 5 - 1 from rfl, h]
  omega

theorem waitWhile_eq {poll : Nat → Bool} {k fuel i : Nat} (hfuel : k < fuel)
    (h : poll (i + k) = false) : waitWhile poll fuel i = some () := by
  induction k generalizing fuel i with
  | zero =>
    obtain ⟨fuel, rfl⟩ : ∃ f, fuel = f + 1 := ⟨fuel - 1, by omega⟩
    rw [waitWhile, if_neg (by rw [← Nat.add_zero i, h]; decide)]
  | succ k ih =>
    obtain ⟨fuel, rfl⟩ : ∃ f, fuel = f + 1 := ⟨fuel - 1, by omega⟩
    rw [waitWhile]
    split
    · apply ih (by omega)
      rw [← h]
      congr 1
      omega
    · rfl

/-- When both polls end, `gicv3_hw_init` returns 0. -/
theorem gicv3HwInit_eq (g : Gic) {polls : Polls} {k k' : Nat} (hrwp : polls.rwp k = false)
    (hasleep : polls.childrenAsleep k' = false) {fuel : Nat} (hfuel : k < fuel) (hfuel' : k' < fuel) :
    gicv3HwInit fuel polls g = some (0,
      { line := initLines g.itLines g.line
        ctlr := 0x13
        typer := g.typer
        waker := g.waker &&& ~~~(2 : BitVec 32)
        sre := 0xF
        pmr := 0xff
        igrpen1 := 1 }) := by
  have hN := g.itLines_le
  have hwait : waitWhile polls.rwp fuel 0 = some () :=
    waitWhile_eq hfuel (by rw [Nat.zero_add]; exact hrwp)
  have hwait' : waitWhile polls.childrenAsleep fuel 0 = some () :=
    waitWhile_eq hfuel' (by rw [Nat.zero_add]; exact hasleep)
  have hctlr : ∀ (v : BitVec 32) (g : Gic), gicdWrite gicdCtlr v g = { g with ctlr := v } :=
    fun v g => if_pos rfl
  -- the four loops over the distributor, and the two over the redistributor
  have hloop : ∀ (b : Bank) (v : BitVec 32) (g' : Gic),
      forStep gicv3NrLocalIrqs (32 * (g.typer &&& 0x1f).toNat) b.width
        (fun i => gicdWrite (b.base + i / b.width * 4) v) g' =
      { g' with line := cover b.width 32 (32 * g.itLines) (b.apply v) g'.line } :=
    fun b v g' => gicd_loop b v g' hN
  have hicfgr := hloop .icfgr 0
  have hpriority := hloop .ipriorityr 0xa0a0a0a0
  have hdisable := hloop .icenabler 0xffffffff
  have hgroup := hloop .igroupr 0xffffffff
  have hsgi := fun g' : Gic => gicr_loop 0x90909090 g' 0 4 (by decide)
  have hppi := fun g' : Gic => gicr_loop 0xa0a0a0a0 g' 4 4 (by decide)
  have hlow : ∀ (b : Bank) (v : BitVec 32) (g' : Gic),
      gicrSgiWrite b.base v g' = { g' with line := packed b.width (b.apply v) 0 g'.line } := by
    intro b v g'
    have hsize : 0 < b.size := by cases b <;> decide
    exact gicrSgiWrite_bank b hsize (by omega) v g'
  have hicenabler := hlow .icenabler 0xffff0000
  have hisenabler := hlow .isenabler 0x0000ffff
  have higroupr := hlow .igroupr 0xffffffff
  simp only [Bank.base, Bank.width] at hicfgr hpriority hdisable hgroup hicenabler hisenabler higroupr
  simp only [gicv3HwInit, hctlr, gicdIcfgr, gicdIpriorityr, gicdIcenabler, gicdIgroupr,
    gicrIcenabler, gicrIsenabler, gicrIgroupr0, hicfgr, hpriority, hdisable, hgroup, hwait, hwait']
  simp only [Nat.zero_mul, Nat.zero_add, Nat.reduceMul, Nat.reduceAdd] at hsgi hppi
  simp only [gicv3NrSgi, gicv3NrLocalIrqs, hsgi, hppi, hicenabler, hisenabler, higroupr]
  rfl

/-! ## The lines -/

theorem allOnes_getLsbD : ∀ k < 32, (0xffffffff : BitVec 32).getLsbD k = true := by decide

theorem priority_bytes : ∀ k < 4, (0xa0a0a0a0 : BitVec 32).extractLsb' (8 * k) 8 = 0xa0 ∧
    (0x90909090 : BitVec 32).extractLsb' (8 * k) 8 = 0x90 := by decide

theorem local_enables : ∀ k < 32, (0xffff0000 : BitVec 32).getLsbD k = decide (16 ≤ k) ∧
    (0x0000ffff : BitVec 32).getLsbD k = decide (k < 16) := by decide

/-- An SPI as the initialisation should leave it. -/
structure SpiReady (l : Line) : Prop where
  disabled : l.enable = false
  group : l.group = true
  priority : l.priority = 0xa0
  level : l.edge = false

/-- The lines that the loops reach. -/
theorem initLines_spi {N i : Nat} (h : 32 ≤ i) (h' : i < 32 * N) (line : Nat → Line) :
    SpiReady (initLines N line i) := by
  have hlow : i / 32 ≠ 0 := by omega
  have hmod : i % 32 < 32 := Nat.mod_lt _ (by decide)
  have hbyte := (priority_bytes (i % 4) (Nat.mod_lt _ (by decide))).1
  have hone := allOnes_getLsbD _ hmod
  unfold initLines
  simp only [packed_other hlow, cover_out (show ¬ (16 ≤ i ∧ i < 32) by omega),
    cover_out (show ¬ (0 ≤ i ∧ i < 16) by omega), cover_in (And.intro h h'), Bank.apply, hone, hbyte,
    if_true]
  exact ⟨rfl, rfl, rfl, BitVec.getLsbD_zero⟩

/-- The SPIs after them are as they were. -/
theorem initLines_beyond {N i : Nat} (h : 32 ≤ i) (h' : 32 * N ≤ i) (line : Nat → Line) :
    initLines N line i = line i := by
  have hlow : i / 32 ≠ 0 := by omega
  unfold initLines
  simp only [packed_other hlow, cover_out (show ¬ (16 ≤ i ∧ i < 32) by omega),
    cover_out (show ¬ (0 ≤ i ∧ i < 16) by omega), cover_out (show ¬ (32 ≤ i ∧ i < 32 * N) by omega)]

theorem initLines_ppi {i : Nat} (h : 16 ≤ i) (h' : i < 32) (N : Nat) (line : Nat → Line) :
    (initLines N line i).enable = false ∧ (initLines N line i).group = true ∧
      (initLines N line i).priority = 0xa0 := by
  have hlow : i / 32 = 0 := by omega
  have hmod : i % 32 = i := Nat.mod_eq_of_lt h'
  have hbyte := (priority_bytes (i % 4) (Nat.mod_lt _ (by decide))).1
  have hone := allOnes_getLsbD _ h'
  have hlocal := local_enables _ h'
  have henable : (0xffff0000 : BitVec 32).getLsbD i = true := by rw [hlocal.1, decide_eq_true h]
  have hkeep : (0x0000ffff : BitVec 32).getLsbD i = false := by
    rw [hlocal.2, decide_eq_false (by omega)]
  unfold initLines
  simp only [packed_at hlow, cover_in (And.intro h h'),
    cover_out (show ¬ (0 ≤ i ∧ i < 16) by omega),
    cover_out (show ¬ (32 ≤ i ∧ i < 32 * N) by omega), Bank.apply, hmod, hone, hbyte, henable, hkeep,
    if_true, if_false, Bool.false_eq_true, and_self]

theorem initLines_sgi {i : Nat} (h : i < 16) (N : Nat) (line : Nat → Line) :
    (initLines N line i).enable = true ∧ (initLines N line i).group = true ∧
      (initLines N line i).priority = 0x90 := by
  have hlow : i / 32 = 0 := by omega
  have hmod : i % 32 = i := Nat.mod_eq_of_lt (by omega)
  have hbyte := (priority_bytes (i % 4) (Nat.mod_lt _ (by decide))).2
  have hone := allOnes_getLsbD i (by omega)
  have hlocal := local_enables i (by omega)
  have hkeep : (0xffff0000 : BitVec 32).getLsbD i = false := by
    rw [hlocal.1, decide_eq_false (by omega)]
  have henable : (0x0000ffff : BitVec 32).getLsbD i = true := by rw [hlocal.2, decide_eq_true h]
  unfold initLines
  simp only [packed_at hlow, cover_out (show ¬ (16 ≤ i ∧ i < 32) by omega),
    cover_in (And.intro (Nat.zero_le i) h),
    cover_out (show ¬ (32 ≤ i ∧ i < 32 * N) by omega), Bank.apply, hmod, hone, hbyte, henable, hkeep,
    if_true, if_false, Bool.false_eq_true, and_self]

/-! ## The controller after initialisation -/

/-- Every line is set up: the SPIs that a controller with `TYPER[4:0] = N` implements, the PPIs and
the SGIs. -/
structure Complete (N : Nat) (line : Nat → Line) : Prop where
  spi : ∀ i, 32 ≤ i → i ≤ min (32 * (N + 1) - 1) 1019 → SpiReady (line i)
  ppi : ∀ i, 16 ≤ i → i < 32 →
    (line i).enable = false ∧ (line i).group = true ∧ (line i).priority = 0xa0
  sgi : ∀ i, i < 16 →
    (line i).enable = true ∧ (line i).group = true ∧ (line i).priority = 0x90

/-- The lines are set up exactly when those of the last block were. -/
theorem initLines_complete_iff (N : Nat) (line : Nat → Line) :
    Complete N (initLines N line) ↔
      ∀ i, 32 ≤ i → 32 * N ≤ i → i ≤ min (32 * (N + 1) - 1) 1019 → SpiReady (line i) := by
  constructor
  · intro h i h₁ h₂ h₃
    rw [← initLines_beyond h₁ h₂ line]
    exact h.spi i h₁ h₃
  · intro h
    constructor
    · intro i h₁ h₂
      by_cases hi : i < 32 * N
      · exact initLines_spi h₁ hi line
      · rw [initLines_beyond h₁ (by omega) line]
        exact h i h₁ (by omega) h₂
    · intro i h₁ h₂
      exact initLines_ppi h₁ h₂ N line
    · intro i h₁
      exact initLines_sgi h₁ N line

/-- **Initialisation is complete exactly when the last block of implemented SPIs was set up
before**, which no loop reaches. -/
theorem gicv3HwInit_complete_iff (g : Gic) {polls : Polls} {k k' : Nat}
    (hrwp : polls.rwp k = false) (hasleep : polls.childrenAsleep k' = false) :
    ∃ g', (∀ fuel, k < fuel → k' < fuel → gicv3HwInit fuel polls g = some (0, g')) ∧
      (Complete g.itLines g'.line ↔
        ∀ i, 32 ≤ i → 32 * g.itLines ≤ i → i ≤ min (32 * (g.itLines + 1) - 1) 1019 →
          SpiReady (g.line i)) :=
  ⟨_, fun _ hfuel hfuel' => gicv3HwInit_eq g hrwp hasleep hfuel hfuel',
    initLines_complete_iff g.itLines g.line⟩

/-- A controller with 32 SPIs whose lines the firmware left alike. -/
def firmware (l : Line) : Gic := ⟨fun _ => l, 0, 1, 0, 0, 0, 0⟩

/-- Polls that end at once. -/
def noPolls : Polls := ⟨fun _ => false, fun _ => false⟩

/-- Two blocks of SPIs, of which the firmware left the first enabled. -/
def halfClean : Gic :=
  { firmware ⟨true, false, false, false, 0xa0, false⟩ with
    line := fun i => ⟨true, decide (i < 64), false, false, 0xa0, false⟩
    typer := 2 }

theorem gicv3HwInit_complete_clean :
    ∃ g', gicv3HwInit 1 noPolls halfClean = some (0, g') ∧ (halfClean.line 32).enable = true ∧
      Complete 2 g'.line := by
  obtain ⟨g', hrun, hiff⟩ := @gicv3HwInit_complete_iff halfClean noPolls 0 0 rfl rfl
  refine ⟨g', hrun 1 (by decide) (by decide), rfl, hiff.2 ?_⟩
  intro i _ hlow _
  have hlow' : 32 * 2 ≤ i := hlow
  exact ⟨decide_eq_false (by omega), rfl, rfl, rfl⟩

/-- An SPI that the firmware left enabled stays enabled. -/
theorem gicv3HwInit_stale_enable :
    ∃ g', gicv3HwInit 1 noPolls (firmware ⟨true, true, false, false, 0xa0, false⟩) = some (0, g') ∧
      32 ≤ min (32 * (1 + 1) - 1) 1019 ∧ (g'.line 32).enable = true ∧ ¬ Complete 1 g'.line := by
  have hrun := gicv3HwInit_eq (firmware ⟨true, true, false, false, 0xa0, false⟩)
    (rfl : noPolls.rwp 0 = false) (rfl : noPolls.childrenAsleep 0 = false) (by decide : 0 < 1)
    (by decide)
  have hstale : (initLines 1 (firmware ⟨true, true, false, false, 0xa0, false⟩).line 32).enable =
      true := by
    rw [initLines_beyond (by decide) (by decide)]
    rfl
  refine ⟨_, hrun, by decide, hstale, ?_⟩
  intro h
  have hready := (h.spi 32 (by decide) (by decide)).disabled
  exact absurd (hstale.symm.trans hready) (by decide)

end Eeos.Gicv3
