import Eeos.Driver.IrqTable
import Eeos.Driver.IrqLines
import Eeos.Lib.Alarm

/-!
# The architected timer and its driver (`driver/timer/arm64_timer.c`)

The physical timer compares the counter with a 64-bit value.  `arm64_arch_timer_init` requests PPI
30, sets the timer for ten milliseconds and starts it; the handler sets it for as long again, from
the tick at which it runs.

* `ArchTimer` — the counter, the comparison, and the two bits of `CNTP_CTL_EL0`.
* `System`, `step` — the timer with the controller and the descriptor table: ticks, calls that other
  code makes, and the stages of an interrupt of the timer.
* `Armed` — what every run keeps.

Principal results: `run_armed` (a run serves the timer no earlier than it rings, and leaves it set)
and `arm64ArchTimerInit_periodic` (the handler is called an interval after the last call, and as
much later as the interrupt was late).
-/

namespace Eeos.Timer

open Vmsa Packed Interrupt Gicv3 Alarm

/-! ## The device -/

/-- `count` are the ticks since reset, `freq` is `CNTFRQ_EL0`. -/
structure ArchTimer where
  count : Nat
  freq : BitVec 64
  cval : BitVec 64
  enable : Bool
  imask : Bool
  deriving DecidableEq, Repr

namespace ArchTimer

def readCntpctEl0 (t : ArchTimer) : BitVec 64 := BitVec.ofNat 64 t.count

def readCntfrqEl0 (t : ArchTimer) : BitVec 64 := t.freq

/-- The counter has reached the comparison value. -/
def istatus (t : ArchTimer) : Bool := t.enable && decide (t.cval ≤ t.readCntpctEl0)

/-- The interrupt line. -/
def asserted (t : ArchTimer) : Bool := t.istatus && !t.imask

/-- `ENABLE`, `IMASK` and `ISTATUS`; the last is unknown while the timer is disabled. -/
def readCntpCtlEl0 (t : ArchTimer) : BitVec 64 :=
  (if t.enable then 1 else 0) ||| (if t.imask then 2 else 0) ||| (if t.istatus then 4 else 0)

/-- `ISTATUS` ignores writes. -/
def writeCntpCtlEl0 (val : BitVec 64) (t : ArchTimer) : ArchTimer :=
  { t with enable := val.getLsbD 0, imask := val.getLsbD 1 }

/-- `CNTP_TVAL_EL0` is a signed 32-bit distance from the counter. -/
def writeCntpTvalEl0 (val : BitVec 64) (t : ArchTimer) : ArchTimer :=
  { t with cval := t.readCntpctEl0 + (val.setWidth 32).signExtend 64 }

end ArchTimer

/-! ## The driver -/

open ArchTimer

def archTimerStart (t : ArchTimer) : ArchTimer :=
  let ctrl := t.readCntpCtlEl0
  if ctrl &&& 1 = 0 then t.writeCntpCtlEl0 (ctrl ||| 1) else t

def archTimerStop (t : ArchTimer) : ArchTimer :=
  let ctrl := t.readCntpCtlEl0
  if ctrl &&& 1 ≠ 0 then t.writeCntpCtlEl0 (ctrl &&& ~~~(1 : BitVec 64)) else t

def archTimerInterruptEnable (t : ArchTimer) : ArchTimer :=
  let ctrl := t.readCntpCtlEl0
  if ctrl &&& (1 : BitVec 64) <<< 1 ≠ 0 then t.writeCntpCtlEl0 (ctrl &&& ~~~((1 : BitVec 64) <<< 1))
  else t

def archTimerInterruptDisable (t : ArchTimer) : ArchTimer :=
  let ctrl := t.readCntpCtlEl0
  if ctrl &&& (1 : BitVec 64) <<< 1 = 0 then t.writeCntpCtlEl0 (ctrl ||| (1 : BitVec 64) <<< 1)
  else t

/-- An interrupt of the timer is acknowledged, then handled, then completed. -/
inductive Phase where
  | idle
  | acked
  | handled
  deriving DecidableEq, Repr

/-- The timer, `cpu_khz`, and the interrupt layer over the controller. -/
structure System (H : Type) where
  irq : State H Gic
  timer : ArchTimer
  cpuKhz : BitVec 64
  phase : Phase

variable {H : Type}

/-- `arm64_arch_timer_tandler`. -/
def arm64ArchTimerTandler (s : System H) : System H :=
  { s with timer := s.timer.writeCntpTvalEl0 (s.cpuKhz * 10) }

/-- `arm64_arch_timer_init`; `tandler` is the address of the handler, `name` that of the text. -/
def arm64ArchTimerInit (tandler : H) (name : Word) (s : System H) : System H :=
  -- `boot_tick` is read first, and not used
  let s := { s with cpuKhz := s.timer.readCntfrqEl0 / 1000 }
  let s := { s with timer := archTimerStop (archTimerInterruptDisable s.timer) }
  let (answer, irq) := requestIrq 30 (some tandler) 0 name 0 s.irq
  let s := { s with irq := irq }
  if answer < 0 then s
  else
    let timer := s.timer.writeCntpTvalEl0 (s.cpuKhz * 10)
    { s with timer := archTimerInterruptEnable (archTimerStart timer) }

/-! ## Runs -/

inductive Event (H : Type) where
  | tick
  | call (c : Call H)
  | ack
  | handle
  | eoi

section Runs

variable [DecidableEq H] (tandler : H)

/-- One step.  The timer's interrupt is acknowledged while its line is asserted, enabled at the
controller and not active; its handler is the one that `generic_handle_irq` finds. -/
def step (s : System H) : Event H → Option (System H)
  | .tick => some { s with timer := { s.timer with count := s.timer.count + 1 } }
  | .call c => some { s with irq := c.step s.irq }
  | .ack =>
    if s.phase = .idle ∧ s.timer.asserted ∧ (s.irq.dev.line 30).enable then
      some { s with phase := .acked }
    else none
  | .handle =>
    if s.phase = .acked then
      match genericHandleCall 30 s.irq with
      | none => some { s with phase := .handled }
      | some (handler, _) =>
        if handler = tandler then some { arm64ArchTimerTandler s with phase := .handled }
        else some { s with phase := .handled }
    else none
  | .eoi => if s.phase = .handled then some { s with phase := .idle } else none

/-- The tick at which a step calls the handler. -/
def handledAt (s : System H) : Event H → List Nat
  | .handle => [s.timer.count]
  | _ => []

/-- The state after the events, if they can happen, and the ticks of the handler's calls. -/
def run : System H → List (Event H) → Option (List Nat × System H)
  | s, [] => some ([], s)
  | s, e :: es =>
    match step tandler s e with
    | none => none
    | some s₁ =>
      match run s₁ es with
      | none => none
      | some (ts, s') => some (handledAt s e ++ ts, s')

end Runs

/-! ## The driver's register accesses -/

theorem readCntpCtlEl0_bits (t : ArchTimer) :
    (t.readCntpCtlEl0 &&& 1 = 0 ↔ t.enable = false) ∧
      (t.readCntpCtlEl0 &&& (1 : BitVec 64) <<< 1 = 0 ↔ t.imask = false) ∧
      t.readCntpCtlEl0.getLsbD 0 = t.enable ∧ t.readCntpCtlEl0.getLsbD 1 = t.imask := by
  have hall : ∀ enable imask status : Bool,
      let ctrl : BitVec 64 := (if enable then 1 else 0) ||| (if imask then 2 else 0) |||
        (if status then 4 else 0)
      (ctrl &&& 1 = 0 ↔ enable = false) ∧ (ctrl &&& (1 : BitVec 64) <<< 1 = 0 ↔ imask = false) ∧
        ctrl.getLsbD 0 = enable ∧ ctrl.getLsbD 1 = imask := by decide
  exact hall t.enable t.imask t.istatus

theorem archTimerStart_eq (t : ArchTimer) : archTimerStart t = { t with enable := true } := by
  obtain ⟨hbit, -, -, himask⟩ := readCntpCtlEl0_bits t
  unfold archTimerStart
  by_cases h : t.readCntpCtlEl0 &&& 1 = 0
  · rw [if_pos h, writeCntpCtlEl0, BitVec.getLsbD_or, BitVec.getLsbD_or, himask]
    simp
  · have henable : t.enable = true := by rwa [hbit, Bool.not_eq_false] at h
    rw [if_neg h, ← henable]

theorem archTimerStop_eq (t : ArchTimer) : archTimerStop t = { t with enable := false } := by
  obtain ⟨hbit, -, -, himask⟩ := readCntpCtlEl0_bits t
  unfold archTimerStop
  by_cases h : t.readCntpCtlEl0 &&& 1 = 0
  · rw [if_neg (not_not.mpr h), ← hbit.mp h]
  · rw [if_pos h, writeCntpCtlEl0, BitVec.getLsbD_and, BitVec.getLsbD_and, himask]
    simp

theorem archTimerInterruptEnable_eq (t : ArchTimer) :
    archTimerInterruptEnable t = { t with imask := false } := by
  obtain ⟨-, hbit, henable, -⟩ := readCntpCtlEl0_bits t
  unfold archTimerInterruptEnable
  by_cases h : t.readCntpCtlEl0 &&& (1 : BitVec 64) <<< 1 = 0
  · rw [if_neg (not_not.mpr h), ← hbit.mp h]
  · rw [if_pos h, writeCntpCtlEl0, BitVec.getLsbD_and, BitVec.getLsbD_and, henable]
    simp

theorem archTimerInterruptDisable_eq (t : ArchTimer) :
    archTimerInterruptDisable t = { t with imask := true } := by
  obtain ⟨-, hbit, henable, -⟩ := readCntpCtlEl0_bits t
  unfold archTimerInterruptDisable
  by_cases h : t.readCntpCtlEl0 &&& (1 : BitVec 64) <<< 1 = 0
  · rw [if_pos h, writeCntpCtlEl0, BitVec.getLsbD_or, BitVec.getLsbD_or, henable]
    simp
  · have himask : t.imask = true := by rwa [hbit, Bool.not_eq_false] at h
    rw [if_neg h, ← himask]

/-! ## Calls for other lines -/

/-- The distributor's frame does not reach the SGIs and PPIs. -/
theorem gicdWrite_local (off : Nat) (v : BitVec 32) (g : Gic) {j : Nat} (hj : j < 32) :
    (gicdWrite off v g).line j = g.line j := by
  unfold gicdWrite
  split
  · rfl
  · split
    · rfl
    · rename_i b n hbank
      split
      · rfl
      · have hother : j / b.width ≠ n := by
          rintro rfl
          have := Nat.div_mul_le_self j b.width
          omega
        exact packed_other hother _ _

theorem writeIrqBit_local {b : Bank} {put : Line → Line} (hw : b.width = 32)
    (hb : ∀ v k l, b.apply v k l = if v.getLsbD k then put l else l) {irq j : Nat} (hj : j < 32)
    (hne : irq ≠ j) (g : Gic) : (writeIrqBit b.base b.base irq g).line j = g.line j := by
  by_cases hlow : irq < 32
  · rw [writeIrqBit_line hw hb (Nat.lt_trans hlow (by decide)), Function.update_of_ne hne.symm]
  · rw [writeIrqBit, if_neg (show ¬ irq < gicv3NrLocalIrqs from hlow)]
    exact gicdWrite_local _ _ g hj

/-- A call for any other number leaves an SGI or PPI alone. -/
theorem callStep_local {s : State H Gic} (hs : s.irqChip = gicv3Chip) {c : Call H} {j : Nat}
    (hj : j < 32) (hne : c.irq ≠ j) : (c.step s).dev.line j = s.dev.line j := by
  have hunmask : ∀ irq ≠ j, (unmaskIrq irq s).dev.line j = s.dev.line j := by
    intro irq hirq
    rw [unmaskIrq, hs]
    exact writeIrqBit_local (b := .isenabler) rfl isenabler_apply hj hirq s.dev
  have hmask : ∀ irq ≠ j, (maskIrq irq s).dev.line j = s.dev.line j := by
    intro irq hirq
    rw [maskIrq, hs]
    exact writeIrqBit_local (b := .icenabler) rfl icenabler_apply hj hirq s.dev
  cases c with
  | request irq handler flags name data =>
    show (requestIrq irq handler flags name data s).2.dev.line j = _
    by_cases haccept : irq < nrIrqs
    · rw [requestIrq_dev haccept]
      exact hunmask irq hne
    · rw [requestIrq, irqToDesc, if_neg haccept]
  | mask irq => exact hmask irq hne
  | unmask irq => exact hunmask irq hne

theorem callStep_desc (c : Call H) (s : State H Gic) {j : Nat} (hj : j < nrIrqs)
    (hne : c.irq ≠ j) : (c.step s).irqDesc j = s.irqDesc j := by
  cases c with
  | request irq handler flags name data =>
    exact (Request.run_desc ⟨irq, handler, flags, name, data⟩ s hj).trans (if_neg hne)
  | mask irq => rw [Call.step, maskIrq, callChip_desc]
  | unmask irq => rw [Call.step, unmaskIrq, callChip_desc]

/-! ## What every run keeps -/

/-- Ten milliseconds, in ticks and rounded down: `cpu_khz * 10`. -/
def interval (freq : BitVec 64) : Nat := freq.toNat / 1000 * 10

/-- The timer was last set at tick `t`, for `p` ticks, and its handler is installed. -/
structure Armed (tandler : H) (p t : Nat) (s : System H) : Prop where
  enable : s.timer.enable = true
  imask : s.timer.imask = false
  cval : s.timer.cval = BitVec.ofNat 64 (t + p)
  period : s.cpuKhz * 10 = BitVec.ofNat 64 p
  chip : s.irq.irqChip = gicv3Chip
  handler : (s.irq.irqDesc 30).handleIrq = tandler
  line : (s.irq.dev.line 30).enable = true
  since : t ≤ s.timer.count
  due : s.phase = .acked → t + p ≤ s.timer.count

section Armed

variable {tandler : H} {p t : Nat} {s s' : System H}

/-- A signed 32-bit distance that is not negative. -/
theorem tval_ofNat {p : Nat} (hp : p < 2 ^ 31) :
    ((BitVec.ofNat 64 p).setWidth 32).signExtend 64 = BitVec.ofNat 64 p := by
  have hmsb : ((BitVec.ofNat 64 p).setWidth 32).msb = false := by
    rw [BitVec.msb_eq_false_iff_two_mul_lt, BitVec.toNat_setWidth, BitVec.toNat_ofNat]
    omega
  rw [BitVec.signExtend_eq_setWidth_of_msb_false hmsb]
  apply BitVec.eq_of_toNat_eq
  simp only [BitVec.toNat_setWidth, BitVec.toNat_ofNat]
  omega

/-- The line is asserted once the interval is over. -/
theorem Armed.asserted_iff (h : Armed tandler p t s) (hp : t + p < 2 ^ 64)
    (hcount : s.timer.count < 2 ^ 64) :
    s.timer.asserted = true ↔ t + p ≤ s.timer.count := by
  have hle : s.timer.cval ≤ s.timer.readCntpctEl0 ↔ t + p ≤ s.timer.count := by
    rw [h.cval, readCntpctEl0, BitVec.le_def, BitVec.toNat_ofNat, BitVec.toNat_ofNat,
      Nat.mod_eq_of_lt hp, Nat.mod_eq_of_lt hcount]
  rw [asserted, istatus, h.enable, h.imask, Bool.true_and, Bool.not_false, Bool.and_true,
    decide_eq_true_iff, hle]

variable [DecidableEq H]

theorem step_count {e : Event H} (hstep : step tandler s e = some s') :
    s.timer.count ≤ s'.timer.count := by
  cases e with
  | tick =>
    cases hstep
    exact Nat.le_succ _
  | call c =>
    cases hstep
    exact Nat.le_refl _
  | ack =>
    obtain ⟨-, he⟩ := Option.ite_none_right_eq_some.mp hstep
    cases he
    exact Nat.le_refl _
  | handle =>
    obtain ⟨-, he⟩ := Option.ite_none_right_eq_some.mp hstep
    by_cases h : (s.irq.irqDesc 30).handleIrq = tandler
    · simp only [h, if_true] at he
      cases he
      exact Nat.le_refl _
    · simp only [h, if_false] at he
      cases he
      exact Nat.le_refl _
  | eoi =>
    obtain ⟨-, he⟩ := Option.ite_none_right_eq_some.mp hstep
    cases he
    exact Nat.le_refl _

/-- The handler sets the timer for the next interval. -/
theorem Armed.handle (h : Armed tandler p t s) (hp : p < 2 ^ 31) (hphase : s.phase = .acked) :
    ∃ s', step tandler s .handle = some s' ∧ s'.timer.count = s.timer.count ∧
      Armed tandler p s.timer.count s' := by
  have hcall := genericHandleCall_eq s.irq (show 30 < nrIrqs by decide)
  rw [step, if_pos hphase, hcall]
  simp only [h.handler, if_true]
  refine ⟨_, rfl, rfl, ?_⟩
  exact
    { enable := h.enable
      imask := h.imask
      cval := by
        show s.timer.readCntpctEl0 + _ = _
        rw [h.period, tval_ofNat hp, BitVec.ofNat_add]
        rfl
      period := h.period
      chip := h.chip
      handler := h.handler
      line := h.line
      since := Nat.le_refl _
      due := fun hc => nomatch hc }

/-- One step. -/
theorem Armed.step (h : Armed tandler p t s) (hp : p < 2 ^ 31) {e : Event H}
    (he : ∀ c, e = .call c → c.irq ≠ 30) (hstep : step tandler s e = some s')
    (hcount : s'.timer.count + p < 2 ^ 64) :
    Paced p t (handledAt s e) ∧ Armed tandler p (lastSet t (handledAt s e)) s' := by
  have hle := step_count hstep
  cases e with
  | tick =>
    cases hstep
    exact ⟨.nil t, { h with
      since := Nat.le_succ_of_le h.since
      due := fun hphase => Nat.le_succ_of_le (h.due hphase) }⟩
  | call c =>
    cases hstep
    have hirq := he c rfl
    refine ⟨.nil t, { h with chip := ?_, handler := ?_, line := ?_ }⟩
    · exact (c.step_chip s.irq).trans h.chip
    · show ((c.step s.irq).irqDesc 30).handleIrq = tandler
      rw [callStep_desc c s.irq (by decide) hirq]
      exact h.handler
    · show ((c.step s.irq).dev.line 30).enable = true
      rw [callStep_local h.chip (by decide) hirq]
      exact h.line
  | ack =>
    obtain ⟨⟨-, hasserted, -⟩, hs'⟩ := Option.ite_none_right_eq_some.mp hstep
    cases hs'
    have hsince := h.since
    have hcount' : s.timer.count + p < 2 ^ 64 := hcount
    exact ⟨.nil t, { h with
      due := fun _ => (h.asserted_iff (by omega) (by omega)).mp hasserted }⟩
  | handle =>
    obtain ⟨hphase, -⟩ := Option.ite_none_right_eq_some.mp hstep
    obtain ⟨s₁, hs₁, -, harmed⟩ := h.handle hp hphase
    cases hs₁.symm.trans hstep
    exact ⟨.cons (h.due hphase) (.nil _), harmed⟩
  | eoi =>
    obtain ⟨-, hs'⟩ := Option.ite_none_right_eq_some.mp hstep
    cases hs'
    exact ⟨.nil t, { h with due := fun hc => nomatch hc }⟩

theorem run_cons {e : Event H} {es : List (Event H)} {ts : List Nat}
    (hrun : run tandler s (e :: es) = some (ts, s')) :
    ∃ s₁ ts₁, step tandler s e = some s₁ ∧ run tandler s₁ es = some (ts₁, s') ∧
      ts = handledAt s e ++ ts₁ := by
  rw [run] at hrun
  split at hrun
  · cases hrun
  · rename_i s₁ hs₁
    split at hrun
    · cases hrun
    · rename_i ts₁ s₂ hrun₁
      cases hrun
      exact ⟨s₁, ts₁, hs₁, hrun₁, rfl⟩

theorem run_count {es : List (Event H)} {ts : List Nat}
    (hrun : run tandler s es = some (ts, s')) : s.timer.count ≤ s'.timer.count := by
  induction es generalizing s ts with
  | nil =>
    cases hrun
    exact Nat.le_refl _
  | cons e es ih =>
    obtain ⟨s₁, ts₁, hs₁, hrun₁, -⟩ := run_cons hrun
    exact Nat.le_trans (step_count hs₁) (ih hrun₁)

/-- **A run serves the timer no earlier than it rings, and leaves it set.** -/
theorem run_armed (h : Armed tandler p t s) (hp : p < 2 ^ 31) {es : List (Event H)}
    (hes : ∀ c, .call c ∈ es → c.irq ≠ 30) {ts : List Nat}
    (hrun : run tandler s es = some (ts, s')) (hcount : s'.timer.count + p < 2 ^ 64) :
    Paced p t ts ∧ Armed tandler p (lastSet t ts) s' := by
  induction es generalizing s t ts with
  | nil =>
    cases hrun
    exact ⟨.nil t, h⟩
  | cons e es ih =>
    obtain ⟨s₁, ts₁, hs₁, hrun₁, rfl⟩ := run_cons hrun
    have hle := run_count hrun₁
    obtain ⟨hpaced, harmed⟩ := h.step hp (fun c hc => hes c (by simp [hc])) hs₁ (by omega)
    obtain ⟨hpaced', harmed'⟩ := ih harmed (fun c hc => hes c (by simp [hc])) hrun₁
    rw [lastSet_append]
    exact ⟨hpaced.append hpaced', harmed'⟩

end Armed

/-! ## From initialisation on -/

/-- `cpu_khz * 10` is the interval, and it fits the register. -/
theorem period_eq {freq : BitVec 64} (hfreq : freq.toNat < 2 ^ 32) :
    freq / 1000 * 10 = BitVec.ofNat 64 (interval freq) ∧ interval freq < 2 ^ 31 := by
  have hlt : interval freq < 2 ^ 31 := by
    unfold interval
    omega
  refine ⟨?_, hlt⟩
  apply BitVec.eq_of_toNat_eq
  rw [BitVec.toNat_mul, BitVec.toNat_udiv, BitVec.toNat_ofNat]
  rfl

/-- The driver's initialisation leaves the timer set. -/
theorem arm64ArchTimerInit_armed (tandler : H) (name : Word) {s : System H}
    (hchip : s.irq.irqChip = gicv3Chip) (hfreq : s.timer.freq.toNat < 2 ^ 32)
    (hphase : s.phase = .idle) :
    Armed tandler (interval s.timer.freq) s.timer.count (arm64ArchTimerInit tandler name s) ∧
      (arm64ArchTimerInit tandler name s).timer.count = s.timer.count ∧
      (arm64ArchTimerInit tandler name s).phase = .idle := by
  obtain ⟨hperiod, hp⟩ := period_eq hfreq
  have haccept : (requestIrq 30 (some tandler) 0 name 0 s.irq).1 = 0 :=
    (requestIrq_accepts_iff _ _ _ _ _ _).mpr (by decide)
  have hdesc := Request.run_desc ⟨30, some tandler, 0, name, 0⟩ s.irq (show 30 < nrIrqs by decide)
  have hline := Call.step_line hchip (c := .request 30 (some tandler) 0 name 0)
    (show 30 < 1024 by decide)
  unfold arm64ArchTimerInit
  simp only [archTimerStart_eq, archTimerStop_eq, archTimerInterruptEnable_eq,
    archTimerInterruptDisable_eq, haccept]
  rw [if_neg (by decide)]
  refine ⟨?_, rfl, hphase⟩
  exact
    { enable := rfl
      imask := rfl
      cval := by
        show s.timer.readCntpctEl0 + _ = _
        rw [show s.timer.readCntfrqEl0 = s.timer.freq from rfl, hperiod, tval_ofNat hp,
          BitVec.ofNat_add]
        rfl
      period := hperiod
      chip := (requestIrq_chip _ _ _ _ _ _).trans hchip
      handler := by
        show ((Request.run ⟨30, some tandler, 0, name, 0⟩ s.irq).irqDesc 30).handleIrq = tandler
        rw [hdesc]
        rfl
      line := by
        show ((Call.step (.request 30 (some tandler) 0 name 0) s.irq).dev.line 30).enable = true
        rw [hline]
        rfl
      since := Nat.le_refl _
      due := fun hc => absurd (hphase.symm.trans hc) (by decide) }

/-- * `drift` — every call of the handler comes an interval after the last, and as much later as the
interrupt was late: what is late once stays late.
* `rings` — the line is asserted from an interval after the last call on.
* `serves` — an interrupt that is asserted and not being handled can be taken, it calls the handler,
and this takes the line down, unless the interval is 0. -/
structure Periodic [DecidableEq H] (tandler : H) (p t : Nat) (ts : List Nat) (s : System H) :
    Prop where
  paced : Paced p t ts
  drift : ∀ k (hk : k < ts.length),
    ts[k] = t + (k + 1) * p + ((lateness p t ts).take (k + 1)).sum
  rings : s.timer.asserted = true ↔ lastSet t ts + p ≤ s.timer.count
  often : ts.length * p ≤ s.timer.count - t
  seldom : ∀ L, (∀ l ∈ lateness p t ts, l ≤ L) → s.timer.count ≤ lastSet t ts + p + L →
    s.timer.count - t ≤ (ts.length + 1) * (p + L)
  serves : s.timer.asserted = true → s.phase = .idle → ∃ s₁ s₂, step tandler s .ack = some s₁ ∧
    step tandler s₁ .handle = some s₂ ∧ (s₂.timer.asserted = true ↔ p = 0)

theorem Armed.periodic [DecidableEq H] {tandler : H} {p t : Nat} {ts : List Nat} {s : System H}
    (hpaced : Paced p t ts) (h : Armed tandler p (lastSet t ts) s) (hp : p < 2 ^ 31)
    (hcount : s.timer.count + p < 2 ^ 64) : Periodic tandler p t ts s where
  paced := hpaced
  drift := hpaced.getElem_eq
  rings := by
    have hsince := h.since
    exact h.asserted_iff (by omega) (by omega)
  often := Nat.le_trans hpaced.length_le (Nat.sub_le_sub_right h.since t)
  seldom L hlate hnow := hpaced.le_length hlate hnow
  serves := by
    intro hasserted hphase
    have hsince := h.since
    have hdue := (h.asserted_iff (by omega) (by omega)).mp hasserted
    have hacked : Armed tandler p (lastSet t ts) { s with phase := .acked } :=
      { h with due := fun _ => hdue }
    obtain ⟨s₂, hs₂, hsame, harmed⟩ := hacked.handle hp rfl
    have hsame' : s₂.timer.count = s.timer.count := hsame
    refine ⟨_, s₂, if_pos ⟨hphase, hasserted, h.line⟩, hs₂, ?_⟩
    rw [harmed.asserted_iff hcount (by omega)]
    show s.timer.count + p ≤ s₂.timer.count ↔ p = 0
    omega

/-- **The timer ticks every ten milliseconds and never too early**, in every run after its
initialisation in which no other code requests, masks or unmasks PPI 30. -/
theorem arm64ArchTimerInit_periodic [DecidableEq H] (tandler : H) (name : Word) {s s' : System H}
    (hchip : s.irq.irqChip = gicv3Chip) (hfreq : s.timer.freq.toNat < 2 ^ 32)
    (hphase : s.phase = .idle) {es : List (Event H)} (hes : ∀ c, .call c ∈ es → c.irq ≠ 30)
    {ts : List Nat} (hrun : run tandler (arm64ArchTimerInit tandler name s) es = some (ts, s'))
    (hcount : s'.timer.count + interval s.timer.freq < 2 ^ 64) :
    Periodic tandler (interval s.timer.freq) s.timer.count ts s' := by
  obtain ⟨harmed, -, -⟩ := arm64ArchTimerInit_armed tandler name hchip hfreq hphase
  have hp := (period_eq hfreq).2
  obtain ⟨hpaced, harmed'⟩ := run_armed harmed hp hes hrun hcount
  exact harmed'.periodic hpaced hp hcount

/-- A timer of one kilohertz behind a controller in reset. -/
def slowTimer : System Nat :=
  ⟨⟨fun _ => bootDesc 0, gicv3Chip, oneEnabled⟩, ⟨5, 1000, 0, false, true⟩, 0, .idle⟩

/-- Ten ticks, two more until the interrupt is taken, and a line requested in between. -/
def oneInterrupt : List (Event Nat) :=
  List.replicate 10 .tick ++ [.call (.request 33 (some 2) 0 0 0), .tick, .ack, .tick, .handle, .eoi]

theorem arm64ArchTimerInit_periodic_once :
    ∃ s', run 1 (arm64ArchTimerInit 1 0 slowTimer) oneInterrupt = some ([17], s') ∧
      Periodic 1 (interval 1000) 5 [17] s' := by
  have hcalls : ∀ c, .call c ∈ oneInterrupt → c.irq ≠ 30 := by
    intro c hc
    simp only [oneInterrupt, List.mem_append, List.mem_replicate, List.mem_cons, reduceCtorEq,
      Event.call.injEq, and_false, or_false, false_or, List.not_mem_nil] at hc
    subst hc
    decide
  cases hrun : run 1 (arm64ArchTimerInit 1 0 slowTimer) oneInterrupt with
  | none => exact absurd (congrArg Option.isSome hrun) (by decide)
  | some r =>
    have hts : r.1 = [17] := congrArg (fun o => (o.map Prod.fst).getD []) hrun.symm
    have hend : r.2.timer.count = 17 :=
      congrArg (fun o => (o.map fun r => r.2.timer.count).getD 0) hrun.symm
    obtain ⟨ts, s'⟩ := r
    subst hts
    refine ⟨s', rfl, ?_⟩
    exact arm64ArchTimerInit_periodic 1 0 (s := slowTimer) rfl (by decide) rfl hcalls hrun
      (by rw [hend]; decide)

end Eeos.Timer
