import Eeos.Driver.Interrupt
import Eeos.Driver.Gicv3

/-!
# Requesting and masking one line (`interrupt.c` over `gicv3.c`)

`request_irq` accepts numbers up to `NR_IRQS`, but a bank of the controller has a bit for 1024
INTIDs only.  The driver's offset for a higher number lies in a later bank.

* `gicv3MaskIrq_line`, `gicv3UnmaskIrq_line` — below 1024, the driver changes one enable bit.
* `gicv3UnmaskIrq_alias` — from 1024 on, unmasking clears the enable bit of another INTID.
* `OnlyLine`, `Follows` — what a call, and a sequence of calls, should do.

Principal result: `follows_iff` — calls do to each line what they say, and nothing to the others,
exactly if all of them are for lines below 1024.
-/

namespace Eeos.Gicv3

open Packed Interrupt

/-! ## One register write -/

/-- One bit of a word, as the driver computes it. -/
theorem mask_getLsbD (k : Nat) (hk : k < 32) (i : Nat) (hi : i < 32) :
    ((1 : BitVec 32) <<< k).getLsbD i = decide (i = k) := by
  have hall : ∀ k < 32, ∀ i < 32, ((1 : BitVec 32) <<< k).getLsbD i = decide (i = k) := by decide
  exact hall k hk i hi

/-- A write of one bit to a bank that keeps one bit for each INTID. -/
theorem write_bit {b : Bank} (hw : b.width = 32) (g : Gic) (irq n : Nat) (j : Nat) :
    (g.write b n ((1 : BitVec 32) <<< (irq % 32))).line j =
      if j / 32 = n then b.apply ((1 : BitVec 32) <<< (irq % 32)) (j % 32) (g.line j) else g.line j := by
  rw [Gic.write, hw]
  rfl

/-- The line at which a one-bit write is aimed, and the others of its register. -/
theorem apply_bit {b : Bank} {put : Line → Line}
    (hb : ∀ v k l, b.apply v k l = if v.getLsbD k then put l else l) (irq j : Nat) (l : Line) :
    b.apply ((1 : BitVec 32) <<< (irq % 32)) (j % 32) l = if j % 32 = irq % 32 then put l else l := by
  rw [hb, mask_getLsbD _ (Nat.mod_lt _ (by decide)) _ (Nat.mod_lt _ (by decide))]
  simp only [decide_eq_true_eq]

/-- The driver's write for `irq` into a bank of one bit for each INTID. -/
theorem line_write {b : Bank} {put : Line → Line} (hw : b.width = 32)
    (hb : ∀ v k l, b.apply v k l = if v.getLsbD k then put l else l) (g : Gic) (irq n : Nat) :
    (g.write b n ((1 : BitVec 32) <<< (irq % 32))).line =
      Function.update g.line (32 * n + irq % 32) (put (g.line (32 * n + irq % 32))) := by
  funext j
  rw [write_bit hw, apply_bit hb]
  by_cases hj : j = 32 * n + irq % 32
  · subst hj
    rw [if_pos (by omega), if_pos (by omega), Function.update_self]
  · rw [Function.update_of_ne hj]
    by_cases hn : j / 32 = n
    · rw [if_pos hn, if_neg (by omega)]
    · rw [if_neg hn]

theorem isenabler_apply (v : BitVec 32) (k : Nat) (l : Line) :
    Bank.isenabler.apply v k l = if v.getLsbD k then { l with enable := true } else l := rfl

theorem icenabler_apply (v : BitVec 32) (k : Nat) (l : Line) :
    Bank.icenabler.apply v k l = if v.getLsbD k then { l with enable := false } else l := rfl

/-- Below 1024 the driver's write is to the bit of its line. -/
theorem writeIrqBit_line {b : Bank} {put : Line → Line} (hw : b.width = 32)
    (hb : ∀ v k l, b.apply v k l = if v.getLsbD k then put l else l) {irq : Nat} (h : irq < 1024)
    (g : Gic) :
    (writeIrqBit b.base b.base irq g).line = Function.update g.line irq (put (g.line irq)) := by
  have hirq : 32 * (irq / 32) + irq % 32 = irq := Nat.div_add_mod irq 32
  have hsize : irq / 32 < b.size := by
    have := b.size_width
    rw [hw] at this
    omega
  have hwrite : writeIrqBit b.base b.base irq g =
      g.write b (irq / 32) ((1 : BitVec 32) <<< (irq % 32)) := by
    unfold writeIrqBit
    by_cases hlow : irq < 32
    · rw [if_pos (show irq < gicv3NrLocalIrqs from hlow)]
      exact gicrSgiWrite_bank b hsize (by rw [hw]; omega) _ g
    · rw [if_neg (show ¬ irq < gicv3NrLocalIrqs from hlow)]
      exact gicdWrite_bank b hsize (by rw [hw]; omega) _ g
  rw [hwrite, line_write hw hb, hirq]

/-- **Below 1024 the driver sets the line's enable bit, and nothing else.** -/
theorem gicv3UnmaskIrq_line {irq : Nat} (h : irq < 1024) (g : Gic) :
    (gicv3UnmaskIrq irq g).line =
      Function.update g.line irq { g.line irq with enable := true } :=
  writeIrqBit_line (b := .isenabler) rfl isenabler_apply h g

/-- **Below 1024 the driver clears the line's enable bit, and nothing else.** -/
theorem gicv3MaskIrq_line {irq : Nat} (h : irq < 1024) (g : Gic) :
    (gicv3MaskIrq irq g).line =
      Function.update g.line irq { g.line irq with enable := false } :=
  writeIrqBit_line (b := .icenabler) rfl icenabler_apply h g

/-- From 1056 on the driver's `ISENABLER` registers are the `ICENABLER` ones: unmasking `irq`
disables INTID `irq - 1024`. -/
theorem gicv3UnmaskIrq_alias {irq : Nat} (h : 1056 ≤ irq) (h' : irq < 2048) (g : Gic) :
    (gicv3UnmaskIrq irq g).line =
      Function.update g.line (irq - 1024) { g.line (irq - 1024) with enable := false } := by
  have hirq : 32 * (irq / 32 - 32) + irq % 32 = irq - 1024 := by omega
  have hoff : gicdIsenabler + irq / 32 * 4 = Bank.icenabler.base + (irq / 32 - 32) * 4 := by
    show 0x100 + irq / 32 * 4 = 0x180 + (irq / 32 - 32) * 4
    omega
  have hwrite : gicv3UnmaskIrq irq g =
      g.write .icenabler (irq / 32 - 32) ((1 : BitVec 32) <<< (irq % 32)) := by
    unfold gicv3UnmaskIrq writeIrqBit
    rw [if_neg (by show ¬ irq < 32; omega), hoff]
    exact gicdWrite_bank .icenabler (show irq / 32 - 32 < 32 by omega)
      (show 32 ≤ (irq / 32 - 32) * 32 by omega) _ g
  rw [hwrite, line_write rfl icenabler_apply, hirq]

/-! ## Calls -/

/-- The driver's `struct irq_chip`. -/
def gicv3Chip : IrqChip Gic := ⟨some gicv3MaskIrq, some gicv3UnmaskIrq⟩

/-- The enable bit of an INTID, for those that have one. -/
def Gic.enableBit (g : Gic) (irq : Nat) : Option Bool :=
  if irq < 1024 then some (g.line irq).enable else none

inductive Call (H : Type) where
  | request (irq : Nat) (handler : Option H) (flags name data : Vmsa.Word)
  | mask (irq : Nat)
  | unmask (irq : Nat)

namespace Call

variable {H : Type}

def irq : Call H → Nat
  | request irq _ _ _ _ => irq
  | mask irq => irq
  | unmask irq => irq

/-- The state of the enable bit that the call asks for. -/
def enables : Call H → Bool
  | request .. => true
  | mask _ => false
  | unmask _ => true

def step (c : Call H) (s : State H Gic) : State H Gic :=
  match c with
  | request irq handler flags name data => (requestIrq irq handler flags name data s).2
  | mask irq => maskIrq irq s
  | unmask irq => unmaskIrq irq s

end Call

variable {H : Type}

/-- The call sets the enable bit of its line as it should, and leaves every other line alone. -/
structure OnlyLine (c : Call H) (g g' : Gic) : Prop where
  enable : g'.enableBit c.irq = some c.enables
  other : ∀ j, j ≠ c.irq → (g'.line j).enable = (g.line j).enable ∧
    (g'.line j).pending = (g.line j).pending ∧ (g'.line j).active = (g.line j).active ∧
    (g'.line j).priority = (g.line j).priority

/-- Every call of the sequence does what it should. -/
def Follows : State H Gic → List (Call H) → Prop
  | _, [] => True
  | s, c :: cs => OnlyLine c s.dev (c.step s).dev ∧ Follows (c.step s) cs

theorem Call.step_chip (c : Call H) (s : State H Gic) : (c.step s).irqChip = s.irqChip := by
  cases c with
  | request irq handler flags name data => exact requestIrq_chip irq handler flags name data s
  | mask irq => exact callChip_chip _ irq s
  | unmask irq => exact callChip_chip _ irq s

/-- With the driver installed, a call below 1024 changes one enable bit. -/
theorem Call.step_line {s : State H Gic} (hs : s.irqChip = gicv3Chip) {c : Call H}
    (hc : c.irq < 1024) :
    (c.step s).dev.line =
      Function.update s.dev.line c.irq { s.dev.line c.irq with enable := c.enables } := by
  have hunmask : ∀ irq, (unmaskIrq irq s).dev = gicv3UnmaskIrq irq s.dev := by
    intro irq
    rw [unmaskIrq, hs]
    rfl
  have hmask : ∀ irq, (maskIrq irq s).dev = gicv3MaskIrq irq s.dev := by
    intro irq
    rw [maskIrq, hs]
    rfl
  cases c with
  | request irq handler flags name data =>
    have hirq : irq < 1024 := hc
    have haccept : irq < nrIrqs := Nat.lt_trans hirq (by decide)
    show (requestIrq irq handler flags name data s).2.dev.line = _
    rw [requestIrq_dev haccept, hunmask, gicv3UnmaskIrq_line hirq]
    rfl
  | mask irq =>
    show (maskIrq irq s).dev.line = _
    rw [hmask, gicv3MaskIrq_line (show irq < 1024 from hc)]
    rfl
  | unmask irq =>
    show (unmaskIrq irq s).dev.line = _
    rw [hunmask, gicv3UnmaskIrq_line (show irq < 1024 from hc)]
    rfl

/-- One call does what it should exactly when its line has an enable bit. -/
theorem onlyLine_iff {s : State H Gic} (hs : s.irqChip = gicv3Chip) (c : Call H) :
    OnlyLine c s.dev (c.step s).dev ↔ c.irq < 1024 := by
  constructor
  · intro h
    by_contra hc
    have henable := h.enable
    rw [Gic.enableBit, if_neg hc] at henable
    cases henable
  · intro hc
    have hline := Call.step_line hs hc
    constructor
    · rw [Gic.enableBit, if_pos hc, hline, Function.update_self]
    · intro j hj
      rw [hline, Function.update_of_ne hj]
      exact ⟨rfl, rfl, rfl, rfl⟩

/-- **A sequence of calls touches only the lines it names exactly when all of them have an enable
bit**, whatever the registers hold at the start. -/
theorem follows_iff {s : State H Gic} (hs : s.irqChip = gicv3Chip) (cs : List (Call H)) :
    Follows s cs ↔ ∀ c ∈ cs, c.irq < 1024 := by
  induction cs generalizing s with
  | nil => simp [Follows]
  | cons c cs ih =>
    have hstep : (c.step s).irqChip = gicv3Chip := (c.step_chip s).trans hs
    rw [Follows, onlyLine_iff hs, ih hstep, List.forall_mem_cons]

/-- A controller in reset, but for INTID 32, which is enabled. -/
def oneEnabled : Gic where
  line i := ⟨true, i == 32, false, false, 0xa0, false⟩
  ctlr := 0x13
  typer := 1
  waker := 0
  sre := 0xF
  pmr := 0xff
  igrpen1 := 1

/-- The driver installed over it. -/
def installed : State Unit Gic := ⟨fun _ => ⟨(), 0, 0, 1, 0, 0, 0⟩, gicv3Chip, oneEnabled⟩

theorem follows_iff_two_calls : Follows installed [.request 33 none 0 0 0, .mask 33] :=
  (follows_iff rfl _).2 (by decide)

/-- `request_irq` accepts 1056, and disables INTID 32. -/
theorem request_1056_disables_32 :
    (requestIrq 1056 none 0 0 0 installed).1 = 0 ∧ (oneEnabled.line 32).enable = true ∧
      ((requestIrq 1056 none 0 0 0 installed).2.dev.line 32).enable = false ∧
      ¬ Follows installed [.request 1056 none 0 0 0] := by
  have hline : ((requestIrq 1056 none 0 0 0 installed).2.dev.line 32).enable = false := by
    rw [requestIrq_dev (by decide)]
    show ((gicv3UnmaskIrq 1056 oneEnabled).line 32).enable = false
    rw [gicv3UnmaskIrq_alias (by decide) (by decide)]
    rfl
  refine ⟨(requestIrq_accepts_iff _ _ _ _ _ _).2 (by decide), rfl, hline, ?_⟩
  intro h
  have hother := (h.1.other 32 (by decide)).1
  exact absurd (hline.symm.trans hother) (by decide)

end Eeos.Gicv3
