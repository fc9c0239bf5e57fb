import Eeos.Lib.Vmsa

/-!
# The generic interrupt layer (`driver/interrupt/interrupt.c`)

The descriptor table, the registered controller, and the calls that drivers make.  Handlers are
function pointers of a type `H`; the operations of a controller act on a device of type `D`.

Principal result: `requestIrq_accepts_iff` (which numbers `request_irq` accepts).
-/

namespace Eeos.Interrupt

open Vmsa

variable {H D : Type}

def nrIrqs : Nat := 8192

def einval : Int := 22

/-- `struct irq_desc`. -/
structure IrqDesc (H : Type) where
  handleIrq : H
  irq : BitVec 32
  flags : BitVec 32
  depth : BitVec 32
  irqCount : BitVec 32
  name : Word
  handlerData : Word

/-- `struct irq_chip`, a null pointer being `none`. -/
structure IrqChip (D : Type) where
  irqMask : Option (Nat → D → D)
  irqUnmask : Option (Nat → D → D)

/-- The globals `irq_desc` and `_irq_chip`, and the device. -/
structure State (H D : Type) where
  irqDesc : Nat → IrqDesc H
  irqChip : IrqChip D
  dev : D

/-- `irq_to_desc`: the index of the descriptor. -/
def irqToDesc (irq : Nat) : Option Nat := if irq < nrIrqs then some irq else none

/-- A call of one of the chip's operations, if it has it. -/
def callChip (op : Option (Nat → D → D)) (irq : Nat) (s : State H D) : State H D :=
  match op with
  | none => s
  | some op => { s with dev := op irq s.dev }

/-- `mask_irq`. -/
def maskIrq (irq : Nat) (s : State H D) : State H D := callChip s.irqChip.irqMask irq s

/-- `unmask_irq`. -/
def unmaskIrq (irq : Nat) (s : State H D) : State H D := callChip s.irqChip.irqUnmask irq s

/-- The descriptor that `request_irq` installs over `desc`; `flags` becomes an unsigned int. -/
def IrqDesc.request (desc : IrqDesc H) (handler : Option H) (flags name data : Word) : IrqDesc H :=
  { desc with
    handleIrq := handler.getD desc.handleIrq
    flags := flags.setWidth 32
    name := name
    handlerData := data
    irqCount := 0 }

/-- `request_irq`: what it returns and the state after it. -/
def requestIrq (irq : Nat) (handler : Option H) (flags name data : Word) (s : State H D) :
    Int × State H D :=
  match irqToDesc irq with
  | none => (-einval, s)
  | some i =>
    let s := { s with
      irqDesc := Function.update s.irqDesc i ((s.irqDesc i).request handler flags name data) }
    (0, unmaskIrq irq s)

/-- `request_irq` accepts the numbers below `NR_IRQS`. -/
theorem requestIrq_accepts_iff (irq : Nat) (handler : Option H) (flags name data : Word)
    (s : State H D) : (requestIrq irq handler flags name data s).1 = 0 ↔ irq < nrIrqs := by
  unfold requestIrq irqToDesc
  by_cases h : irq < nrIrqs
  · rw [if_pos h]
    exact iff_of_true rfl h
  · rw [if_neg h]
    exact iff_of_false (by simp [einval]) h

@[simp]
theorem callChip_chip (op : Option (Nat → D → D)) (irq : Nat) (s : State H D) :
    (callChip op irq s).irqChip = s.irqChip := by
  cases op with
  | none => rfl
  | some op => rfl

theorem callChip_dev (op : Option (Nat → D → D)) (irq : Nat) (s : State H D) :
    (callChip op irq s).dev = op.elim s.dev fun op => op irq s.dev := by
  cases op with
  | none => rfl
  | some op => rfl

theorem requestIrq_chip (irq : Nat) (handler : Option H) (flags name data : Word)
    (s : State H D) : (requestIrq irq handler flags name data s).2.irqChip = s.irqChip := by
  unfold requestIrq
  cases irqToDesc irq with
  | none => rfl
  | some i => exact callChip_chip _ _ _

/-- An accepted request unmasks the line and touches the device no further. -/
theorem requestIrq_dev {irq : Nat} (h : irq < nrIrqs) (handler : Option H)
    (flags name data : Word) (s : State H D) :
    (requestIrq irq handler flags name data s).2.dev = (unmaskIrq irq s).dev := by
  rw [requestIrq, irqToDesc, if_pos h]
  exact (callChip_dev _ irq _).trans (callChip_dev _ irq s).symm

end Eeos.Interrupt
