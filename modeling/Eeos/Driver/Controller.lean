import Eeos.Driver.Interrupt
import Mathlib.Data.List.Induction

/-!
# Registration of interrupt controllers (`driver/interrupt/interrupt.c`)

A controller driver registers its mask and unmask operations with `set_irq_chip` and then its
top-level entry with `set_handle_irq`, as `gicv3_driver_init` and `riscv_plic_init` do, and ignores
what both return.  The first overwrites an earlier registration, the second refuses to.

Principal results: `driverInits_entry` (the entry stays the first driver's) against `init_chip`
(the operations are the last one's), and `registration_iff` (the registrations are all or nothing
exactly if all drivers have the same operations).
-/

namespace Eeos.Interrupt

variable {E H D : Type}

def ebusy : Int := 16

/-- All the globals of `interrupt.c`; a top-level entry is a function pointer of type `E`. -/
structure Globals (E H D : Type) extends State H D where
  handleArchIrq : Option E
  interruptNest : BitVec 64

/-- `set_irq_chip`. -/
def setIrqChip (irqChip : Option (IrqChip D)) (g : Globals E H D) : Int × Globals E H D :=
  match irqChip with
  | none => (-ebusy, g)
  | some chip => (0, { g with irqChip := ⟨chip.irqMask, chip.irqUnmask⟩ })

/-- `set_handle_irq`. -/
def setHandleIrq (handleIrq : Option E) (g : Globals E H D) : Int × Globals E H D :=
  match g.handleArchIrq with
  | some _ => (-ebusy, g)
  | none => (0, { g with handleArchIrq := handleIrq })

/-- A controller driver, and what its initialisation does to the hardware. -/
structure IrqDriver (E D : Type) where
  chip : IrqChip D
  entry : E
  hwInit : D → D

/-- What `set_handle_irq` answers to a driver, which does not look at it. -/
def IrqDriver.answer (d : IrqDriver E D) (g : Globals E H D) : Int :=
  (setHandleIrq (some d.entry) (setIrqChip (some d.chip) g).2).1

/-- `gicv3_driver_init` and its siblings. -/
def IrqDriver.init (d : IrqDriver E D) (g : Globals E H D) : Globals E H D :=
  let g := (setIrqChip (some d.chip) g).2
  let g := (setHandleIrq (some d.entry) g).2
  { g with dev := d.hwInit g.dev }

def driverInits (ds : List (IrqDriver E D)) (g : Globals E H D) : Globals E H D :=
  ds.foldl (fun g d => d.init g) g

/-- No controller is registered. -/
structure Unregistered (g : Globals E H D) : Prop where
  chip : g.irqChip = ⟨none, none⟩
  entry : g.handleArchIrq = none

/-! ## What registrations leave -/

theorem driverInits_snoc (ds : List (IrqDriver E D)) (d : IrqDriver E D) (g : Globals E H D) :
    driverInits (ds ++ [d]) g = d.init (driverInits ds g) := by
  rw [driverInits, driverInits, List.foldl_append]
  rfl

/-- The operations are overwritten. -/
theorem init_chip (d : IrqDriver E D) (g : Globals E H D) : (d.init g).irqChip = d.chip := by
  unfold IrqDriver.init setHandleIrq setIrqChip
  cases g.handleArchIrq with
  | none => rfl
  | some e => rfl

/-- An entry stays. -/
theorem init_entry (d : IrqDriver E D) (g : Globals E H D) :
    (d.init g).handleArchIrq = some (g.handleArchIrq.getD d.entry) := by
  unfold IrqDriver.init setHandleIrq setIrqChip
  cases g.handleArchIrq with
  | none => rfl
  | some e => rfl

theorem answer_eq (d : IrqDriver E D) (g : Globals E H D) :
    d.answer g = if g.handleArchIrq.isSome then -ebusy else 0 := by
  unfold IrqDriver.answer setHandleIrq setIrqChip
  cases g.handleArchIrq with
  | none => rfl
  | some e => rfl

/-- **The entry of the first driver** is the one that stays. -/
theorem driverInits_entry {g : Globals E H D} (hg : Unregistered g) (d₀ : IrqDriver E D)
    (ds : List (IrqDriver E D)) :
    (driverInits (d₀ :: ds) g).handleArchIrq = some d₀.entry := by
  induction ds using List.reverseRecOn with
  | nil =>
    refine (init_entry d₀ g).trans ?_
    rw [hg.entry]
    rfl
  | append_singleton ds d ih =>
    rw [← List.cons_append, driverInits_snoc, init_entry, ih]
    rfl

/-- Every later driver is refused. -/
theorem answer_refused {g : Globals E H D} (hg : Unregistered g) (d₀ d : IrqDriver E D)
    (ds : List (IrqDriver E D)) : d.answer (driverInits (d₀ :: ds) g) = -ebusy := by
  rw [answer_eq, driverInits_entry hg]
  rfl

/-- Drivers with one set of operations leave these. -/
theorem driverInits_chip {d₀ : IrqDriver E D} {ds : List (IrqDriver E D)}
    (h : ∀ d ∈ ds, d.chip = d₀.chip) (g : Globals E H D) :
    (driverInits (d₀ :: ds) g).irqChip = d₀.chip := by
  rcases List.eq_nil_or_concat ds with rfl | ⟨ds, d, rfl⟩
  · exact init_chip d₀ g
  · rw [List.concat_eq_append] at h ⊢
    rw [← List.cons_append, driverInits_snoc, init_chip]
    exact h d (by simp)

/-! ## Registration as a whole -/

/-- The operations and the entry are those of one of the drivers, or of none. -/
def OneDriver (ds : List (IrqDriver E D)) (g : Globals E H D) : Prop :=
  Unregistered g ∨ ∃ d ∈ ds, g.irqChip = d.chip ∧ g.handleArchIrq = some d.entry

/-- **When registration is all or nothing**: exactly if every driver brings the operations of the
first. -/
theorem registration_iff {g : Globals E H D} (hg : Unregistered g) (ds : List (IrqDriver E D)) :
    ((∀ pre post, ds = pre ++ post → OneDriver pre (driverInits pre g)) ∧
      ∀ pre d post, ds = pre ++ d :: post → d.answer (driverInits pre g) = -ebusy →
        (d.init (driverInits pre g)).irqChip = (driverInits pre g).irqChip) ↔
      ∀ d₀ ∈ ds.head?, ∀ d ∈ ds, d.chip = d₀.chip := by
  constructor
  · rintro ⟨-, hkeep⟩ d₀ hd₀ d hd
    obtain ⟨rest, rfl⟩ := List.head?_eq_some_iff.mp hd₀
    have hchip : ∀ pre post, d₀ :: rest = d₀ :: pre ++ post →
        (driverInits (d₀ :: pre) g).irqChip = d₀.chip := by
      intro pre
      induction pre using List.reverseRecOn with
      | nil => exact fun _ _ => init_chip d₀ g
      | append_singleton pre d ih =>
        intro post he
        rw [← List.cons_append, driverInits_snoc]
        have he' : d₀ :: rest = d₀ :: pre ++ d :: post := by simpa using he
        rw [hkeep _ d post he' (answer_refused hg d₀ d pre)]
        exact ih _ he'
    rcases List.mem_cons.mp hd with rfl | hd
    · rfl
    · obtain ⟨pre, post, rfl⟩ := List.append_of_mem hd
      have h := hchip (pre ++ [d]) post (by simp)
      rwa [← List.cons_append, driverInits_snoc, init_chip] at h
  · intro hall
    constructor
    · intro pre post he
      cases pre with
      | nil => exact Or.inl hg
      | cons d₀ pre =>
        subst he
        have hpre : ∀ d ∈ pre, d.chip = d₀.chip := fun d hd => hall d₀ rfl d (by simp [hd])
        exact Or.inr ⟨d₀, by simp, driverInits_chip hpre g, driverInits_entry hg d₀ pre⟩
    · intro pre d post he hanswer
      cases pre with
      | nil =>
        rw [answer_eq, driverInits, List.foldl_nil, hg.entry] at hanswer
        exact absurd (show (0 : Int) = -ebusy from hanswer) (by decide)
      | cons d₀ pre =>
        subst he
        have hpre : ∀ d ∈ pre, d.chip = d₀.chip := fun d hd => hall d₀ rfl d (by simp [hd])
        rw [init_chip, driverInits_chip hpre g]
        exact hall d₀ rfl d (by simp)

/-- A driver whose operations count the calls. -/
def countingDriver : IrqDriver Nat Nat := ⟨⟨some fun _ n => n + 1, some fun _ n => n + 1⟩, 1, id⟩

/-- Another one, with another entry. -/
def silentDriver : IrqDriver Nat Nat := ⟨⟨some fun _ n => n, some fun _ n => n⟩, 2, id⟩

def unregistered : Globals Nat Unit Nat :=
  ⟨⟨fun _ => ⟨(), 0, 0, 1, 0, 0, 0⟩, ⟨none, none⟩, 0⟩, none, 0⟩

/-- One with the operations of the first, and another entry. -/
def rivalDriver : IrqDriver Nat Nat := ⟨countingDriver.chip, 3, id⟩

/-- The second driver is refused, and changes nothing. -/
theorem registration_iff_refused :
    rivalDriver.answer (driverInits [countingDriver] unregistered) = -ebusy ∧
      (∀ pre post, [countingDriver, rivalDriver] = pre ++ post →
        OneDriver pre (driverInits pre unregistered)) ∧
      ∀ pre d post, [countingDriver, rivalDriver] = pre ++ d :: post →
        d.answer (driverInits pre unregistered) = -ebusy →
          (d.init (driverInits pre unregistered)).irqChip =
            (driverInits pre unregistered).irqChip :=
  ⟨rfl, (registration_iff ⟨rfl, rfl⟩ [countingDriver, rivalDriver]).mpr fun d₀ hd₀ d hd => by
    cases hd₀
    rcases List.mem_cons.mp hd with rfl | hd
    · rfl
    · rw [List.mem_singleton.mp hd, rivalDriver]⟩

/-- The entry of the first driver with the operations of the second, whose entry was refused. -/
theorem registration_fails_two_drivers :
    ¬ ((∀ pre post, [countingDriver, silentDriver] = pre ++ post →
        OneDriver pre (driverInits pre unregistered)) ∧
      ∀ pre d post, [countingDriver, silentDriver] = pre ++ d :: post →
        d.answer (driverInits pre unregistered) = -ebusy →
          (d.init (driverInits pre unregistered)).irqChip =
            (driverInits pre unregistered).irqChip) := by
  rintro ⟨hone, -⟩
  rcases hone [countingDriver, silentDriver] [] rfl with hnone | ⟨d, hd, hchip, hentry⟩
  · exact absurd hnone.entry (by decide)
  · have hfirst : some 1 = some d.entry := hentry
    rcases List.mem_cons.mp hd with rfl | hd
    · -- the counting driver's entry, with operations that do not count
      have hmask : silentDriver.chip.irqMask.map (fun op => op 0 0) =
          countingDriver.chip.irqMask.map (fun op => op 0 0) :=
        congrArg (fun chip => chip.irqMask.map fun op => op 0 0) hchip
      exact absurd hmask (by decide)
    · rw [List.mem_singleton.mp hd] at hfirst
      exact absurd hfirst (by decide)

end Eeos.Interrupt
