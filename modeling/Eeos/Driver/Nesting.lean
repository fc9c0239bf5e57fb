import Eeos.Arch.Vector
import Eeos.Driver.Controller
import Eeos.Driver.IrqTable
import Eeos.Lib.Bracket

/-!
# Nested interrupt deliveries (`driver/interrupt/interrupt.c`, `gicv3.c`)

`handle_domain_irq` with `gicv3_handle_irq` as the top-level entry, down to a handler that is
interrupted in turn.  A routine is a state transformer that leaves a trace: the accesses to
`ICC_IAR1` and `ICC_EOIR1` and the calls of handlers, each with the value that `interrupt_nest` then
has.  The exception that interrupts is marked in the trace before `handle_domain_irq` is called and
after it has returned; the code itself leaves no such mark.  The console is left out.

* `Activity` — code that runs and is interrupted: any steps of its own on the descriptor table, the
  chip and the device, and in between the activities of the handlers that interrupt it.
* `paren` — exception and return from it, acknowledgement and EOI, call and return as brackets.
* `Moves` — what a routine does to the brackets that are open.
* `Served` — each number acknowledged gets its handler called and then its EOI.

Principal results: `Activity.run_moves` (interrupts close the brackets they open and leave the
counter as it was, by induction on the activity), `Activity.run_served` (between acknowledgement and
EOI there is one call of the handler, with what interrupts it, and nothing else) and
`delivery_discipline` (both, for a whole run: EOIs come in the reverse order of acknowledgements,
and `interrupt_nest` counts the exceptions that are open).
-/

namespace Eeos.Interrupt

open Bracket

variable {H D : Type}

/-! ## The code -/

/-- The top-level entries. -/
inductive ArchIrq where
  | gicv3HandleIrq
  deriving DecidableEq, Repr

/-- The globals, and how often `ICC_IAR1` has been read. -/
structure Cpu (H D : Type) extends Globals ArchIrq H D where
  acks : Nat

inductive Event (H : Type) where
  | enter
  | ack (irqnr : BitVec 32)
  | call (irqnr : BitVec 32) (handler : H)
  | work
  | ret (irqnr : BitVec 32)
  | eoi (irqnr : BitVec 32)
  | exit

/-- An event, and `interrupt_nest` at that point. -/
structure Entry (H : Type) where
  event : Event H
  nest : BitVec 64

def Routine (H D α : Type) : Type := Cpu H D → List (Entry H) × α × Cpu H D

instance : Monad (Routine H D) where
  pure a c := ([], a, c)
  bind p f c := ((p c).1 ++ (f (p c).2.1 (p c).2.2).1, (f (p c).2.1 (p c).2.2).2)

def emit (e : Event H) : Routine H D Unit := fun c => ([⟨e, c.interruptNest⟩], (), c)

def getCpu : Routine H D (Cpu H D) := fun c => ([], c, c)

def modifyCpu (f : Cpu H D → Cpu H D) : Routine H D Unit := fun c => ([], (), f c)

/-- `is_interrupt_nest`, of the value of the counter. -/
def isInterruptNest (interruptNest : BitVec 64) : Int := if 0 < interruptNest then 1 else 0

def irqEnter : Routine H D Unit :=
  modifyCpu fun c => { c with interruptNest := c.interruptNest + 1 }

def irqExit : Routine H D Unit :=
  modifyCpu fun c => { c with interruptNest := c.interruptNest - 1 }

/-- `gic_read_iar`: `iar` are the values that `ICC_IAR1` gives one after the other. -/
def gicReadIar (iar : Nat → BitVec 32) : Routine H D (BitVec 32) := do
  let c ← getCpu
  modifyCpu fun c => { c with acks := c.acks + 1 }
  emit (.ack (iar c.acks))
  pure (iar c.acks)

/-- `gicv3_eoi_irq`. -/
def gicv3EoiIrq (irqnr : BitVec 32) : Routine H D Unit := emit (.eoi irqnr)

/-- `generic_handle_irq`, with what the handler does as `body`. -/
def genericHandleIrq (body : Routine H D Unit) (irq : BitVec 32) : Routine H D Int := do
  let c ← getCpu
  match genericHandleCall irq.toNat c.toState with
  | none => pure (-einval)
  | some (handler, _) =>
    emit (.call irq handler)
    body
    emit (.ret irq)
    pure 0

/-- The INTIDs that stand for no interrupt. -/
def IsSpecial (irqnr : BitVec 32) : Prop := 1020 ≤ irqnr ∧ irqnr ≤ 1023

instance (irqnr : BitVec 32) : Decidable (IsSpecial irqnr) :=
  inferInstanceAs (Decidable (1020 ≤ irqnr ∧ irqnr ≤ 1023))

def gicv3HandleIrq (iar : Nat → BitVec 32) (body : Routine H D Unit) : Routine H D Unit := do
  let irqnr ← gicReadIar iar
  if IsSpecial irqnr then pure ()
  else
    let _ ← genericHandleIrq body irqnr
    gicv3EoiIrq irqnr

/-- `if (handle_arch_irq) handle_arch_irq()`. -/
def callArchIrq (iar : Nat → BitVec 32) (body : Routine H D Unit) :
    Option ArchIrq → Routine H D Unit
  | none => pure ()
  | some .gicv3HandleIrq => gicv3HandleIrq iar body

def handleDomainIrq (iar : Nat → BitVec 32) (body : Routine H D Unit) : Routine H D Unit := do
  irqEnter
  let c ← getCpu
  callArchIrq iar body c.handleArchIrq
  irqExit

/-- An exception: the vector calls `handle_domain_irq` and returns from the exception. -/
def interrupt (iar : Nat → BitVec 32) (body : Routine H D Unit) : Routine H D Unit := do
  emit .enter
  handleDomainIrq iar body
  emit .exit

/-- Code that does steps of its own and is interrupted between them: `interrupted handler next` is
interrupted, the handler of the interrupt, if it gets one, doing `handler`, and goes on with
`next`. -/
inductive Activity (H D : Type) where
  | done
  | step (f : Cpu H D → State H D) (next : Activity H D)
  | interrupted (handler next : Activity H D)

def Activity.run (iar : Nat → BitVec 32) : Activity H D → Routine H D Unit
  | .done => pure ()
  | .step f next => do
    modifyCpu fun c => { c with toState := f c }
    emit .work
    next.run iar
  | .interrupted handler next => do
    interrupt iar (handler.run iar)
    next.run iar

/-! ## The code by its traces -/

theorem bind_run {α β : Type} (p : Routine H D α) (f : α → Routine H D β) (c : Cpu H D) :
    (p >>= f) c =
      ((p c).1 ++ (f (p c).2.1 (p c).2.2).1, (f (p c).2.1 (p c).2.2).2) := rfl

/-- A number with a descriptor. -/
theorem genericHandleIrq_run (body : Routine H D Unit) {irq : BitVec 32}
    (h : irq.toNat < nrIrqs) (c : Cpu H D) :
    genericHandleIrq body irq c =
      (⟨.call irq (c.irqDesc irq.toNat).handleIrq, c.interruptNest⟩ ::
        ((body c).1 ++ [⟨.ret irq, (body c).2.2.interruptNest⟩]), 0, (body c).2.2) := by
  have hcall := genericHandleCall_eq c.toState h
  simp only [genericHandleIrq, bind_run, getCpu, hcall]
  rfl

/-- A number without one. -/
theorem genericHandleIrq_none (body : Routine H D Unit) {irq : BitVec 32}
    (h : ¬ irq.toNat < nrIrqs) (c : Cpu H D) :
    genericHandleIrq body irq c = ([], -einval, c) := by
  have hcall : genericHandleCall irq.toNat c.toState = none := by
    rw [genericHandleCall, irqToDesc, if_neg h]
  simp only [genericHandleIrq, bind_run, getCpu, hcall]
  rfl

/-- With the number read. -/
theorem gicv3HandleIrq_run (iar : Nat → BitVec 32) (body : Routine H D Unit) (c : Cpu H D) :
    gicv3HandleIrq iar body c =
      (⟨.ack (iar c.acks), c.interruptNest⟩ ::
          ((if IsSpecial (iar c.acks) then pure ()
            else do
              let _ ← genericHandleIrq body (iar c.acks)
              gicv3EoiIrq (iar c.acks)) { c with acks := c.acks + 1 }).1,
        ((if IsSpecial (iar c.acks) then pure ()
            else do
              let _ ← genericHandleIrq body (iar c.acks)
              gicv3EoiIrq (iar c.acks)) { c with acks := c.acks + 1 }).2) := rfl

/-- The counter is one higher while the top-level entry runs. -/
theorem handleDomainIrq_run (iar : Nat → BitVec 32) (body : Routine H D Unit) (c : Cpu H D) :
    handleDomainIrq iar body c =
      ((callArchIrq iar body c.handleArchIrq { c with interruptNest := c.interruptNest + 1 }).1,
        irqExit (callArchIrq iar body c.handleArchIrq
          { c with interruptNest := c.interruptNest + 1 }).2.2 |>.2) := by
  simp only [handleDomainIrq, irqEnter, irqExit, bind_run, modifyCpu, getCpu, List.nil_append,
    List.append_nil]

theorem interrupt_run (iar : Nat → BitVec 32) (body : Routine H D Unit) (c : Cpu H D) :
    interrupt iar body c =
      (⟨.enter, c.interruptNest⟩ :: ((handleDomainIrq iar body c).1 ++
          [⟨.exit, (handleDomainIrq iar body c).2.2.interruptNest⟩]),
        (), (handleDomainIrq iar body c).2.2) := rfl

/-! ## Brackets -/

inductive Label where
  | delivery
  | intid (irqnr : BitVec 32)
  | handler (irqnr : BitVec 32)
  deriving DecidableEq, Repr

/-- An acknowledgement opens a bracket, unless it gives a special INTID. -/
def paren (e : Entry H) : Option (Paren Label) :=
  match e.event with
  | .enter => some (.opens .delivery)
  | .ack irqnr => if IsSpecial irqnr then none else some (.opens (.intid irqnr))
  | .call irqnr _ => some (.opens (.handler irqnr))
  | .work => none
  | .ret irqnr => some (.closes (.handler irqnr))
  | .eoi irqnr => some (.closes (.intid irqnr))
  | .exit => some (.closes .delivery)

/-- Special INTIDs are neither dispatched nor completed, and numbers without a descriptor are not
dispatched. -/
def Event.Allowed : Event H → Prop
  | .call irqnr _ => ¬ IsSpecial irqnr ∧ irqnr.toNat < nrIrqs
  | .eoi irqnr => ¬ IsSpecial irqnr
  | _ => True

/-- The event is allowed, and the counter is the number of deliveries that were open before it and
still are: `st` is open after it. -/
def Sound (start : BitVec 64) (e : Entry H) (st : List Label) : Prop :=
  e.nest = start + BitVec.ofNat 64 (st.count .delivery - opened paren .delivery [e]) ∧
    e.event.Allowed

/-- The counter says that the brackets `st` are open. -/
def Counts (start : BitVec 64) (st : List Label) (c : Cpu H D) : Prop :=
  c.interruptNest = start + BitVec.ofNat 64 (st.count .delivery)

/-- From the brackets `st` the routine goes soundly to `post`, which its result decides. -/
def Moves {α : Type} (start : BitVec 64) (st : List Label) (p : Routine H D α)
    (post : α → List Label) : Prop :=
  ∀ c, Counts start st c → Accepts paren (Sound start) st (p c).1 (post (p c).2.1) ∧
    Counts start (post (p c).2.1) (p c).2.2

section Rules

variable {start : BitVec 64} {st : List Label}

theorem moves_pure {α : Type} (a : α) {post : α → List Label} (h : post a = st) :
    Moves start st (pure a : Routine H D α) post := by
  subst h
  exact fun c hc => ⟨.nil, hc⟩

theorem moves_bind {α β : Type} {p : Routine H D α} {f : α → Routine H D β}
    {mid : α → List Label} {post : β → List Label} (hp : Moves start st p mid)
    (hf : ∀ a, Moves start (mid a) (f a) post) : Moves start st (p >>= f) post := by
  intro c hc
  obtain ⟨htrace, hat⟩ := hp c hc
  obtain ⟨htrace', hat'⟩ := hf _ _ hat
  exact ⟨htrace.append htrace', hat'⟩

theorem moves_getCpu : Moves start st (getCpu : Routine H D (Cpu H D)) fun _ => st :=
  fun _ hc => ⟨.nil, hc⟩

/-- An event that enters no delivery. -/
theorem opened_delivery {e : Entry H} (h : e.event ≠ .enter) :
    opened paren .delivery [e] = 0 := by
  obtain ⟨event, v⟩ := e
  cases event with
  | enter => exact absurd rfl h
  | ack n =>
    by_cases hn : IsSpecial n <;> simp [opened, paren, hn]
  | _ => simp [opened, paren]

theorem moves_emit {e : Event H} {st' : List Label} (hevent : e ≠ .enter)
    (hstep : ∀ v, Step paren st (⟨e, v⟩ : Entry H) st') (hallowed : e.Allowed)
    (hnest : st'.count .delivery = st.count .delivery) :
    Moves start st (emit e : Routine H D Unit) fun _ => st' := by
  intro c hc
  have hnest' : Counts start st' c := by
    rw [Counts, hnest]
    exact hc
  refine ⟨.single (hstep _) ⟨?_, hallowed⟩, hnest'⟩
  rw [opened_delivery hevent, Nat.sub_zero]
  exact hnest'

/-- A step that leaves the counter alone. -/
theorem moves_modify {f : Cpu H D → Cpu H D} (h : ∀ c, (f c).interruptNest = c.interruptNest) :
    Moves start st (modifyCpu f) fun _ => st :=
  fun c hc => ⟨.nil, (h c).trans hc⟩

theorem Counts.enter {c : Cpu H D} (h : Counts start st c) :
    Counts start (.delivery :: st) { c with interruptNest := c.interruptNest + 1 } := by
  rw [Counts, List.count_cons_self, BitVec.ofNat_add, ← BitVec.add_assoc, ← h]
  rfl

theorem Counts.exit {c : Cpu H D} (h : Counts start (.delivery :: st) c) :
    Counts start st { c with interruptNest := c.interruptNest - 1 } := by
  rw [Counts, List.count_cons_self, BitVec.ofNat_add, ← BitVec.add_assoc] at h
  show c.interruptNest - 1 = _
  rw [h]
  exact BitVec.add_sub_cancel _ _

/-! ## The code keeps the brackets -/

theorem gicReadIar_moves (iar : Nat → BitVec 32) :
    Moves start st (gicReadIar iar : Routine H D (BitVec 32)) fun irqnr =>
      if IsSpecial irqnr then st else .intid irqnr :: st := by
  refine moves_bind moves_getCpu fun c => moves_bind (moves_modify fun _ => rfl) fun _ => ?_
  generalize iar c.acks = irqnr
  by_cases h : IsSpecial irqnr
  · exact moves_bind (moves_emit (by simp) (fun v => .other (if_pos h)) trivial rfl)
      fun _ => moves_pure _ (if_pos h)
  · exact moves_bind (moves_emit (by simp) (fun v => .opens (if_neg h)) trivial
      (List.count_cons_of_ne (by simp))) fun _ => moves_pure _ (if_neg h)

theorem genericHandleIrq_moves {body : Routine H D Unit}
    (hbody : ∀ st, Moves start st body fun _ => st) {irq : BitVec 32} (h : ¬ IsSpecial irq) :
    Moves start st (genericHandleIrq body irq) fun _ => st := by
  refine moves_bind moves_getCpu fun c => ?_
  unfold genericHandleCall irqToDesc
  by_cases hlt : irq.toNat < nrIrqs
  · rw [if_pos hlt]
    have hcount : (Label.handler irq :: st).count .delivery = st.count .delivery :=
      List.count_cons_of_ne (by simp)
    refine moves_bind (moves_emit (by simp) (fun v => .opens rfl) ⟨h, hlt⟩ hcount) fun _ => ?_
    refine moves_bind (hbody _) fun _ => ?_
    exact moves_bind (moves_emit (by simp) (fun v => .closes rfl) trivial hcount.symm)
      fun _ => moves_pure _ rfl
  · rw [if_neg hlt]
    exact moves_pure _ rfl

theorem gicv3HandleIrq_moves (iar : Nat → BitVec 32) {body : Routine H D Unit}
    (hbody : ∀ st, Moves start st body fun _ => st) :
    Moves start st (gicv3HandleIrq iar body) fun _ => st := by
  refine moves_bind (gicReadIar_moves iar) fun irqnr => ?_
  by_cases h : IsSpecial irqnr
  · rw [if_pos h, if_pos h]
    exact moves_pure _ rfl
  · rw [if_neg h, if_neg h]
    refine moves_bind (genericHandleIrq_moves hbody h) fun _ => ?_
    exact moves_emit (by simp) (fun v => .closes rfl) h (List.count_cons_of_ne (by simp)).symm

theorem callArchIrq_moves (iar : Nat → BitVec 32) {body : Routine H D Unit}
    (hbody : ∀ st, Moves start st body fun _ => st) (entry : Option ArchIrq) :
    Moves start st (callArchIrq iar body entry) fun _ => st := by
  cases entry with
  | none => exact moves_pure _ rfl
  | some entry =>
    cases entry with
    | gicv3HandleIrq => exact gicv3HandleIrq_moves iar hbody

/-- The counter does not know of the exception before `irq_enter`, nor after `irq_exit`. -/
theorem handleDomainIrq_accepts (iar : Nat → BitVec 32) {body : Routine H D Unit}
    (hbody : ∀ st, Moves start st body fun _ => st) {c : Cpu H D} (hc : Counts start st c) :
    Accepts paren (Sound start) (.delivery :: st) (handleDomainIrq iar body c).1
        (.delivery :: st) ∧
      Counts start st (handleDomainIrq iar body c).2.2 := by
  obtain ⟨htrace, hat⟩ := callArchIrq_moves iar hbody c.handleArchIrq _ hc.enter
  rw [handleDomainIrq_run]
  exact ⟨htrace, hat.exit⟩

/-- **An interrupt leaves no bracket open**, and the counter as it was. -/
theorem interrupt_moves (iar : Nat → BitVec 32) {body : Routine H D Unit}
    (hbody : ∀ st, Moves start st body fun _ => st) :
    Moves start st (interrupt iar body) fun _ => st := by
  intro c hc
  obtain ⟨htrace, hend⟩ := handleDomainIrq_accepts iar hbody hc
  have henter : (⟨.enter, c.interruptNest⟩ : Entry H).nest = start + BitVec.ofNat 64
      ((Label.delivery :: st).count .delivery -
        opened paren .delivery [(⟨.enter, c.interruptNest⟩ : Entry H)]) := by
    rw [List.count_cons_self]
    exact hc
  rw [interrupt_run]
  refine ⟨.cons (.opens rfl) ⟨henter, trivial⟩
    (htrace.append (.single (.closes rfl) ⟨?_, trivial⟩)), hend⟩
  rw [opened_delivery (by simp), Nat.sub_zero]
  exact hend

/-- **However deep the deliveries nest.** -/
theorem Activity.run_moves (iar : Nat → BitVec 32) (a : Activity H D) (st : List Label) :
    Moves start st (a.run iar) fun _ => st := by
  induction a generalizing st with
  | done => exact moves_pure _ rfl
  | step f next ih =>
    refine moves_bind (moves_modify fun _ => rfl) fun _ => ?_
    exact moves_bind (moves_emit (by simp) (fun v => .other rfl) trivial rfl) fun _ => ih st
  | interrupted handler next ihHandler ih =>
    exact moves_bind (interrupt_moves iar ihHandler) fun _ => ih st

end Rules

/-! ## Acknowledgement, handler, EOI -/

/-- Every bracket that is opened is closed, the last one first. -/
def WellBracketed (w : List (Entry H)) : Prop := Accepts paren (fun _ _ => True) [] w []

theorem Activity.run_bracketed (iar : Nat → BitVec 32) (a : Activity H D) (c : Cpu H D) :
    WellBracketed (a.run iar c).1 := by
  have hmoves : Moves c.interruptNest [] (a.run iar) fun _ => [] := a.run_moves iar []
  exact (hmoves c (BitVec.add_zero _).symm).1.mono fun _ _ _ => trivial

/-- What is done between the acknowledgement of `irqnr` and its EOI: its handler is called and
returns, whatever it does and is interrupted by, and nothing else; nothing at all without a
descriptor. -/
def Serves (irqnr : BitVec 32) (mid : List (Entry H)) : Prop :=
  if irqnr.toNat < nrIrqs then
    ∃ handler v body v', mid = ⟨.call irqnr handler, v⟩ :: (body ++ [⟨.ret irqnr, v'⟩]) ∧
      WellBracketed body
  else mid = []

/-- An acknowledgement is followed by its EOI, with its handler, in whole brackets, between. -/
def Served (trace : List (Entry H)) : Prop :=
  ∀ pre irqnr v post, trace = pre ++ ⟨.ack irqnr, v⟩ :: post → ¬ IsSpecial irqnr →
    ∃ mid v' post', post = mid ++ ⟨.eoi irqnr, v'⟩ :: post' ∧ WellBracketed mid ∧
      Serves irqnr mid

theorem served_nil : Served ([] : List (Entry H)) := by
  intro pre irqnr v post he
  exact absurd he (by simp)

theorem Served.cons {e : Entry H} {w : List (Entry H)} (hw : Served w)
    (he : ∀ irqnr, e.event = .ack irqnr → IsSpecial irqnr) : Served (e :: w) := by
  intro pre irqnr v post htrace hn
  cases pre with
  | nil =>
    obtain ⟨rfl, -⟩ := List.cons.inj htrace
    exact absurd (he irqnr rfl) hn
  | cons e' pre => exact hw pre irqnr v post (List.cons.inj htrace).2 hn

theorem Served.append {w w' : List (Entry H)} (hw : Served w) (hw' : Served w') :
    Served (w ++ w') := by
  intro pre irqnr v post htrace hn
  rcases List.append_eq_append_iff.mp htrace with ⟨rest, rfl, hrest⟩ | ⟨rest, rfl, hrest⟩
  · exact hw' rest irqnr v post hrest hn
  · cases rest with
    | nil => exact hw' [] irqnr v post hrest.symm hn
    | cons e rest =>
      obtain ⟨rfl, rfl⟩ := List.cons.inj hrest
      obtain ⟨mid, v', post', rfl, hmid, hserves⟩ := hw pre irqnr v rest rfl hn
      exact ⟨mid, v', post' ++ w', by simp, hmid, hserves⟩

theorem served_ack {irqnr : BitVec 32} {v v' : BitVec 64} {mid : List (Entry H)}
    (hserved : Served mid) (hmid : WellBracketed mid) (hserves : Serves irqnr mid) :
    Served (⟨.ack irqnr, v⟩ :: (mid ++ [⟨.eoi irqnr, v'⟩])) := by
  have hrest : Served (mid ++ [(⟨.eoi irqnr, v'⟩ : Entry H)]) :=
    hserved.append (served_nil.cons (by simp))
  intro pre n u post htrace hn
  cases pre with
  | nil =>
    obtain ⟨he, rfl⟩ := List.cons.inj htrace
    cases he
    exact ⟨mid, v', [], rfl, hmid, hserves⟩
  | cons e pre => exact hrest pre n u post (List.cons.inj htrace).2 hn

theorem gicv3HandleIrq_served (iar : Nat → BitVec 32) {body : Routine H D Unit}
    (hbracketed : ∀ c, WellBracketed (body c).1) (hserved : ∀ c, Served (body c).1) (c : Cpu H D) :
    Served (gicv3HandleIrq iar body c).1 := by
  rw [gicv3HandleIrq_run]
  generalize iar c.acks = irqnr
  by_cases hspecial : IsSpecial irqnr
  · rw [if_pos hspecial]
    refine served_nil.cons ?_
    rintro n he
    cases he
    exact hspecial
  · simp only [if_neg hspecial, bind_run]
    by_cases hdesc : irqnr.toNat < nrIrqs
    · rw [genericHandleIrq_run body hdesc]
      refine served_ack ?_ ?_ ?_
      · exact ((hserved _).append (served_nil.cons (by simp))).cons (by simp)
      · exact .cons (.opens rfl) trivial
          (((hbracketed _).above fun _ _ _ => trivial).append (.single (.closes rfl) trivial))
      · rw [Serves, if_pos hdesc]
        exact ⟨_, _, _, _, rfl, hbracketed _⟩
    · rw [genericHandleIrq_none body hdesc]
      refine served_ack served_nil .nil ?_
      rw [Serves, if_neg hdesc]

/-- **Each number is served**, however deep the interrupts nest. -/
theorem Activity.run_served (iar : Nat → BitVec 32) (a : Activity H D) (c : Cpu H D) :
    Served (a.run iar c).1 := by
  induction a generalizing c with
  | done => exact served_nil
  | step f next ih => exact (ih _).cons (by simp)
  | interrupted handler next ihHandler ih =>
    have hentry : ∀ entry c, Served (callArchIrq iar (handler.run iar) entry c).1 := by
      intro entry c
      cases entry with
      | none => exact served_nil
      | some entry =>
        cases entry with
        | gicv3HandleIrq => exact gicv3HandleIrq_served iar (handler.run_bracketed iar) ihHandler c
    rw [Activity.run, bind_run, interrupt_run, handleDomainIrq_run]
    exact (((hentry _ _).append (served_nil.cons (by simp))).cons (by simp)).append (ih _)

/-! ## The discipline of a trace -/

/-- The deliveries that are entered before the event and not left with it. -/
def depth (pre : List (Entry H)) (e : Entry H) : Nat :=
  opened paren .delivery pre - closed paren .delivery (pre ++ [e])

def Event.isAck (irqnr : BitVec 32) : Event H → Bool
  | .ack n => n = irqnr
  | _ => false

def Event.isEoi (irqnr : BitVec 32) : Event H → Bool
  | .eoi n => n = irqnr
  | _ => false

/-- * `eoi` — an acknowledgement is followed by its EOI, and in between the handler is called and
  returns, with all that interrupts it.
* `once` — there is no other EOI.
* `nest` — the counter is the depth, and `is_interrupt_nest` tells whether it is zero: each delivery
  has its frame on the stack, so that not all of `2^64` can be open.
* `restored` — a delivery leaves the counter as it was before. -/
structure Disciplined (trace : List (Entry H)) : Prop where
  bracketed : WellBracketed trace
  eoi : Served trace
  once : ∀ irqnr, trace.countP (fun e => e.event.isEoi irqnr) =
    if IsSpecial irqnr then 0 else trace.countP fun e => e.event.isAck irqnr
  dispatched : ∀ irqnr handler v, ⟨.call irqnr handler, v⟩ ∈ trace →
    ¬ IsSpecial irqnr ∧ irqnr.toNat < nrIrqs
  nest : ∀ pre e post, trace = pre ++ e :: post →
    e.nest = BitVec.ofNat 64 (depth pre e) ∧
      (Vector.frameSize * depth pre e ≤ 2 ^ 64 → (isInterruptNest e.nest = 1 ↔ 0 < depth pre e))
  restored : ∀ pre v post, trace = pre ++ ⟨.enter, v⟩ :: post →
    ∃ mid post', post = mid ++ ⟨.exit, v⟩ :: post' ∧ WellBracketed mid

theorem paren_closes {e : Entry H} {l : Label} (h : paren e = some (.closes l)) :
    (l = .delivery ∧ e.event = .exit) ∨ (∃ n, l = .intid n ∧ e.event = .eoi n) ∨
      ∃ n, l = .handler n ∧ e.event = .ret n := by
  obtain ⟨event, v⟩ := e
  cases event with
  | ret n => exact Or.inr (Or.inr ⟨n, (Paren.closes.inj (Option.some.inj h)).symm, rfl⟩)
  | eoi n => exact Or.inr (Or.inl ⟨n, (Paren.closes.inj (Option.some.inj h)).symm, rfl⟩)
  | exit => exact Or.inl ⟨(Paren.closes.inj (Option.some.inj h)).symm, rfl⟩
  | ack n =>
    simp only [paren] at h
    split at h <;> simp at h
  | enter => exact absurd h (by simp [paren])
  | call n f => exact absurd h (by simp [paren])
  | work => exact absurd h (by simp [paren])

/-- EOIs are the brackets that are closed, -/
theorem closed_intid (irqnr : BitVec 32) (w : List (Entry H)) :
    closed paren (.intid irqnr) w = w.countP fun e => e.event.isEoi irqnr := by
  apply List.countP_congr
  intro e _
  obtain ⟨event, v⟩ := e
  cases event with
  | ack n =>
    by_cases hn : IsSpecial n <;> simp [paren, Event.isEoi, hn]
  | _ => simp [paren, Event.isEoi]

/-- and acknowledgements the ones that are opened. -/
theorem opened_intid {irqnr : BitVec 32} (h : ¬ IsSpecial irqnr) (w : List (Entry H)) :
    opened paren (.intid irqnr) w = w.countP fun e => e.event.isAck irqnr := by
  apply List.countP_congr
  intro e _
  obtain ⟨event, v⟩ := e
  cases event with
  | ack n =>
    by_cases hn : IsSpecial n
    · have hne : n ≠ irqnr := by
        rintro rfl
        exact h hn
      simp [paren, Event.isAck, hn, hne]
    · simp [paren, Event.isAck, hn]
  | _ => simp [paren, Event.isAck]

theorem sound_of_mem {start : BitVec 64} {st st' : List Label} {w : List (Entry H)}
    (h : Accepts paren (Sound start) st w st') {e : Entry H} (he : e ∈ w) : e.event.Allowed := by
  obtain ⟨pre, post, rfl⟩ := List.append_of_mem he
  obtain ⟨st₁, st₂, -, -, hsound, -⟩ := h.at
  exact hsound.2

theorem isInterruptNest_iff {n : Nat} (h : n < 2 ^ 64) :
    isInterruptNest (BitVec.ofNat 64 n) = 1 ↔ 0 < n := by
  have hpos : (0 : BitVec 64) < BitVec.ofNat 64 n ↔ 0 < n := by
    rw [BitVec.lt_def, BitVec.toNat_ofNat, Nat.mod_eq_of_lt h]
    rfl
  unfold isInterruptNest
  by_cases hn : 0 < n
  · rw [if_pos (hpos.mpr hn)]
    exact iff_of_true rfl hn
  · rw [if_neg (mt hpos.mp hn)]
    exact iff_of_false (by decide) hn

section OfAccepts

variable {trace pre post : List (Entry H)}

/-- What is opened and not closed is what is open. -/
theorem nest_eq_depth {e : Entry H} (h : Accepts paren (Sound 0) [] (pre ++ e :: post) []) :
    e.nest = BitVec.ofNat 64 (depth pre e) := by
  obtain ⟨st₁, st₂, hpre, hstep, hsound, -⟩ := h.at
  have hcount := hpre.count .delivery
  have hcount' := (Accepts.single hstep hsound).count .delivery
  have hclosed : closed paren .delivery (pre ++ [e]) =
      closed paren .delivery pre + closed paren .delivery [e] := List.countP_append
  have hdepth : st₂.count .delivery - opened paren .delivery [e] = depth pre e := by
    rw [List.count_nil] at hcount
    rw [depth]
    omega
  rw [hsound.1, hdepth]
  exact BitVec.zero_add _

/-- The counter is the same when the delivery is left. -/
theorem exit_restores {v : BitVec 64}
    (h : Accepts paren (Sound 0) [] (pre ++ (⟨.enter, v⟩ : Entry H) :: post) []) :
    ∃ mid post', post = mid ++ ⟨.exit, v⟩ :: post' ∧ WellBracketed mid := by
  obtain ⟨mid, e', post', st₁, rfl, hclose, hmid, hopen, hnest⟩ := h.matching (l := .delivery) rfl
  obtain ⟨event, v'⟩ := e'
  rcases paren_closes hclose with ⟨-, he⟩ | ⟨n, hl, -⟩ | ⟨n, hl, -⟩
  · cases he
    have hbefore := hopen.1
    have hafter := hnest.1
    rw [List.count_cons_self] at hbefore
    rw [opened_delivery (by simp), Nat.sub_zero] at hafter
    have hv : v = v' := hbefore.trans hafter.symm
    exact ⟨mid, post', by rw [hv], hmid⟩
  · exact absurd hl (by simp)
  · exact absurd hl (by simp)

/-- Each number is completed as often as it is acknowledged, a special one never. -/
theorem eois_eq_acks (h : Accepts paren (Sound 0) [] trace []) (irqnr : BitVec 32) :
    trace.countP (fun e => e.event.isEoi irqnr) =
      if IsSpecial irqnr then 0 else trace.countP fun e => e.event.isAck irqnr := by
  split
  · rename_i hn
    rw [List.countP_eq_zero]
    rintro ⟨event, v⟩ he hEoi
    have hallowed := sound_of_mem h he
    cases event with
    | eoi n => exact hallowed (of_decide_eq_true hEoi ▸ hn)
    | _ => exact absurd hEoi (by simp [Event.isEoi])
  · rename_i hn
    have hcount := h.count (.intid irqnr)
    rw [opened_intid hn, closed_intid] at hcount
    simpa using hcount.symm

theorem disciplined_of_accepts (h : Accepts paren (Sound 0) [] trace []) (hserved : Served trace) :
    Disciplined trace where
  bracketed := h.mono fun _ _ _ => trivial
  eoi := hserved
  once := eois_eq_acks h
  dispatched irqnr handler v hmem := sound_of_mem h hmem
  nest := by
    rintro pre e post rfl
    have hnest := nest_eq_depth h
    refine ⟨hnest, fun hframes => ?_⟩
    rw [hnest]
    exact isInterruptNest_iff (by rw [Vector.frameSize] at hframes; omega)
  restored := by
    rintro pre v post rfl
    exact exit_restores h

end OfAccepts

/-- **The discipline of nested deliveries**, for whatever runs, whatever interrupts it, and whatever
numbers the controller gives. -/
theorem delivery_discipline (iar : Nat → BitVec 32) (a : Activity H D) {c : Cpu H D}
    (hnest : c.interruptNest = 0) :
    Disciplined (a.run iar c).1 ∧ (a.run iar c).2.2.interruptNest = 0 := by
  have hmoves : Moves 0 [] (a.run iar) fun _ => [] := a.run_moves iar []
  obtain ⟨htrace, hend⟩ := hmoves c hnest
  exact ⟨disciplined_of_accepts htrace (a.run_served iar c), hend⟩

/-- Interrupt 33, whose handler is interrupted by a spurious one and by a number without a
descriptor. -/
def nestedDelivery : Activity Nat Unit :=
  .interrupted (.step (fun c => c.toState) (.interrupted .done (.interrupted .done .done))) .done

def idleCpu : Cpu Nat Unit :=
  ⟨⟨⟨fun _ => bootDesc 0, ⟨none, none⟩, ()⟩, some .gicv3HandleIrq, 0⟩, 0⟩

theorem delivery_discipline_nested :
    (nestedDelivery.run (fun k => [33, 1023, 9000].getD k 1023) idleCpu).1.map Entry.event =
        [.enter, .ack 33, .call 33 0, .work, .enter, .ack 1023, .exit, .enter, .ack 9000,
          .eoi 9000, .exit, .ret 33, .eoi 33, .exit] ∧
      Disciplined (nestedDelivery.run (fun k => [33, 1023, 9000].getD k 1023) idleCpu).1 ∧
      (nestedDelivery.run (fun k => [33, 1023, 9000].getD k 1023) idleCpu).2.2.interruptNest = 0 :=
  ⟨rfl, delivery_discipline _ nestedDelivery rfl⟩

end Eeos.Interrupt
