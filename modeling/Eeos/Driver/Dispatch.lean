import Eeos.Driver.Nesting
import Eeos.Driver.IrqLines

/-!
# What the interrupt layer is for (`driver/interrupt/interrupt.c` over `gicv3.c`)

Seen from the drivers, the interrupt layer is a table: which handler a line has, and whether it is
enabled.  The descriptors, the controller's operations and registers and the nesting counter are how
the code keeps it.

* `Table` — the table, and how often an interrupt was acknowledged.
* `Program` — code that requests, masks and unmasks lines, and is interrupted in between by
interrupts whose handlers do the same.
* `Program.activity`, `Program.spec` — what the code does when it runs, and what it should do.
* `replay` — the table after a list of actions, read off the actions alone.

Principal results: `Program.run_refines` (the code does what the table says, however the deliveries
nest) and `Program.run_dispatches` (each handler called is the one installed last).
-/

namespace Eeos.Interrupt

open Gicv3

variable {H : Type}

/-! ## The abstract machine -/

structure Table (H : Type) where
  handler : Nat → H
  enabled : Nat → Bool
  acks : Nat

namespace Table

def call (a : Table H) : Call H → Table H
  | .request irq handler _ _ _ =>
    { a with
      handler := Function.update a.handler irq (handler.getD (a.handler irq))
      enabled := Function.update a.enabled irq true }
  | .mask irq => { a with enabled := Function.update a.enabled irq false }
  | .unmask irq => { a with enabled := Function.update a.enabled irq true }

end Table

/-- What is seen of a run: an event, or a call that was made. -/
inductive Action (H : Type) where
  | event (e : Event H)
  | made (c : Call H)

/-- The trace of the code shows a call as work. -/
def Action.toEvent : Action H → Event H
  | .event e => e
  | .made _ => .work

inductive Program (H : Type) where
  | done
  | call (c : Call H) (next : Program H)
  | interrupted (handler next : Program H)

namespace Program

/-- The calls are for lines that have an enable bit. -/
def InRange : Program H → Prop
  | done => True
  | call c next => c.irq < 1024 ∧ next.InRange
  | interrupted handler next => handler.InRange ∧ next.InRange

/-- The program as the code runs it. -/
def activity : Program H → Activity H Gic
  | done => .done
  | call c next => .step (fun cpu => c.step cpu.toState) next.activity
  | interrupted handler next => .interrupted handler.activity next.activity

/-- One interrupt: its handler is the one in the table. -/
def deliver (iar : Nat → BitVec 32) (body : Table H → List (Action H) × Table H) (a : Table H) :
    List (Action H) × Table H :=
  let irqnr := iar a.acks
  let a := { a with acks := a.acks + 1 }
  if IsSpecial irqnr then ([.event .enter, .event (.ack irqnr), .event .exit], a)
  else if irqnr.toNat < nrIrqs then
    let (w, a') := body a
    (.event .enter :: .event (.ack irqnr) :: .event (.call irqnr (a.handler irqnr.toNat)) ::
      (w ++ [.event (.ret irqnr), .event (.eoi irqnr), .event .exit]), a')
  else ([.event .enter, .event (.ack irqnr), .event (.eoi irqnr), .event .exit], a)

/-- The program as it should run. -/
def spec (iar : Nat → BitVec 32) : Program H → Table H → List (Action H) × Table H
  | done, a => ([], a)
  | call c next, a =>
    let (w, a') := next.spec iar (a.call c)
    (.made c :: w, a')
  | interrupted handler next, a =>
    let (w, a₁) := deliver iar (handler.spec iar) a
    let (w', a₂) := next.spec iar a₁
    (w ++ w', a₂)

end Program

theorem Program.spec_interrupted (iar : Nat → BitVec 32) (handler next : Program H) (a : Table H) :
    (Program.interrupted handler next).spec iar a =
      ((deliver iar (handler.spec iar) a).1 ++
          (next.spec iar (deliver iar (handler.spec iar) a).2).1,
        (next.spec iar (deliver iar (handler.spec iar) a).2).2) := rfl

/-! ## The code's state as a table -/

def Cpu.table (c : Cpu H Gic) : Table H :=
  ⟨fun irq => (c.irqDesc irq).handleIrq, fun irq => (c.dev.line irq).enable, c.acks⟩

/-- The GICv3 driver is registered. -/
structure Installed (c : Cpu H Gic) : Prop where
  chip : c.irqChip = gicv3Chip
  entry : c.handleArchIrq = some .gicv3HandleIrq

theorem requestIrq_desc {irq : Nat} (h : irq < nrIrqs) (handler : Option H)
    (flags name data : Vmsa.Word) (s : State H Gic) :
    (requestIrq irq handler flags name data s).2.irqDesc =
      Function.update s.irqDesc irq ((s.irqDesc irq).request handler flags name data) := by
  rw [requestIrq, irqToDesc, if_pos h]
  exact callChip_desc _ _ _

theorem callStep_handlers {c : Call H} (h : c.irq < 1024) (cpu : Cpu H Gic) :
    (fun irq => ((c.step cpu.toState).irqDesc irq).handleIrq) = (cpu.table.call c).handler := by
  funext irq
  cases c with
  | request irq' handler flags name data =>
    have haccept : irq' < nrIrqs := Nat.lt_trans h (by decide)
    show ((requestIrq irq' handler flags name data cpu.toState).2.irqDesc irq).handleIrq =
      Function.update cpu.table.handler irq' _ irq
    rw [requestIrq_desc haccept]
    by_cases he : irq = irq'
    · subst he
      rw [Function.update_self, Function.update_self]
      rfl
    · rw [Function.update_of_ne he, Function.update_of_ne he]
      rfl
  | mask irq' =>
    rw [Call.step, maskIrq, callChip_desc]
    rfl
  | unmask irq' =>
    rw [Call.step, unmaskIrq, callChip_desc]
    rfl

theorem callStep_enabled {cpu : Cpu H Gic} (hchip : cpu.irqChip = gicv3Chip) {c : Call H}
    (h : c.irq < 1024) :
    (fun irq => ((c.step cpu.toState).dev.line irq).enable) = (cpu.table.call c).enabled := by
  have henabled : (cpu.table.call c).enabled =
      Function.update cpu.table.enabled c.irq c.enables := by
    cases c <;> rfl
  funext irq
  rw [Call.step_line hchip h, henabled]
  by_cases he : irq = c.irq
  · rw [he, Function.update_self, Function.update_self]
  · rw [Function.update_of_ne he, Function.update_of_ne he]
    rfl

/-- **A call does to the descriptors and the registers what it does to the table.** -/
theorem table_call {cpu : Cpu H Gic} (hcpu : Installed cpu) {c : Call H} (h : c.irq < 1024) :
    ({ cpu with toState := c.step cpu.toState } : Cpu H Gic).table = cpu.table.call c ∧
      Installed ({ cpu with toState := c.step cpu.toState } : Cpu H Gic) := by
  have hacks : (cpu.table.call c).acks = cpu.acks := by
    cases c <;> rfl
  constructor
  · show (⟨_, _, cpu.acks⟩ : Table H) = _
    rw [callStep_handlers h, callStep_enabled hcpu.chip h, ← hacks]
  · exact ⟨(c.step_chip _).trans hcpu.chip, hcpu.entry⟩

/-! ## The code does what the table says -/

/-- The routine leaves the trace and the table that `f` gives, from every state. -/
def Refines (p : Routine H Gic Unit) (f : Table H → List (Action H) × Table H) : Prop :=
  ∀ c, Installed c → (p c).1.map Entry.event = (f c.table).1.map Action.toEvent ∧
    (p c).2.2.table = (f c.table).2 ∧ Installed (p c).2.2

/-- **One delivery**, whatever its handler is interrupted by. -/
theorem interrupt_refines (iar : Nat → BitVec 32) {body : Routine H Gic Unit}
    {f : Table H → List (Action H) × Table H} (hbody : Refines body f) :
    Refines (interrupt iar body) (Program.deliver iar f) := by
  intro c hc
  have hentry : callArchIrq iar body c.handleArchIrq = gicv3HandleIrq iar body := by
    rw [hc.entry, callArchIrq]
  rw [interrupt_run, handleDomainIrq_run, hentry, gicv3HandleIrq_run]
  have hacks : c.table.acks = c.acks := rfl
  unfold Program.deliver
  rw [hacks]
  generalize iar c.acks = irqnr
  by_cases hspecial : IsSpecial irqnr
  · simp only [if_pos hspecial]
    exact ⟨rfl, rfl, hc.chip, hc.entry⟩
  · simp only [if_neg hspecial]
    by_cases hdesc : irqnr.toNat < nrIrqs
    · -- the body runs in the state after entry and acknowledgement
      obtain ⟨htrace, htable, hinstalled⟩ :=
        hbody { c with interruptNest := c.interruptNest + 1, acks := c.acks + 1 }
          ⟨hc.chip, hc.entry⟩
      simp only [if_pos hdesc, bind_run, genericHandleIrq_run body hdesc]
      refine ⟨?_, htable, hinstalled.chip, hinstalled.entry⟩
      simp only [List.map_cons, List.map_append, List.cons_append, htrace, List.append_assoc,
        List.map_nil, List.nil_append]
      rfl
    · simp only [if_neg hdesc, bind_run, genericHandleIrq_none body hdesc]
      exact ⟨rfl, rfl, hc.chip, hc.entry⟩

/-- **The code refines the table**: every program, however its interrupts nest, leaves the trace and
the table that it should. -/
theorem Program.run_refines (iar : Nat → BitVec 32) (p : Program H) (hp : p.InRange) :
    Refines (p.activity.run iar) (p.spec iar) := by
  induction p with
  | done => exact fun c hc => ⟨rfl, rfl, hc⟩
  | call c next ih =>
    intro cpu hcpu
    obtain ⟨htable, hinstalled⟩ := table_call hcpu hp.1
    obtain ⟨htrace, hend, hinstalled'⟩ := ih hp.2 _ hinstalled
    rw [htable] at htrace hend
    exact ⟨congrArg (Event.work :: ·) htrace, hend, hinstalled'⟩
  | interrupted handler next ihHandler ih =>
    intro cpu hcpu
    obtain ⟨htrace, htable, hinstalled⟩ := interrupt_refines iar (ihHandler hp.1) cpu hcpu
    obtain ⟨htrace', hend, hinstalled'⟩ := ih hp.2 _ hinstalled
    rw [htable] at htrace' hend
    rw [activity, Activity.run, bind_run, spec_interrupted, List.map_append, List.map_append, htrace,
      htrace']
    exact ⟨rfl, hend, hinstalled'⟩

/-! ## Who is called -/

/-- The table after the actions; an acknowledgement is counted. -/
def Table.act (a : Table H) : Action H → Table H
  | .event (.ack _) => { a with acks := a.acks + 1 }
  | .event _ => a
  | .made c => a.call c

def Table.replay (w : List (Action H)) (a : Table H) : Table H := w.foldl Table.act a

/-- * `table` — the table at the end is what the actions make of it.
* `called` — each handler called is the table's at that point. -/
structure Traced (a : Table H) (w : List (Action H)) (b : Table H) : Prop where
  table : b = a.replay w
  called : ∀ pre irqnr handler post, w = pre ++ .event (.call irqnr handler) :: post →
    handler = (a.replay pre).handler irqnr.toNat

theorem Table.replay_append (w w' : List (Action H)) (a : Table H) :
    Table.replay (w ++ w') a = (a.replay w).replay w' := List.foldl_append

theorem Traced.append {a b b' : Table H} {w w' : List (Action H)} (h : Traced a w b)
    (h' : Traced b w' b') : Traced a (w ++ w') b' := by
  obtain ⟨rfl, hcalled⟩ := h
  obtain ⟨rfl, hcalled'⟩ := h'
  refine ⟨(Table.replay_append w w' a).symm, ?_⟩
  intro pre irqnr handler post he
  rcases List.append_eq_append_iff.mp he with ⟨mid, rfl, he'⟩ | ⟨mid, rfl, hmid⟩
  · rw [Table.replay_append]
    exact hcalled' mid irqnr handler post he'
  · cases mid with
    | nil =>
      rw [List.append_nil] at hcalled'
      exact hcalled' [] irqnr handler post hmid.symm
    | cons x mid =>
      obtain ⟨rfl, -⟩ := List.cons.inj hmid
      exact hcalled pre irqnr handler mid rfl

/-- One action, which calls the table's handler if it calls one. -/
theorem traced_single (a : Table H) {x : Action H}
    (h : ∀ n f, x = .event (.call n f) → f = a.handler n.toNat) : Traced a [x] (a.act x) where
  table := rfl
  called := by
    intro pre irqnr handler post he
    cases pre with
    | nil => exact h irqnr handler (List.cons.inj he).1
    | cons y pre =>
      have hnil := (List.cons.inj he).2
      exact absurd hnil (by simp)

theorem traced_deliver (iar : Nat → BitVec 32) {f : Table H → List (Action H) × Table H}
    (hf : ∀ a, Traced a (f a).1 (f a).2) (a : Table H) :
    Traced a (Program.deliver iar f a).1 (Program.deliver iar f a).2 := by
  have hack : Traced a [.event .enter, .event (.ack (iar a.acks))]
      { a with acks := a.acks + 1 } :=
    (traced_single a (x := .event .enter) (by simp)).append (traced_single a (by simp))
  have hret : ∀ b : Table H, Traced b [.event (.ret (iar a.acks))] b :=
    fun b => traced_single b (by simp)
  have heoi : ∀ b : Table H, Traced b [.event (.eoi (iar a.acks)), .event .exit] b :=
    fun b => (traced_single b (x := .event (.eoi (iar a.acks))) (by simp)).append
      (traced_single b (x := .event .exit) (by simp))
  unfold Program.deliver
  by_cases hspecial : IsSpecial (iar a.acks)
  · simp only [if_pos hspecial]
    exact hack.append (traced_single _ (x := .event .exit) (by simp))
  · simp only [if_neg hspecial]
    by_cases hdesc : (iar a.acks).toNat < nrIrqs
    · simp only [if_pos hdesc]
      have hcall : Traced { a with acks := a.acks + 1 }
          [.event (.call (iar a.acks) (a.handler (iar a.acks).toNat))] _ :=
        traced_single _ (by
          intro n f he
          cases he
          rfl)
      exact (hack.append hcall).append ((hf _).append ((hret _).append (heoi _)))
    · simp only [if_neg hdesc]
      exact hack.append (heoi _)

/-- **Each handler called is the one in the table at that point.** -/
theorem Program.spec_traced (iar : Nat → BitVec 32) (p : Program H) (a : Table H) :
    Traced a (p.spec iar a).1 (p.spec iar a).2 := by
  induction p generalizing a with
  | done => exact ⟨rfl, fun pre _ _ _ he => absurd he (by simp [spec])⟩
  | call c next ih => exact (traced_single a (x := .made c) (by simp)).append (ih (a.call c))
  | interrupted handler next ihHandler ih => exact (traced_deliver iar ihHandler a).append (ih _)

/-! ## The table as a history -/

def callsMade (w : List (Action H)) : List (Call H) :=
  w.filterMap fun
    | .event _ => none
    | .made c => some c

def requestsMade (w : List (Action H)) : List (Request H) :=
  (callsMade w).filterMap fun
    | .request irq handler flags name data => some ⟨irq, handler, flags, name, data⟩
    | _ => none

/-- The last call for `irq`. -/
def lastCall (irq : Nat) (w : List (Action H)) : Option (Call H) :=
  (callsMade w).reverse.find? fun c => c.irq = irq

theorem callsMade_snoc (w : List (Action H)) (x : Action H) :
    callsMade (w ++ [x]) = callsMade w ++ callsMade [x] := List.filterMap_append

theorem requestsMade_snoc (w : List (Action H)) (x : Action H) :
    requestsMade (w ++ [x]) = requestsMade w ++ requestsMade [x] := by
  rw [requestsMade, callsMade_snoc, List.filterMap_append]
  rfl

theorem replay_snoc (w : List (Action H)) (x : Action H) (a : Table H) :
    Table.replay (w ++ [x]) a = (a.replay w).act x := Table.replay_append w [x] a

/-- An event is no call. -/
theorem act_event (a : Table H) (e : Event H) :
    (a.act (.event e)).handler = a.handler ∧ (a.act (.event e)).enabled = a.enabled := by
  cases e <;> exact ⟨rfl, rfl⟩

/-- **The handler of a line is the one given last**, by whatever code. -/
theorem replay_handler (a : Table H) (w : List (Action H)) (irq : Nat) :
    (a.replay w).handler irq =
      ((installer irq (requestsMade w)).bind Request.handler).getD (a.handler irq) := by
  induction w using List.reverseRecOn with
  | nil => rfl
  | append_singleton w x ih =>
    rw [replay_snoc, requestsMade_snoc]
    cases x with
    | event e =>
      rw [(act_event _ e).1, show requestsMade [Action.event e] = [] from rfl, List.append_nil, ih]
    | made c =>
      cases c with
      | mask irq' => rw [show requestsMade [Action.made (.mask irq')] = [] from rfl,
          List.append_nil, ← ih, Table.act, Table.call]
      | unmask irq' => rw [show requestsMade [Action.made (.unmask irq')] = [] from rfl,
          List.append_nil, ← ih, Table.act, Table.call]
      | request irq' handler flags name data =>
        rw [show requestsMade [Action.made (.request irq' handler flags name data)] =
          [⟨irq', handler, flags, name, data⟩] from rfl, installer_snoc]
        show Function.update (a.replay w).handler irq' _ irq = _
        by_cases he : irq' = irq
        · subst he
          rw [Function.update_self]
          cases handler with
          | none =>
            rw [if_neg (by simp), ← ih]
            rfl
          | some f =>
            rw [if_pos ⟨rfl, rfl⟩]
            rfl
        · rw [Function.update_of_ne (Ne.symm he), if_neg (fun hc => he hc.1), ih]

/-- **A line is enabled as the last call for it says.** -/
theorem replay_enabled (a : Table H) (w : List (Action H)) (irq : Nat) :
    (a.replay w).enabled irq = ((lastCall irq w).map Call.enables).getD (a.enabled irq) := by
  induction w using List.reverseRecOn with
  | nil => rfl
  | append_singleton w x ih =>
    unfold lastCall at ih ⊢
    rw [replay_snoc, callsMade_snoc, List.reverse_append]
    cases x with
    | event e =>
      rw [(act_event _ e).2, ih]
      rfl
    | made c =>
      have hcall : ((a.replay w).act (.made c)).enabled =
          Function.update (a.replay w).enabled c.irq c.enables := by
        cases c <;> rfl
      rw [hcall, show callsMade [Action.made c] = [c] from rfl, List.reverse_singleton,
        List.singleton_append, List.find?_cons]
      by_cases he : c.irq = irq
      · rw [decide_eq_true he, he, Function.update_self]
        rfl
      · rw [decide_eq_false he, Function.update_of_ne (Ne.symm he), ih]

/-- What `p`, started at `c`, does:
* `trace` — the code leaves the trace of the abstract machine.
* `called` — every handler called, at whatever depth, is the one given last for the line by a call
made before, in the order of the trace, and `handle_bad_irq` if none was given.
* `enabled` — in the end a line is enabled as the last call for it says. -/
structure Dispatches (iar : Nat → BitVec 32) (p : Program H) (handleBadIrq : H)
    (c : Cpu H Gic) : Prop where
  trace : (p.activity.run iar c).1.map Entry.event = (p.spec iar c.table).1.map Action.toEvent
  called : ∀ pre irqnr handler post,
    (p.spec iar c.table).1 = pre ++ .event (.call irqnr handler) :: post → irqnr.toNat < nrIrqs →
      handler = ((installer irqnr.toNat (requestsMade pre)).bind Request.handler).getD handleBadIrq
  enabled : ∀ irq, ((p.activity.run iar c).2.2.dev.line irq).enable =
    ((lastCall irq (p.spec iar c.table).1).map Call.enables).getD (c.dev.line irq).enable

/-- **Interrupts go where the last request sends them**, across all interleavings of drivers with
nested deliveries. -/
theorem Program.run_dispatches (iar : Nat → BitVec 32) (p : Program H) (hp : p.InRange)
    {c : Cpu H Gic} (hc : Installed c) {handleBadIrq : H}
    (hboot : ∀ irq < nrIrqs, (c.irqDesc irq).handleIrq = handleBadIrq) :
    Dispatches iar p handleBadIrq c := by
  obtain ⟨htrace, htable, -⟩ := p.run_refines iar hp c hc
  obtain ⟨hreplay, hcalled⟩ := p.spec_traced iar c.table
  refine ⟨htrace, ?_, ?_⟩
  · intro pre irqnr handler post he hlt
    rw [hcalled pre irqnr handler post he, replay_handler]
    exact congrArg _ (hboot irqnr.toNat hlt)
  · intro irq
    have henabled : ((p.activity.run iar c).2.2.dev.line irq).enable =
        (p.activity.run iar c).2.2.table.enabled irq := rfl
    rw [henabled, htable, hreplay, replay_enabled]
    rfl

/-- Interrupt 33 has no handler of its own; while it is handled, line 34 is requested. -/
def requestsInside : Program Nat :=
  .interrupted (.call (.request 34 (some 2) 0 0 0) .done) (.interrupted .done .done)

def installedCpu : Cpu Nat Gic :=
  ⟨⟨⟨fun _ => bootDesc 0, gicv3Chip, oneEnabled⟩, some .gicv3HandleIrq, 0⟩, 0⟩

theorem run_dispatches_inside :
    (requestsInside.activity.run (fun k => [33, 34].getD k 1023) installedCpu).1.map Entry.event =
        [.enter, .ack 33, .call 33 0, .work, .ret 33, .eoi 33, .exit, .enter, .ack 34, .call 34 2,
          .ret 34, .eoi 34, .exit] ∧
      Dispatches (fun k => [33, 34].getD k 1023) requestsInside 0 installedCpu :=
  ⟨rfl, requestsInside.run_dispatches _ ⟨⟨by decide, trivial⟩, trivial, trivial⟩ ⟨rfl, rfl⟩
    fun _ _ => rfl⟩

end Eeos.Interrupt
