import Eeos.Lib.Bracket
import Mathlib.Data.List.Pairwise

/-!
# Masking interrupts (`arch/arm64/include/asm/irqflags.h`, `include/eeos/irqflags.h`)

`local_irq_save` reads `DAIF` with one instruction and sets its I bit with the next, so that an
interrupt can come in between.  The processor here executes code one instruction at a time; an
interrupt that is pending is taken at any point where the I bit is clear, saves `DAIF`, masks
everything, and gives it back at `eret`, as `IRQInterruptHandler` (`arch/arm64/vector.S`) does.

* `Code`, `Code.compile` — what a function does to the mask, with critical sections that nest.
* `Cpu`, `step` — the running function, those that are interrupted, and the pending interrupts.
* `Runs`, `Frame.Ok` — what is left of a function, against the sections that it has open.
* `paren` — `save` and `restore`, interrupt and `eret` as brackets, each with the value of `DAIF`.

Principal results: `run_accepts` (the trace of a run is bracketed, by induction on the run) and
`critical_sections` (no interrupt is taken in a section, and the section ends with the mask that it
began with).
-/

namespace Eeos.IrqFlags

open Bracket

/-! ## `DAIF` -/

/-- What `mrs` reads: the bits D, A, I and F, above six zeros. -/
def readDaif (daif : BitVec 4) : BitVec 64 := daif.setWidth 64 <<< 6

/-- What `msr` leaves. -/
def writeDaif (v : BitVec 64) : BitVec 4 := v.extractLsb' 6 4

def irqMasked (daif : BitVec 4) : Bool := daif.getLsbD 1

/-- `msr daifset, #2`. -/
def archLocalIrqDisable (daif : BitVec 4) : BitVec 4 := daif ||| 2

/-- `msr daifclr, #2`. -/
def archLocalIrqEnable (daif : BitVec 4) : BitVec 4 := daif &&& ~~~2

theorem writeDaif_readDaif (daif : BitVec 4) : writeDaif (readDaif daif) = daif := by
  revert daif
  decide

theorem irqMasked_disable (daif : BitVec 4) : irqMasked (archLocalIrqDisable daif) = true := by
  revert daif
  decide

/-! ## Code -/

/-- The instructions of `irqflags.h`, on numbered variables, and any other one.  The `msr daifset`
of `arch_local_irq_save` is told apart by its variable. -/
inductive Insn where
  | work
  | daifset (save : Option Nat)
  | daifclr
  | mrs (x : Nat)
  | msr (x : Nat)
  deriving DecidableEq, Repr

def Insn.exec (i : Insn) (daif : BitVec 4) (flags : Nat → BitVec 64) :
    BitVec 4 × (Nat → BitVec 64) :=
  match i with
  | work => (daif, flags)
  | daifset _ => (archLocalIrqDisable daif, flags)
  | daifclr => (archLocalIrqEnable daif, flags)
  | mrs x => (daif, Function.update flags x (readDaif daif))
  | msr x => (writeDaif (flags x), flags)

/-- A function: `critical x body next` is `local_irq_save(x)`, the body, `local_irq_restore(x)`. -/
inductive Code where
  | done
  | work (next : Code)
  | disable (next : Code)
  | enable (next : Code)
  | critical (x : Nat) (body next : Code)
  deriving DecidableEq, Repr

namespace Code

def compile : Code → List Insn
  | done => []
  | work next => .work :: next.compile
  | disable next => .daifset none :: next.compile
  | enable next => .daifclr :: next.compile
  | critical x body next =>
    .mrs x :: .daifset (some x) :: (body.compile ++ .msr x :: next.compile)

/-- Inside the sections of `vars`, interrupts are not enabled, and no other section saves to the
same variable. -/
def Proper (vars : List Nat) : Code → Prop
  | done => True
  | work next => next.Proper vars
  | disable next => next.Proper vars
  | enable next => vars = [] ∧ next.Proper vars
  | critical x body next => x ∉ vars ∧ body.Proper (x :: vars) ∧ next.Proper vars

/-- What the code does to the mask outside its critical sections. -/
def mask (daif : BitVec 4) : Code → BitVec 4
  | done => daif
  | work next => next.mask daif
  | disable next => next.mask (archLocalIrqDisable daif)
  | enable next => next.mask (archLocalIrqEnable daif)
  | critical _ _ next => next.mask daif

end Code

/-! ## The processor -/

structure Frame where
  code : List Insn
  flags : Nat → BitVec 64

/-- The running function, the interrupted ones with the `SPSR` of each, and the interrupts that are
pending, the oldest first, each with what its handler does. -/
structure Cpu where
  daif : BitVec 4
  frame : Frame
  stack : List (BitVec 4 × Frame)
  pending : List Code

inductive Event where
  | raised
  | insn
  | save (x : Nat) (daif : BitVec 4)
  | restore (x : Nat) (daif : BitVec 4)
  | irq (daif : BitVec 4)
  | eret (daif : BitVec 4)
  deriving DecidableEq, Repr

inductive Stimulus where
  | raise (handler : Code)
  | insn
  | irq
  | eret

/-- The event of an instruction, by the mask before it and after it. -/
def Insn.event (i : Insn) (daif daif' : BitVec 4) : Event :=
  match i with
  | daifset (some x) => .save x daif
  | msr x => .restore x daif'
  | _ => .insn

def step (c : Cpu) : Stimulus → Option (Event × Cpu)
  | .raise handler => some (.raised, { c with pending := c.pending ++ [handler] })
  | .insn =>
    match c.frame.code with
    | [] => none
    | i :: code =>
      let (daif, flags) := i.exec c.daif c.frame.flags
      some (i.event c.daif daif, { c with daif := daif, frame := ⟨code, flags⟩ })
  | .irq =>
    if irqMasked c.daif then none
    else
      match c.pending with
      | [] => none
      | handler :: pending =>
        some (.irq c.daif,
          ⟨15, ⟨handler.compile, fun _ => 0⟩, (c.daif, c.frame) :: c.stack, pending⟩)
  | .eret =>
    match c.frame.code, c.stack with
    | [], (spsr, f) :: stack => some (.eret spsr, ⟨spsr, f, stack, c.pending⟩)
    | _, _ => none

def run : Cpu → List Stimulus → Option (List Event × Cpu)
  | c, [] => some ([], c)
  | c, s :: ss =>
    match step c s with
    | none => none
    | some (e, c₁) =>
      match run c₁ ss with
      | none => none
      | some (es, c') => some (e :: es, c')

/-- The function `code`, entered with the mask `daif`. -/
def start (daif : BitVec 4) (code : Code) : Cpu := ⟨daif, ⟨code.compile, fun _ => 0⟩, [], []⟩

/-- The function has returned. -/
def Cpu.Finished (c : Cpu) : Prop := c.frame.code = [] ∧ c.stack = []

/-! ## Brackets -/

inductive Label where
  | critical (x : Nat) (daif : BitVec 4)
  | handler (daif : BitVec 4)
  deriving DecidableEq, Repr

def paren : Event → Option (Paren Label)
  | .save x daif => some (.opens (.critical x daif))
  | .restore x daif => some (.closes (.critical x daif))
  | .irq daif => some (.opens (.handler daif))
  | .eret daif => some (.closes (.handler daif))
  | .raised => none
  | .insn => none

/-- An interrupt is taken where the I bit is clear and no critical section is open, in the interrupted
function or in any other. -/
def Allowed (e : Event) (st : List Label) : Prop :=
  match e with
  | .irq daif => irqMasked daif = false ∧ ∀ x d, Label.critical x d ∉ st
  | _ => True

/-! ## What is left of a function -/

/-- The code goes on inside the sections that saved to the variables of the list, the innermost
first. -/
inductive Runs : List Nat → List Insn → Prop where
  | done : Runs [] []
  | work {o : List Nat} {r : List Insn} : Runs o r → Runs o (.work :: r)
  | disable {o : List Nat} {r : List Insn} : Runs o r → Runs o (.daifset none :: r)
  | enable {r : List Insn} : Runs [] r → Runs [] (.daifclr :: r)
  | save {o : List Nat} {x : Nat} {r : List Insn} : x ∉ o → Runs (x :: o) r →
      Runs o (.mrs x :: .daifset (some x) :: r)
  | restore {o : List Nat} {x : Nat} {r : List Insn} : Runs o r → Runs (x :: o) (.msr x :: r)

theorem Code.compile_append_runs {c : Code} {o : List Nat} (hc : c.Proper o) {r : List Insn}
    (hr : Runs o r) : Runs o (c.compile ++ r) := by
  induction c generalizing o r with
  | done => exact hr
  | work next ih => exact .work (ih hc hr)
  | disable next ih => exact .disable (ih hc hr)
  | enable next ih =>
    obtain ⟨rfl, hnext⟩ := hc
    exact .enable (ih hnext hr)
  | critical x body next ihBody ihNext =>
    obtain ⟨hx, hbody, hnext⟩ := hc
    have hrest := ihBody hbody (.restore (ihNext hnext hr))
    rw [compile, List.cons_append, List.cons_append, List.append_assoc]
    exact .save hx hrest

theorem Code.compile_runs {c : Code} (hc : c.Proper []) : Runs [] c.compile := by
  have h := compile_append_runs hc .done
  rwa [List.append_nil] at h

/-- A function with the sections `ds` open, each with the mask that it found: between the two
instructions of `local_irq_save`, the variable holds the mask already. -/
structure Frame.Ok (ds : List (Nat × BitVec 4)) (daif : BitVec 4) (f : Frame) : Prop where
  runs : Runs (ds.map Prod.fst) f.code ∨ ∃ x r, f.code = .daifset (some x) :: r ∧
    x ∉ ds.map Prod.fst ∧ Runs (x :: ds.map Prod.fst) r ∧ writeDaif (f.flags x) = daif
  saved : ∀ p ∈ ds, writeDaif (f.flags p.1) = p.2
  masked : ds ≠ [] → irqMasked daif = true
  nested : ds.Pairwise fun p _ => irqMasked p.2 = true

/-- The functions that are interrupted are in no section. -/
inductive Below : List (BitVec 4 × Frame) → List Label → Prop where
  | nil : Below [] []
  | cons {spsr : BitVec 4} {f : Frame} {stack : List (BitVec 4 × Frame)} {st : List Label} :
      f.Ok [] spsr → Below stack st → Below ((spsr, f) :: stack) (.handler spsr :: st)

def labels (ds : List (Nat × BitVec 4)) : List Label := ds.map fun p => .critical p.1 p.2

structure Inv (c : Cpu) (st : List Label) : Prop where
  frames : ∃ ds st', c.frame.Ok ds c.daif ∧ Below c.stack st' ∧ st = labels ds ++ st'
  pending : ∀ handler ∈ c.pending, handler.Proper []

theorem Code.ok {c : Code} (hc : c.Proper []) (daif : BitVec 4) :
    (⟨c.compile, fun _ => 0⟩ : Frame).Ok [] daif where
  runs := Or.inl (Code.compile_runs hc)
  saved _ hp := absurd hp List.not_mem_nil
  masked h := absurd rfl h
  nested := .nil

theorem Below.handlers {stack : List (BitVec 4 × Frame)} {st : List Label} (h : Below stack st)
    (x : Nat) (d : BitVec 4) : Label.critical x d ∉ st := by
  induction h with
  | nil => exact List.not_mem_nil
  | cons _ _ ih =>
    intro hmem
    rcases List.mem_cons.mp hmem with he | hmem
    · exact Label.noConfusion he
    · exact ih hmem

/-! ## One step -/

/-- One instruction of the running function: what becomes of its open sections. -/
theorem Frame.Ok.insn {ds : List (Nat × BitVec 4)} {daif : BitVec 4} {i : Insn} {r : List Insn}
    {flags : Nat → BitVec 64} (h : (⟨i :: r, flags⟩ : Frame).Ok ds daif) :
    ∃ ds', (⟨r, (i.exec daif flags).2⟩ : Frame).Ok ds' (i.exec daif flags).1 ∧
      ∀ st, Step paren (labels ds ++ st) (i.event daif (i.exec daif flags).1) (labels ds' ++ st) ∧
        Allowed (i.event daif (i.exec daif flags).1) (labels ds' ++ st) := by
  obtain ⟨hruns, hsaved, hmasked, hnested⟩ := h
  rcases hruns with hruns | ⟨x, r', hcode, hx, hruns, hflags⟩
  · generalize ho : ds.map Prod.fst = o at hruns
    generalize hcode : i :: r = code at hruns
    cases hruns with
    | done => cases hcode
    | work hr =>
      cases hcode
      subst ho
      exact ⟨ds, ⟨Or.inl hr, hsaved, hmasked, hnested⟩, fun st => ⟨.other rfl, trivial⟩⟩
    | disable hr =>
      cases hcode
      subst ho
      exact ⟨ds, ⟨Or.inl hr, hsaved, fun _ => irqMasked_disable daif, hnested⟩,
        fun st => ⟨.other rfl, trivial⟩⟩
    | enable hr =>
      cases hcode
      obtain rfl : ds = [] := List.map_eq_nil_iff.mp ho
      exact ⟨[], ⟨Or.inl hr, hsaved, fun hne => absurd rfl hne, .nil⟩,
        fun st => ⟨.other rfl, trivial⟩⟩
    | @save _ x r' hx hr =>
      cases hcode
      subst ho
      -- the variable now holds the mask; the sections that are open saved to others
      refine ⟨ds, ⟨Or.inr ⟨x, r', rfl, hx, hr, ?_⟩, ?_, hmasked, hnested⟩,
        fun st => ⟨.other rfl, trivial⟩⟩
      · show writeDaif (Function.update flags x (readDaif daif) x) = daif
        rw [Function.update_self, writeDaif_readDaif]
      · intro p hp
        have hne : p.1 ≠ x := by
          rintro rfl
          exact hx (List.mem_map_of_mem hp)
        show writeDaif (Function.update flags x (readDaif daif) p.1) = p.2
        rw [Function.update_of_ne hne]
        exact hsaved p hp
    | @restore o' x r' hr =>
      cases hcode
      cases ds with
      | nil => cases ho
      | cons p ds =>
        obtain ⟨rfl, rfl⟩ := List.cons.inj ho
        rw [List.pairwise_cons] at hnested
        -- the section gives back the mask that it found
        have hback : writeDaif (flags p.1) = p.2 := hsaved p List.mem_cons_self
        refine ⟨ds, ⟨Or.inl hr, fun q hq => hsaved q (List.mem_cons_of_mem p hq), ?_, hnested.2⟩,
          fun st => ⟨?_, trivial⟩⟩
        · intro hne
          obtain ⟨q, hq⟩ := List.exists_mem_of_ne_nil ds hne
          show irqMasked (writeDaif (flags p.1)) = true
          rw [hback]
          exact hnested.1 q hq
        · show Step paren (.critical p.1 p.2 :: (labels ds ++ st))
            (.restore p.1 (writeDaif (flags p.1))) (labels ds ++ st)
          rw [hback]
          exact .closes rfl
  · obtain ⟨rfl, rfl⟩ := List.cons.inj hcode
    refine ⟨(x, daif) :: ds, ⟨Or.inl hruns, ?_, fun _ => irqMasked_disable daif, ?_⟩,
      fun st => ⟨.opens rfl, trivial⟩⟩
    · intro p hp
      rcases List.mem_cons.mp hp with rfl | hp
      · exact hflags
      · exact hsaved p hp
    · rw [List.pairwise_cons]
      exact ⟨fun q hq => hmasked (List.ne_nil_of_mem hq), hnested⟩

/-- **One step** keeps the invariant, and does to the brackets what its event says. -/
theorem Inv.step {c c' : Cpu} {st : List Label} (h : Inv c st) {s : Stimulus} {e : Event}
    (hs : ∀ handler, s = .raise handler → handler.Proper [])
    (hstep : IrqFlags.step c s = some (e, c')) :
    ∃ st', Step paren st e st' ∧ Allowed e st' ∧ Inv c' st' := by
  obtain ⟨⟨ds, st', hok, hbelow, rfl⟩, hpending⟩ := h
  cases s with
  | raise handler =>
    cases hstep
    refine ⟨_, .other rfl, trivial, ⟨⟨ds, st', hok, hbelow, rfl⟩, ?_⟩⟩
    intro handler' hmem
    rcases List.mem_append.mp hmem with hmem | hmem
    · exact hpending handler' hmem
    · rw [List.mem_singleton.mp hmem]
      exact hs handler rfl
  | insn =>
    obtain ⟨daif, ⟨code, flags⟩, stack, pending⟩ := c
    cases code with
    | nil => cases hstep
    | cons i r =>
      cases hstep
      obtain ⟨ds', hok', hevent⟩ := hok.insn
      obtain ⟨hparen, hallowed⟩ := hevent st'
      exact ⟨_, hparen, hallowed, ⟨⟨ds', st', hok', hbelow, rfl⟩, hpending⟩⟩
  | irq =>
    obtain ⟨hunmasked, hstep⟩ := Option.ite_none_left_eq_some.mp hstep
    obtain ⟨daif, frame, stack, pending⟩ := c
    cases pending with
    | nil => cases hstep
    | cons handler pending =>
      cases hstep
      rw [List.forall_mem_cons] at hpending
      -- an open section would mask the interrupt
      obtain rfl : ds = [] := by
        by_contra hne
        exact hunmasked (hok.masked hne)
      refine ⟨.handler daif :: st', .opens rfl, ⟨Bool.not_eq_true _ ▸ hunmasked, ?_⟩,
        ⟨⟨[], _, Code.ok hpending.1 15, .cons hok hbelow, rfl⟩, hpending.2⟩⟩
      exact (Below.cons hok hbelow).handlers
  | eret =>
    obtain ⟨daif, ⟨code, flags⟩, stack, pending⟩ := c
    cases code with
    | cons i r => cases hstep
    | nil =>
      cases hbelow with
      | nil => cases hstep
      | @cons spsr f stack st₀ hf hbelow =>
        cases hstep
        -- a function returns outside its sections
        obtain rfl : ds = [] := by
          rcases hok.runs with hruns | ⟨x, r, hcode, -⟩
          · generalize ho : ds.map Prod.fst = o at hruns
            cases hruns
            exact List.map_eq_nil_iff.mp ho
          · cases hcode
        exact ⟨st₀, .closes rfl, trivial, ⟨⟨[], st₀, hf, hbelow, rfl⟩, hpending⟩⟩

/-! ## Runs -/

theorem run_cons {c c' : Cpu} {s : Stimulus} {ss : List Stimulus} {es : List Event}
    (hrun : run c (s :: ss) = some (es, c')) :
    ∃ e c₁ es₁, step c s = some (e, c₁) ∧ run c₁ ss = some (es₁, c') ∧ es = e :: es₁ := by
  rw [run] at hrun
  split at hrun
  · cases hrun
  · rename_i e c₁ hs
    split at hrun
    · cases hrun
    · rename_i es₁ c₂ hrun₁
      cases hrun
      exact ⟨e, c₁, es₁, hs, hrun₁, rfl⟩

/-- The handlers of a run are in order. -/
def ProperHandlers (ss : List Stimulus) : Prop :=
  ∀ handler, .raise handler ∈ ss → Code.Proper [] handler

/-- **A run keeps the invariant**, and its trace is bracketed. -/
theorem run_accepts {c c' : Cpu} {st : List Label} (h : Inv c st) {ss : List Stimulus}
    (hss : ProperHandlers ss) {es : List Event} (hrun : run c ss = some (es, c')) :
    ∃ st', Accepts paren Allowed st es st' ∧ Inv c' st' := by
  induction ss generalizing c st es with
  | nil =>
    cases hrun
    exact ⟨st, .nil, h⟩
  | cons s ss ih =>
    obtain ⟨e, c₁, es₁, hstep, hrun₁, rfl⟩ := run_cons hrun
    obtain ⟨st₁, hparen, hallowed, h₁⟩ :=
      h.step (fun handler he => hss handler (he ▸ List.mem_cons_self)) hstep
    obtain ⟨st', htrace, h'⟩ :=
      ih h₁ (fun handler hmem => hss handler (List.mem_cons_of_mem s hmem)) hrun₁
    exact ⟨st', .cons hparen hallowed htrace, h'⟩

theorem start_inv {code : Code} (hcode : code.Proper []) (daif : BitVec 4) :
    Inv (start daif code) [] :=
  ⟨⟨[], [], Code.ok hcode daif, .nil, rfl⟩, fun _ hmem => absurd hmem List.not_mem_nil⟩

/-- A function that has returned has closed its sections, and no handler is running. -/
theorem Inv.finished {c : Cpu} {st : List Label} (h : Inv c st) (hc : c.Finished) : st = [] := by
  obtain ⟨⟨ds, st', hok, hbelow, rfl⟩, -⟩ := h
  obtain ⟨hcode, hstack⟩ := hc
  rw [hstack] at hbelow
  cases hbelow
  rcases hok.runs with hruns | ⟨x, r, hmid, -⟩
  · rw [hcode] at hruns
    generalize ho : ds.map Prod.fst = o at hruns
    cases hruns
    rw [List.map_eq_nil_iff.mp ho]
    rfl
  · cases hcode.symm.trans hmid

/-- In an open section an event opens or closes what is above it, or is its `local_irq_restore`; it
is no interrupt. -/
theorem section_step {e : Event} {ds : List (Nat × BitVec 4)} {x : Nat} {d : BitVec 4}
    {st st' : List Label} (hstep : Step paren (labels ds ++ .critical x d :: st) e st')
    (hallowed : Allowed e st') :
    (∃ ds', st' = labels ds' ++ .critical x d :: st ∧ ∀ d', e ≠ .irq d') ∨ e = .restore x d := by
  rcases hstep.inv with ⟨l, he, rfl⟩ | ⟨l, he, hst⟩ | ⟨he, rfl⟩
  · cases e with
    | save y d' =>
      cases he
      exact Or.inl ⟨(y, d') :: ds, rfl, fun _ => Event.noConfusion⟩
    | irq d' =>
      have hin : Label.critical x d ∈ l :: (labels ds ++ .critical x d :: st) := by simp
      exact absurd hin (hallowed.2 x d)
    | restore y d' => cases he
    | eret d' => cases he
    | raised => cases he
    | insn => cases he
  · cases ds with
    | nil =>
      obtain ⟨rfl, rfl⟩ := List.cons.inj hst
      cases e with
      | restore y d' =>
        cases he
        exact Or.inr rfl
      | save y d' => cases he
      | irq d' => cases he
      | eret d' => cases he
      | raised => cases he
      | insn => cases he
    | cons p ds =>
      obtain ⟨rfl, rfl⟩ := List.cons.inj hst
      refine Or.inl ⟨ds, rfl, ?_⟩
      rintro d' rfl
      cases he
  · refine Or.inl ⟨ds, rfl, ?_⟩
    rintro d' rfl
    cases he

/-- What is above an open section is closed, section by section, without an interrupt. -/
theorem uninterrupted {w : List Event} {ds : List (Nat × BitVec 4)} {x : Nat} {d : BitVec 4}
    {st st' : List Label} (h : Accepts paren Allowed (labels ds ++ .critical x d :: st) w st') :
    (∀ d', .irq d' ∉ w) ∨
      ∃ mid post, w = mid ++ .restore x d :: post ∧ ∀ d', Event.irq d' ∉ mid := by
  induction w generalizing ds with
  | nil => exact Or.inl fun _ => List.not_mem_nil
  | cons e w ih =>
    cases h with
    | cons hstep hallowed hrest =>
      rcases section_step hstep hallowed with ⟨ds', rfl, hne⟩ | rfl
      · rcases ih hrest with hnone | ⟨mid, post, rfl, hmid⟩
        · refine Or.inl fun d' hmem => ?_
          rcases List.mem_cons.mp hmem with he | hmem
          · exact hne d' he.symm
          · exact hnone d' hmem
        · refine Or.inr ⟨e :: mid, post, rfl, fun d' hmem => ?_⟩
          rcases List.mem_cons.mp hmem with he | hmem
          · exact hne d' he.symm
          · exact hmid d' hmem
      · exact Or.inr ⟨[], w, rfl, fun _ => List.not_mem_nil⟩

/-! ## What the interrupts do to the function -/

/-- The mask that the instructions leave, if nothing interrupts them. -/
def settle : List Insn → BitVec 4 → (Nat → BitVec 64) → BitVec 4
  | [], daif, _ => daif
  | i :: r, daif, flags => settle r (i.exec daif flags).1 (i.exec daif flags).2

/-- The mask that the function at the bottom of the stack leaves. -/
def bottom (daif : BitVec 4) (f : Frame) : List (BitVec 4 × Frame) → BitVec 4
  | [] => settle f.code daif f.flags
  | (spsr, f') :: stack => bottom spsr f' stack

def Cpu.settles (c : Cpu) : BitVec 4 := bottom c.daif c.frame c.stack

/-- The interrupts that the run has taken, and the ones that the device has raised. -/
def taken (es : List Event) : Nat :=
  es.countP fun
    | .irq _ => true
    | _ => false

def raised (es : List Event) : Nat := es.countP fun e => decide (e = .raised)

theorem step_settles {c c' : Cpu} {s : Stimulus} {e : Event} (hstep : step c s = some (e, c')) :
    c'.settles = c.settles ∧ c'.pending.length + taken [e] = c.pending.length + raised [e] := by
  obtain ⟨daif, ⟨code, flags⟩, stack, pending⟩ := c
  cases s with
  | raise handler =>
    cases hstep
    exact ⟨rfl, by simp [taken, raised]⟩
  | insn =>
    cases code with
    | nil => cases hstep
    | cons i r =>
      cases hstep
      refine ⟨?_, ?_⟩
      · cases stack with
        | nil => rfl
        | cons p stack => rfl
      · cases i with
        | daifset save =>
          cases save with
          | none => rfl
          | some x => rfl
        | work => rfl
        | daifclr => rfl
        | mrs x => rfl
        | msr x => rfl
  | irq =>
    obtain ⟨-, hstep⟩ := Option.ite_none_left_eq_some.mp hstep
    cases pending with
    | nil => cases hstep
    | cons handler pending =>
      cases hstep
      exact ⟨rfl, rfl⟩
  | eret =>
    cases code with
    | cons i r => cases hstep
    | nil =>
      cases stack with
      | nil => cases hstep
      | cons p stack =>
        cases hstep
        exact ⟨rfl, rfl⟩

/-- **No interrupt changes what the function does to the mask**, and none is lost. -/
theorem run_settles {c c' : Cpu} {ss : List Stimulus} {es : List Event}
    (hrun : run c ss = some (es, c')) :
    c'.settles = c.settles ∧ c'.pending.length + taken es = c.pending.length + raised es := by
  induction ss generalizing c es with
  | nil =>
    cases hrun
    exact ⟨rfl, rfl⟩
  | cons s ss ih =>
    obtain ⟨e, c₁, es₁, hstep, hrun₁, rfl⟩ := run_cons hrun
    obtain ⟨hsettles, hcount⟩ := step_settles hstep
    obtain ⟨hsettles', hcount'⟩ := ih hrun₁
    have htaken : taken (e :: es₁) = taken [e] + taken es₁ := by
      rw [← List.singleton_append]
      exact List.countP_append
    have hraised : raised (e :: es₁) = raised [e] + raised es₁ := by
      rw [← List.singleton_append]
      exact List.countP_append
    exact ⟨hsettles'.trans hsettles, by omega⟩

/-- Without interrupts, a critical section leaves the mask as it was: its body does not write the
variables of the sections that are open. -/
theorem Code.settle_compile {c : Code} {o : List Nat} (hc : c.Proper o) (r : List Insn)
    (daif : BitVec 4) (flags : Nat → BitVec 64) :
    ∃ flags', settle (c.compile ++ r) daif flags = settle r (c.mask daif) flags' ∧
      ∀ x ∈ o, flags' x = flags x := by
  induction c generalizing o r daif flags with
  | done => exact ⟨flags, rfl, fun _ _ => rfl⟩
  | work next ih => exact ih hc r daif flags
  | disable next ih => exact ih hc r _ flags
  | enable next ih => exact ih hc.2 r _ flags
  | critical x body next ihBody ihNext =>
    obtain ⟨hx, hbody, hnext⟩ := hc
    obtain ⟨flags₁, hsettle₁, hkeep₁⟩ := ihBody hbody (.msr x :: (next.compile ++ r))
      (archLocalIrqDisable daif) (Function.update flags x (readDaif daif))
    obtain ⟨flags₂, hsettle₂, hkeep₂⟩ := ihNext hnext r daif flags₁
    refine ⟨flags₂, ?_, ?_⟩
    · have hback : writeDaif (flags₁ x) = daif := by
        rw [hkeep₁ x List.mem_cons_self, Function.update_self, writeDaif_readDaif]
      rw [compile, List.cons_append, List.cons_append, List.append_assoc]
      refine hsettle₁.trans ?_
      show settle (next.compile ++ r) (writeDaif (flags₁ x)) flags₁ = _
      rw [hback]
      exact hsettle₂
    · intro y hy
      have hne : y ≠ x := by
        rintro rfl
        exact hx hy
      rw [hkeep₂ y hy, hkeep₁ y (List.mem_cons_of_mem x hy), Function.update_of_ne hne]

/-! ## The run as a whole -/

/-- * `critical` — from `local_irq_save` to the `local_irq_restore` that ends it, or to the end of the
run, no interrupt is taken; what is restored is the mask that was saved.
* `unmasked` — an interrupt is taken only where the I bit is clear.
* `kept` — an interrupt is taken once or still pending.
* `returns` — if the function has returned, every interrupt has given back the mask that it found,
and the mask is what the function does outside its critical sections. -/
structure Guarded (daif : BitVec 4) (code : Code) (es : List Event) (c : Cpu) : Prop where
  critical : ∀ pre x d post, es = pre ++ .save x d :: post → (∀ d', .irq d' ∉ post) ∨
    ∃ mid post', post = mid ++ .restore x d :: post' ∧ ∀ d', Event.irq d' ∉ mid
  unmasked : ∀ d, .irq d ∈ es → irqMasked d = false
  kept : c.pending.length + taken es = raised es
  returns : c.Finished → c.daif = code.mask daif ∧
    ∀ pre d post, es = pre ++ .irq d :: post → ∃ mid post', post = mid ++ .eret d :: post' ∧
      Accepts paren (fun _ _ => True) [] mid []

theorem closes_handler {e : Event} {d : BitVec 4} (h : paren e = some (.closes (.handler d))) :
    e = .eret d := by
  cases e with
  | eret d' =>
    cases h
    rfl
  | restore x d' => cases h
  | save x d' => cases h
  | irq d' => cases h
  | raised => cases h
  | insn => cases h

/-- **Critical sections are not interrupted and restore the mask**, for every function, whatever
interrupts are raised and whenever they are taken, also between the two instructions of
`local_irq_save`. -/
theorem critical_sections {code : Code} (hcode : code.Proper []) (daif : BitVec 4)
    {ss : List Stimulus} (hss : ProperHandlers ss) {es : List Event} {c : Cpu}
    (hrun : run (start daif code) ss = some (es, c)) : Guarded daif code es c := by
  obtain ⟨st, htrace, hinv⟩ := run_accepts (start_inv hcode daif) hss hrun
  obtain ⟨hsettles, hcount⟩ := run_settles hrun
  constructor
  · rintro pre x d post rfl
    obtain ⟨st₁, st₂, -, hstep, -, hrest⟩ := htrace.at
    cases hstep with
    | opens he =>
      cases he
      exact @uninterrupted _ [] _ _ _ _ hrest
    | closes he => cases he
    | other he => cases he
  · intro d hmem
    obtain ⟨pre, post, rfl⟩ := List.append_of_mem hmem
    obtain ⟨st₁, st₂, -, -, hallowed, -⟩ := htrace.at
    exact hallowed.1
  · rw [hcount]
    exact Nat.zero_add _
  · intro hfinished
    refine ⟨?_, ?_⟩
    · obtain ⟨flags, hsettle, -⟩ := Code.settle_compile hcode [] daif fun _ => 0
      rw [List.append_nil] at hsettle
      have hend : c.settles = c.daif := by
        rw [Cpu.settles, hfinished.2, bottom, hfinished.1]
        rfl
      rw [← hend, hsettles]
      exact hsettle
    · rintro pre d post rfl
      obtain rfl := hinv.finished hfinished
      obtain ⟨mid, e, post', -, rfl, hclose, hmid, -, -⟩ := htrace.matching (l := .handler d) rfl
      obtain rfl := closes_handler hclose
      exact ⟨mid, post', rfl, hmid⟩

/-- A critical section inside another one, in a function that interrupts are enabled for. -/
def nestedSections : Code := .critical 0 (.work (.critical 1 (.work .done) .done)) (.work .done)

/-- One interrupt comes between the two instructions of the outer `local_irq_save`, another one
inside it; the latter waits. -/
def twoInterrupts : List Stimulus :=
  [.insn, .raise (.work .done), .irq, .insn, .eret, .insn, .raise .done, .insn, .insn, .insn, .insn,
    .insn, .insn, .irq, .eret, .insn]

theorem critical_sections_nested :
    ∃ c, run (start 0 nestedSections) twoInterrupts =
        some ([.insn, .raised, .irq 0, .insn, .eret 0, .save 0 0, .raised, .insn, .insn, .save 1 2,
          .insn, .restore 1 2, .restore 0 0, .irq 0, .eret 0, .insn], c) ∧
      Guarded 0 nestedSections [.insn, .raised, .irq 0, .insn, .eret 0, .save 0 0, .raised, .insn,
        .insn, .save 1 2, .insn, .restore 1 2, .restore 0 0, .irq 0, .eret 0, .insn] c := by
  have hproper : nestedSections.Proper [] := ⟨by simp, ⟨by simp, trivial, trivial⟩, trivial⟩
  have hhandlers : ProperHandlers twoInterrupts := by
    intro handler hmem
    simp only [twoInterrupts, List.mem_cons, reduceCtorEq, Stimulus.raise.injEq, false_or, or_false,
      List.not_mem_nil] at hmem
    rcases hmem with rfl | rfl
    · trivial
    · trivial
  exact ⟨_, rfl, critical_sections hproper 0 hhandlers rfl⟩

end Eeos.IrqFlags
