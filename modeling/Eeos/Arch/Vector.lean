import Eeos.Lib.Aarch64

/-!
# Interrupt entry and exit (`arch/arm64/vector.S`)

`IRQInterruptHandler` from the first instruction of `save_context` to its `eret`, with
`handle_domain_irq` as any routine that follows the AAPCS64.  While it runs it may be interrupted
itself; the nested handler runs on the same stack, and the exception entry overwrites `ELR_EL1` and
`SPSR_EL1`.  Accesses do not fault: the stack is mapped and aligned.

The exception entry masks interrupts, so none is taken in `save_context`.  None is taken in
`restore_context` either as long as the routine returns with interrupts masked, which the AAPCS64
does not ask of it: interrupts are then taken inside `handle_domain_irq` only.

* `saveContext_spec`, `restoreContext_spec` — the two macros.
* `Code` — code between whose instructions interrupts are taken unless they are masked.
* `Body` — a piece of a run of `handle_domain_irq`: its own steps and interrupts in between.
* `Irq` — the whole handler, with interrupts nested up to a given depth.

Principal results: `irq_preserves` (by induction on the depth) and
`irqInterruptHandler_transparent` — the interrupted code finds its registers, its return state and
its stack as they were, if the routine returns with interrupts masked.
-/

namespace Eeos.Vector

open ByteMem Aarch64

/-! ## The code -/

def frameSize : Nat := 272

/-- The part of `save_context` that stores the general registers. -/
def saveRegisters : List Instr :=
  [.stp 0 1 0, .stp 2 3 16, .stp 4 5 32, .stp 6 7 48, .stp 8 9 64, .stp 10 11 80, .stp 12 13 96,
    .stp 14 15 112, .stp 16 17 128, .stp 18 19 144, .stp 20 21 160, .stp 22 23 176, .stp 24 25 192,
    .stp 26 27 208, .stp 28 29 224,
    .str 30 240]

/-- The part that stores `SPSR_EL1` and `ELR_EL1`. -/
def saveSystem : List Instr := [.mrsSpsr 17, .str 17 248, .mrsElr 17, .str 17 256]

def saveContext : List Instr := .subSp frameSize :: (saveRegisters ++ saveSystem)

/-- The part of `restore_context` that loads `ELR_EL1` and `SPSR_EL1`. -/
def restoreSystem : List Instr := [.ldr 17 256, .msrElr 17, .ldr 17 248, .msrSpsr 17]

/-- The part that loads the general registers. -/
def restoreRegisters : List Instr :=
  [.ldr 30 240,
    .ldp 28 29 224, .ldp 26 27 208, .ldp 24 25 192, .ldp 22 23 176, .ldp 20 21 160, .ldp 18 19 144,
    .ldp 16 17 128, .ldp 14 15 112, .ldp 12 13 96, .ldp 10 11 80, .ldp 8 9 64, .ldp 6 7 48,
    .ldp 4 5 32, .ldp 2 3 16, .ldp 0 1 0]

def restoreContext : List Instr := restoreSystem ++ (restoreRegisters ++ [.addSp frameSize])

/-- `bl`, with the address that it leaves in `x30`. -/
def bl (ret : Word) (s : Cpu) : Cpu := { s with x := Function.update s.x 30 ret }

@[simp] theorem bl_sp (ret : Word) (s : Cpu) : (bl ret s).sp = s.sp := rfl

/-! ## The macros -/

/-- Every register is stored in the slot of its number. -/
theorem saveRegisters_moved : (∀ i ∈ saveRegisters, i.isStore = true) ∧
    (∀ p ∈ saveRegisters.flatMap Instr.moved, p.2 = 8 * p.1.val) ∧
    ∀ j : Fin 31, j ∈ (saveRegisters.flatMap Instr.moved).map Prod.fst := by decide

/-- Every register is loaded from the slot of its number. -/
theorem restoreRegisters_moved : (∀ i ∈ restoreRegisters, i.isLoad = true) ∧
    (∀ p ∈ restoreRegisters.flatMap Instr.moved, p.2 = 8 * p.1.val) ∧
    ∀ j : Fin 31, j ∈ (restoreRegisters.flatMap Instr.moved).map Prod.fst := by decide

/-- What `save_context` leaves: the frame, and nothing else in memory. -/
structure Saved (s s' : Cpu) : Prop where
  sp : s'.sp = s.sp - BitVec.ofNat 64 frameSize
  regs : ∀ j : Fin 31, slot s'.mem s'.sp j = s.x j
  spsr : slot s'.mem s'.sp 31 = s.spsr
  elr : slot s'.mem s'.sp 32 = s.elr
  off : ∀ a, frameSize ≤ offset s'.sp a → s'.mem a = s.mem a

/-- The general registers in their slots. -/
theorem saveRegisters_spec (s : Cpu) :
    ∃ m, run saveRegisters s = { s with mem := m } ∧ (∀ j : Fin 31, slot m s.sp j = s.x j) ∧
      ∀ a, frameSize ≤ offset s.sp a → m a = s.mem a := by
  obtain ⟨hstore, hslot, hall⟩ := saveRegisters_moved
  refine ⟨_, (run_stores hstore s).trans (stores_frame _ s), ?_, ?_⟩
  · intro j
    exact slot_stored hslot s (hall j)
  · intro a ha
    apply mem_stored (n := 34) (by decide) _ s ha
    intro p hp
    exact ⟨p.1.val, by omega, hslot p hp⟩

/-- `x17` carries `SPSR_EL1` and `ELR_EL1` into the two slots that follow. -/
theorem saveSystem_spec (s : Cpu) :
    (run saveSystem s).sp = s.sp ∧
      (run saveSystem s).mem =
        store64 (store64 s.mem (slotAddr s.sp 31) s.spsr) (slotAddr s.sp 32) s.elr := by
  simp only [run, saveSystem, List.foldl_cons, List.foldl_nil, exec, Cpu.store, Function.update_self]
  exact ⟨trivial, rfl⟩

theorem saveContext_spec (s : Cpu) : Saved s (run saveContext s) := by
  obtain ⟨m, hrun, hregs, hoff⟩ := saveRegisters_spec (exec (.subSp frameSize) s)
  have hsplit : run saveContext s =
      run saveSystem (run saveRegisters (exec (.subSp frameSize) s)) := by
    rw [saveContext, run_cons, run_append]
  have hsystem := saveSystem_spec (run saveRegisters (exec (.subSp frameSize) s))
  rw [← hsplit, hrun] at hsystem
  obtain ⟨hsp, hmem⟩ := hsystem
  simp only [exec] at hregs hoff hsp hmem
  constructor
  · exact hsp
  · intro j
    rw [hsp, hmem, slot_store64 _ _ (by decide) (by omega), slot_store64 _ _ (by decide) (by omega),
      if_neg (by omega), if_neg (by omega)]
    exact hregs j
  · rw [hsp, hmem, slot_store64 _ _ (by decide) (by decide), if_neg (by decide),
      slot_store64 _ _ (by decide) (by decide), if_pos rfl]
  · rw [hsp, hmem, slot_store64 _ _ (by decide) (by decide), if_pos rfl]
  · intro a ha
    rw [hsp] at ha
    rw [hmem, store64_slot_off _ (by decide : 32 < 34) (by decide) _ ha,
      store64_slot_off _ (by decide : 31 < 34) (by decide) _ ha]
    exact hoff a ha

/-- What `restore_context` takes from the frame. -/
structure Restored (s s' : Cpu) : Prop where
  sp : s'.sp = s.sp + BitVec.ofNat 64 frameSize
  regs : ∀ j : Fin 31, s'.x j = slot s.mem s.sp j
  spsr : s'.spsr = slot s.mem s.sp 31
  elr : s'.elr = slot s.mem s.sp 32
  mem : s'.mem = s.mem

theorem restoreSystem_spec (s : Cpu) :
    (run restoreSystem s).sp = s.sp ∧ (run restoreSystem s).mem = s.mem ∧
      (run restoreSystem s).elr = slot s.mem s.sp 32 ∧
      (run restoreSystem s).spsr = slot s.mem s.sp 31 := by
  simp only [run, restoreSystem, List.foldl_cons, List.foldl_nil, exec, Cpu.load,
    Function.update_self]
  exact ⟨trivial, trivial, rfl, rfl⟩

theorem restoreContext_spec (s : Cpu) : Restored s (run restoreContext s) := by
  obtain ⟨hload, hslot, hall⟩ := restoreRegisters_moved
  obtain ⟨hsp, hmem, helr, hspsr⟩ := restoreSystem_spec s
  have hsplit : run restoreContext s =
      exec (.addSp frameSize) (run restoreRegisters (run restoreSystem s)) := by
    rw [restoreContext, run_append, run_append]
    rfl
  have hregs : ∀ j : Fin 31, (run restoreRegisters (run restoreSystem s)).x j = slot s.mem s.sp j := by
    intro j
    rw [run_loads hload, reg_loaded hslot _ (hall j), hmem, hsp]
  have hframe := (run_loads hload (run restoreSystem s)).trans (loads_frame _ _)
  rw [hsplit]
  constructor
  · rw [← hsp, hframe]
    rfl
  · exact hregs
  · rw [← hspsr, hframe]
    rfl
  · rw [← helr, hframe]
    rfl
  · rw [← hmem, hframe]
    rfl

/-! ## Interrupts between instructions -/

/-- Code that runs with `PSTATE.I` as `masked` says: unless it is set, an interrupt may come before
an instruction and behind the last, and the exception entry writes `ELR_EL1` and `SPSR_EL1`. -/
inductive Code (irq : Cpu → Cpu → Prop) (masked : Bool) : List Instr → Cpu → Cpu → Prop
  | done (s : Cpu) : Code irq masked [] s s
  | step {i : Instr} {is : List Instr} {s s' : Cpu} : Code irq masked is (exec i s) s' →
      Code irq masked (i :: is) s s'
  | interrupted {is : List Instr} {s s' s'' : Cpu} (elr spsr : Word) : masked = false →
      irq { s with elr := elr, spsr := spsr } s' → Code irq masked is s' s'' →
      Code irq masked is s s''

theorem code_run (irq : Cpu → Cpu → Prop) (masked : Bool) (is : List Instr) (s : Cpu) :
    Code irq masked is s (run is s) := by
  induction is generalizing s with
  | nil => exact .done s
  | cons i is ih => exact .step (ih (exec i s))

/-- Masked, the code runs undisturbed. -/
theorem Code.eq_run {irq : Cpu → Cpu → Prop} {masked : Bool} {is : List Instr} {s s' : Cpu}
    (h : Code irq masked is s s') (hmasked : masked = true) : s' = run is s := by
  induction h with
  | done s => rfl
  | step _ ih => exact ih
  | interrupted elr spsr hfree => exact absurd (hfree.symm.trans hmasked) Bool.noConfusion

/-! ## `handle_domain_irq` -/

/-- A piece of a run of the routine entered in `e`.  Its own steps write no memory at or above the
entry SP; where `irq` interrupts it, the stack has not been unwound past that, and the exception
entry has written `ELR_EL1` and `SPSR_EL1`. -/
inductive Body (irq : Cpu → Cpu → Prop) (e : Cpu) : Cpu → Cpu → Prop
  | done (s : Cpu) : Body irq e s s
  | own {s s' s'' : Cpu} : (∀ a, e.sp ≤ a → s'.mem a = s.mem a) → Body irq e s' s'' →
      Body irq e s s''
  | interrupted {s s' s'' : Cpu} (elr spsr : Word) : s.sp ≤ e.sp →
      irq { s with elr := elr, spsr := spsr } s' → Body irq e s' s'' → Body irq e s s''

/-- A run of the routine from its entry to its return. -/
structure HandleDomainIrq (irq : Cpu → Cpu → Prop) (e s : Cpu) : Prop where
  body : Body irq e e s
  sp : s.sp = e.sp
  saved : ∀ i : Fin 31, 19 ≤ i → i ≤ 29 → s.x i = e.x i

/-- `IRQInterruptHandler`, from the state that the exception entry leaves to the one at its `eret`,
with interrupts nested less than `depth` deep, SP at least `room` at each of them, and routines that
return with interrupts masked. -/
def Irq (room : Nat) : Nat → Cpu → Cpu → Prop
  | 0, _, _ => False
  | depth + 1, s, s' =>
    room ≤ s.sp.toNat ∧ ∃ ret s₁ s₂, Code (Irq room depth) true saveContext s s₁ ∧
      HandleDomainIrq (Irq room depth) (bl ret s₁) s₂ ∧
        Code (Irq room depth) true restoreContext s₂ s'

/-- The interrupted code finds its registers, and its memory from SP up, as they were. -/
structure Preserves (s s' : Cpu) : Prop where
  x : s'.x = s.x
  sp : s'.sp = s.sp
  elr : s'.elr = s.elr
  spsr : s'.spsr = s.spsr
  mem : ∀ a, s.sp ≤ a → s'.mem a = s.mem a

/-- A run of the routine leaves the memory from its entry SP up alone, when interrupts do so for
theirs. -/
theorem Body.mem_above {irq : Cpu → Cpu → Prop} (hirq : ∀ s s', irq s s' → Preserves s s')
    {e s s' : Cpu} (h : Body irq e s s') : ∀ a, e.sp ≤ a → s'.mem a = s.mem a := by
  induction h with
  | done s => intro a _; rfl
  | own hown _ ih =>
    intro a ha
    rw [ih a ha, hown a ha]
  | interrupted elr spsr hsp hrun _ ih =>
    intro a ha
    rw [ih a ha]
    exact (hirq _ _ hrun).mem a (BitVec.le_trans hsp ha)

section Handler

variable {s e s₂ : Cpu}

theorem toNat_frame (hroom : frameSize ≤ s.sp.toNat) :
    (s.sp - BitVec.ofNat 64 frameSize).toNat = s.sp.toNat - frameSize := by
  unfold frameSize at hroom ⊢
  bv_omega

/-- The frame lies at and above the entry SP of the routine. -/
theorem frame_above {base : Word} (hbase : base.toNat + frameSize ≤ 2 ^ 64) {i : Nat}
    (hi : i < frameSize) : base ≤ base + BitVec.ofNat 64 i := by
  unfold frameSize at hbase hi
  bv_omega

/-- Around a routine that returns to its entry SP and leaves the memory above alone, the handler
preserves the interrupted code. -/
theorem handler_preserves (hroom : frameSize ≤ s.sp.toNat) {ret : Word}
    (he : e = bl ret (run saveContext s)) (hsp : s₂.sp = e.sp)
    (hmem : ∀ a, e.sp ≤ a → s₂.mem a = e.mem a) : Preserves s (run restoreContext s₂) := by
  subst he
  have hsaved := saveContext_spec s
  have hrestored := restoreContext_spec s₂
  have hesp : (bl ret (run saveContext s)).sp = s.sp - BitVec.ofNat 64 frameSize := by
    rw [bl_sp, hsaved.sp]
  have hbase : (s.sp - BitVec.ofNat 64 frameSize).toNat = s.sp.toNat - frameSize :=
    toNat_frame hroom
  -- the slots are as `save_context` left them
  have hslot : ∀ i < 33, slot s₂.mem s₂.sp i = slot (run saveContext s).mem (run saveContext s).sp i := by
    intro i hi
    rw [hsp, hesp, ← hsaved.sp]
    apply slot_congr
    intro k hk
    apply hmem
    rw [hesp, hsaved.sp]
    exact frame_above (by omega) (by unfold frameSize; omega)
  constructor
  · funext j
    rw [hrestored.regs, hslot j (by omega), hsaved.regs]
  · rw [hrestored.sp, hsp, hesp]
    exact BitVec.sub_add_cancel s.sp _
  · rw [hrestored.elr, hslot 32 (by decide), hsaved.elr]
  · rw [hrestored.spsr, hslot 31 (by decide), hsaved.spsr]
  · intro a ha
    have ha' : s.sp.toNat ≤ a.toNat := ha
    have hbelow : s.sp - BitVec.ofNat 64 frameSize ≤ a := by
      rw [BitVec.le_def, hbase]
      omega
    have hoff : frameSize ≤ offset (run saveContext s).sp a := by
      rw [hsaved.sp, offset_of_le hbelow, hbase]
      omega
    rw [hrestored.mem, hmem a (by rw [hesp]; exact hbelow)]
    exact hsaved.off a hoff

end Handler

/-- **Nested handlers preserve the code that they interrupt**, at every depth. -/
theorem irq_preserves (depth : Nat) : ∀ s s', Irq frameSize depth s s' → Preserves s s' := by
  induction depth with
  | zero =>
    intro s s' h
    exact h.elim
  | succ depth ih =>
    rintro s s' ⟨hroom, ret, s₁, s₂, hsave, hcall, hrestore⟩
    obtain rfl := hsave.eq_run rfl
    obtain rfl := hrestore.eq_run rfl
    exact handler_preserves hroom rfl hcall.sp (hcall.body.mem_above ih)

/-- **Interrupt entry and exit are transparent**, if the routine returns with interrupts masked.
Below the interrupted SP, the handler itself writes the 272 bytes of its frame only: what lies
further down is as `handle_domain_irq` left it. -/
theorem irqInterruptHandler_transparent {s s₁ s₂ s' : Cpu} {ret : Word} {depth : Nat}
    {masked : Bool} (hroom : frameSize ≤ s.sp.toNat)
    (hsave : Code (Irq frameSize depth) true saveContext s s₁)
    (hcall : HandleDomainIrq (Irq frameSize depth) (bl ret s₁) s₂) (hmasked : masked = true)
    (hrestore : Code (Irq frameSize depth) masked restoreContext s₂ s') :
    s'.x = s.x ∧ s'.sp = s.sp ∧ s'.elr = s.elr ∧ s'.spsr = s.spsr ∧
      (∀ a, s.sp ≤ a → s'.mem a = s.mem a) ∧
      ∀ a, a.toNat < s.sp.toNat - frameSize →
        (bl ret s₁).mem a = s.mem a ∧ s'.mem a = s₂.mem a := by
  obtain rfl := hsave.eq_run rfl
  obtain rfl := hrestore.eq_run hmasked
  have h := handler_preserves hroom rfl hcall.sp (hcall.body.mem_above (irq_preserves depth))
  refine ⟨h.x, h.sp, h.elr, h.spsr, h.mem, ?_⟩
  intro a ha
  have hsaved := saveContext_spec s
  refine ⟨hsaved.off a ?_, congrFun (restoreContext_spec s₂).mem a⟩
  have hbase := toNat_frame hroom
  unfold offset
  rw [hsaved.sp]
  unfold frameSize at hroom ha hbase ⊢
  bv_omega

/-- An interrupt in the middle of a stack. -/
def idle : Cpu := ⟨fun i => BitVec.ofNat 64 i, 0xFFFF0000000F0000, 0xFFFF000000081000, 0x5, fun _ => 0⟩

/-- What a callee does: the registers that it may change, and a byte of its own stack. -/
def clobber (s : Cpu) : Cpu :=
  { s with
    x := fun i => if i < 19 then 0xBAD else s.x i
    mem := ByteMem.store s.mem (s.sp - 1) 0xEE }

theorem clobber_above {s : Cpu} {a : Addr} (hpos : 0 < s.sp.toNat) (ha : s.sp ≤ a) :
    (clobber s).mem a = s.mem a := by
  refine if_neg ?_
  rintro rfl
  rw [BitVec.le_def] at ha
  bv_omega

/-- A routine that clobbers, and nothing else. -/
theorem handleDomainIrq_clobber (irq : Cpu → Cpu → Prop) {e : Cpu} (hpos : 0 < e.sp.toNat) :
    HandleDomainIrq irq e (clobber e) :=
  ⟨.own (fun _ ha => clobber_above hpos ha) (.done _), rfl, fun _ hi _ => if_neg (by omega)⟩

/-- A handler around such a routine. -/
theorem irq_clobber {s : Cpu} (hroom : frameSize < s.sp.toNat) (ret : Word) :
    Irq frameSize 1 s (run restoreContext (clobber (bl ret (run saveContext s)))) := by
  have hsp : (bl ret (run saveContext s)).sp.toNat = s.sp.toNat - frameSize := by
    rw [bl_sp, (saveContext_spec s).sp, toNat_frame (by omega)]
  exact ⟨by omega, ret, _, _, code_run _ _ _ s, handleDomainIrq_clobber _ (by omega),
    code_run _ _ _ _⟩

/-- The routine clobbers, is interrupted 16 bytes down its stack by a handler that does the same, and
returns: what it was given in the scratch registers and in `ELR_EL1` is gone. -/
theorem irqInterruptHandler_transparent_nested :
    ∃ s₂ s', HandleDomainIrq (Irq frameSize 1) (bl 0xFFFF000000080800 (run saveContext idle)) s₂ ∧
      s₂.x 0 = 0xBAD ∧ s₂.elr = 0xFFFF000000082000 ∧
      Code (Irq frameSize 1) true restoreContext s₂ s' ∧
      s'.x = idle.x ∧ s'.sp = idle.sp ∧ s'.elr = 0xFFFF000000081000 ∧ s'.spsr = 0x5 := by
  generalize he : bl 0xFFFF000000080800 (run saveContext idle) = e
  have hsp : e.sp = 0xFFFF0000000EFEF0 := by
    rw [← he, bl_sp, (saveContext_spec idle).sp]
    decide
  have hpos : 0 < e.sp.toNat := by rw [hsp]; decide
  -- the state in which the nested interrupt is taken
  let t : Cpu := { clobber e with sp := e.sp - 16, elr := 0xFFFF000000082000, spsr := 0x5 }
  have hroom : frameSize < (e.sp - 16).toNat := by
    rw [hsp]
    decide
  have hnested := irq_clobber (s := t) hroom 0xFFFF000000080800
  have hpreserved := irq_preserves 1 _ _ hnested
  generalize run restoreContext (clobber (bl 0xFFFF000000080800 (run saveContext t))) = t' at *
  let v : Cpu := { t' with sp := e.sp }
  have hunwound : ∀ a, e.sp ≤ a → v.mem a = t'.mem a := fun _ _ => rfl
  have hback : Body (Irq frameSize 1) e t' v := .own hunwound (.done v)
  have hdown : e.sp - 16 ≤ e.sp := by
    rw [hsp]
    decide
  let u : Cpu := { clobber e with sp := e.sp - 16 }
  have hpushed : ∀ a, e.sp ≤ a → u.mem a = e.mem a := fun a ha => clobber_above hpos ha
  have hmiddle : Body (Irq frameSize 1) e u v :=
    .interrupted 0xFFFF000000082000 0x5 hdown hnested hback
  have hcall : HandleDomainIrq (Irq frameSize 1) e v := by
    refine ⟨.own hpushed hmiddle, rfl, fun i hi _ => ?_⟩
    show t'.x i = e.x i
    rw [hpreserved.x]
    exact if_neg (by omega)
  have hentry : HandleDomainIrq (Irq frameSize 1)
      (bl 0xFFFF000000080800 (run saveContext idle)) v := by rw [he]; exact hcall
  have hrestore := code_run (Irq frameSize 1) true restoreContext v
  have h := irqInterruptHandler_transparent (s := idle) (by decide) (code_run _ _ _ _) hentry rfl
    hrestore
  refine ⟨v, _, hcall, ?_, hpreserved.elr, hrestore, h.1, h.2.1, h.2.2.1, h.2.2.2.1⟩
  show t'.x 0 = 0xBAD
  rw [hpreserved.x]
  rfl

/-- An interrupt whose frame wraps around address 0. -/
def lowSp : Cpu := ⟨fun _ => 0, 16, 0, 0, fun _ => 0⟩

/-- The routine may then write into the frame, which lies below its entry SP: `ELR_EL1` is lost. -/
theorem wrapped_frame_loses_elr :
    ∃ ret s₂, HandleDomainIrq (Irq 0 1) (bl ret (run saveContext lowSp)) s₂ ∧
      (run restoreContext s₂).elr ≠ lowSp.elr := by
  have hsaved := (saveContext_spec lowSp).sp
  generalize hentry : bl 0 (run saveContext lowSp) = e
  have hsp : e.sp = 0xFFFFFFFFFFFFFF00 := by
    rw [← hentry, bl_sp, hsaved]
    decide
  let s₂ : Cpu := { e with mem := ByteMem.store e.mem 0 0xFF }
  have hown : ∀ a, e.sp ≤ a → s₂.mem a = e.mem a := by
    intro a ha
    have hne : a ≠ 0 := by
      rintro rfl
      rw [hsp] at ha
      exact absurd ha (by decide)
    exact if_neg hne
  refine ⟨0, s₂, hentry ▸ ⟨.own hown (.done s₂), rfl, fun _ _ _ => rfl⟩, ?_⟩
  intro helr
  have haddr : slotAddr s₂.sp 32 = 0 := by
    show slotAddr e.sp 32 = 0
    rw [hsp]
    decide
  have hbyte := toNat_load64_mod s₂.mem 0
  rw [← haddr, ← slot, ← (restoreContext_spec s₂).elr, helr, haddr] at hbyte
  have hwritten : s₂.mem 0 = 0xFF := by
    show ByteMem.store e.mem 0 0xFF 0 = 0xFF
    rw [ByteMem.store, if_pos rfl]
  rw [hwritten] at hbyte
  exact absurd hbyte (by decide)

/-- Unmasked, an interrupt may come behind `msr elr_el1, x17` of `restore_context`. -/
theorem restore_interrupted {irq : Cpu → Cpu → Prop} {s₂ t : Cpu} {elr spsr : Word}
    (hirq : irq { exec (.msrElr 17) (exec (.ldr 17 256) s₂) with elr := elr, spsr := spsr } t) :
    ∃ s', Code irq false restoreContext s₂ s' ∧ s'.elr = t.elr :=
  ⟨_, .step (.step (.interrupted elr spsr rfl hirq (code_run _ _ _ t))), rfl⟩

/-- The return address of the outer interrupt is then lost. -/
theorem unmasked_return_loses_elr :
    ∃ ret s₂ s', HandleDomainIrq (Irq frameSize 1) (bl ret (run saveContext idle)) s₂ ∧
      Code (Irq frameSize 1) false restoreContext s₂ s' ∧ s'.elr ≠ idle.elr := by
  generalize he : bl 0 (run saveContext idle) = e
  have hsp : e.sp = 0xFFFF0000000EFEF0 := by
    rw [← he, bl_sp, (saveContext_spec idle).sp]
    decide
  have hpos : 0 < e.sp.toNat := by rw [hsp]; decide
  have hroom : frameSize < e.sp.toNat := by rw [hsp]; decide
  have hcall := handleDomainIrq_clobber (Irq frameSize 1) hpos
  let t : Cpu := { exec (.msrElr 17) (exec (.ldr 17 256) (clobber e)) with
    elr := 0xFFFF000000080900, spsr := 0x5 }
  have hnested := irq_clobber (s := t) hroom 0
  have hpreserved := irq_preserves 1 _ _ hnested
  obtain ⟨s', hrestore, helr⟩ := restore_interrupted hnested
  refine ⟨0, _, s', he ▸ hcall, hrestore, ?_⟩
  rw [helr, hpreserved.elr]
  exact (by decide : (0xFFFF000000080900 : Word) ≠ 0xFFFF000000081000)

/-- The two conditions are needed: room for the frame, and a routine that returns with interrupts
masked. -/
theorem irqInterruptHandler_conditions_needed :
    (∃ ret s₂, HandleDomainIrq (Irq 0 1) (bl ret (run saveContext lowSp)) s₂ ∧
      (run restoreContext s₂).elr ≠ lowSp.elr) ∧
    ∃ ret s₂ s', HandleDomainIrq (Irq frameSize 1) (bl ret (run saveContext idle)) s₂ ∧
      Code (Irq frameSize 1) false restoreContext s₂ s' ∧ s'.elr ≠ idle.elr :=
  ⟨wrapped_frame_loses_elr, unmasked_return_loses_elr⟩

end Eeos.Vector
