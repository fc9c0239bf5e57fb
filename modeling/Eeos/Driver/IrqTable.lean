import Eeos.Driver.Interrupt
import Mathlib.Data.List.Induction

/-!
# The descriptor table over whole histories (`driver/interrupt/interrupt.c`)

What a sequence of `request_irq` calls leaves in `irq_desc`, and what `generic_handle_irq` makes of
it.  `request_irq` installs the handler only if it is given one, but the flags, the name and the
data always.

* `installer irq rs` — the last of the calls `rs` that gave `irq` a handler.
* `lastPassed irq rs` — what the last of them for `irq` passed besides.
* `InstalledBy r desc` — the fields of `desc` are those of the call `r`.
* `requests_handleIrq`, `requests_irq`, `requests_fields` — what every history leaves in the fields
  that a handler is found and told by, and in the others.

Principal results: `registered_iff` (each descriptor belongs to one call exactly if a call never
changes what an earlier one has registered) and `handler_knows_irq_iff` (the handler given last is
called, and learns its number on line 0 only).
-/

namespace Eeos.Interrupt

open Vmsa

variable {H D : Type}

/-- The arguments of a `request_irq` call. -/
structure Request (H : Type) where
  irq : Nat
  handler : Option H
  flags : Word
  name : Word
  data : Word

def Request.run (r : Request H) (s : State H D) : State H D :=
  (requestIrq r.irq r.handler r.flags r.name r.data s).2

def requests (rs : List (Request H)) (s : State H D) : State H D :=
  rs.foldl (fun s r => r.run s) s

/-- The static initialiser of `irq_desc[NR_IRQS]`. -/
def bootDesc (handleBadIrq : H) : IrqDesc H := ⟨handleBadIrq, 0, 0, 1, 0, 0, 0⟩

def boot (handleBadIrq : H) (chip : IrqChip D) (dev : D) : State H D :=
  ⟨fun _ => bootDesc handleBadIrq, chip, dev⟩

def irqDescGetIrq (desc : IrqDesc H) : BitVec 32 := desc.irq

/-- The call that `generic_handle_irq` makes: the handler and the descriptor it is passed. -/
def genericHandleCall (irq : Nat) (s : State H D) : Option (H × IrqDesc H) :=
  match irqToDesc irq with
  | none => none
  | some i => some ((s.irqDesc i).handleIrq, s.irqDesc i)

/-! ## One call -/

theorem callChip_desc (op : Option (Nat → D → D)) (irq : Nat) (s : State H D) :
    (callChip op irq s).irqDesc = s.irqDesc := by
  cases op with
  | none => rfl
  | some op => rfl

/-- A call changes the descriptor of its own line, if there is one, and no other. -/
theorem Request.run_desc (r : Request H) (s : State H D) {irq : Nat} (h : irq < nrIrqs) :
    (r.run s).irqDesc irq =
      if r.irq = irq then (s.irqDesc irq).request r.handler r.flags r.name r.data
      else s.irqDesc irq := by
  unfold Request.run requestIrq irqToDesc
  by_cases hr : r.irq < nrIrqs
  · rw [if_pos hr]
    simp only [unmaskIrq, callChip_desc]
    by_cases he : r.irq = irq
    · rw [if_pos he, he, Function.update_self]
    · rw [if_neg he, Function.update_of_ne (Ne.symm he)]
  · have hne : r.irq ≠ irq := by
      rintro rfl
      exact hr h
    rw [if_neg hr, if_neg hne]

theorem requests_snoc (rs : List (Request H)) (r : Request H) (s : State H D) :
    requests (rs ++ [r]) s = r.run (requests rs s) := by
  rw [requests, requests, List.foldl_append]
  rfl

theorem genericHandleCall_eq (s : State H D) {irq : Nat} (h : irq < nrIrqs) :
    genericHandleCall irq s = some ((s.irqDesc irq).handleIrq, s.irqDesc irq) := by
  rw [genericHandleCall, irqToDesc, if_pos h]

/-! ## Histories -/

/-- The last call that gave `irq` a handler. -/
def installer (irq : Nat) (rs : List (Request H)) : Option (Request H) :=
  rs.reverse.find? fun r => r.irq = irq ∧ r.handler.isSome

theorem installer_snoc (irq : Nat) (rs : List (Request H)) (r : Request H) :
    installer irq (rs ++ [r]) =
      if r.irq = irq ∧ r.handler.isSome then some r else installer irq rs := by
  unfold installer
  rw [List.reverse_append, List.reverse_singleton, List.singleton_append, List.find?_cons]
  by_cases h : r.irq = irq ∧ r.handler.isSome
  · rw [if_pos h, decide_eq_true h]
  · rw [if_neg h, decide_eq_false h]

/-- The flags, the name and the data of the last call for `irq`, with a handler or without one; they
are zero at boot. -/
def lastPassed (irq : Nat) (rs : List (Request H)) : BitVec 32 × Word × Word :=
  ((rs.reverse.find? fun r => r.irq = irq).map fun r =>
    (r.flags.setWidth 32, r.name, r.data)).getD (0, 0, 0)

theorem lastPassed_snoc (irq : Nat) (rs : List (Request H)) (r : Request H) :
    lastPassed irq (rs ++ [r]) =
      if r.irq = irq then (r.flags.setWidth 32, r.name, r.data) else lastPassed irq rs := by
  unfold lastPassed
  rw [List.reverse_append, List.reverse_singleton, List.singleton_append, List.find?_cons]
  by_cases h : r.irq = irq
  · rw [if_pos h, decide_eq_true h]
    rfl
  · rw [if_neg h, decide_eq_false h]

/-- The fields of `desc` are those that the call `r` installs. -/
structure InstalledBy (r : Request H) (desc : IrqDesc H) : Prop where
  handleIrq : r.handler = some desc.handleIrq
  flags : desc.flags = r.flags.setWidth 32
  name : desc.name = r.name
  handlerData : desc.handlerData = r.data

section Histories

variable (handleBadIrq : H) (chip : IrqChip D) (dev : D)

/-- **The handler is the one given last**, or `handle_bad_irq`. -/
theorem requests_handleIrq (rs : List (Request H)) {irq : Nat} (h : irq < nrIrqs) :
    ((requests rs (boot handleBadIrq chip dev)).irqDesc irq).handleIrq =
      ((installer irq rs).bind Request.handler).getD handleBadIrq := by
  induction rs using List.reverseRecOn with
  | nil => rfl
  | append_singleton rs r ih =>
    rw [requests_snoc, Request.run_desc _ _ h, installer_snoc]
    by_cases he : r.irq = irq
    · rw [if_pos he]
      cases hr : r.handler with
      | none =>
        rw [if_neg (by simp)]
        exact ih
      | some f =>
        rw [if_pos ⟨he, rfl⟩, Option.bind_some, hr]
        rfl
    · rw [if_neg he, if_neg (fun hc => he hc.1)]
      exact ih

/-- No call numbers the descriptors, and none counts their interrupts. -/
theorem requests_irq (rs : List (Request H)) {irq : Nat} (h : irq < nrIrqs) :
    ((requests rs (boot handleBadIrq chip dev)).irqDesc irq).irq = 0 ∧
      ((requests rs (boot handleBadIrq chip dev)).irqDesc irq).irqCount = 0 := by
  induction rs using List.reverseRecOn with
  | nil => exact ⟨rfl, rfl⟩
  | append_singleton rs r ih =>
    rw [requests_snoc, Request.run_desc _ _ h]
    split
    · exact ⟨ih.1, rfl⟩
    · exact ih

/-- The other fields are those given last. -/
theorem requests_fields (rs : List (Request H)) {irq : Nat} (h : irq < nrIrqs) :
    lastPassed irq rs = (((requests rs (boot handleBadIrq chip dev)).irqDesc irq).flags,
      ((requests rs (boot handleBadIrq chip dev)).irqDesc irq).name,
      ((requests rs (boot handleBadIrq chip dev)).irqDesc irq).handlerData) := by
  induction rs using List.reverseRecOn with
  | nil => rfl
  | append_singleton rs r ih =>
    rw [requests_snoc, Request.run_desc _ _ h, lastPassed_snoc]
    split
    · rfl
    · exact ih

/-- A call without a handler passes what the last call for its line has passed. -/
def RepeatsLast (r : Request H) (rs : List (Request H)) : Prop :=
  r.handler = none → r.irq < nrIrqs → lastPassed r.irq rs = (r.flags.setWidth 32, r.name, r.data)

/-- It passes what the descriptor already holds. -/
def Repeats (r : Request H) (s : State H D) : Prop :=
  r.handler = none → r.irq < nrIrqs → (s.irqDesc r.irq).flags = r.flags.setWidth 32 ∧
    (s.irqDesc r.irq).name = r.name ∧ (s.irqDesc r.irq).handlerData = r.data

theorem repeats_iff (r : Request H) (rs : List (Request H)) :
    Repeats r (requests rs (boot handleBadIrq chip dev)) ↔ RepeatsLast r rs := by
  unfold Repeats RepeatsLast
  refine imp_congr_right fun _ => forall_congr' fun h => ?_
  rw [requests_fields handleBadIrq chip dev rs h, Prod.mk.injEq, Prod.mk.injEq]

/-- Every line is as it was at boot, or its fields come from one call; and so does what
`generic_handle_irq` passes to a handler. -/
structure Registered (rs : List (Request H)) (s : State H D) : Prop where
  table : ∀ irq < nrIrqs, s.irqDesc irq = bootDesc handleBadIrq ∨
    ∃ r, installer irq rs = some r ∧ InstalledBy r (s.irqDesc irq)
  dispatch : ∀ irq < nrIrqs, ∀ handler desc, genericHandleCall irq s = some (handler, desc) →
    (handler = handleBadIrq ∧ desc = bootDesc handleBadIrq) ∨
      ∃ r, installer irq rs = some r ∧ r.handler = some handler ∧ desc.handlerData = r.data

/-- A call without a handler that repeats the fields changes no descriptor. -/
theorem run_repeats {rs : List (Request H)} {r : Request H}
    (hr : Repeats r (requests rs (boot handleBadIrq chip dev))) (hn : r.handler = none) {irq : Nat}
    (h : irq < nrIrqs) : (r.run (requests rs (boot handleBadIrq chip dev))).irqDesc irq =
      (requests rs (boot handleBadIrq chip dev)).irqDesc irq := by
  rw [Request.run_desc _ _ h]
  by_cases he : r.irq = irq
  · subst he
    obtain ⟨hflags, hname, hdata⟩ := hr hn h
    obtain ⟨-, hcount⟩ := requests_irq handleBadIrq chip dev rs h
    rw [if_pos rfl, IrqDesc.request, hn, ← hflags, ← hname, ← hdata, ← hcount]
    rfl
  · rw [if_neg he]

theorem registered_of_repeats {rs : List (Request H)}
    (hrs : ∀ pre r post, rs = pre ++ r :: post →
      Repeats r (requests pre (boot handleBadIrq chip dev))) :
    Registered handleBadIrq rs (requests rs (boot handleBadIrq chip dev)) := by
  have table : ∀ irq < nrIrqs,
      (requests rs (boot handleBadIrq chip dev)).irqDesc irq = bootDesc handleBadIrq ∨
        ∃ r, installer irq rs = some r ∧
          InstalledBy r ((requests rs (boot handleBadIrq chip dev)).irqDesc irq) := by
    intro irq h
    induction rs using List.reverseRecOn with
    | nil => exact Or.inl rfl
    | append_singleton rs r ih =>
      have hlast := hrs rs r [] rfl
      have hih := ih fun pre r' post he => hrs pre r' (post ++ [r]) (by rw [he]; simp)
      rw [requests_snoc, installer_snoc]
      cases hr : r.handler with
      | none =>
        rw [run_repeats handleBadIrq chip dev hlast hr h, if_neg (by simp)]
        exact hih
      | some f =>
        rw [Request.run_desc _ _ h]
        by_cases he : r.irq = irq
        · rw [if_pos he, if_pos ⟨he, rfl⟩]
          refine Or.inr ⟨r, rfl, ?_, rfl, rfl, rfl⟩
          rw [hr]
          rfl
        · rw [if_neg he, if_neg (fun hc => he hc.1)]
          exact hih
  refine ⟨table, fun irq h handler desc hcall => ?_⟩
  rw [genericHandleCall_eq _ h] at hcall
  obtain ⟨rfl, rfl⟩ := Prod.mk.inj (Option.some.inj hcall)
  rcases table irq h with hboot | ⟨r, hr, hby⟩
  · rw [hboot]
    exact Or.inl ⟨rfl, rfl⟩
  · exact Or.inr ⟨r, hr, hby.handleIrq, hby.handlerData⟩

/-- **When every registration stays one**: over any sequence of calls, each descriptor belongs to
one call, and calls without a handler alter no registration, exactly if each of these passes what
the last call for its line has passed. -/
theorem registered_iff (rs : List (Request H)) :
    ((∀ pre post, rs = pre ++ post →
        Registered handleBadIrq pre (requests pre (boot handleBadIrq chip dev))) ∧
      ∀ pre r post, rs = pre ++ r :: post → r.handler = none → ∀ irq < nrIrqs,
        (installer irq pre).isSome →
          (r.run (requests pre (boot handleBadIrq chip dev))).irqDesc irq =
            (requests pre (boot handleBadIrq chip dev)).irqDesc irq) ↔
      ∀ pre r post, rs = pre ++ r :: post → RepeatsLast r pre := by
  simp only [← repeats_iff handleBadIrq chip dev]
  constructor
  · rintro ⟨hreg, hkeep⟩ pre r post hrs hn h
    have hsame : (r.run (requests pre (boot handleBadIrq chip dev))).irqDesc r.irq =
        (requests pre (boot handleBadIrq chip dev)).irqDesc r.irq := by
      cases hi : installer r.irq pre with
      | some r' => exact hkeep pre r post hrs hn r.irq h (by rw [hi]; rfl)
      | none =>
        -- nothing is registered, before the call and after it
        have hbefore := (hreg pre (r :: post) hrs).table r.irq h
        have hafter := (hreg (pre ++ [r]) post (by rw [hrs]; simp)).table r.irq h
        rw [requests_snoc, installer_snoc, if_neg (by simp [hn]), hi] at hafter
        rw [hi] at hbefore
        simp only [reduceCtorEq, false_and, exists_false, or_false] at hbefore hafter
        rw [hbefore, hafter]
    rw [Request.run_desc _ _ h, if_pos rfl] at hsame
    exact ⟨congrArg IrqDesc.flags hsame.symm, congrArg IrqDesc.name hsame.symm,
      congrArg IrqDesc.handlerData hsame.symm⟩
  · intro hrs
    constructor
    · intro pre post he
      exact registered_of_repeats handleBadIrq chip dev fun pre' r post' he' =>
        hrs pre' r (post' ++ post) (by rw [he, he']; simp)
    · intro pre r post he hn irq h _
      exact run_repeats handleBadIrq chip dev (hrs pre r post he) hn h

end Histories

/-- A handler with its data, then a call that has only other data. -/
def foreignData : List (Request Nat) :=
  [⟨5, some 1, 0, 0x100, 0x200⟩, ⟨5, none, 0, 0x300, 0x400⟩]

/-- Handler 1 runs with the data `0x400` that it was not registered with. -/
theorem registered_fails_foreign_data :
    ¬ ((∀ pre post, foreignData = pre ++ post →
        Registered 0 pre (requests pre (boot 0 (⟨none, none⟩ : IrqChip Unit) ()))) ∧
      ∀ pre r post, foreignData = pre ++ r :: post → r.handler = none → ∀ irq < nrIrqs,
        (installer irq pre).isSome →
          (r.run (requests pre (boot 0 (⟨none, none⟩ : IrqChip Unit) ()))).irqDesc irq =
            (requests pre (boot 0 (⟨none, none⟩ : IrqChip Unit) ())).irqDesc irq) := by
  rintro ⟨hreg, -⟩
  have hlast : installer 5 foreignData = some ⟨5, some 1, 0, 0x100, 0x200⟩ := rfl
  have hdesc : (requests foreignData (boot 0 (⟨none, none⟩ : IrqChip Unit) ())).irqDesc 5 =
      ⟨1, 0, 0, 1, 0, 0x300, 0x400⟩ := rfl
  rcases (hreg foreignData [] rfl).table 5 (by decide) with hboot | ⟨r, hr, hby⟩
  · rw [hdesc] at hboot
    exact absurd (congrArg IrqDesc.handleIrq hboot) (by decide)
  · cases hlast.symm.trans hr
    rw [hdesc] at hby
    exact absurd hby.handlerData (by decide)

section Histories

variable (handleBadIrq : H) (chip : IrqChip D) (dev : D)

/-- **A handler knows its interrupt** only on line 0: it is the handler given last, but no
descriptor carries a number. -/
theorem handler_knows_irq_iff (rs : List (Request H)) {irq : Nat} (h : irq < nrIrqs) :
    (∃ desc, genericHandleCall irq (requests rs (boot handleBadIrq chip dev)) =
        some (((installer irq rs).bind Request.handler).getD handleBadIrq, desc) ∧
      irqDescGetIrq desc = BitVec.ofNat 32 irq) ↔ irq = 0 := by
  rw [genericHandleCall_eq _ h, requests_handleIrq handleBadIrq chip dev rs h]
  have hirq := (requests_irq handleBadIrq chip dev rs h).1
  constructor
  · rintro ⟨desc, hcall, hnum⟩
    obtain ⟨-, rfl⟩ := Prod.mk.inj (Option.some.inj hcall)
    rw [irqDescGetIrq, hirq] at hnum
    have hval := congrArg BitVec.toNat hnum
    rw [BitVec.toNat_ofNat, nrIrqs] at *
    simp at hval
    omega
  · rintro rfl
    exact ⟨_, rfl, hirq⟩

theorem handler_knows_irq_line_zero :
    ∃ desc, genericHandleCall 0 (requests [⟨0, some 7, 0, 0, 0⟩]
        (boot 1 (⟨none, none⟩ : IrqChip Unit) ())) =
        some (((installer 0 [(⟨0, some 7, 0, 0, 0⟩ : Request Nat)]).bind Request.handler).getD 1,
          desc) ∧ irqDescGetIrq desc = BitVec.ofNat 32 0 :=
  (handler_knows_irq_iff 1 ⟨none, none⟩ () [⟨0, some 7, 0, 0, 0⟩] (by decide)).mpr rfl

end Histories

/-- One handler on the lines 5 and 6 is told 0 on both. -/
theorem handler_told_zero :
    ¬ ∀ irq < nrIrqs, ∃ desc, genericHandleCall irq
        (requests [⟨5, some 7, 0, 0, 0⟩, ⟨6, some 7, 0, 0, 0⟩]
          (boot 1 (⟨none, none⟩ : IrqChip Unit) ())) =
        some (((installer irq [⟨5, some 7, 0, 0, 0⟩, ⟨6, some 7, 0, 0, 0⟩]).bind
          Request.handler).getD 1, desc) ∧ irqDescGetIrq desc = BitVec.ofNat 32 irq := by
  intro h
  obtain ⟨desc, hcall, hnum⟩ := h 5 (by decide)
  have hfive : genericHandleCall 5 (requests [⟨5, some 7, 0, 0, 0⟩, ⟨6, some 7, 0, 0, 0⟩]
      (boot 1 (⟨none, none⟩ : IrqChip Unit) ())) = some (7, ⟨7, 0, 0, 1, 0, 0, 0⟩) := rfl
  obtain ⟨-, rfl⟩ := Prod.mk.inj (Option.some.inj (hfive.symm.trans hcall))
  exact absurd hnum (by decide)

end Eeos.Interrupt
