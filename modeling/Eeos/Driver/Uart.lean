import Eeos.Driver.Console
import Eeos.Lib.Fifo

/-!
# The PL011 and its driver (`driver/uart/qemu_uart.c`)

The receiver and the transmitter are queues.  Bit 4 of the flag register says that the receiver is
empty, bit 5 that the transmitter is full; the other bits are anything.  Reading the data register
of an empty receiver gives a stale byte, and writing that of a full transmitter does nothing.

* `uartGetchar` — takes a set bit 4 for a byte that has arrived, so it is wrong either way.
* `uartPutchar` — does not look at bit 5.
* `rxRun`, `transmit` — the calls of the driver, with bytes that arrive and bytes that leave in
  between.

Principal results: `getchar_follows_iff` (input is passed on as it arrives only in runs that do not
ask for it) and `console_lossless_iff` (output is passed on whole exactly if no write finds the
transmitter full).
-/

namespace Eeos.Uart

open ByteMem Ctype Console Fifo

/-! ## The receiver -/

/-- The flag register. -/
def readFr (other : Byte) (rxEmpty txFull : Bool) : Byte :=
  (other &&& ~~~0x30) ||| (if rxEmpty then 0x10 else 0) ||| (if txFull then 0x20 else 0)

/-- The data register: the byte and the ones that are left. -/
def readDr (stale : Byte) : List Byte → Byte × List Byte
  | [] => (stale, [])
  | c :: pending => (c, pending)

/-- The memory, and the bytes that have arrived. -/
structure Rx where
  mem : Mem
  pending : List Byte

/-- What the device contributes to a call: other flags, whether the transmitter is full, and the
stale byte. -/
structure Env where
  other : Byte
  txFull : Bool
  stale : Byte

/-- `uart_getchar`: what it returns and the state after it. -/
def uartGetchar (env : Env) (ch : Addr) (s : Rx) : Int × Rx :=
  if readFr env.other s.pending.isEmpty env.txFull &&& 0x10 ≠ 0 then
    (0, ⟨store s.mem ch (readDr env.stale s.pending).1, (readDr env.stale s.pending).2⟩)
  else (-1, s)

/-- What a call should do: take the oldest byte that is pending. -/
def takeOldest (ch : Addr) (s : Rx) : Int × Rx :=
  match s.pending with
  | [] => (-1, s)
  | c :: pending => (0, ⟨store s.mem ch c, pending⟩)

inductive RxStep where
  | arrive (c : Byte)
  | getchar (env : Env) (ch : Addr)

/-- The state after the steps, and the bytes that successful calls returned. -/
def rxRun : List RxStep → Rx → Rx × List Byte
  | [], s => (s, [])
  | .arrive c :: steps, s => rxRun steps { s with pending := s.pending ++ [c] }
  | .getchar env ch :: steps, s =>
    let r := uartGetchar env ch s
    let rest := rxRun steps r.2
    (rest.1, if r.1 = 0 then r.2.mem ch :: rest.2 else rest.2)

def arrivals (steps : List RxStep) : List Byte :=
  steps.filterMap fun
    | .arrive c => some c
    | .getchar _ _ => none

/-- Every call takes the oldest byte. -/
def Follows : List RxStep → Rx → Prop
  | [], _ => True
  | .arrive c :: steps, s => Follows steps { s with pending := s.pending ++ [c] }
  | .getchar env ch :: steps, s =>
    uartGetchar env ch s = takeOldest ch s ∧ Follows steps (uartGetchar env ch s).2

/-- Bit 4 is set exactly when nothing is pending. -/
theorem readFr_rxfe (other : Byte) (rxEmpty txFull : Bool) :
    readFr other rxEmpty txFull &&& 0x10 ≠ 0 ↔ rxEmpty = true := by
  revert other rxEmpty txFull
  decide +kernel

/-- **Every call is wrong**: it fails when a byte is pending and succeeds when none is. -/
theorem uartGetchar_ne (env : Env) (ch : Addr) (s : Rx) :
    uartGetchar env ch s ≠ takeOldest ch s := by
  intro h
  have hret := congrArg Prod.fst h
  obtain ⟨m, pending⟩ := s
  cases pending with
  | nil =>
    have hgot : (uartGetchar env ch ⟨m, []⟩).1 = 0 := by
      rw [uartGetchar]
      exact congrArg Prod.fst (if_pos ((readFr_rxfe _ _ _).mpr rfl))
    exact absurd (hgot.symm.trans hret) (show ¬ (0 : Int) = -1 by decide)
  | cons c pending =>
    have hfailed : (uartGetchar env ch ⟨m, c :: pending⟩).1 = -1 := by
      rw [uartGetchar]
      exact congrArg Prod.fst (if_neg (mt (readFr_rxfe _ _ _).mp Bool.false_ne_true))
    exact absurd (hfailed.symm.trans hret) (show ¬ (-1 : Int) = 0 by decide)

/-- Calls that take the oldest byte return what has arrived, up to what is left. -/
theorem rxRun_conserves {steps : List RxStep} {s : Rx} (h : Follows steps s) :
    (rxRun steps s).2 ++ (rxRun steps s).1.pending = s.pending ++ arrivals steps := by
  induction steps generalizing s with
  | nil => exact (List.append_nil _).symm
  | cons step steps ih =>
    cases step with
    | arrive c =>
      have hrest := ih h
      rw [List.append_assoc] at hrest
      exact hrest
    | getchar env ch =>
      obtain ⟨hcall, hrest⟩ := h
      have hconserve := ih hrest
      have harrivals : arrivals (.getchar env ch :: steps) = arrivals steps := rfl
      simp only [rxRun, harrivals]
      rw [hcall] at hconserve ⊢
      obtain ⟨m, pending⟩ := s
      cases pending with
      | nil =>
        have hnone : takeOldest ch ⟨m, []⟩ = (-1, ⟨m, []⟩) := rfl
        rw [hnone] at hconserve ⊢
        rw [if_neg (show ¬ (-1 : Int) = 0 by decide)]
        exact hconserve
      | cons c pending =>
        have hsome : takeOldest ch ⟨m, c :: pending⟩ = (0, ⟨store m ch c, pending⟩) := rfl
        have hstored : store m ch c ch = c := if_pos rfl
        rw [hsome] at hconserve ⊢
        rw [if_pos rfl, List.cons_append, hconserve]
        exact congrArg (· :: _) hstored

/-- **When console input loses and invents nothing**: only in a run without a call. -/
theorem getchar_follows_iff (steps : List RxStep) (s : Rx) :
    (Follows steps s ∧ (rxRun steps s).2 <+: s.pending ++ arrivals steps) ↔
      ∀ step ∈ steps, ∃ c, step = .arrive c := by
  have hfollows : Follows steps s ↔ ∀ step ∈ steps, ∃ c, step = .arrive c := by
    induction steps generalizing s with
    | nil => exact iff_of_true trivial (by simp)
    | cons step steps ih =>
      cases step with
      | arrive c =>
        rw [Follows, ih]
        simp
      | getchar env ch =>
        refine iff_of_false (fun h => uartGetchar_ne env ch s h.1) fun h => ?_
        obtain ⟨c, hc⟩ := h _ List.mem_cons_self
        exact RxStep.noConfusion hc
  rw [← hfollows]
  exact and_iff_left_of_imp fun h => ⟨_, rxRun_conserves h⟩

/-- A byte arrives, and the call that should fetch it fails. -/
theorem getchar_misses_byte :
    ¬ (Follows [.arrive (chr 'a'), .getchar ⟨0, false, 0xff⟩ 0x1000] ⟨fun _ => 0, []⟩ ∧
      (rxRun [.arrive (chr 'a'), .getchar ⟨0, false, 0xff⟩ 0x1000] ⟨fun _ => 0, []⟩).2 <+:
        ([] : List Byte) ++ arrivals [.arrive (chr 'a'), .getchar ⟨0, false, 0xff⟩ 0x1000]) := by
  rintro ⟨⟨hcall, -⟩, -⟩
  have hret : (-1 : Int) = 0 := congrArg Prod.fst hcall
  exact absurd hret (by decide)

/-! ## The transmitter -/

/-- `uart_putchar`: what it returns, and the transmitter after the write to the data register. -/
def uartPutchar (depth : Nat) (ch : Byte) (tx : State Byte) : Int × State Byte :=
  (0, push depth ch tx)

/-- A step of the CPU, or a byte that leaves on the line. -/
inductive TxStep where
  | cpu (e : Event)
  | drain
  deriving DecidableEq, Repr

def TxStep.run (depth : Nat) (tx : State Byte) : TxStep → State Byte
  | .cpu (.read _) => tx
  | .cpu (.putchar c) => (uartPutchar depth c tx).2
  | .drain => pop tx

def transmit (depth : Nat) (steps : List TxStep) (tx : State Byte) : State Byte :=
  steps.foldl (TxStep.run depth) tx

/-- What the line has sent once the transmitter is empty. -/
def finallyTransmitted (depth : Nat) (steps : List TxStep) (tx : State Byte) : List Byte :=
  (pop^[(transmit depth steps tx).queued.length] (transmit depth steps tx)).popped

/-- What the CPU does. -/
def program (steps : List TxStep) : List Event :=
  steps.filterMap fun
    | .cpu e => some e
    | .drain => none

/-- The steps that the transmitter sees. -/
def txOps (steps : List TxStep) : List (Op Byte) :=
  steps.filterMap fun
    | .cpu (.read _) => none
    | .cpu (.putchar c) => some (.push c)
    | .drain => some .pop

theorem transmit_eq (depth : Nat) (steps : List TxStep) (tx : State Byte) :
    transmit depth steps tx = run depth (txOps steps) tx := by
  induction steps generalizing tx with
  | nil => rfl
  | cons step steps ih =>
    have h := ih (step.run depth tx)
    cases step with
    | drain => exact h
    | cpu e =>
      cases e with
      | read a => exact h
      | putchar c => exact h

theorem pushed_txOps (steps : List TxStep) : pushed (txOps steps) = putchars (program steps) := by
  induction steps with
  | nil => rfl
  | cons step steps ih =>
    cases step with
    | drain => exact ih
    | cpu e =>
      cases e with
      | read a => exact ih
      | putchar c => exact congrArg (c :: ·) ih

/-- **When console output loses nothing**: exactly if no write finds the transmitter full, because
`uart_putchar` does not wait. -/
theorem console_lossless_iff (depth : Nat) (queued : List Byte) (m : Mem) (s : Addr)
    (n : BitVec 32) {steps : List TxStep} (hprogram : program steps = qemuConsoleWrite m s n) :
    finallyTransmitted depth steps ⟨queued, []⟩ = queued ++ crlf (bytesAt m s n.toNat) ↔
      NeverFull depth (txOps steps) ⟨queued, []⟩ := by
  have hpushed : pushed (txOps steps) = crlf (bytesAt m s n.toNat) := by
    rw [pushed_txOps, hprogram, qemuConsoleWrite, qemuConsoleLoop_putchars]
  rw [finallyTransmitted, popped_iterate_pop, transmit_eq, ← contents_run_iff, hpushed]
  exact Iff.rfl

/-- Two characters in a transmitter of 16. -/
theorem console_lossless_two :
    finallyTransmitted 16 ((qemuConsoleWrite (fun _ => chr 'a') 0x1000 2).map .cpu) ⟨[], []⟩ =
      [] ++ crlf (bytesAt (fun _ => chr 'a') 0x1000 (2 : BitVec 32).toNat) :=
  (console_lossless_iff 16 [] (fun _ => chr 'a') 0x1000 2 (by decide +kernel)).mpr
    ⟨by decide, by decide, trivial⟩

/-- 17 characters before the line sends one: the last is lost. -/
theorem console_loses_seventeenth :
    program ((qemuConsoleWrite (fun _ => chr 'a') 0x1000 17).map .cpu) =
        qemuConsoleWrite (fun _ => chr 'a') 0x1000 17 ∧
      finallyTransmitted 16 ((qemuConsoleWrite (fun _ => chr 'a') 0x1000 17).map .cpu) ⟨[], []⟩ ≠
        crlf (bytesAt (fun _ => chr 'a') 0x1000 (17 : BitVec 32).toNat) := by
  decide +kernel

end Eeos.Uart
