import Eeos.Driver.Uart
import Eeos.Libc.Compare

/-!
# From `printk` to the line (`driver/uart/console.c`, `kernel/printk.c`)

`console_init` walks the table of consoles that the linker collects and takes the first one named
`qemu`; what is printed goes there, and before that nowhere.

* `consoleInit` — the walk, over names that are strings in memory.
* `printAll` — one `printk` after the other, each with the stack that it finds.
* `Prints` — a call whose text fits the buffer.

Principal result: `printAll_reaches_line` — what is printed after `console_init` is on the line, one
text after the other, exactly if the transmitter is never full.
-/

namespace Eeos.Console

open ByteMem Ctype Printk Compare Fifo Uart

/-! ## The table of consoles -/

/-- `struct console`; `init` acts on the devices `D`.  `arg` and `read` are not used. -/
structure Device (D : Type) where
  name : Addr
  init : Option (D → D)
  write : Mem → Addr → BitVec 32 → List Event

/-- `uart_console`, and the devices. -/
structure Consoles (D : Type) where
  uartConsole : Option (Device D)
  dev : D

variable {D : Type}

/-- `console_init`, from some place in the table on; `qemu` is the address of the name it looks
for. -/
def consoleInit (v : View) (fuel : Nat) (qemu : Addr) :
    List (Device D) → Consoles D → Option (Consoles D)
  | [], s => some s
  | con :: devices, s => do
    let r ← strcmp v fuel con.name qemu
    if 0 ≠ r then consoleInit v fuel qemu devices s
    else
      let dev :=
        match con.init with
        | none => s.dev
        | some init => init s.dev
      some ⟨some con, dev⟩

/-- The console is initialised and becomes the one to write to. -/
def Consoles.use (s : Consoles D) : Option (Device D) → Consoles D
  | none => s
  | some con => ⟨some con, (con.init.getD id) s.dev⟩

/-- **The first console with the name is used**, and no other is touched. -/
theorem consoleInit_eq {v : View} {qemu : Addr} {q : List Byte} (hq : HoldsString v qemu q)
    {name : Device D → List Byte} {fuel : Nat} {devices : List (Device D)}
    (hnames : ∀ con ∈ devices, HoldsString v con.name (name con) ∧ (name con).length < fuel)
    (s : Consoles D) :
    consoleInit v fuel qemu devices s =
      some (s.use (devices.find? fun con => decide (name con = q))) := by
  induction devices with
  | nil => rfl
  | cons con devices ih =>
    rw [List.forall_mem_cons] at hnames
    obtain ⟨⟨hname, hfuel⟩, hnames⟩ := hnames
    obtain ⟨r, hr, horders⟩ := strcmp_orders hname hq hfuel
    rw [consoleInit, hr, Option.bind_eq_bind, Option.bind_some]
    by_cases he : name con = q
    · have hzero : r = 0 := horders.zero.mpr he.symm
      have hfind : (con :: devices).find? (fun con => decide (name con = q)) = some con :=
        List.find?_cons_of_pos (decide_eq_true he)
      rw [if_neg (not_not.mpr hzero.symm), hfind]
      cases hinit : con.init with
      | none => simp only [Consoles.use, hinit, Option.getD_none, id]
      | some init => simp only [Consoles.use, hinit, Option.getD_some]
    · have hne : 0 ≠ r := fun h => he (horders.zero.mp h.symm).symm
      have hfind : (con :: devices).find? (fun con => decide (name con = q)) =
          devices.find? fun con => decide (name con = q) :=
        List.find?_cons_of_neg (by simpa using he)
      rw [if_pos hne, ih hnames, hfind]

/-! ## One `printk` after the other -/

/-- A call of `printk`, with the memory that it finds and its `p_buf`. -/
structure Print where
  mem : Mem
  pBuf : Addr
  fmt : List Byte
  args : List Arg

/-- What the calls do, one after the other. -/
def printAll (uartConsole : Option (Mem → Addr → BitVec 32 → List Event)) :
    List Print → Option (List Event)
  | [] => some []
  | p :: ps => do
    let (_, es) ← vprintk uartConsole p.mem p.pBuf p.fmt p.args
    let rest ← printAll uartConsole ps
    some (es ++ rest)

/-- The call prints `T`, which fits the buffer on its stack. -/
structure Prints (p : Print) (T : List Byte) : Prop where
  no_nul : 0 ∉ p.fmt
  counted : Counted p.fmt
  text : fullText p.fmt p.args = some T
  fits : T.length ≤ 1023
  buf_ne : p.pBuf ≠ 0
  buf_end : p.pBuf.toNat + 2 ^ 31 ≤ 2 ^ 64

/-- The events read only what is in one of the buffers. -/
def ReadsWithin (ps : List Print) (es : List Event) : Prop :=
  ∀ a, .read a ∈ es → ∃ p ∈ ps, offset p.pBuf a < 1024

theorem putchars_append (es es' : List Event) :
    putchars (es ++ es') = putchars es ++ putchars es' := List.filterMap_append

theorem Prints.delivers {p : Print} {T : List Byte} (h : Prints p T) :
    ∃ es, vprintk (some qemuConsoleWrite) p.mem p.pBuf p.fmt p.args = some ((T.length : Int), es) ∧
      putchars es = crlf T ∧ ReadsWithin [p] es := by
  have hlen : T.length < 2 ^ 31 := Nat.lt_of_le_of_lt h.fits (by decide)
  have hdelivers := delivers_of_fits h.fits p.mem p.pBuf
  have htake : T.take 1023 = T := List.take_of_length_le h.fits
  refine ⟨_, vprintk_eq h.no_nul h.counted h.text hlen p.mem h.buf_ne h.buf_end, ?_, ?_⟩
  · have hsent := hdelivers.sent
    rwa [htake] at hsent ⊢
  · intro a ha
    exact ⟨p, List.mem_singleton.mpr rfl, hdelivers.reads a ha⟩

/-- The calls send their texts one after the other. -/
theorem printAll_sends {ps : List Print} {Ts : List (List Byte)} (h : List.Forall₂ Prints ps Ts) :
    ∃ es, printAll (some qemuConsoleWrite) ps = some es ∧ putchars es = crlf Ts.flatten ∧
      ReadsWithin ps es := by
  induction h with
  | nil => exact ⟨[], rfl, rfl, fun a ha => absurd ha List.not_mem_nil⟩
  | @cons p T ps Ts hp _ ih =>
    obtain ⟨es, hes, hsent, hreads⟩ := hp.delivers
    obtain ⟨rest, hrest, hsent', hreads'⟩ := ih
    refine ⟨es ++ rest, ?_, ?_, ?_⟩
    · rw [printAll, hes, hrest]
      rfl
    · rw [putchars_append, hsent, hsent', List.flatten_cons, crlf_append]
    · intro a ha
      rcases List.mem_append.mp ha with ha | ha
      · obtain ⟨p', hp', hoff⟩ := hreads a ha
        rw [List.mem_singleton.mp hp'] at hoff
        exact ⟨p, List.mem_cons_self, hoff⟩
      · obtain ⟨p', hp', hoff⟩ := hreads' a ha
        exact ⟨p', List.mem_cons_of_mem _ hp', hoff⟩

/-- Without a console a call reads nothing and sends nothing. -/
theorem vprintk_none {m : Mem} {pBuf : Addr} {fmt : List Byte} {args : List Arg} {len : Int}
    {es : List Event} (h : vprintk none m pBuf fmt args = some (len, es)) : es = [] := by
  rw [vprintk] at h
  split at h
  · contradiction
  · exact (congrArg Prod.snd (Option.some.inj h)).symm

theorem printAll_none {ps : List Print} {es : List Event} (h : printAll none ps = some es) :
    es = [] := by
  induction ps generalizing es with
  | nil => exact (Option.some.inj h).symm
  | cons p ps ih =>
    rw [printAll, Option.bind_eq_bind, Option.bind_eq_some_iff] at h
    obtain ⟨⟨len, es₁⟩, hcall, h⟩ := h
    obtain ⟨rest, hrest, h⟩ := Option.bind_eq_some_iff.mp h
    have hboth : es₁ ++ rest = es := Option.some.inj h
    rw [← hboth, vprintk_none hcall, ih hrest]
    rfl

/-! ## The line -/

/-- **What is printed reaches the line**, in order and with a carriage return before each newline:
what is printed before `console_init` goes nowhere; where the first console named `qemu` is that of
this machine, the calls after it send their texts, and the line passes them on exactly if the
transmitter never is full. -/
theorem printAll_reaches_line {v : View} {qemu : Addr} {q : List Byte} (hq : HoldsString v qemu q)
    {name : Device D → List Byte} {fuel : Nat} {devices : List (Device D)}
    (hnames : ∀ con ∈ devices, HoldsString v con.name (name con) ∧ (name con).length < fuel)
    {con : Device D} (hcon : devices.find? (fun con => decide (name con = q)) = some con)
    (hwrite : con.write = qemuConsoleWrite) {s : Consoles D} (hs : s.uartConsole = none)
    {ps : List Print} {Ts : List (List Byte)} (hps : List.Forall₂ Prints ps Ts) :
    (∀ early es, printAll (s.uartConsole.map Device.write) early = some es → es = []) ∧
    ∃ s' es, consoleInit v fuel qemu devices s = some s' ∧ s'.dev = con.init.getD id s.dev ∧
      printAll (s'.uartConsole.map Device.write) ps = some es ∧
      putchars es = crlf Ts.flatten ∧ ReadsWithin ps es ∧
      ∀ depth queued steps, program steps = es →
        (finallyTransmitted depth steps ⟨queued, []⟩ = queued ++ crlf Ts.flatten ↔
          NeverFull depth (txOps steps) ⟨queued, []⟩) := by
  obtain ⟨es, hes, hsent, hreads⟩ := printAll_sends hps
  refine ⟨?_, s.use (some con), es, ?_, rfl, ?_, hsent, hreads, ?_⟩
  · rw [hs]
    exact fun early es => printAll_none
  · rw [consoleInit_eq hq hnames s, hcon]
  · have hused : (s.use (some con)).uartConsole.map Device.write = some qemuConsoleWrite := by
      rw [← hwrite]
      rfl
    rw [hused, hes]
  · intro depth queued steps hprogram
    have hpushed : pushed (txOps steps) = crlf Ts.flatten := by
      rw [pushed_txOps, hprogram, hsent]
    rw [finallyTransmitted, popped_iterate_pop, transmit_eq, ← contents_run_iff, hpushed]
    exact Iff.rfl

/-- A console with another name, and that of this machine, which are linked before the name. -/
def twoConsoles : List (Device Nat) :=
  [⟨0, some (· + 1), fun _ _ _ => []⟩, ⟨5, none, qemuConsoleWrite⟩]

def uartName : List Byte := [chr 'u', chr 'a', chr 'r', chr 't']

def qemuName : List Byte := [chr 'q', chr 'e', chr 'm', chr 'u']

def consoleNames : View := viewOf (blit (fun _ => 0) 0 (uartName ++ 0 :: qemuName ++ [0]))

theorem consoleNames_hold :
    HoldsString consoleNames 0 uartName ∧ HoldsString consoleNames 5 qemuName := by decide +kernel

def twoPrints : List Print :=
  [⟨fun _ => 0, 0x1000, [chr 'h', chr 'i'], []⟩, ⟨fun _ => 0, 0x1000, [chr '\n'], []⟩]

theorem printAll_reaches_line_two :
    ∃ s' es, consoleInit consoleNames 5 5 twoConsoles ⟨none, 0⟩ = some s' ∧ s'.dev = 0 ∧
      printAll (s'.uartConsole.map Device.write) twoPrints = some es ∧
      putchars es = [chr 'h', chr 'i', chr '\r', chr '\n'] := by
  obtain ⟨huart, hqemu⟩ := consoleNames_hold
  have hps : List.Forall₂ Prints twoPrints [[chr 'h', chr 'i'], [chr '\n']] :=
    .cons ⟨by decide, .of_length (by decide), by decide +kernel, by decide, by decide, by decide⟩
      (.cons ⟨by decide, .of_length (by decide), by decide +kernel, by decide, by decide,
        by decide⟩ .nil)
  let name : Device Nat → List Byte := fun con => if con.name = 0 then uartName else qemuName
  have hnames : ∀ con ∈ twoConsoles, HoldsString consoleNames con.name (name con) ∧
      (name con).length < 5 := by
    intro con hcon
    rcases List.mem_cons.mp hcon with rfl | hcon
    · exact ⟨huart, by decide⟩
    · rw [List.mem_singleton.mp hcon]
      exact ⟨hqemu, by decide⟩
  have hfind : twoConsoles.find? (fun con => decide (name con = qemuName)) =
      some ⟨5, none, qemuConsoleWrite⟩ := rfl
  obtain ⟨-, s', es, hinit, hdev, hprint, hsent, -⟩ := printAll_reaches_line hqemu hnames hfind
    rfl (s := ⟨none, 0⟩) rfl hps
  exact ⟨s', es, hinit, hdev, hprint, hsent.trans (by decide)⟩

end Eeos.Console
