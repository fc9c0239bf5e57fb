import Eeos.Kernel.Buffer

/-!
# `printk` on the qemu console

`vprintk` (`kernel/printk.c`), `console_write` (`driver/uart/console.c`) and `qemu_console_write`
(`driver/uart/qemu_uart.c`).  What they do outside memory is a list of `Event`s: the bytes of the
message that are read, and the calls of `uart_putchar`.

* `crlf` — a text with a carriage return before each newline, which is what the console should see.
* `qemuConsoleLoop_putchars`, `qemuConsoleLoop_reads` — the loop sends `crlf` of the `n` bytes at
  `s`, and reads just these.

Principal result: `vprintk_delivers_iff` — the value that `vsnprintf` returns is the length of the
whole text, not of what it stored, so the message is delivered exactly when it fits the buffer.
-/

namespace Eeos.Console

open ByteMem Ctype Printk

inductive Event where
  | read (a : Addr)
  | putchar (c : Byte)
  deriving DecidableEq, Repr

/-- `for (i = 0; i < n; i++, s++)`. -/
def qemuConsoleLoop (m : Mem) (s : Addr) : Nat → List Event
  | 0 => []
  | n + 1 =>
    (.read s :: if m s = chr '\n' then [.putchar (chr '\r')] else []) ++
      .read s :: .putchar (m s) :: qemuConsoleLoop m (s + 1) n

/-- `qemu_console_write`. -/
def qemuConsoleWrite (m : Mem) (s : Addr) (n : BitVec 32) : List Event :=
  qemuConsoleLoop m s n.toNat

/-- `console_write`, with the `write` of the registered console; the `int` becomes `unsigned`. -/
def consoleWrite (uartConsole : Option (Mem → Addr → BitVec 32 → List Event)) (m : Mem) (s : Addr)
    (n : Int) : List Event :=
  match uartConsole with
  | none => []
  | some write => if s = 0 then [] else if n = 0 then [] else write m s (BitVec.ofInt 32 n)

/-- `vprintk`, with its `p_buf` at `pBuf`: what it returns and what it does. -/
def vprintk (uartConsole : Option (Mem → Addr → BitVec 32 → List Event)) (m : Mem) (pBuf : Addr)
    (fmt : List Byte) (args : List Arg) : Option (Int × List Event) :=
  match vsnprintf m pBuf 1024 fmt args with
  | none => none
  | some (len, m) => some (len, consoleWrite uartConsole m pBuf len)

/-! ## The loop -/

/-- A carriage return before each newline. -/
def crlf (l : List Byte) : List Byte :=
  l.flatMap fun c => if c = chr '\n' then [chr '\r', c] else [c]

/-- The bytes passed to `uart_putchar`, in order. -/
def putchars (es : List Event) : List Byte :=
  es.filterMap fun
    | .putchar c => some c
    | .read _ => none

theorem crlf_append (l l' : List Byte) : crlf (l ++ l') = crlf l ++ crlf l' := List.flatMap_append

theorem crlf_ne_nil {l : List Byte} (h : l ≠ []) : crlf l ≠ [] := by
  obtain ⟨c, l', rfl⟩ := List.exists_cons_of_ne_nil h
  rw [crlf, List.flatMap_cons]
  split <;> simp

theorem qemuConsoleLoop_putchars (m : Mem) (s : Addr) (n : Nat) :
    putchars (qemuConsoleLoop m s n) = crlf (bytesAt m s n) := by
  induction n generalizing s with
  | zero => rfl
  | succ n ih =>
    rw [Str.bytesAt_succ, qemuConsoleLoop, crlf, List.flatMap_cons, ← crlf, ← ih]
    split <;> simp [putchars]

theorem qemuConsoleLoop_reads (m : Mem) (s : Addr) (n : Nat) (a : Addr) :
    .read a ∈ qemuConsoleLoop m s n ↔ ∃ i < n, a = s + BitVec.ofNat 64 i := by
  induction n generalizing s with
  | zero => simp [qemuConsoleLoop]
  | succ n ih =>
    have hmem : Event.read a ∈ qemuConsoleLoop m s (n + 1) ↔
        a = s ∨ Event.read a ∈ qemuConsoleLoop m (s + 1) n := by
      rw [qemuConsoleLoop]
      split <;> simp
    rw [hmem, ih]
    constructor
    · rintro (rfl | ⟨i, hi, rfl⟩)
      · exact ⟨0, by omega, by simp⟩
      · exact ⟨i + 1, by omega, Str.add_one_add s i⟩
    · rintro ⟨i, hi, rfl⟩
      cases i with
      | zero => exact Or.inl (by simp)
      | succ i => exact Or.inr ⟨i, by omega, (Str.add_one_add s i).symm⟩

/-! ## Delivery -/

/-- `es` sends the first `min |T| 1023` characters of `T`, as the console should see them, and
reads nothing beyond the 1024 bytes at `pBuf`. -/
structure Delivers (T : List Byte) (pBuf : Addr) (es : List Event) : Prop where
  sent : putchars es = crlf (T.take 1023)
  reads : ∀ a, .read a ∈ es → offset pBuf a < 1024

theorem consoleWrite_qemu (m : Mem) {s : Addr} (hs : s ≠ 0) {n : Nat} (hn : n < 2 ^ 31) :
    consoleWrite (some qemuConsoleWrite) m s (n : Int) = qemuConsoleLoop m s n := by
  simp only [consoleWrite, if_neg hs, qemuConsoleWrite]
  by_cases h0 : n = 0
  · subst h0
    simp [qemuConsoleLoop]
  · have hw : (BitVec.ofInt 32 (n : Int)).toNat = n := by
      rw [BitVec.ofInt_natCast, BitVec.toNat_ofNat, Nat.mod_eq_of_lt (by omega)]
    rw [if_neg (by omega), hw]

/-- `vprintk` sends `|T|` bytes from a buffer that holds the first 1023 characters and a NUL. -/
theorem vprintk_eq {fmt T : List Byte} {args : List Arg} (h0 : 0 ∉ fmt)
    (hc : Counted fmt) (hT : fullText fmt args = some T) (hlen : T.length < 2 ^ 31)
    (m : Mem) {pBuf : Addr} (hnull : pBuf ≠ 0) (hbuf : pBuf.toNat + 2 ^ 31 ≤ 2 ^ 64) :
    vprintk (some qemuConsoleWrite) m pBuf fmt args =
      some ((T.length : Int),
        qemuConsoleLoop (blit m pBuf (T.take 1023 ++ [0])) pBuf T.length) := by
  have hsize : (1024 : BitVec 64).toNat = 1024 := rfl
  have hne : ¬ (1024 : BitVec 64) = 0 := by decide
  rw [vprintk, vsnprintf_eq h0 hc hT hlen m pBuf 1024 (by omega) (by omega) (by omega)]
  simp only [hne, if_false, hsize, consoleWrite_qemu _ hnull hlen]

/-- What the buffer holds from its start: the text as far as it was stored, then, for a longer
text, the NUL and whatever follows. -/
theorem bytesAt_buffer (m : Mem) (pBuf : Addr) (T : List Byte) :
    bytesAt (blit m pBuf (T.take 1023 ++ [0])) pBuf T.length =
      T.take 1023 ++ bytesAt (blit m pBuf (T.take 1023 ++ [0]))
        (pBuf + BitVec.ofNat 64 (T.take 1023).length) (T.length - (T.take 1023).length) := by
  obtain ⟨k, hk⟩ : ∃ k, T.length = (T.take 1023).length + k :=
    ⟨T.length - (T.take 1023).length, by simp⟩
  rw [hk, bytesAt_add, bytesAt_blit_start _ _ (by simp) (by simp), List.take_left,
    Nat.add_sub_cancel_left]

theorem delivers_of_fits {T : List Byte} (h : T.length ≤ 1023) (m : Mem) (pBuf : Addr) :
    Delivers T pBuf (qemuConsoleLoop (blit m pBuf (T.take 1023 ++ [0])) pBuf T.length) := by
  have htake : T.take 1023 = T := List.take_of_length_le h
  constructor
  · rw [qemuConsoleLoop_putchars, bytesAt_buffer, htake, Nat.sub_self]
    simp [bytesAt]
  · intro a ha
    obtain ⟨i, hi, rfl⟩ := (qemuConsoleLoop_reads _ _ _ _).mp ha
    rw [offset_add _ (by omega)]
    omega

/-- A longer text makes the loop send more than it should. -/
theorem not_sent_of_long {T : List Byte} (h : 1023 < T.length) (m : Mem) (pBuf : Addr) :
    putchars (qemuConsoleLoop (blit m pBuf (T.take 1023 ++ [0])) pBuf T.length) ≠
      crlf (T.take 1023) := by
  rw [qemuConsoleLoop_putchars, bytesAt_buffer, crlf_append]
  intro he
  refine crlf_ne_nil ?_ (List.append_right_eq_self.mp he)
  intro hnil
  have := congrArg List.length hnil
  simp only [length_bytesAt, List.length_take, List.length_nil] at this
  omega

/-- **A message is delivered exactly when it fits the buffer.** -/
theorem vprintk_delivers_iff {fmt T : List Byte} {args : List Arg} (h0 : 0 ∉ fmt)
    (hc : Counted fmt) (hT : fullText fmt args = some T) (hlen : T.length < 2 ^ 31)
    (m : Mem) {pBuf : Addr} (hnull : pBuf ≠ 0) (hbuf : pBuf.toNat + 2 ^ 31 ≤ 2 ^ 64) :
    (∃ len es, vprintk (some qemuConsoleWrite) m pBuf fmt args = some (len, es) ∧
      Delivers T pBuf es) ↔ T.length ≤ 1023 := by
  rw [vprintk_eq h0 hc hT hlen m hnull hbuf]
  constructor
  · rintro ⟨len, es, he, hd⟩
    obtain ⟨rfl, rfl⟩ := Prod.mk.inj (Option.some.inj he)
    by_contra hlong
    exact not_sent_of_long (by omega) m pBuf hd.sent
  · intro h
    exact ⟨_, _, rfl, delivers_of_fits h m pBuf⟩

/-- A short message. -/
theorem vprintk_delivers_hi :
    (∃ len es, vprintk (some qemuConsoleWrite) (fun _ => 0) 0x40080000 [chr 'h', chr 'i'] [] =
        some (len, es) ∧ Delivers [chr 'h', chr 'i'] 0x40080000 es) ↔
      ([chr 'h', chr 'i'] : List Byte).length ≤ 1023 :=
  vprintk_delivers_iff (by decide) (.of_length (by decide)) (by decide +kernel) (by decide) (fun _ => 0)
    (by decide) (by decide)

/-- A message of 1024 characters: the NUL is sent in place of the last one. -/
theorem vprintk_1024_fails :
    ∃ es, vprintk (some qemuConsoleWrite) (fun _ => 0) 0x40080000
        (List.replicate 1024 (chr 'a')) [] = some (1024, es) ∧
      fullText (List.replicate 1024 (chr 'a')) [] = some (List.replicate 1024 (chr 'a')) ∧
      ¬ Delivers (List.replicate 1024 (chr 'a')) 0x40080000 es := by
  have hT : fullText (List.replicate 1024 (chr 'a')) [] = some (List.replicate 1024 (chr 'a')) := by
    rw [fullText, textRun_literal (by decide) (by decide)]
    rfl
  have h0 : 0 ∉ List.replicate 1024 (chr 'a') := by
    intro hm
    exact absurd (List.eq_of_mem_replicate hm) (by decide)
  have hlen : (List.replicate 1024 (chr 'a')).length = 1024 := List.length_replicate
  refine ⟨_, ?_, hT, fun hd => not_sent_of_long (by omega) (fun _ => 0) 0x40080000 hd.sent⟩
  rw [vprintk_eq h0 (.of_length (by omega)) hT (by omega) (fun _ => 0) (by decide) (by decide), hlen]
  rfl

end Eeos.Console
