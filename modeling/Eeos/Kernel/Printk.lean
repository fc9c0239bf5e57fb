import Eeos.Kernel.Number
import Eeos.Libc.Str

/-!
# `vsnprintf` (`kernel/printk.c`)

`vsnprintfLoop` is the `while (*fmt)` loop, over any sink; `vsnprintf` runs it on the buffer.

An argument is its 8-byte slot in the `va_list` and, for a pointer, the bytes of the object it
points to; `va_arg(args, int)` reads the low half of the slot.  The format and the `%s` strings are
read-only objects, apart from the memory that holds the buffer.

Failure (`none`) stands for a read outside an object or past the last argument.  `format_decode`
returns an `int`; a negative one, after text of `2^31` characters or more, moves `fmt` backwards,
out of the text it has just read, and is a failure here.  The loop's fuel is the length of the
format: a round that goes on has read at least one character.
-/

namespace Eeos.Printk

open ByteMem Ctype Str

/-- A variadic argument. -/
structure Arg where
  val : BitVec 64
  str : List Byte
  deriving DecidableEq, Repr

/-- `va_arg(args, int)`. -/
def Arg.int (a : Arg) : BitVec 32 := a.val.setWidth 32

/-- The inner `switch (spec.type)`: the argument converted to `unsigned long long`. -/
def fetchNum (type : FormatType) (a : Arg) : BitVec 64 :=
  match type with
  | .longLong | .ulong | .long | .sizeT => a.val
  | .ubyte => (a.int.setWidth 8).setWidth 64
  | .byte => (a.int.setWidth 8).signExtend 64
  | .ushort => (a.int.setWidth 16).setWidth 64
  | .short => (a.int.setWidth 16).signExtend 64
  | .int => a.int.signExtend 64
  | _ => a.int.setWidth 64

variable {σ : Type}

/-- The local variables of `vsnprintf` between two rounds of its loop. -/
structure Run (σ : Type) where
  fmt : List Byte
  spec : PrintfSpec
  args : List Arg
  str : σ

/-- What a round leads to: the next round, or the label `out`. -/
inductive Round (σ : Type) where
  | next (st : Run σ)
  | out (str : σ) (args : List Arg)

/-- The conversions that print an argument: the cursor after it and the spec as it is left. -/
def convert (S : Sink σ) (str : σ) (spec : PrintfSpec) (a : Arg) : Option (σ × PrintfSpec) :=
  match spec.type with
  | .char => some (charField S str (a.int.setWidth 8) spec)
  | .str => (string S str a.str spec).map (·, spec)
  | .ptr => some (pointerString S str a.val spec, spec)
  | type => some (number S str (fetchNum type a) spec, spec)

/-- The `switch (spec.type)` of a round, on what `format_decode` returned. -/
def dispatch (S : Sink σ) (st : Run σ) (read : Int) (spec : PrintfSpec) : Option (Round σ) :=
  if read < 0 then none else
  let fmt := st.fmt.drop read.toNat
  match spec.type with
  | .none => (S.copy st.str st.fmt read).map fun str => .next ⟨fmt, spec, st.args, str⟩
  | .percentChar => some (.next ⟨fmt, spec, st.args, S.put st.str (chr '%')⟩)
  | .invalid => some (.out st.str st.args)
  | type =>
    match st.args with
    | [] => none
    | a :: args =>
      match type with
      | .width => some (.next ⟨fmt, setFieldWidth spec a.int, args, st.str⟩)
      | .precision => some (.next ⟨fmt, setPrecision spec a.int, args, st.str⟩)
      | .ptr =>
        (convert S st.str spec a).map fun r => .next ⟨fmt.dropWhile isalnum, r.2, args, r.1⟩
      | _ => (convert S st.str spec a).map fun r => .next ⟨fmt, r.2, args, r.1⟩

/-- The body of `while (*fmt) { … }`. -/
def vsnprintfRound (S : Sink σ) (st : Run σ) : Option (Round σ) :=
  match formatDecode st.fmt st.spec with
  | none => none
  | some (read, spec) => dispatch S st read spec

/-- `while (*fmt) { … }`, up to the label `out`: the cursor and the arguments not consumed. -/
def vsnprintfLoop (S : Sink σ) : Nat → Run σ → Option (σ × List Arg)
  | 0, _ => none
  | fuel + 1, st =>
    if deref st.fmt = 0 then some (st.str, st.args) else
    match vsnprintfRound S st with
    | none => none
    | some (.out str args) => some (str, args)
    | some (.next st) => vsnprintfLoop S fuel st

/-! ## The buffer -/

/-- The memory and the cursor `str`. -/
structure Out where
  mem : Mem
  str : Addr

def moveRight (m : Mem) (buf end_ : Addr) (len spaces : BitVec 32) : Mem :=
  if end_ ≤ buf then m else
  let size := (end_ - buf).toNat
  if size ≤ spaces.toNat then memset m buf (chr ' ') size else
  let m :=
    if len ≠ 0 then
      let len := if size - spaces.toNat < len.toNat then size - spaces.toNat else len.toNat
      memmove m (buf + spaces.setWidth 64) buf len
    else m
  memset m buf (chr ' ') spaces.toNat

/-- The buffer that ends at `end_`.  In the literal case `copy` and `end - str` are signed, and
`copy = end - str` narrows to `int`. -/
def bufSink (end_ : Addr) : Sink Out where
  put o c := ⟨if o.str < end_ then store o.mem o.str c else o.mem, o.str + 1⟩
  copy o oldFmt read :=
    let mem :=
      if o.str < end_ then
        let copy := if (end_ - o.str).toInt < read then ((end_ - o.str).setWidth 32).toInt else read
        memcpyFrom o.mem o.str (oldFmt ++ [0]) (BitVec.ofInt 64 copy).toNat
      else some o.mem
    mem.map fun mem => ⟨mem, o.str + BitVec.ofInt 64 read⟩
  shift o n spaces :=
    ⟨moveRight o.mem (o.str - BitVec.ofInt 64 n) end_ (BitVec.ofInt 32 n) spaces,
      o.str + spaces.setWidth 64⟩

/-- `vsnprintf`: the returned `int` and the memory. -/
def vsnprintf (m : Mem) (buf : Addr) (size : BitVec 64) (fmt : List Byte) (args : List Arg) :
    Option (Int × Mem) :=
  let end_ := buf + size
  let (end_, size) := if end_ < buf then (-1, -1 - buf) else (end_, size)
  match vsnprintfLoop (bufSink end_) (fmt.length + 1) ⟨fmt, .zero, args, ⟨m, buf⟩⟩ with
  | none => none
  | some (o, _) =>
    let mem :=
      if 0 < size then
        if o.str < end_ then store o.mem o.str 0 else store o.mem (end_ - 1) 0
      else o.mem
    some (((o.str - buf).setWidth 32).toInt, mem)

end Eeos.Printk
