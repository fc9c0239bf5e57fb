import Eeos.Kernel.Format
import Eeos.Lib.Loop
import Mathlib.Logic.Function.Basic

/-!
# Emitters of `kernel/printk.c`

`number`, `pointer_string`, `string` with `widen_string`, and the `%c` case of `vsnprintf`.  They
are written over a `Sink`, the three things the source does to its output cursor:

* `put` — `if (buf < end) *buf = c; ++buf;`
* `copy` — the literal text of a `FORMAT_TYPE_NONE` round;
* `shift` — `move_right`, which pushes the last `n` characters to the right.

`Eeos.Kernel.Printk` gives the sink that is the buffer of the source; `Eeos.Kernel.Text` gives the
sink that only collects the text.
-/

namespace Eeos.Printk

open ByteMem Ctype CLoop

/-- The output cursor of a formatting run. -/
structure Sink (σ : Type) where
  put : σ → Byte → σ
  copy : σ → List Byte → Int → Option σ
  shift : σ → Int → BitVec 32 → σ

variable {σ : Type}

/-! ## Digits -/

/-- `char tmp[3 * sizeof(num)]`, filled from index 0 up. -/
abbrev Tmp := Nat → Byte

def hexAscUpper : List Byte := "0123456789ABCDEF".toList.map chr

/-- `_(x)`: the two decimal digits of `x`, the units in the low byte. -/
def decpair : Array (BitVec 16) :=
  Array.ofFn fun x : Fin 100 =>
    (BitVec.ofNat 16 (x.val % 10) ||| (BitVec.ofNat 16 (x.val / 10) <<< 8)) + 0x3030

/-- `*((uint16_t *)buf) = v` on a little-endian machine. -/
def store16 (tmp : Tmp) (buf : Nat) (v : BitVec 16) : Tmp :=
  Function.update (Function.update tmp buf (v.setWidth 8)) (buf + 1) ((v >>> 8).setWidth 8)

def storePair (tmp : Tmp) (buf : Nat) (r : BitVec 32) : Tmp :=
  store16 tmp buf (decpair.getD r.toNat 0)

/-- `(r * (uint64_t)0x28f5c29) >> 32`. -/
def mulShift32 (r : BitVec 32) : BitVec 32 := ((r.setWidth 64 * 0x28f5c29) >>> 32).setWidth 32

/-- `(r * 0x147b) >> 19`. -/
def mulShift19 (r : BitVec 32) : BitVec 32 := (r * 0x147b) >>> 19

/-- `put_dec_trunc8`: one to eight digits, without leading zeros. -/
def putDecTrunc8 (tmp : Tmp) (buf : Nat) (r : BitVec 32) : Tmp × Nat :=
  let outR (tmp : Tmp) (buf : Nat) (r : BitVec 32) : Tmp × Nat :=
    (storePair tmp buf r, buf + if r < 10 then 1 else 2)
  if r < 100 then outR tmp buf r else
  let q := mulShift32 r
  let tmp := storePair tmp buf (r - 100 * q)
  if q < 100 then outR tmp (buf + 2) q else
  let r := mulShift32 q
  let tmp := storePair tmp (buf + 2) (q - 100 * r)
  if r < 100 then outR tmp (buf + 4) r else
  let q := mulShift19 r
  let tmp := storePair tmp (buf + 4) (r - 100 * q)
  outR tmp (buf + 6) q

/-- `put_dec_full8`: exactly eight digits. -/
def putDecFull8 (tmp : Tmp) (buf : Nat) (r : BitVec 32) : Tmp × Nat :=
  let q := mulShift32 r
  let tmp := storePair tmp buf (r - 100 * q)
  let r := mulShift32 q
  let tmp := storePair tmp (buf + 2) (q - 100 * r)
  let q := mulShift19 r
  let tmp := storePair tmp (buf + 4) (r - 100 * q)
  (storePair tmp (buf + 6) q, buf + 8)

/-- `if (n >= 10^8) buf = put_dec_full8(buf, do_div(n, 10^8));` -/
def putDecChunk (tmp : Tmp) (buf : Nat) (n : BitVec 64) : (Tmp × Nat) × BitVec 64 :=
  if 100000000 ≤ n then
    (putDecFull8 tmp buf ((n % 100000000).setWidth 32), n / 100000000)
  else ((tmp, buf), n)

def putDec (tmp : Tmp) (buf : Nat) (n : BitVec 64) : Tmp × Nat :=
  let ((tmp, buf), n) := putDecChunk tmp buf n
  let ((tmp, buf), n) := putDecChunk tmp buf n
  putDecTrunc8 tmp buf (n.setWidth 32)

/-- `do { tmp[i++] = …; num >>= shift; } while (num);`  The shift is at least 3, so 64 rounds are
more than a 64-bit `num` can take. -/
def digitLoop (mask : BitVec 8) (shift : Nat) (locase : Byte) :
    Nat → BitVec 64 → Tmp → Nat → Tmp × Nat
  | 0, _, tmp, i => (tmp, i)
  | fuel + 1, num, tmp, i =>
    let digit := hexAscUpper.getD (num.setWidth 8 &&& mask).toNat 0
    let tmp := Function.update tmp i (digit ||| locase)
    let num := num >>> shift
    if num ≠ 0 then digitLoop mask shift locase fuel num tmp (i + 1) else (tmp, i + 1)

/-- The digits of `num`, least significant first, and how many there are. -/
def numberDigits (num : BitVec 64) (base locase : Byte) : Tmp × Nat :=
  if num.toNat < base.toNat then
    (Function.update (fun _ => 0) 0 (hexAscUpper.getD num.toNat 0 ||| locase), 1)
  else if base ≠ 10 then
    digitLoop (base - 1) (if base = 16 then 4 else 3) locase 64 num (fun _ => 0) 0
  else putDec (fun _ => 0) 0 num

/-! ## `number` -/

/-- The sign character (0 for none), the magnitude, and the width that is left. -/
def numberSign (spec : PrintfSpec) (num : BitVec 64) (fieldWidth : Int) :
    Byte × BitVec 64 × Int :=
  if spec.has SIGN then
    if num.toInt < 0 then (chr '-', -num, fieldWidth - 1)
    else if spec.has PLUS then (chr '+', num, fieldWidth - 1)
    else if spec.has SPACE then (chr ' ', num, fieldWidth - 1)
    else (0, num, fieldWidth)
  else (0, num, fieldWidth)

/-- `if (spec.flags & LEFT) spec.flags &= ~ZEROPAD;` -/
def dropZeropad (spec : PrintfSpec) : PrintfSpec :=
  if spec.has LEFT then { spec with flags := spec.flags &&& ~~~ZEROPAD } else spec

def number (S : Sink σ) (buf : σ) (num : BitVec 64) (spec : PrintfSpec) : σ :=
  let needPfx := spec.has SPECIAL && spec.base != 10
  let isZero := num == 0
  let locase := spec.flags &&& SMALL
  let spec := dropZeropad spec
  let (sign, num, fieldWidth) := numberSign spec num spec.fieldWidth.toInt
  let fieldWidth :=
    if needPfx then
      if spec.base = 16 then fieldWidth - 2 else if !isZero then fieldWidth - 1 else fieldWidth
    else fieldWidth
  let (tmp, i) := numberDigits num spec.base locase
  let precision := spec.precision.toInt
  let precision := if precision < i then (i : Int) else precision
  let fieldWidth := fieldWidth - precision
  -- leading space padding: `while (--field_width > 0)`
  let (buf, fieldWidth) :=
    if !spec.has (ZEROPAD ||| LEFT) then
      whileDec 0 (fun _ buf => S.put buf (chr ' ')) fieldWidth buf
    else (buf, fieldWidth)
  let buf := if sign != 0 then S.put buf sign else buf
  let buf :=
    if needPfx then
      let buf := if spec.base = 16 || !isZero then S.put buf (chr '0') else buf
      if spec.base = 16 then S.put buf (chr 'X' ||| locase) else buf
    else buf
  -- zero or space padding: `while (--field_width >= 0)`
  let (buf, fieldWidth) :=
    if !spec.has LEFT then
      whileDec (-1) (fun _ buf => S.put buf (chr ' ' + (spec.flags &&& ZEROPAD))) fieldWidth buf
    else (buf, fieldWidth)
  let buf := (whileDec (i - 1) (fun _ buf => S.put buf (chr '0')) precision buf).1
  let buf := (whileDec (-1) (fun j buf => S.put buf (tmp j.toNat)) i buf).1
  (whileDec (-1) (fun _ buf => S.put buf (chr ' ')) fieldWidth buf).1

def pointerString (S : Sink σ) (buf : σ) (ptr : BitVec 64) (spec : PrintfSpec) : σ :=
  let spec := { spec with base := 16, flags := spec.flags ||| SMALL }
  let spec :=
    if spec.fieldWidth = -1 then { spec with fieldWidth := 16, flags := spec.flags ||| ZEROPAD }
    else spec
  number S buf ptr spec

/-! ## `string` -/

/-- `widen_string`. -/
def widenString (S : Sink σ) (buf : σ) (n : Int) (spec : PrintfSpec) : σ :=
  if spec.fieldWidth.toInt < n then buf else
  let spaces := BitVec.ofInt 32 (spec.fieldWidth.toInt - n)
  if !spec.has LEFT then S.shift buf n spaces
  else (List.replicate spaces.toNat (chr ' ')).foldl S.put buf

/-- The `while (lim--)` loop: reading outside the string object fails. -/
def stringLoop (S : Sink σ) : List Byte → BitVec 32 → BitVec 32 → σ → Option (σ × BitVec 32)
  | [], lim, len, buf => if lim = 0 then some (buf, len) else none
  | c :: s, lim, len, buf =>
    if lim = 0 then some (buf, len)
    else if c = 0 then some (buf, len)
    else stringLoop S s (lim - 1) (len + 1) (S.put buf c)

def string (S : Sink σ) (buf : σ) (s : List Byte) (spec : PrintfSpec) : Option σ :=
  (stringLoop S s (spec.precision.signExtend 32) 0 buf).map fun r =>
    widenString S r.1 r.2.toInt spec

/-! ## `%c` -/

/-- `while (--spec.field_width > 0) { … }` on the bit-field itself, which wraps. -/
def padCharLoop (S : Sink σ) : Nat → BitVec 24 → σ → σ × BitVec 24
  | 0, fw, str => (str, fw - 1)
  | fuel + 1, fw, str =>
    if 0 < (fw - 1).toInt then padCharLoop S fuel (fw - 1) (S.put str (chr ' ')) else (str, fw - 1)

def padChar (S : Sink σ) (fw : BitVec 24) (str : σ) : σ × BitVec 24 :=
  padCharLoop S (fw - 1).toNat fw str

/-- The `FORMAT_TYPE_CHAR` case. -/
def charField (S : Sink σ) (str : σ) (c : Byte) (spec : PrintfSpec) : σ × PrintfSpec :=
  let (str, fw) := if !spec.has LEFT then padChar S spec.fieldWidth str else (str, spec.fieldWidth)
  let (str, fw) := padChar S fw (S.put str c)
  (str, { spec with fieldWidth := fw })

end Eeos.Printk
