import Eeos.Libc.Ctype

/-!
# Format parsing (`format_decode` of `kernel/printk.c`)

`format_decode` is a resumable parser.  `vsnprintf` calls it once for a run of literal text and once
for a directive, or up to three times for a directive with `*`: a call that reads a `*` returns with
`type` set to `FORMAT_TYPE_WIDTH` or `FORMAT_TYPE_PRECISION`, the caller overwrites the field, and
the next call jumps into the middle of the function.  The labels `precision` and `qualifier` are
`decodePrecision` and `decodeQualifier` here.

A pointer into the format is the list of the characters from there to the terminating NUL.
`deref` reads it (NUL at the end), `incr` steps it and fails at the NUL, so a call that returned
`none` would be one that steps past the end.  The bit-fields of `struct printf_spec` are bit
vectors of their widths, so an assignment truncates as it does in C.
-/

namespace Eeos.Printk

open ByteMem Ctype

def SIGN : Byte := 1
def LEFT : Byte := 2
def PLUS : Byte := 4
def SPACE : Byte := 8
def ZEROPAD : Byte := 16
def SMALL : Byte := 32
def SPECIAL : Byte := 64

/-- `enum format_type`. -/
inductive FormatType where
  | none
  | width
  | precision
  | char
  | str
  | ptr
  | percentChar
  | invalid
  | longLong
  | ulong
  | long
  | ubyte
  | byte
  | ushort
  | short
  | uint
  | int
  | sizeT
  deriving DecidableEq, Repr

/-- `t + sign` on the enumerators: `FORMAT_TYPE_ULONG + (spec->flags & SIGN)` and its two siblings
rely on each signed type standing right after its unsigned one. -/
def FormatType.add (t : FormatType) (sign : Byte) : FormatType :=
  FormatType.ofNat (t.ctorIdx + sign.toNat)

/-- `struct printf_spec`. -/
structure PrintfSpec where
  type : FormatType
  fieldWidth : BitVec 24
  flags : BitVec 8
  base : BitVec 8
  precision : BitVec 16
  deriving DecidableEq, Repr

/-- `struct printf_spec spec = { 0 };` -/
def PrintfSpec.zero : PrintfSpec := ⟨.none, 0, 0, 0, 0⟩

/-- `spec.flags & flag`, as a condition. -/
def PrintfSpec.has (spec : PrintfSpec) (flag : Byte) : Bool := spec.flags &&& flag != 0

/-! ## Pointers into the format -/

/-- `*fmt`. -/
def deref (fmt : List Byte) : Byte := fmt.headD 0

/-- `++fmt`. -/
def incr : List Byte → Option (List Byte)
  | [] => none
  | _ :: fmt => some fmt

/-- `fmt - start`, returned as an `int`. -/
def readCount (start fmt : List Byte) : Int :=
  (BitVec.ofNat 32 (start.length - fmt.length)).toInt

/-- `for (; *fmt; ++fmt) if (*fmt == '%') break;` -/
def skipLiteral : List Byte → List Byte
  | [] => []
  | c :: fmt => if c = chr '%' then c :: fmt else skipLiteral fmt

/-- The bit of a flag character; `none` is the `default:` of the switch. -/
def flagBit (c : Byte) : Option Byte :=
  if c = chr '-' then some LEFT
  else if c = chr '+' then some PLUS
  else if c = chr ' ' then some SPACE
  else if c = chr '#' then some SPECIAL
  else if c = chr '0' then some ZEROPAD
  else none

/-- The `while (1)` loop over the flag characters; it steps before it looks. -/
def flagLoop : List Byte → Byte → Option (List Byte × Byte)
  | [], _ => none
  | _ :: fmt, flags =>
    match flagBit (deref fmt) with
    | some bit => flagLoop fmt (flags ||| bit)
    | none => some (fmt, flags)

/-- The `do … while (isdigit(**s))` of `skip_atoi`. -/
def skipAtoi : List Byte → BitVec 32 → Option (BitVec 32 × List Byte)
  | [], _ => none
  | c :: s, i =>
    let i := i * 10 + c.setWidth 32 - (chr '0').setWidth 32
    if isdigit (deref s) then skipAtoi s i else some (i, s)

/-- `set_field_width`. -/
def setFieldWidth (spec : PrintfSpec) (width : BitVec 32) : PrintfSpec :=
  { spec with fieldWidth := width.setWidth 24 }

/-- `set_precision`. -/
def setPrecision (spec : PrintfSpec) (prec : BitVec 32) : PrintfSpec :=
  { spec with precision := prec.setWidth 16 }

/-! ## `format_decode` -/

/-- The length modifier: `hh` is `'H'`, `ll` is `'L'`, none is `0`. -/
def readQualifier (fmt : List Byte) : Option (Byte × List Byte) :=
  let c := deref fmt
  if c = chr 'h' ∨ tolowerFast c = chr 'l' ∨ c = chr 'z' ∨ c = chr 't' then
    match incr fmt with
    | none => none
    | some fmt =>
      if c = deref fmt then
        if c = chr 'l' then (incr fmt).map (chr 'L', ·)
        else if c = chr 'h' then (incr fmt).map (chr 'H', ·)
        else some (c, fmt)
      else some (c, fmt)
  else some (0, fmt)

/-- The type of an integer conversion. -/
def intType (qualifier flags : Byte) : FormatType :=
  if qualifier = chr 'L' then .longLong
  else if qualifier = chr 'l' then FormatType.ulong.add (flags &&& SIGN)
  else if qualifier = chr 'z' then .sizeT
  else if qualifier = chr 'H' then FormatType.ubyte.add (flags &&& SIGN)
  else if qualifier = chr 'h' then FormatType.ushort.add (flags &&& SIGN)
  else FormatType.uint.add (flags &&& SIGN)

/-- The conversion character: the spec it makes, or `none` for `n` and everything else. -/
def readConversion (qualifier c : Byte) (spec : PrintfSpec) : Option PrintfSpec :=
  let spec := { spec with base := 10 }
  let integer (spec : PrintfSpec) := some { spec with type := intType qualifier spec.flags }
  if c = chr 'c' then some { spec with type := .char }
  else if c = chr 's' then some { spec with type := .str }
  else if c = chr 'p' then some { spec with type := .ptr }
  else if c = chr '%' then some { spec with type := .percentChar }
  else if c = chr 'o' then integer { spec with base := 8 }
  else if c = chr 'x' then integer { spec with flags := spec.flags ||| SMALL, base := 16 }
  else if c = chr 'X' then integer { spec with base := 16 }
  else if c = chr 'd' ∨ c = chr 'i' then integer { spec with flags := spec.flags ||| SIGN }
  else if c = chr 'u' then integer spec
  else none

/-- From the label `qualifier` on. -/
def decodeQualifier (start fmt : List Byte) (spec : PrintfSpec) : Option (Int × PrintfSpec) :=
  match readQualifier fmt with
  | none => none
  | some (qualifier, fmt) =>
    match readConversion qualifier (deref fmt) spec with
    | some spec => (incr fmt).map fun fmt => (readCount start fmt, spec)
    | none => some (readCount start fmt, { spec with base := 10, type := .invalid })

/-- `if (spec->precision < 0) spec->precision = 0;` -/
def clampPrecision (spec : PrintfSpec) : PrintfSpec :=
  if spec.precision.toInt < 0 then { spec with precision := 0 } else spec

/-- From the label `precision` on. -/
def decodePrecision (start fmt : List Byte) (spec : PrintfSpec) : Option (Int × PrintfSpec) :=
  let spec := { spec with precision := -1 }
  if deref fmt = chr '.' then
    match incr fmt with
    | none => none
    | some fmt =>
      if isdigit (deref fmt) then
        match skipAtoi fmt 0 with
        | none => none
        | some (n, fmt) => decodeQualifier start fmt (clampPrecision (setPrecision spec n))
      else if deref fmt = chr '*' then
        (incr fmt).map fun fmt => (readCount start fmt, { spec with type := .precision })
      else decodeQualifier start fmt spec
  else decodeQualifier start fmt spec

/-- The entry with a fresh directive: literal text, or everything from the `%` on. -/
def decodeFresh (start : List Byte) (spec : PrintfSpec) : Option (Int × PrintfSpec) :=
  let spec := { spec with type := .none }
  let fmt := skipLiteral start
  if fmt.length ≠ start.length ∨ deref fmt = 0 then some (readCount start fmt, spec)
  else
    match flagLoop fmt 0 with
    | none => none
    | some (fmt, flags) =>
      let spec := { spec with flags := flags, fieldWidth := -1 }
      if isdigit (deref fmt) then
        match skipAtoi fmt 0 with
        | none => none
        | some (n, fmt) => decodePrecision start fmt (setFieldWidth spec n)
      else if deref fmt = chr '*' then
        (incr fmt).map fun fmt => (readCount start fmt, { spec with type := .width })
      else decodePrecision start fmt spec

/-- `format_decode`: the number of characters read, and the updated spec. -/
def formatDecode (fmt : List Byte) (spec : PrintfSpec) : Option (Int × PrintfSpec) :=
  if spec.type = .width then
    let spec :=
      if spec.fieldWidth.toInt < 0 then
        { spec with fieldWidth := -spec.fieldWidth, flags := spec.flags ||| LEFT }
      else spec
    decodePrecision fmt fmt { spec with type := .none }
  else if spec.type = .precision then
    decodeQualifier fmt fmt { clampPrecision spec with type := .none }
  else decodeFresh fmt spec

end Eeos.Printk
