import Eeos.Kernel.Printk

/-!
# The format grammar

What a format string *means*, as a one-pass grammar, independent of the resumable parser:

    directive := '%' [-+ #0]* (digits | '*')? ('.' (digits | '*')?)? qualifier? conversion
    qualifier := hh | h | l | ll | L | z | t

with a conversion one of `c s d i o u x X %`, or `p` and any run of alphanumerics.  A `Segment` is
a maximal run of literal text or a directive; `Segmentation fmt segs rest` says that `fmt` is the
segments `segs` followed by `rest`, where `rest` is empty or starts with a `%` that starts no
directive.  `Directive.spec` is the `printf_spec` that a directive's text spells, `Directive.run`
the arguments it takes and the text it adds, and `runSegments` a whole format.  `Counted fmt` says
that no literal and no directive is too long for the `int` in which `format_decode` counts it.
-/

namespace Eeos.Printk

open ByteMem Ctype

/-! ## Directives -/

/-- A width or a precision as it is written. -/
inductive Num where
  | digits (ds : List Byte)
  | star
  deriving DecidableEq, Repr

def Num.text : Num → List Byte
  | .digits ds => ds
  | .star => [chr '*']

/-- `precision` is `none` without a `'.'` and `some none` for a `'.'` alone. -/
structure Directive where
  flags : List Byte
  width : Option Num
  precision : Option (Option Num)
  qualifier : List Byte
  conversion : Byte
  tail : List Byte
  deriving DecidableEq, Repr

def isFlag (c : Byte) : Bool := c ∈ "-+ #0".toList.map chr

def qualifiers : List (List Byte) :=
  ["hh", "h", "ll", "l", "L", "z", "t"].map fun q => q.toList.map chr

def isConversion (c : Byte) : Bool := c ∈ "csdiouxX%p".toList.map chr

def numText : Option Num → List Byte
  | none => []
  | some n => n.text

def precisionText : Option (Option Num) → List Byte
  | none => []
  | some n => chr '.' :: numText n

/-- What follows the `%`. -/
def Directive.body (d : Directive) : List Byte :=
  d.flags ++ (numText d.width ++ (precisionText d.precision ++ (d.qualifier ++
    (d.conversion :: d.tail))))

def Directive.text (d : Directive) : List Byte := chr '%' :: d.body

def Num.WellFormed : Num → Prop
  | .digits ds => ds ≠ [] ∧ ∀ c ∈ ds, isdigit c = true
  | .star => True

/-- The text of `d` follows the grammar. -/
structure Directive.WellFormed (d : Directive) : Prop where
  flags : ∀ c ∈ d.flags, isFlag c = true
  width : ∀ n ∈ d.width, n.WellFormed
  precision : ∀ n ∈ d.precision.join, n.WellFormed
  qualifier : d.qualifier = [] ∨ d.qualifier ∈ qualifiers
  conversion : isConversion d.conversion = true
  tail : ∀ c ∈ d.tail, isalnum c = true
  tail_ptr : d.tail ≠ [] → d.conversion = chr 'p'

/-- The flags are the longest run of flag characters: a leading `0` is a flag, not a digit. -/
def Directive.FlagsMaximal (d : Directive) : Prop :=
  ∀ ds, d.width = some (.digits ds) → ds.head? ≠ some (chr '0')

inductive Segment where
  | literal (text : List Byte)
  | directive (d : Directive)
  deriving DecidableEq, Repr

def Segment.text : Segment → List Byte
  | .literal l => l
  | .directive d => d.text

def segmentsText (segs : List Segment) : List Byte := segs.flatMap Segment.text

/-- Whether `rest` starts with a directive of the grammar. -/
def StartsDirective (rest : List Byte) : Prop :=
  ∃ d : Directive, ∃ r, d.WellFormed ∧ rest = d.text ++ r

/-- `fmt` is cut into `segs` by the grammar, up to `rest`. -/
inductive Segmentation : List Byte → List Segment → List Byte → Prop where
  | done : Segmentation [] [] []
  | stop {rest : List Byte} : rest.head? = some (chr '%') → ¬ StartsDirective rest →
      Segmentation rest [] rest
  | literal {l fmt : List Byte} {segs : List Segment} {rest : List Byte} : l ≠ [] →
      chr '%' ∉ l → (fmt = [] ∨ fmt.head? = some (chr '%')) → Segmentation fmt segs rest →
      Segmentation (l ++ fmt) (.literal l :: segs) rest
  | directive {d : Directive} {fmt : List Byte} {segs : List Segment} {rest : List Byte} :
      d.WellFormed → d.FlagsMaximal → (d.conversion = chr 'p' → isalnum (deref fmt) = false) →
      Segmentation fmt segs rest →
      Segmentation (d.text ++ fmt) (.directive d :: segs) rest

/-! ## The spelled spec -/

def decimal (ds : List Byte) : Nat := ds.foldl (fun n c => 10 * n + (c.toNat - 48)) 0

/-- The bits of the flag characters of `l`. -/
def flagBits (l : List Byte) : Byte := l.foldr (fun c bits => (flagBit c).getD 0 ||| bits) 0

/-- `w` is the argument of a `*`. -/
def widthOf : Option Num → BitVec 32 → BitVec 24
  | none, _ => -1
  | some (.digits ds), _ => BitVec.ofNat 24 (decimal ds)
  | some .star, w => if (w.setWidth 24).toInt < 0 then -w.setWidth 24 else w.setWidth 24

/-- A negative `*` width also asks for left justification. -/
def starLeft : Option Num → BitVec 32 → Byte
  | some .star, w => if (w.setWidth 24).toInt < 0 then LEFT else 0
  | _, _ => 0

def precisionOf : Option Num → BitVec 32 → BitVec 16
  | none, _ => -1
  | some (.digits ds), _ =>
    if (BitVec.ofNat 16 (decimal ds)).toInt < 0 then 0 else BitVec.ofNat 16 (decimal ds)
  | some .star, p => if (p.setWidth 16).toInt < 0 then 0 else p.setWidth 16

def conversionFlags (c : Byte) : Byte :=
  if c = chr 'x' then SMALL else if c = chr 'd' ∨ c = chr 'i' then SIGN else 0

def baseOf (c : Byte) : Byte :=
  if c = chr 'o' then 8 else if c = chr 'x' ∨ c = chr 'X' then 16 else 10

/-- The integer type a length modifier names; `t` is not distinguished from no modifier. -/
def qualifiedType (q : List Byte) (signed : Bool) : FormatType :=
  if q = [chr 'l', chr 'l'] ∨ q = [chr 'L'] then .longLong
  else if q = [chr 'l'] then if signed then .long else .ulong
  else if q = [chr 'z'] then .sizeT
  else if q = [chr 'h', chr 'h'] then if signed then .byte else .ubyte
  else if q = [chr 'h'] then if signed then .short else .ushort
  else if signed then .int else .uint

def typeOf (q : List Byte) (c : Byte) : FormatType :=
  if c = chr 'c' then .char
  else if c = chr 's' then .str
  else if c = chr 'p' then .ptr
  else if c = chr '%' then .percentChar
  else qualifiedType q (c = chr 'd' ∨ c = chr 'i')

/-- The spec that the text of `d` spells, with `w` and `p` the arguments of its `*`s. -/
def Directive.spec (d : Directive) (w p : BitVec 32) : PrintfSpec where
  type := typeOf d.qualifier d.conversion
  fieldWidth := widthOf d.width w
  flags := flagBits d.flags ||| starLeft d.width w ||| conversionFlags d.conversion
  base := baseOf d.conversion
  precision := precisionOf d.precision.join p

/-! ## One-pass semantics -/

variable {σ : Type}

/-- The argument of a `*`; no argument is taken for digits or nothing. -/
def takeStar : Option Num → List Arg → Option (BitVec 32 × List Arg)
  | some .star, [] => none
  | some .star, a :: args => some (a.int, args)
  | _, args => some (0, args)

/-- The value of a directive, which `%%` does not have. -/
def takeValue (S : Sink σ) (spec : PrintfSpec) (args : List Arg) (str : σ) :
    Option (σ × List Arg) :=
  if spec.type = .percentChar then some (S.put str (chr '%'), args) else
  match args with
  | [] => none
  | a :: args => (convert S str spec a).map fun r => (r.1, args)

theorem takeValue_percent {S : Sink σ} {spec : PrintfSpec} (hp : spec.type = .percentChar)
    (args : List Arg) (str : σ) :
    takeValue S spec args str = some (S.put str (chr '%'), args) := if_pos hp

theorem takeValue_nil {S : Sink σ} {spec : PrintfSpec} (hp : spec.type ≠ .percentChar) (str : σ) :
    takeValue S spec [] str = none := if_neg hp

theorem takeValue_cons {S : Sink σ} {spec : PrintfSpec} (hp : spec.type ≠ .percentChar) (a : Arg)
    (args : List Arg) (str : σ) :
    takeValue S spec (a :: args) str = (convert S str spec a).map fun r => (r.1, args) := if_neg hp

/-- A directive: its `*` arguments in order, then its value. -/
def Directive.run (S : Sink σ) (d : Directive) (args : List Arg) (str : σ) :
    Option (σ × List Arg) :=
  match takeStar d.width args with
  | none => none
  | some (w, args) =>
    match takeStar d.precision.join args with
    | none => none
    | some (p, args) => takeValue S (d.spec w p) args str

/-- A leading width or precision field, and what follows it. -/
def spanNum (fmt : List Byte) : Option Num × List Byte :=
  if isdigit (deref fmt) then (some (.digits (fmt.takeWhile isdigit)), fmt.dropWhile isdigit)
  else if deref fmt = chr '*' then (some .star, fmt.tail)
  else (none, fmt)

/-- A leading precision, and what follows it. -/
def spanPrecision (fmt : List Byte) : Option (Option Num) × List Byte :=
  if deref fmt = chr '.' then (some (spanNum fmt.tail).1, (spanNum fmt.tail).2) else (none, fmt)

/-- The longest qualifier at the front, and what follows it. -/
def spanQualifier : List Byte → List Byte × List Byte
  | [] => ([], [])
  | c :: fmt =>
    if (c = chr 'h' ∨ c = chr 'l') ∧ deref fmt = c then ([c, c], fmt.tail)
    else if c = chr 'h' ∨ c = chr 'l' ∨ c = chr 'L' ∨ c = chr 'z' ∨ c = chr 't' then ([c], fmt)
    else ([], c :: fmt)

/-- How many `*` a malformed directive shows before it goes wrong; `rest` starts with its `%`. -/
def starsSeen (rest : List Byte) : Nat :=
  let width := spanNum (rest.tail.dropWhile isFlag)
  let precision := spanPrecision width.2
  (if width.1 = some .star then 1 else 0) + (if precision.1 = some (some .star) then 1 else 0)

/-- The end of the output: only the `*` arguments of a malformed directive are still taken. -/
def stopAt (rest : List Byte) (args : List Arg) (str : σ) : Option (σ × List Arg) :=
  if starsSeen rest ≤ args.length then some (str, args.drop (starsSeen rest)) else none

/-- The segments in order, then the end. -/
def runSegments (S : Sink σ) (rest : List Byte) : List Segment → List Arg → σ →
    Option (σ × List Arg)
  | [], args, str => stopAt rest args str
  | .literal l :: segs, args, str =>
    match S.copy str (l ++ (segmentsText segs ++ rest)) l.length with
    | none => none
    | some str => runSegments S rest segs args str
  | .directive d :: segs, args, str =>
    match d.run S args str with
    | none => none
    | some (str, args) => runSegments S rest segs args str

/-! ## Counts -/

/-- What `format_decode` counts from the precision on: the call has read `before` characters by
then, a `*` ends it, and `last` characters follow the precision. -/
def precisionCounts (before : Nat) (precision : Option (Option Num)) (last : Nat) : List Nat :=
  let n := before + (precisionText precision).length
  if precision = some (some .star) then [n, last] else [n + last]

/-- What each call of `format_decode` counts on a directive. -/
def directiveCounts (flags : List Byte) (width : Option Num) (precision : Option (Option Num))
    (last : Nat) : List Nat :=
  let n := 1 + flags.length + (numText width).length
  if width = some .star then n :: precisionCounts 0 precision last
  else precisionCounts n precision last

/-- The run of alphanumerics behind a `%p` is skipped without being counted. -/
def Segment.counts : Segment → List Nat
  | .literal l => [l.length]
  | .directive d => directiveCounts d.flags d.width d.precision (d.qualifier.length + 1)

/-- The counts on a malformed directive, up to where it goes wrong. -/
def malformedCounts (rest : List Byte) : List Nat :=
  let width := spanNum (rest.tail.dropWhile isFlag)
  let precision := spanPrecision width.2
  directiveCounts (rest.tail.takeWhile isFlag) width.1 precision.1
    (spanQualifier precision.2).1.length

/-- Every call of `format_decode` on `fmt` reads fewer than `2^31` characters, so that the `int`
it returns can hold their number. -/
def Counted (fmt : List Byte) : Prop :=
  ∃ segs rest, Segmentation fmt segs rest ∧ (∀ seg ∈ segs, ∀ n ∈ seg.counts, n < 2 ^ 31) ∧
    ∀ n ∈ malformedCounts rest, n < 2 ^ 31

end Eeos.Printk
