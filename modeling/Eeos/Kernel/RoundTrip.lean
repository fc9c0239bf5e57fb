import Eeos.Kernel.Buffer
import Eeos.Kernel.Field
import Eeos.Libc.Strtoul

/-!
# Printing a number and parsing it back

`snprintf` with a conversion of one `unsigned long`, and `strtoul` on the buffer it filled.  An
`UlongFormat` is such a conversion: `#` and `0` as flags, a width only together with `0`, because
`strtoul` skips no spaces, and any precision.

* `numberText_spells` — what `number` emits is a prefix that `strtoul` skips, then digits.
* `ulong_run` — the run of the format puts the text of `number`.

Principal result: `snprintf_strtoul` — `strtoul` reads back every `unsigned long` that `snprintf`
has written, and stops at the NUL.
-/

namespace Eeos.Printk

open ByteMem Ctype Digits Strtoul Aarch64

/-! ## The text as digits -/

/-- The base of a spec, as `strtoul` takes it. -/
def PrintfSpec.radix (spec : PrintfSpec) : BitVec 32 := spec.base.setWidth 32

theorem hexValue_digit : ∀ d < 16, hexValue (hexAscLower.getD d 0) = some d ∧
    hexValue (hexAscUpper.getD d 0) = some d := by decide

theorem toNat_radix (spec : PrintfSpec) : spec.radix.toNat = spec.base.toNat := by
  rw [PrintfSpec.radix, BitVec.toNat_setWidth]
  omega

theorem spells_digit {spec : PrintfSpec} (hle : spec.base.toNat ≤ 16) {d : Nat}
    (hd : d < spec.base.toNat) :
    Spells spec.radix ((if spec.has SMALL then hexAscLower else hexAscUpper).getD d 0) d := by
  obtain ⟨hlower, hupper⟩ := hexValue_digit d (hd.trans_le hle)
  rw [← toNat_radix] at hd
  split
  · exact spells_of_hexValue hlower hd
  · exact spells_of_hexValue hupper hd

theorem spells_zeros {spec : PrintfSpec} (hpos : 0 < spec.base.toNat) (k : Nat) :
    List.Forall₂ (Spells spec.radix) (List.replicate k (chr '0')) (List.replicate k 0) := by
  have hzero : Spells spec.radix (chr '0') 0 := by
    rw [← toNat_radix] at hpos
    exact spells_of_hexValue rfl hpos
  induction k with
  | zero => exact List.Forall₂.nil
  | succ k ih => exact List.Forall₂.cons hzero ih

theorem signChars_unsigned (num : BitVec 64) {spec : PrintfSpec} (hsign : spec.has SIGN = false) :
    signChars num spec = [] := by
  rw [signChars, hsign]
  rfl

theorem spells_digitChars {num : BitVec 64} {spec : PrintfSpec}
    (hbase : spec.base = 8 ∨ spec.base = 10 ∨ spec.base = 16) (hsign : spec.has SIGN = false) :
    List.Forall₂ (Spells spec.radix) (digitChars num spec)
      (lsd spec.base.toNat num.toNat).reverse := by
  have hb : 1 < spec.base.toNat ∧ spec.base.toNat ≤ 16 := by
    rcases hbase with h | h | h <;> rw [h] <;> decide
  have hmag : magnitude num spec = num.toNat := by
    rw [magnitude, hsign]
    rfl
  rw [digitChars, hmag, List.forall₂_map_left_iff, List.forall₂_same]
  intro d hd
  exact spells_digit hb.2 (lsd_lt hb.1 d (List.mem_reverse.mp hd))

/-- An octal prefix is one more zero; a hexadecimal one is skipped. -/
theorem prefixChars_spells (num : BitVec 64) (spec : PrintfSpec) :
    ∃ pfx k, prefixChars num spec = pfx ++ List.replicate k (chr '0') ∧
      SkippedPrefix pfx spec.radix := by
  unfold prefixChars
  by_cases hsp : spec.has SPECIAL = true
  · rw [if_pos hsp]
    by_cases h16 : spec.base = 16
    · rw [if_pos h16]
      refine ⟨[chr '0', if spec.has SMALL then chr 'x' else chr 'X'], 0, rfl,
        Or.inr ⟨?_, _, (tolower_eq_x _).mpr ?_, rfl⟩⟩
      · rw [PrintfSpec.radix, h16]
        rfl
      · split
        · exact Or.inl rfl
        · exact Or.inr rfl
    · rw [if_neg h16]
      split
      · exact ⟨[], 1, rfl, Or.inl rfl⟩
      · exact ⟨[], 0, rfl, Or.inl rfl⟩
  · rw [if_neg hsp]
    exact ⟨[], 0, rfl, Or.inl rfl⟩

/-- **What `number` emits is what `strtoul` reads**: nothing else stands before the digits. -/
theorem numberText_spells (num : BitVec 64) {spec : PrintfSpec}
    (hbase : spec.base = 8 ∨ spec.base = 10 ∨ spec.base = 16) (hsign : spec.has SIGN = false)
    (hleft : spec.has LEFT = false) (hfill : spec.has ZEROPAD = true ∨ fill [] num spec = 0) :
    ∃ pfx cs k, numberText num spec = pfx ++ cs ∧ SkippedPrefix pfx spec.radix ∧
      List.Forall₂ (Spells spec.radix) cs
        (List.replicate k 0 ++ (lsd spec.base.toNat num.toNat).reverse) := by
  have hpos : 0 < spec.base.toNat := by
    rcases hbase with h | h | h <;> rw [h] <;> decide
  obtain ⟨pfx, k, hpfx, hskip⟩ := prefixChars_spells num spec
  obtain ⟨z, hz⟩ : ∃ z, zeroChars num spec = List.replicate z (chr '0') := ⟨_, rfl⟩
  have htext : numberText num spec = pfx ++ (List.replicate (k + (fill [] num spec + z)) (chr '0') ++
      digitChars num spec) := by
    rw [numberText_eq num hbase, signChars_unsigned num hsign, List.replicate_add,
      List.replicate_add, fieldText, bodyText, hleft, hpfx, hz]
    by_cases hzp : spec.has ZEROPAD = true
    · rw [if_pos (Or.inr hzp), if_neg Bool.false_ne_true, if_pos hzp]
      simp only [List.nil_append, List.append_assoc]
    · have h0 : fill [] num spec = 0 := hfill.resolve_left hzp
      rw [if_neg (not_or.mpr ⟨Bool.false_ne_true, hzp⟩), h0]
      simp only [List.nil_append, List.append_assoc, List.replicate_zero, Nat.zero_sub]
  refine ⟨pfx, _, k + (fill [] num spec + z), htext, hskip, ?_⟩
  exact List.rel_append (spells_zeros hpos _) (spells_digitChars hbase hsign)

/-- The fields of a spec hold no width that the text could not be counted for. -/
theorem length_numberText {num : BitVec 64} {spec : PrintfSpec}
    (hbase : spec.base = 8 ∨ spec.base = 10 ∨ spec.base = 16) (hsign : spec.has SIGN = false)
    (hfill : spec.has ZEROPAD = true ∨ fill [] num spec = 0) :
    (numberText num spec).length < 2 ^ 31 := by
  have hb : 1 < spec.base.toNat := by
    rcases hbase with h | h | h <;> rw [h] <;> decide
  have htext : (numberText num spec).length = (fieldText [] num spec).length := by
    rw [numberText_eq num hbase, signChars_unsigned num hsign]
    split
    · rfl
    · rename_i hn
      have h0 : fill [] num spec = 0 := hfill.resolve_left fun hz => hn (Or.inr hz)
      have := length_fieldText [] num spec
      rw [fill] at h0
      rw [List.length_append, List.length_replicate, fill]
      omega
  have hdigits : (digitChars num spec).length ≤ 64 := by
    have hmag : magnitude num spec < spec.base.toNat ^ 64 := by
      rw [magnitude, hsign]
      exact num.isLt.trans_le (Nat.pow_le_pow_left hb 64)
    rw [digitChars, List.length_map, List.length_reverse]
    exact length_lsd_le hb (by omega) hmag
  have hpfx : (prefixChars num spec).length ≤ 2 := by
    unfold prefixChars
    split
    · split
      · exact Nat.le_refl 2
      · split <;> simp
    · simp
  have hzeros : (zeroChars num spec).length < 2 ^ 15 := by
    have := BitVec.toInt_lt (x := spec.precision)
    rw [zeroChars, List.length_replicate]
    omega
  have hbody : (bodyText [] num spec).length < 2 ^ 15 + 66 := by
    rw [bodyText]
    simp only [List.length_append, List.length_nil]
    omega
  have hwidth := BitVec.toInt_lt (x := spec.fieldWidth)
  have hfield := length_fieldText [] num spec
  omega

/-! ## Formats -/

/-- A directive of the grammar holds no NUL. -/
theorem Directive.WellFormed.text_no_nul {d : Directive} (h : d.WellFormed) : 0 ∉ d.text := by
  have hnum : ∀ {n : Option Num}, (∀ m ∈ n, m.WellFormed) → 0 ∉ numText n := by
    intro n hn
    cases n with
    | none => exact List.not_mem_nil
    | some n =>
      cases n with
      | digits ds => exact fun h0 => absurd ((hn _ rfl).2 0 h0) (by decide)
      | star => exact (by decide : (0 : Byte) ∉ [chr '*'])
  have hprecision : 0 ∉ precisionText d.precision := by
    have hn := h.precision
    cases hp : d.precision with
    | none => exact List.not_mem_nil
    | some n =>
      rw [hp] at hn
      exact List.not_mem_cons_of_ne_of_not_mem (by decide) (hnum hn)
  have hqualifier : 0 ∉ d.qualifier := by
    rcases h.qualifier with hq | hq
    · rw [hq]
      exact List.not_mem_nil
    · have hall : ∀ q ∈ qualifiers, (0 : Byte) ∉ q := by decide
      exact hall _ hq
  have hflags : 0 ∉ d.flags := fun h0 => absurd (h.flags 0 h0) (by decide)
  have hconv : (0 : Byte) ≠ d.conversion := fun h0 =>
    absurd (h0 ▸ h.conversion) (by decide)
  have htail : 0 ∉ d.tail := fun h0 => Bool.noConfusion (isalnum_nul.symm.trans (h.tail 0 h0))
  simp only [Directive.text, Directive.body, List.mem_cons, List.mem_append, not_or]
  exact ⟨by decide, hflags, hnum h.width, hprecision, hqualifier, hconv, htail⟩

/-- **A format that is one directive** runs it. -/
theorem Directive.WellFormed.loop_eq {d : Directive} (h : d.WellFormed) (hm : d.FlagsMaximal)
    (hl : d.text.length < 2 ^ 31) {σ : Type} (S : Sink σ) (args : List Arg) (str : σ) :
    vsnprintfLoop S (d.text.length + 1) ⟨d.text, .zero, args, str⟩ = d.run S args str := by
  have hptr : d.conversion = chr 'p' → isalnum (deref []) = false := fun _ => isalnum_nul
  have hseg := Segmentation.directive h hm hptr .done
  rw [List.append_nil] at hseg
  rw [loop_eq_runSegments S hseg (.of_length hl) h.text_no_nul args str (Nat.lt_succ_self _),
    runSegments]
  cases d.run S args str with
  | none => rfl
  | some x => rfl

/-- A flag character sets its bit. -/
theorem flagBits_mem {c bit : Byte} {l : List Byte} (hc : c ∈ l) (hbit : flagBit c = some bit) :
    flagBits l ||| bit = flagBits l := by
  induction l with
  | nil => exact absurd hc List.not_mem_nil
  | cons d l ih =>
    rw [flagBits, List.foldr_cons, ← flagBits]
    rcases List.mem_cons.mp hc with rfl | hc
    · rw [hbit, Option.getD_some, BitVec.or_comm, ← BitVec.or_assoc, BitVec.or_self]
    · rw [BitVec.or_assoc, ih hc]

/-- The conversions of an `unsigned long`. -/
inductive UlongConversion where
  | o
  | u
  | x
  | X
  deriving DecidableEq, Repr

def UlongConversion.char : UlongConversion → Byte
  | .o => chr 'o'
  | .u => chr 'u'
  | .x => chr 'x'
  | .X => chr 'X'

/-- The base that reads the conversion back. -/
def UlongConversion.base : UlongConversion → BitVec 32
  | .o => 8
  | .u => 10
  | .x => 16
  | .X => 16

/-- A number as it is written in a format. -/
def decimalText (n : Nat) : List Byte := (lsd 10 n).reverse.map fun d => hexAscUpper.getD d 0

/-- `%` with any of the flags `#` and `0`, a width together with `0`, a precision, and a
conversion of an `unsigned long`. -/
structure UlongFormat where
  flags : List Byte
  width : Option Nat
  precision : Option Nat
  conversion : UlongConversion
  flags_nodup : flags.Nodup
  flags_mem : ∀ c ∈ flags, c = chr '#' ∨ c = chr '0'
  width_zeropad : ∀ w ∈ width, chr '0' ∈ flags
  width_bounds : ∀ w ∈ width, 0 < w ∧ w < 2 ^ 31
  precision_lt : ∀ p ∈ precision, p < 2 ^ 31

def UlongFormat.directive (f : UlongFormat) : Directive where
  flags := f.flags
  width := f.width.map fun w => .digits (decimalText w)
  precision := f.precision.map fun p => some (.digits (decimalText p))
  qualifier := [chr 'l']
  conversion := f.conversion.char
  tail := []

def UlongFormat.text (f : UlongFormat) : List Byte := f.directive.text

def UlongFormat.spec (f : UlongFormat) : PrintfSpec := f.directive.spec 0 0

theorem decimalText_digits (n : Nat) : ∀ c ∈ decimalText n, isdigit c = true := by
  have hall : ∀ d < 10, isdigit (hexAscUpper.getD d 0) = true := by decide
  intro c hc
  obtain ⟨d, hd, rfl⟩ := List.mem_map.mp hc
  exact hall d (lsd_lt (by omega) d (List.mem_reverse.mp hd))

theorem decimalText_of_lt {n : Nat} (h : n < 10) : decimalText n = [hexAscUpper.getD n 0] := by
  rw [decimalText, lsd_of_lt h]
  rfl

theorem decimalText_ne_nil (n : Nat) : decimalText n ≠ [] := by
  intro h
  exact lsd_ne_nil 10 n (List.reverse_eq_nil_iff.mp (List.map_eq_nil_iff.mp h))

theorem decimalText_length {n : Nat} (h : n < 2 ^ 31) : (decimalText n).length ≤ 10 := by
  rw [decimalText, List.length_map, List.length_reverse]
  exact length_lsd_le (by omega) (by omega) (by omega)

/-- A positive number does not start with a zero. -/
theorem decimalText_head {n : Nat} (h : n ≠ 0) : (decimalText n).head? ≠ some (chr '0') := by
  have hall : ∀ d < 10, hexAscUpper.getD d 0 = chr '0' → d = 0 := by decide
  have hlast := List.getLast?_eq_some_getLast (lsd_ne_nil 10 n)
  rw [decimalText, List.head?_map, List.head?_reverse, hlast, Option.map_some]
  intro hzero
  have hlt := lsd_lt (by omega) _ (List.getLast_mem (lsd_ne_nil 10 n))
  exact lsd_getLast h (hall _ hlt (Option.some.inj hzero))

section Format

variable (f : UlongFormat)

theorem UlongFormat.wellFormed : f.directive.WellFormed where
  flags c hc := by
    rcases f.flags_mem c hc with rfl | rfl <;> decide
  width n hn := by
    obtain ⟨w, -, rfl⟩ := Option.map_eq_some_iff.mp hn
    exact ⟨decimalText_ne_nil w, decimalText_digits w⟩
  precision n hn := by
    obtain ⟨p, -, hp⟩ := Option.map_eq_some_iff.mp (Option.join_eq_some_iff.mp hn)
    rw [← Option.some.inj hp]
    exact ⟨decimalText_ne_nil p, decimalText_digits p⟩
  qualifier := Or.inr (show [chr 'l'] ∈ qualifiers by decide)
  conversion := by
    cases h : f.conversion <;> simp only [UlongFormat.directive, h] <;> decide
  tail c hc := absurd hc List.not_mem_nil
  tail_ptr h := absurd rfl h

theorem UlongFormat.flagsMaximal : f.directive.FlagsMaximal := by
  intro ds hds
  obtain ⟨w, hw, h⟩ := Option.map_eq_some_iff.mp hds
  rw [← Num.digits.inj h]
  exact decimalText_head (f.width_bounds w hw).1.ne'

/-- No NUL, and short enough to be counted by an `int`. -/
theorem UlongFormat.text_bounds : 0 ∉ f.text ∧ f.text.length < 2 ^ 31 := by
  refine ⟨f.wellFormed.text_no_nul, ?_⟩
  have hflags : f.flags.length ≤ 2 := by
    have hsub : f.flags ⊆ [chr '#', chr '0'] := fun c hc => by
      rcases f.flags_mem c hc with rfl | rfl <;> simp
    exact (List.subperm_of_subset f.flags_nodup hsub).length_le
  have hwidth : (numText f.directive.width).length ≤ 10 := by
    simp only [UlongFormat.directive]
    cases hw : f.width with
    | none => exact Nat.zero_le _
    | some w => exact decimalText_length (f.width_bounds w hw).2
  have hprecision : (precisionText f.directive.precision).length ≤ 11 := by
    simp only [UlongFormat.directive]
    cases hp : f.precision with
    | none => exact Nat.zero_le _
    | some p => exact Nat.succ_le_succ (decimalText_length (f.precision_lt p hp))
  have htext : f.text.length = 1 + (f.flags.length + ((numText f.directive.width).length +
      ((precisionText f.directive.precision).length + 2))) := by
    rw [UlongFormat.text, Directive.text, Directive.body]
    simp only [List.length_cons, List.length_append]
    simp only [UlongFormat.directive, List.length_cons, List.length_nil]
    omega
  omega

/-- The flags of the spec are those of the format and of its conversion. -/
theorem UlongFormat.spec_flags :
    f.spec.flags = flagBits f.flags ||| conversionFlags f.conversion.char := by
  have hstar : starLeft f.directive.width 0 = 0 := by
    simp only [UlongFormat.directive]
    cases f.width <;> rfl
  simp only [UlongFormat.spec, Directive.spec, hstar]
  exact congrArg (· ||| _) (BitVec.or_zero)

/-- The spec that the format spells. -/
theorem UlongFormat.spec_fields :
    f.spec.type = .ulong ∧ f.spec.has SIGN = false ∧ f.spec.has LEFT = false ∧
      (f.spec.base = 8 ∨ f.spec.base = 10 ∨ f.spec.base = 16) ∧
      f.spec.radix = f.conversion.base := by
  have hno : ∀ {mask : Byte}, flagBits f.flags &&& mask = 0 →
      conversionFlags f.conversion.char &&& mask = 0 → f.spec.has mask = false := by
    intro mask hflags hconv
    rw [PrintfSpec.has, f.spec_flags, or_and_eq_zero hflags hconv]
    rfl
  have hleft : flagBits f.flags &&& LEFT = 0 := flagBits_and fun c hc => by
    rcases f.flags_mem c hc with rfl | rfl <;> decide
  have hbase : f.spec.base = baseOf f.conversion.char := rfl
  have htype : f.spec.type = typeOf [chr 'l'] f.conversion.char := rfl
  rw [PrintfSpec.radix, hbase, htype]
  refine ⟨?_, hno (flagBits_sign _) ?_, hno hleft ?_, ?_, ?_⟩
  all_goals cases f.conversion <;> decide

/-- Zeros fill the field, where there is one. -/
theorem UlongFormat.spec_fill (num : BitVec 64) :
    f.spec.has ZEROPAD = true ∨ fill [] num f.spec = 0 := by
  cases hw : f.width with
  | none =>
    have hwidth : f.spec.fieldWidth = -1 := by
      simp only [UlongFormat.spec, Directive.spec, UlongFormat.directive, hw]
      rfl
    right
    rw [fill, hwidth]
    have hneg : (-1 : BitVec 24).toInt = -1 := rfl
    omega
  | some w =>
    have hset : ∀ flags : Byte, (flags ||| ZEROPAD) &&& ZEROPAD != 0 := fun flags => by
      rw [bne_iff_ne, BitVec.and_comm, BitVec.and_or_distrib_left]
      exact fun h => absurd (BitVec.or_eq_zero_iff.mp h).2 (by decide)
    have hzero : flagBits f.flags ||| ZEROPAD = flagBits f.flags :=
      flagBits_mem (f.width_zeropad w hw) rfl
    left
    rw [PrintfSpec.has, f.spec_flags, ← hzero, BitVec.or_assoc, BitVec.or_comm ZEROPAD,
      ← BitVec.or_assoc]
    exact hset _

end Format

/-! ## The round trip -/

/-- The buffer takes a run of characters, whatever its size. -/
theorem putAll_bufState {m : Mem} {buf : Addr} {size : BitVec 64}
    (hsize : buf.toNat + size.toNat < 2 ^ 64) {t l : List Byte}
    (hk : buf.toNat + (t.length + l.length) < 2 ^ 64) :
    putAll (bufSink (buf + size)) (bufState m buf size.toNat t) l =
      bufState m buf size.toNat (t ++ l) := by
  induction l generalizing t with
  | nil => rw [putAll_nil, List.append_nil]
  | cons c l ih =>
    rw [List.length_cons] at hk
    have hlen : (t ++ [c]).length = t.length + 1 := by simp
    rw [putAll_cons, put_bufState hsize (by omega), ih (by omega), List.append_assoc]
    rfl

/-- The run of the format puts the text of `number`. -/
theorem ulong_run {σ : Type} (S : Sink σ) (f : UlongFormat) (n : BitVec 64) (str : σ) :
    vsnprintfLoop S (f.text.length + 1) ⟨f.text, .zero, [⟨n, []⟩], str⟩ =
      some (putAll S str (numberText n f.spec), []) := by
  have htype := f.spec_fields.1
  have hstar : takeStar f.directive.width [(⟨n, []⟩ : Arg)] = some (0, [⟨n, []⟩]) ∧
      takeStar f.directive.precision.join [(⟨n, []⟩ : Arg)] = some (0, [⟨n, []⟩]) := by
    simp only [UlongFormat.directive]
    constructor
    · cases f.width <;> rfl
    · cases f.precision <;> rfl
  have hrun : f.directive.run S [⟨n, []⟩] str =
      some (putAll S str (numberText n f.spec), []) := by
    have hconvert : convert S str f.spec ⟨n, []⟩ =
        some (putAll S str (numberText n f.spec), f.spec) := by
      simp only [convert, htype, fetchNum, number_eq]
    have hvalue : f.spec.type ≠ .percentChar := by
      rw [htype]
      decide
    rw [Directive.run, hstar.1]
    simp only [hstar.2]
    rw [← UlongFormat.spec, takeValue_cons hvalue]
    simp only [hconvert, Option.map_some]
  exact (f.wellFormed.loop_eq f.flagsMaximal f.text_bounds.2 S [⟨n, []⟩] str).trans hrun

/-- `snprintf`, with its arguments as a list. -/
def snprintf (m : Mem) (buf : Addr) (size : BitVec 64) (fmt : List Byte) (args : List Arg) :
    Option (Int × Mem) :=
  vsnprintf m buf size fmt args

theorem fullText_ulong (f : UlongFormat) (n : BitVec 64) :
    fullText f.text [⟨n, []⟩] = some (numberText n f.spec) := by
  rw [fullText, textRun, ulong_run, putAll_textSink, List.nil_append]
  rfl

/-- The text and its NUL, in a buffer that has room for both. -/
theorem snprintf_ulong (f : UlongFormat) (n : BitVec 64) (m : Mem) {buf : Addr} {size : BitVec 64}
    (hsize : buf.toNat + size.toNat < 2 ^ 64) (hroom : (numberText n f.spec).length < size.toNat) :
    snprintf m buf size f.text [⟨n, []⟩] =
      some (((numberText n f.spec).length : Int), blit m buf (numberText n f.spec ++ [0])) := by
  obtain ⟨-, hsign, -, hbase, -⟩ := f.spec_fields
  have hlen := length_numberText hbase hsign (f.spec_fill n)
  have hstart : (⟨m, buf⟩ : Out) = bufState m buf size.toNat [] := by simp [bufState]
  have hloop := ulong_run (bufSink (buf + size)) f n ⟨m, buf⟩
  rw [hstart, putAll_bufState hsize (by simp; omega), List.nil_append, ← hstart] at hloop
  have hpos : size ≠ 0 := by
    rintro rfl
    exact absurd hroom (Nat.not_lt_zero _)
  rw [snprintf, vsnprintf_of_loop hlen m buf size hsize (by omega) hloop, if_neg hpos,
    List.take_of_length_le (by omega)]

/-- **Printing and parsing an `unsigned long` are inverse**: `strtoul` reads the number back out of
the buffer, up to the NUL. -/
theorem snprintf_strtoul (f : UlongFormat) (n : BitVec 64) :
    ∃ T, fullText f.text [⟨n, []⟩] = some T ∧
      ∀ (m : Mem) (buf endp : Addr) (size : BitVec 64) (fuel : Nat),
        buf.toNat + size.toNat < 2 ^ 64 → T.length < size.toNat → endp ≠ 0 → T.length < fuel →
        ∃ m' m'', snprintf m buf size f.text [⟨n, []⟩] = some ((T.length : Int), m') ∧
          strtoul fuel m' buf endp f.conversion.base = some (n, m'') ∧
          load64 m'' endp = buf + BitVec.ofNat 64 T.length ∧
          (∀ i < T.length, m' (buf + BitVec.ofNat 64 i) ≠ 0) ∧
          m' (buf + BitVec.ofNat 64 T.length) = 0 := by
  refine ⟨_, fullText_ulong f n, fun m buf endp size fuel hsize hroom hendp hfuel => ?_⟩
  obtain ⟨-, hsign, hleft, hbase, hradix⟩ := f.spec_fields
  obtain ⟨pfx, cs, k, htext, hpfx, hds⟩ :=
    numberText_spells n hbase hsign hleft (f.spec_fill n)
  have hrt := toNat_radix f.spec
  have hne : f.spec.radix ≠ 0 := by
    rw [hradix]
    cases f.conversion <;> decide
  have hT := snprintf_ulong f n m hsize hroom
  rw [htext] at hT hroom hfuel ⊢
  have hcs : bytesAt (blit m buf (pfx ++ cs ++ [0])) buf (pfx ++ cs).length = pfx ++ cs := by
    rw [bytesAt_blit_start _ _ (by simp) (by simp at hroom ⊢; omega), List.take_left]
  have hnul : blit m buf (pfx ++ cs ++ [0]) (buf + BitVec.ofNat 64 (pfx ++ cs).length) = 0 := by
    rw [blit_at _ _ (by simp) (by simp at hroom ⊢; omega), List.getElem_append_right (by simp)]
    simp
  rw [← hrt] at hds
  have hparse := strtoul_digits hne hpfx hds fuel (by simp at hfuel; omega) hcs hnul endp
  rw [hradix, if_pos hendp] at hparse
  refine ⟨_, _, hT, hparse, load64_store64 _ _ _, fun i hi => ?_, hnul⟩
  rw [blit_at _ _ (by simp at hi ⊢; omega) (by simp at hroom ⊢; omega),
    List.getElem_append_left hi]
  exact fun h0 => no_nul hpfx hds (h0 ▸ List.getElem_mem hi)

/-- `%#020lX` of `0xdeadbeef`. -/
theorem snprintf_strtoul_hex :
    ∃ m' m'', snprintf (fun _ => 0xff) 0x1000 64 ("%#020lX".toList.map chr) [⟨0xdeadbeef, []⟩] =
        some (20, m') ∧
      strtoul 64 m' 0x1000 0x2000 16 = some (0xdeadbeef, m'') ∧ load64 m'' 0x2000 = 0x1014 ∧
      m' 0x1014 = 0 := by
  have htext : (⟨[chr '#', chr '0'], some 20, none, .X, by decide, by simp, by simp, by simp,
      by simp⟩ : UlongFormat).text = "%#020lX".toList.map chr := by decide +kernel
  have hfull : fullText ("%#020lX".toList.map chr) [⟨0xdeadbeef, []⟩] =
      some ("0X0000000000DEADBEEF".toList.map chr) := by decide +kernel
  obtain ⟨T, hT, h⟩ := snprintf_strtoul ⟨[chr '#', chr '0'], some 20, none, .X, by decide, by simp,
    by simp, by simp, by simp⟩ 0xdeadbeef
  rw [htext] at hT h
  cases hT.symm.trans hfull
  obtain ⟨m', m'', hprint, hparse, hend, -, hnul⟩ := h (fun _ => 0xff) 0x1000 0x2000 64 64
    (by decide) (by decide) (by decide) (by decide)
  exact ⟨m', m'', hprint, hparse, hend, hnul⟩

end Eeos.Printk
