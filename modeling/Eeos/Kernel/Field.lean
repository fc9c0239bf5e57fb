import Eeos.Kernel.Digits
import Eeos.Kernel.Text

/-!
# The field that `number` lays out

What a conversion of C's `printf` family puts into its field, said without the counters of the
source: a sign, a prefix, zeros up to the precision, the digits, and a filling up to the width.

* `signAsked` — the sign that the flags ask for; `signChars` — the one that the source puts, which
  looks at `PLUS` and `SPACE` under `SIGN` only.
* `prefixChars`, `zeroChars`, `digitChars` — the other parts, and `bodyText` all of them behind a
  sign.
* `fieldText` — the parts with the filling where the flags want it.
* `numberSign_eq`, `digits_eq` — what the source computes for the parts.

Principal results: `numberText_eq` (the filling that `number` emits, which without `LEFT` and
`ZEROPAD` is one space short) and `number_layout_iff` (the field is laid out as asked exactly if no
sign is dropped and no space has to be put before the number).
-/

namespace Eeos.Printk

open ByteMem Ctype CLoop Digits

/-! ## The parts of a field -/

/-- `-` for a negative number under `SIGN`, or what the flags give instead. -/
def signAsked (num : BitVec 64) (spec : PrintfSpec) : List Byte :=
  if spec.has SIGN ∧ num.toInt < 0 then [chr '-']
  else if spec.has PLUS then [chr '+']
  else if spec.has SPACE then [chr ' ']
  else []

/-- The sign of the source: unsigned conversions have none. -/
def signChars (num : BitVec 64) (spec : PrintfSpec) : List Byte :=
  if spec.has SIGN then
    if num.toInt < 0 then [chr '-']
    else if spec.has PLUS then [chr '+']
    else if spec.has SPACE then [chr ' ']
    else []
  else []

def magnitude (num : BitVec 64) (spec : PrintfSpec) : Nat :=
  if spec.has SIGN then num.toInt.natAbs else num.toNat

def prefixChars (num : BitVec 64) (spec : PrintfSpec) : List Byte :=
  if spec.has SPECIAL then
    if spec.base = 16 then [chr '0', if spec.has SMALL then chr 'x' else chr 'X']
    else if spec.base = 8 ∧ num ≠ 0 then [chr '0']
    else []
  else []

def hexAscLower : List Byte := "0123456789abcdef".toList.map chr

/-- The digits in the case that `SMALL` asks for, the most significant first. -/
def digitChars (num : BitVec 64) (spec : PrintfSpec) : List Byte :=
  (lsd spec.base.toNat (magnitude num spec)).reverse.map fun d =>
    (if spec.has SMALL then hexAscLower else hexAscUpper).getD d 0

/-- Zeros up to the precision. -/
def zeroChars (num : BitVec 64) (spec : PrintfSpec) : List Byte :=
  List.replicate (spec.precision.toInt - (digitChars num spec).length).toNat (chr '0')

/-- All parts, behind the sign `s`. -/
def bodyText (s : List Byte) (num : BitVec 64) (spec : PrintfSpec) : List Byte :=
  s ++ prefixChars num spec ++ zeroChars num spec ++ digitChars num spec

/-- The characters that the width asks for beyond the body. -/
def fill (s : List Byte) (num : BitVec 64) (spec : PrintfSpec) : Nat :=
  (spec.fieldWidth.toInt - (bodyText s num spec).length).toNat

def fieldText (s : List Byte) (num : BitVec 64) (spec : PrintfSpec) : List Byte :=
  if spec.has LEFT then bodyText s num spec ++ List.replicate (fill s num spec) (chr ' ')
  else if spec.has ZEROPAD then
    s ++ prefixChars num spec ++ List.replicate (fill s num spec) (chr '0') ++
      zeroChars num spec ++ digitChars num spec
  else List.replicate (fill s num spec) (chr ' ') ++ bodyText s num spec

theorem length_fieldText (s : List Byte) (num : BitVec 64) (spec : PrintfSpec) :
    ((fieldText s num spec).length : Int) =
      max spec.fieldWidth.toInt (bodyText s num spec).length := by
  have hbody : (fieldText s num spec).length =
      (bodyText s num spec).length + fill s num spec := by
    unfold fieldText bodyText
    split
    · simp only [List.length_append, List.length_replicate]
    · split
      · simp only [List.length_append, List.length_replicate]
        omega
      · simp only [List.length_append, List.length_replicate]
        omega
  rw [hbody, fill]
  omega

/-! ## The sign -/

/-- The source puts the sign that the flags ask for. -/
def KeepsSign (spec : PrintfSpec) : Prop :=
  spec.has SIGN ∨ (¬ spec.has PLUS ∧ ¬ spec.has SPACE)

theorem signAsked_kept {spec : PrintfSpec} (h : KeepsSign spec) (num : BitVec 64) :
    signAsked num spec = signChars num spec := by
  unfold signAsked signChars
  by_cases hs : spec.has SIGN = true
  · simp only [hs, true_and, if_true]
  · obtain ⟨hp, hsp⟩ := h.resolve_left hs
    simp [hs, hp, hsp]

theorem signAsked_dropped {spec : PrintfSpec} (h : ¬ KeepsSign spec) (num : BitVec 64) :
    signChars num spec = [] ∧
      ∃ c, signAsked num spec = [c] ∧ (c = chr '+' ∨ c = chr ' ') := by
  obtain ⟨hs, hflag⟩ := not_or.mp h
  unfold signAsked signChars
  by_cases hp : spec.has PLUS = true
  · exact ⟨by simp [hs], chr '+', by simp [hs, hp], Or.inl rfl⟩
  · have hsp : spec.has SPACE = true := by
      by_contra hn
      exact hflag ⟨hp, hn⟩
    exact ⟨by simp [hs], chr ' ', by simp [hs, hp, hsp], Or.inr rfl⟩

/-- Without spaces before the number, the sign comes first. -/
theorem fieldText_padded (s : List Byte) (num : BitVec 64) {spec : PrintfSpec}
    (h : spec.has LEFT ∨ spec.has ZEROPAD) :
    ∃ z j, fieldText s num spec = s ++ (prefixChars num spec ++ (List.replicate z (chr '0') ++
      (digitChars num spec ++ List.replicate j (chr ' ')))) := by
  by_cases hl : spec.has LEFT = true
  · refine ⟨(spec.precision.toInt - (digitChars num spec).length).toNat, fill s num spec, ?_⟩
    rw [fieldText, if_pos hl, bodyText, zeroChars]
    simp only [List.append_assoc]
  · refine ⟨fill s num spec + (spec.precision.toInt - (digitChars num spec).length).toNat, 0, ?_⟩
    rw [fieldText, if_neg hl, if_pos (h.resolve_left hl), zeroChars, List.replicate_add]
    simp only [List.replicate_zero, List.append_nil, List.append_assoc]

theorem prefixChars_head {num : BitVec 64} {spec : PrintfSpec} {x : Byte} {pfx : List Byte}
    (h : prefixChars num spec = x :: pfx) : x = chr '0' := by
  unfold prefixChars at h
  split at h
  · split at h
    · exact (List.cons.inj h).1.symm
    · split at h
      · exact (List.cons.inj h).1.symm
      · exact absurd h (by simp)
  · exact absurd h (by simp)

/-- There is a first digit. -/
theorem digitChars_head (num : BitVec 64) {spec : PrintfSpec}
    (hbase : spec.base = 8 ∨ spec.base = 10 ∨ spec.base = 16) :
    ∃ d < 16, ∃ r, digitChars num spec =
      (if spec.has SMALL then hexAscLower else hexAscUpper).getD d 0 :: r := by
  have hb : 1 < spec.base.toNat ∧ spec.base.toNat ≤ 16 := by
    rcases hbase with h | h | h <;> rw [h] <;> decide
  obtain ⟨d, ds, hds⟩ := List.exists_cons_of_ne_nil
    (mt List.reverse_eq_nil_iff.mp (lsd_ne_nil spec.base.toNat (magnitude num spec)))
  have hmem : d ∈ (lsd spec.base.toNat (magnitude num spec)).reverse := by
    rw [hds]
    exact List.mem_cons_self
  have hlt := lsd_lt hb.1 d (List.mem_reverse.mp hmem)
  have hd : d < 16 := by omega
  rw [digitChars, hds]
  exact ⟨d, hd, _, rfl⟩

/-- A prefix, a zero or a digit comes first without a sign. -/
theorem unsigned_head (num : BitVec 64) {spec : PrintfSpec}
    (hbase : spec.base = 8 ∨ spec.base = 10 ∨ spec.base = 16) (z : Nat) (l : List Byte) :
    ∃ x r, prefixChars num spec ++ (List.replicate z (chr '0') ++ (digitChars num spec ++ l)) =
      x :: r ∧ x ≠ chr '+' ∧ x ≠ chr ' ' := by
  rcases hpfx : prefixChars num spec with _ | ⟨x, pfx⟩
  · cases z with
    | succ z => exact ⟨chr '0', _, rfl, by decide, by decide⟩
    | zero =>
      obtain ⟨d, hd, r, hdigits⟩ := digitChars_head num hbase
      have hall : ∀ d < 16, (hexAscLower.getD d 0 ≠ chr '+' ∧ hexAscLower.getD d 0 ≠ chr ' ') ∧
          (hexAscUpper.getD d 0 ≠ chr '+' ∧ hexAscUpper.getD d 0 ≠ chr ' ') := by decide
      obtain ⟨hlower, hupper⟩ := hall d hd
      rw [hdigits]
      refine ⟨_, _, rfl, ?_⟩
      split
      · exact hlower
      · exact hupper
  · rw [prefixChars_head hpfx]
    exact ⟨chr '0', _, rfl, by decide, by decide⟩

/-! ## The parts that the source computes -/

theorem dropZeropad_fields (spec : PrintfSpec) :
    (dropZeropad spec).fieldWidth = spec.fieldWidth ∧ (dropZeropad spec).base = spec.base ∧
      (dropZeropad spec).precision = spec.precision := by
  unfold dropZeropad
  split <;> exact ⟨rfl, rfl, rfl⟩

/-- Every flag but `ZEROPAD` is kept. -/
theorem dropZeropad_has {flag : Byte} (h : ~~~ZEROPAD &&& flag = flag) (spec : PrintfSpec) :
    (dropZeropad spec).has flag = spec.has flag := by
  unfold dropZeropad
  split
  · rw [PrintfSpec.has, PrintfSpec.has, BitVec.and_assoc, h]
  · rfl

theorem dropZeropad_of_not_left {spec : PrintfSpec} (h : spec.has LEFT = false) :
    dropZeropad spec = spec := by
  rw [dropZeropad, h]
  rfl

/-- The sign character, the magnitude, and the width without the sign. -/
theorem numberSign_eq (num : BitVec 64) (spec : PrintfSpec) (w : Int) :
    ∃ (sign : Byte) (mag : BitVec 64),
      numberSign (dropZeropad spec) num w = (sign, mag, w - (signChars num spec).length) ∧
        (if (sign != 0) = true then [sign] else []) = signChars num spec ∧
        mag.toNat = magnitude num spec := by
  rw [numberSign, dropZeropad_has rfl, dropZeropad_has rfl, dropZeropad_has rfl]
  unfold signChars magnitude
  by_cases hs : spec.has SIGN = true
  · rw [if_pos hs, if_pos hs, if_pos hs]
    by_cases hneg : num.toInt < 0
    · have hmag : (-num).toNat = num.toInt.natAbs := by
        rw [BitVec.toNat_neg, BitVec.toInt_eq_toNat_cond] at *
        split at hneg <;> omega
      rw [if_pos hneg, if_pos hneg]
      exact ⟨chr '-', -num, rfl, rfl, hmag⟩
    · have hmag : num.toNat = num.toInt.natAbs := by
        have := BitVec.toInt_eq_toNat_of_msb (x := num) (by
          rw [BitVec.msb_eq_toInt]
          exact decide_eq_false hneg)
        omega
      rw [if_neg hneg, if_neg hneg]
      by_cases hp : spec.has PLUS = true
      · rw [if_pos hp, if_pos hp]
        exact ⟨chr '+', num, rfl, rfl, hmag⟩
      · rw [if_neg hp, if_neg hp]
        by_cases hsp : spec.has SPACE = true
        · rw [if_pos hsp, if_pos hsp]
          exact ⟨chr ' ', num, rfl, rfl, hmag⟩
        · rw [if_neg hsp, if_neg hsp]
          exact ⟨0, num, by simp, rfl, hmag⟩
  · rw [if_neg hs, if_neg hs, if_neg hs]
    exact ⟨0, num, by simp, rfl, rfl⟩

/-- `flags & SMALL`, which is or-ed into letters and digits. -/
theorem locase_eq (flags : Byte) :
    flags &&& SMALL = if (flags &&& SMALL != 0) = true then SMALL else 0 := and_bit flags 5

theorem zeropad_eq (flags : Byte) :
    flags &&& ZEROPAD = if (flags &&& ZEROPAD != 0) = true then ZEROPAD else 0 := and_bit flags 4

theorem has_zeropad_or_left (spec : PrintfSpec) :
    spec.has (ZEROPAD ||| LEFT) = (spec.has ZEROPAD || spec.has LEFT) := by
  rw [PrintfSpec.has, BitVec.and_or_distrib_left, Bool.eq_iff_iff, bne_iff_ne, Bool.or_eq_true,
    PrintfSpec.has, PrintfSpec.has, bne_iff_ne, bne_iff_ne, ne_eq, ← not_and_or]
  exact not_congr BitVec.or_eq_zero_iff

theorem digitChar_case {d : Nat} (hd : d < 16) :
    digitChar SMALL d = hexAscLower.getD d 0 ∧ digitChar 0 d = hexAscUpper.getD d 0 := by
  interval_cases d <;> exact ⟨rfl, rfl⟩

/-- The buffer of digits, read from its end. -/
theorem digits_eq {num mag : BitVec 64} {spec : PrintfSpec}
    (hbase : spec.base = 8 ∨ spec.base = 10 ∨ spec.base = 16)
    (hmag : mag.toNat = magnitude num spec) :
    (numberDigits mag spec.base (spec.flags &&& SMALL)).2 = (digitChars num spec).length ∧
      (rounds (-1) (numberDigits mag spec.base (spec.flags &&& SMALL)).2).map
        (fun j => (numberDigits mag spec.base (spec.flags &&& SMALL)).1 j.toNat) =
        digitChars num spec := by
  have hcase : spec.flags &&& SMALL = 0 ∨ spec.flags &&& SMALL = SMALL := by
    rw [locase_eq]
    split
    · exact Or.inr rfl
    · exact Or.inl rfl
  have hb : 1 < spec.base.toNat ∧ spec.base.toNat ≤ 16 := by
    rcases hbase with h | h | h <;> rw [h] <;> decide
  have hchar : (lsd spec.base.toNat mag.toNat).map (digitChar (spec.flags &&& SMALL)) =
      (lsd spec.base.toNat mag.toNat).map fun d =>
        (if spec.has SMALL then hexAscLower else hexAscUpper).getD d 0 := by
    apply List.map_congr_left
    intro d hd
    have hlt := lsd_lt hb.1 d hd
    obtain ⟨hlower, hupper⟩ := digitChar_case (d := d) (by omega)
    rw [locase_eq, PrintfSpec.has]
    split
    · exact hlower
    · exact hupper
  have htext := numberDigits_tmpText mag hbase hcase
  rw [hchar] at htext
  have hlist : (rounds (-1) (numberDigits mag spec.base (spec.flags &&& SMALL)).2).map
      (fun j => (numberDigits mag spec.base (spec.flags &&& SMALL)).1 j.toNat) =
      digitChars num spec := by
    rw [rounds_tmp, htext, digitChars, hmag, List.map_reverse]
  refine ⟨?_, hlist⟩
  rw [← hlist, rounds_tmp, List.length_reverse, tmpText, List.length_map, List.length_range]

/-- The characters that `needPfx` asks for, and the width without them. -/
theorem prefixChars_eq (num : BitVec 64) {spec : PrintfSpec}
    (hbase : spec.base = 8 ∨ spec.base = 10 ∨ spec.base = 16) (w : Int) :
    (if (spec.has SPECIAL && spec.base != 10) = true then
      (if (decide (spec.base = 16) || !num == 0) = true then [chr '0'] else []) ++
        (if spec.base = 16 then [chr 'X' ||| (spec.flags &&& SMALL)] else [])
     else []) = prefixChars num spec ∧
    (if (spec.has SPECIAL && spec.base != 10) = true then
      if spec.base = 16 then w - 2 else if (!num == 0) = true then w - 1 else w
     else w) = w - (prefixChars num spec).length := by
  unfold prefixChars
  by_cases hsp : spec.has SPECIAL = true
  · rw [hsp, Bool.true_and, if_pos rfl]
    rcases hbase with h | h | h
    · by_cases hz : num = 0
      · simp [h, hz]
      · have hz' : ¬ num = 0#64 := hz
        simp [h, hz']
    · simp [h]
    · have hx : chr 'X' ||| (spec.flags &&& SMALL) = if spec.has SMALL then chr 'x' else chr 'X' := by
        rw [locase_eq, PrintfSpec.has]
        split <;> rfl
      simp [h, hx]
  · rw [Bool.not_eq_true] at hsp
    simp [hsp]

/-- **What `number` emits**: without `LEFT` and `ZEROPAD` one space less than the field needs. -/
theorem numberText_eq (num : BitVec 64) {spec : PrintfSpec}
    (hbase : spec.base = 8 ∨ spec.base = 10 ∨ spec.base = 16) :
    numberText num spec =
      if spec.has LEFT ∨ spec.has ZEROPAD then fieldText (signChars num spec) num spec
      else List.replicate (fill (signChars num spec) num spec - 1) (chr ' ') ++
        bodyText (signChars num spec) num spec := by
  obtain ⟨hwidth, hbaseEq, hprec⟩ := dropZeropad_fields spec
  obtain ⟨sign, mag, hsign, hchars, hmag⟩ := numberSign_eq num spec spec.fieldWidth.toInt
  obtain ⟨hcount, hdigits⟩ := digits_eq hbase hmag
  have hpfx := fun w => (prefixChars_eq num hbase w).2
  have hleft : (dropZeropad spec).has LEFT = spec.has LEFT := dropZeropad_has rfl spec
  rw [hcount] at hdigits
  unfold numberText
  simp only [hwidth, hbaseEq, hprec, hsign, hchars, hleft, (prefixChars_eq num hbase 0).1, hpfx,
    hcount, hdigits, has_zeropad_or_left]
  have hzeros : List.replicate ((if spec.precision.toInt < (digitChars num spec).length
      then ((digitChars num spec).length : Int) else spec.precision.toInt) -
        (digitChars num spec).length).toNat (chr '0') = zeroChars num spec := by
    rw [zeroChars]
    congr 1
    split <;> omega
  have hfill : (spec.fieldWidth.toInt - (signChars num spec).length -
      (prefixChars num spec).length - if spec.precision.toInt < (digitChars num spec).length
        then ((digitChars num spec).length : Int) else spec.precision.toInt).toNat =
      fill (signChars num spec) num spec := by
    rw [fill, bodyText, zeroChars]
    simp only [List.length_append, List.length_replicate]
    split <;> omega
  rw [hzeros]
  generalize (spec.fieldWidth.toInt - (signChars num spec).length -
      (prefixChars num spec).length - if spec.precision.toInt < (digitChars num spec).length
        then ((digitChars num spec).length : Int) else spec.precision.toInt) = left at hfill ⊢
  -- each padding loop starts from the width that the one before it left
  by_cases hl : spec.has LEFT = true
  · simp [fieldText, bodyText, hl, hfill]
  · rw [Bool.not_eq_true] at hl
    rw [dropZeropad_of_not_left hl]
    by_cases hz : spec.has ZEROPAD = true
    · have hpad : chr ' ' + (spec.flags &&& ZEROPAD) = chr '0' := by
        rw [zeropad_eq, ← PrintfSpec.has, if_pos hz]
        rfl
      have hrest : (min (left - 1) (-1)).toNat = 0 := by omega
      simp [fieldText, hl, hz, hfill, hpad, hrest]
    · rw [Bool.not_eq_true] at hz
      have hlead : (left - 1).toNat = fill (signChars num spec) num spec - 1 := by omega
      have hmid : (min (left - 1) 0).toNat = 0 := by omega
      simp [bodyText, hl, hz, hlead, hmid]

/-- With its sign, the field is as asked, or one space too short. -/
theorem numberText_kept (num : BitVec 64) {spec : PrintfSpec}
    (hbase : spec.base = 8 ∨ spec.base = 10 ∨ spec.base = 16) :
    numberText num spec = fieldText (signChars num spec) num spec ↔
      spec.has LEFT ∨ spec.has ZEROPAD ∨
        spec.fieldWidth.toInt ≤ (bodyText (signChars num spec) num spec).length := by
  rw [numberText_eq num hbase]
  by_cases hpad : spec.has LEFT ∨ spec.has ZEROPAD
  · rw [if_pos hpad]
    exact iff_of_true rfl (or_assoc.mp (Or.inl hpad))
  · obtain ⟨hl, hz⟩ := not_or.mp hpad
    rw [if_neg hpad]
    constructor
    · intro h
      have hlength := length_fieldText (signChars num spec) num spec
      rw [← h, List.length_append, List.length_replicate, fill] at hlength
      exact Or.inr (Or.inr (by omega))
    · intro h
      have hw : fill (signChars num spec) num spec = 0 := by
        have := (h.resolve_left hl).resolve_left hz
        rw [fill]
        omega
      rw [fieldText, if_neg hl, if_neg hz, hw]

/-- Without it, the field starts with another character, or it is too short. -/
theorem numberText_dropped (num : BitVec 64) {spec : PrintfSpec}
    (hbase : spec.base = 8 ∨ spec.base = 10 ∨ spec.base = 16) (hdrop : ¬ KeepsSign spec) :
    numberText num spec ≠ fieldText (signAsked num spec) num spec := by
  obtain ⟨hnone, c, hc, hsign⟩ := signAsked_dropped hdrop num
  rw [numberText_eq num hbase, hnone, hc]
  intro h
  by_cases hpad : spec.has LEFT ∨ spec.has ZEROPAD
  · obtain ⟨z, j, hout⟩ := fieldText_padded [] num hpad
    obtain ⟨z', j', hasked⟩ := fieldText_padded [c] num hpad
    obtain ⟨x, r, hhead, hplus, hspace⟩ := unsigned_head num hbase z (List.replicate j (chr ' '))
    rw [if_pos hpad, hout, hasked, List.nil_append, hhead] at h
    have hx : x = c := (List.cons.inj h).1
    rcases hsign with rfl | rfl
    · exact hplus hx
    · exact hspace hx
  · have hbody : (bodyText [c] num spec).length = (bodyText [] num spec).length + 1 := by
      simp only [bodyText, List.length_append, List.length_cons, List.length_nil]
      omega
    have hlength := length_fieldText [c] num spec
    rw [if_neg hpad] at h
    rw [← h, List.length_append, List.length_replicate, fill, hbody] at hlength
    omega

/-- A conversion is laid out as its flags ask unless a sign is dropped, which is put under `SIGN`
only, or spaces have to be put before the number: the loop that puts them stops one early. -/
theorem number_layout_iff (num : BitVec 64) (spec : PrintfSpec)
    (hbase : spec.base = 8 ∨ spec.base = 10 ∨ spec.base = 16) :
    (∀ t, number textSink t num spec = t ++ fieldText (signAsked num spec) num spec ∧
      ((number textSink t num spec).length : Int) =
        t.length + max spec.fieldWidth.toInt (bodyText (signAsked num spec) num spec).length) ↔
      KeepsSign spec ∧ (spec.has LEFT ∨ spec.has ZEROPAD ∨
        spec.fieldWidth.toInt ≤ (bodyText (signAsked num spec) num spec).length) := by
  have hnumber : ∀ t, number textSink t num spec = t ++ numberText num spec := fun t => by
    rw [number_eq, putAll_textSink]
  have hlayout : numberText num spec = fieldText (signAsked num spec) num spec ↔
      KeepsSign spec ∧ (spec.has LEFT ∨ spec.has ZEROPAD ∨
        spec.fieldWidth.toInt ≤ (bodyText (signAsked num spec) num spec).length) := by
    by_cases hkeep : KeepsSign spec
    · rw [signAsked_kept hkeep, numberText_kept num hbase, and_iff_right hkeep]
    · exact iff_of_false (numberText_dropped num hbase hkeep) fun h => hkeep h.1
  rw [← hlayout]
  constructor
  · intro h
    have hfield := (h []).1
    rw [hnumber, List.nil_append, List.nil_append] at hfield
    exact hfield
  · intro h t
    rw [hnumber, h, List.length_append, Nat.cast_add, length_fieldText]
    exact ⟨rfl, rfl⟩

/-- `%+-6.3ld` of 5. -/
theorem number_layout_iff_decimal :
    number textSink [] 5 ⟨.long, 6, SIGN ||| PLUS ||| LEFT, 10, 3⟩ =
        [] ++ fieldText (signAsked 5 ⟨.long, 6, SIGN ||| PLUS ||| LEFT, 10, 3⟩) 5
          ⟨.long, 6, SIGN ||| PLUS ||| LEFT, 10, 3⟩ ∧
      ((number textSink [] 5 ⟨.long, 6, SIGN ||| PLUS ||| LEFT, 10, 3⟩).length : Int) =
        ([] : List Byte).length +
          max (6 : BitVec 24).toInt
            (bodyText (signAsked 5 ⟨.long, 6, SIGN ||| PLUS ||| LEFT, 10, 3⟩) 5
              ⟨.long, 6, SIGN ||| PLUS ||| LEFT, 10, 3⟩).length :=
  (number_layout_iff 5 ⟨.long, 6, SIGN ||| PLUS ||| LEFT, 10, 3⟩ (Or.inr (Or.inl rfl))).mpr
    ⟨Or.inl rfl, Or.inl rfl⟩ []

/-- `%3lu` of 5: one space where two are due. -/
theorem number_short_field :
    ¬ ∀ t, number textSink t 5 ⟨.ulong, 3, 0, 10, -1⟩ =
        t ++ fieldText (signAsked 5 ⟨.ulong, 3, 0, 10, -1⟩) 5 ⟨.ulong, 3, 0, 10, -1⟩ ∧
      ((number textSink t 5 ⟨.ulong, 3, 0, 10, -1⟩).length : Int) =
        t.length + max (3 : BitVec 24).toInt
          (bodyText (signAsked 5 ⟨.ulong, 3, 0, 10, -1⟩) 5 ⟨.ulong, 3, 0, 10, -1⟩).length := by
  intro h
  have hshort : (number textSink [] 5 ⟨.ulong, 3, 0, 10, -1⟩).length = 2 := rfl
  have hbody :
      (bodyText (signAsked 5 ⟨.ulong, 3, 0, 10, -1⟩) 5 ⟨.ulong, 3, 0, 10, -1⟩).length = 1 := rfl
  have hlen := (h []).2
  rw [hshort, hbody] at hlen
  exact absurd hlen (by decide)

end Eeos.Printk
