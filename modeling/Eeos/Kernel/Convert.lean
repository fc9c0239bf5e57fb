import Eeos.Kernel.RoundTrip

/-!
# The number that an integer conversion prints

`format_decode` turns the length modifier and the conversion into a type, `vsnprintf` fetches the
argument by that type, `number` prints it.  What counts is the number: the argument at the width
and the signedness that the modifier and the conversion name.

* `converted q c a` — the argument `a` as C converts it for the modifier `q` and the conversion `c`.
* `Shows spec t v` — the text `t` is the number `v` in a field of any width and precision;
  `shows_unique` reads the number back.
* `fetched q c a` — what the source prints; `t` is accepted by `format_decode` but names no type, so
  that only the low half of the argument is fetched.

Principal result: `convert_renders_iff` — every integer conversion prints its argument as C converts
it, exactly if this fits an `int` where the modifier is `t`.
-/

namespace Eeos.Printk

open ByteMem Ctype CLoop Digits Strtoul

/-! ## Numbers in a field -/

def signFor (spec : PrintfSpec) (v : Int) : List Byte :=
  if spec.has SIGN then
    if v < 0 then [chr '-']
    else if spec.has PLUS then [chr '+']
    else if spec.has SPACE then [chr ' ']
    else []
  else []

def prefixFor (spec : PrintfSpec) (v : Int) : List Byte :=
  if spec.has SPECIAL then
    if spec.base = 16 then [chr '0', if spec.has SMALL then chr 'x' else chr 'X']
    else if spec.base = 8 ∧ v ≠ 0 then [chr '0']
    else []
  else []

def digitsFor (spec : PrintfSpec) (v : Int) : List Byte :=
  (lsd spec.base.toNat v.natAbs).reverse.map fun d =>
    (if spec.has SMALL then hexAscLower else hexAscUpper).getD d 0

/-- `t` is the number `v`: blanks, its sign and prefix, zeros, its digits, and blanks. -/
def Shows (spec : PrintfSpec) (t : List Byte) (v : Int) : Prop :=
  ∃ i z j, t = List.replicate i (chr ' ') ++ (signFor spec v ++ (prefixFor spec v ++
    (List.replicate z (chr '0') ++ (digitsFor spec v ++ List.replicate j (chr ' ')))))

/-- The number that `number` is called for. -/
def numberValue (num : BitVec 64) (spec : PrintfSpec) : Int :=
  if spec.has SIGN then num.toInt else num.toNat

theorem magnitude_eq (num : BitVec 64) (spec : PrintfSpec) :
    magnitude num spec = (numberValue num spec).natAbs := by
  unfold magnitude numberValue
  split
  · rfl
  · rfl

theorem numberValue_eq_zero (num : BitVec 64) (spec : PrintfSpec) :
    numberValue num spec = 0 ↔ num = 0 := by
  unfold numberValue
  split
  · exact BitVec.toInt_inj (y := 0)
  · bv_omega

theorem signChars_eq (num : BitVec 64) (spec : PrintfSpec) :
    signChars num spec = signFor spec (numberValue num spec) := by
  unfold signChars signFor numberValue
  split
  · rfl
  · rfl

theorem prefixChars_eq_for (num : BitVec 64) (spec : PrintfSpec) :
    prefixChars num spec = prefixFor spec (numberValue num spec) := by
  unfold prefixChars prefixFor
  simp only [ne_eq, numberValue_eq_zero]

theorem digitChars_eq (num : BitVec 64) (spec : PrintfSpec) :
    digitChars num spec = digitsFor spec (numberValue num spec) := by
  rw [digitChars, digitsFor, magnitude_eq]

/-- **`number` prints its number**, whatever the width and the precision. -/
theorem numberText_shows (num : BitVec 64) {spec : PrintfSpec}
    (hbase : spec.base = 8 ∨ spec.base = 10 ∨ spec.base = 16) :
    Shows spec (numberText num spec) (numberValue num spec) := by
  unfold Shows
  rw [numberText_eq num hbase, ← signChars_eq, ← prefixChars_eq_for, ← digitChars_eq]
  by_cases hpad : spec.has LEFT ∨ spec.has ZEROPAD
  · obtain ⟨z, j, hfield⟩ := fieldText_padded (signChars num spec) num hpad
    rw [if_pos hpad, hfield]
    exact ⟨0, z, j, rfl⟩
  · refine ⟨fill (signChars num spec) num spec - 1,
      (spec.precision.toInt - (digitChars num spec).length).toNat, 0, ?_⟩
    rw [if_neg hpad, bodyText, zeroChars]
    simp only [List.replicate_zero, List.append_nil, List.append_assoc]

/-! ## Reading the number back -/

/-- The value of a run of digit characters. -/
def charsValue (b : Nat) (l : List Byte) : Nat := value b (l.map fun c => (hexValue c).getD 0)

theorem digitsFor_hexValue {spec : PrintfSpec}
    (hbase : spec.base = 8 ∨ spec.base = 10 ∨ spec.base = 16) (v : Int) :
    (digitsFor spec v).map hexValue = (lsd spec.base.toNat v.natAbs).reverse.map some := by
  have hb : 1 < spec.base.toNat ∧ spec.base.toNat ≤ 16 := by
    rcases hbase with h | h | h <;> rw [h] <;> decide
  rw [digitsFor, List.map_map]
  apply List.map_congr_left
  intro d hd
  obtain ⟨hlower, hupper⟩ :=
    hexValue_digit d ((lsd_lt hb.1 d (List.mem_reverse.mp hd)).trans_le hb.2)
  rw [Function.comp_apply]
  split
  · exact hlower
  · exact hupper

/-- Zeros and digits have the value of the digits. -/
theorem charsValue_digits {spec : PrintfSpec}
    (hbase : spec.base = 8 ∨ spec.base = 10 ∨ spec.base = 16) (z : Nat) (v : Int) :
    charsValue spec.base.toNat (List.replicate z (chr '0') ++ digitsFor spec v) = v.natAbs := by
  have hzero : (hexValue (chr '0')).getD 0 = 0 := rfl
  have hdigits : (digitsFor spec v).map (fun c => (hexValue c).getD 0) =
      (lsd spec.base.toNat v.natAbs).reverse := by
    have hvalues := congrArg (List.map fun x => x.getD 0) (digitsFor_hexValue hbase v)
    simpa only [List.map_map, Function.comp_def, Option.getD_some, List.map_id'] using hvalues
  rw [charsValue, List.map_append, List.map_replicate, hzero, hdigits, value_zeros,
    value_lsd_reverse]

/-- No character of the digits is a blank or a sign. -/
theorem digitsFor_hex {spec : PrintfSpec}
    (hbase : spec.base = 8 ∨ spec.base = 10 ∨ spec.base = 16) {v : Int} {c : Byte}
    (hc : c ∈ digitsFor spec v) : (hexValue c).isSome = true := by
  have hvalue : hexValue c ∈ (digitsFor spec v).map hexValue := List.mem_map.mpr ⟨c, hc, rfl⟩
  rw [digitsFor_hexValue hbase, List.mem_map] at hvalue
  obtain ⟨d, -, hd⟩ := hvalue
  rw [← hd]
  rfl

/-- Prefix, zeros and digits. -/
def unsignedFor (spec : PrintfSpec) (z : Nat) (v : Int) : List Byte :=
  prefixFor spec v ++ (List.replicate z (chr '0') ++ digitsFor spec v)

theorem hex_not_sign {c : Byte} (h : (hexValue c).isSome = true) :
    c ≠ chr '-' ∧ c ≠ chr '+' ∧ c ≠ chr ' ' := by
  refine ⟨?_, ?_, ?_⟩
  all_goals
    rintro rfl
    exact absurd h (by decide)

/-- A prefix that is not that of base 16 is a zero or nothing. -/
theorem prefixFor_cases (spec : PrintfSpec) :
    (∃ x, (x = chr 'x' ∨ x = chr 'X') ∧ ∀ v, prefixFor spec v = [chr '0', x]) ∨
      ∀ v, ∃ k, prefixFor spec v = List.replicate k (chr '0') := by
  unfold prefixFor
  by_cases hs : spec.has SPECIAL = true
  · simp only [if_pos hs]
    by_cases hb : spec.base = 16
    · simp only [if_pos hb]
      refine Or.inl ⟨_, ?_, fun v => rfl⟩
      split
      · exact Or.inl rfl
      · exact Or.inr rfl
    · simp only [if_neg hb]
      refine Or.inr fun v => ?_
      split
      · exact ⟨1, rfl⟩
      · exact ⟨0, rfl⟩
  · simp only [if_neg hs]
    exact Or.inr fun v => ⟨0, rfl⟩

section Unique

variable {spec : PrintfSpec} (hbase : spec.base = 8 ∨ spec.base = 10 ∨ spec.base = 16)

include hbase

theorem unsignedFor_natAbs {z z' : Nat} {v v' : Int}
    (h : unsignedFor spec z v = unsignedFor spec z' v') : v.natAbs = v'.natAbs := by
  unfold unsignedFor at h
  rcases prefixFor_cases spec with ⟨x, -, hpfx⟩ | hpfx
  · rw [hpfx v, hpfx v'] at h
    have hvalue := congrArg (charsValue spec.base.toNat) (List.append_cancel_left h)
    rwa [charsValue_digits hbase, charsValue_digits hbase] at hvalue
  · obtain ⟨k, hk⟩ := hpfx v
    obtain ⟨k', hk'⟩ := hpfx v'
    rw [hk, hk', ← List.append_assoc, ← List.append_assoc, List.replicate_append_replicate,
      List.replicate_append_replicate] at h
    have hvalue := congrArg (charsValue spec.base.toNat) h
    rwa [charsValue_digits hbase, charsValue_digits hbase] at hvalue

/-- It starts with a digit. -/
theorem unsignedFor_head (z : Nat) (v : Int) :
    ∃ c l, unsignedFor spec z v = c :: l ∧ (hexValue c).isSome = true := by
  have hdigits : ∃ c l, digitsFor spec v = c :: l ∧ (hexValue c).isSome = true := by
    cases hd : digitsFor spec v with
    | nil =>
        rw [digitsFor, List.map_eq_nil_iff, List.reverse_eq_nil_iff] at hd
        exact absurd hd (lsd_ne_nil _ _)
    | cons c l => exact ⟨c, l, rfl, digitsFor_hex hbase (hd ▸ List.mem_cons_self)⟩
  unfold unsignedFor
  rcases prefixFor_cases spec with ⟨x, -, hpfx⟩ | hpfx
  · rw [hpfx]
    exact ⟨_, _, rfl, rfl⟩
  · obtain ⟨k, hk⟩ := hpfx v
    rw [hk, ← List.append_assoc, List.replicate_append_replicate]
    cases k + z with
    | zero => exact hdigits
    | succ n => exact ⟨_, _, rfl, rfl⟩

theorem unsignedFor_no_blank (z : Nat) (v : Int) : ∀ c ∈ unsignedFor spec z v, c ≠ chr ' ' := by
  intro c hc
  unfold unsignedFor at hc
  rw [List.mem_append, List.mem_append] at hc
  rcases hc with hc | hc | hc
  · rcases prefixFor_cases spec with ⟨x, hx, hpfx⟩ | hpfx
    · rw [hpfx, List.mem_cons, List.mem_singleton] at hc
      rcases hc with rfl | rfl
      · decide
      · rcases hx with rfl | rfl <;> decide
    · obtain ⟨k, hk⟩ := hpfx v
      rw [hk] at hc
      rw [List.eq_of_mem_replicate hc]
      decide
  · rw [List.eq_of_mem_replicate hc]
    decide
  · exact (hex_not_sign (digitsFor_hex hbase hc)).2.2

/-- The text of a number without its blanks. -/
theorem filter_shows (i z j : Nat) (v : Int) :
    (List.replicate i (chr ' ') ++ (signFor spec v ++ (prefixFor spec v ++
      (List.replicate z (chr '0') ++ (digitsFor spec v ++ List.replicate j (chr ' ')))))).filter
        (· != chr ' ') =
      (if spec.has SIGN then
        if v < 0 then [chr '-'] else if spec.has PLUS then [chr '+'] else []
       else []) ++ unsignedFor spec z v := by
  have hblanks : ∀ n, (List.replicate n (chr ' ')).filter (· != chr ' ') = [] := fun n =>
    List.filter_replicate_of_neg (by decide)
  have hbody : (unsignedFor spec z v).filter (· != chr ' ') = unsignedFor spec z v :=
    List.filter_eq_self.mpr fun c hc => bne_iff_ne.mpr (unsignedFor_no_blank hbase z v c hc)
  have hsign : (signFor spec v).filter (· != chr ' ') =
      if spec.has SIGN then
        if v < 0 then [chr '-'] else if spec.has PLUS then [chr '+'] else []
      else [] := by
    unfold signFor
    split_ifs <;> rfl
  have hsplit : List.replicate i (chr ' ') ++ (signFor spec v ++ (prefixFor spec v ++
      (List.replicate z (chr '0') ++ (digitsFor spec v ++ List.replicate j (chr ' '))))) =
      List.replicate i (chr ' ') ++ (signFor spec v ++ (unsignedFor spec z v ++
        List.replicate j (chr ' '))) := by
    simp only [unsignedFor, List.append_assoc]
  rw [hsplit, List.filter_append, List.filter_append, List.filter_append, hblanks, hblanks, hbody,
    hsign, List.nil_append, List.append_nil]

/-- **A text shows one number at most.** -/
theorem shows_unique {t : List Byte} {v v' : Int} (h : Shows spec t v) (h' : Shows spec t v')
    (hv : spec.has SIGN = false → 0 ≤ v ∧ 0 ≤ v') : v = v' := by
  obtain ⟨i, z, j, rfl⟩ := h
  obtain ⟨i', z', j', heq⟩ := h'
  have hchars := congrArg (List.filter (· != chr ' ')) heq
  rw [filter_shows hbase, filter_shows hbase] at hchars
  have habs : ∀ {l : List Byte}, l ++ unsignedFor spec z v = l ++ unsignedFor spec z' v' →
      v.natAbs = v'.natAbs := fun hl => unsignedFor_natAbs hbase (List.append_cancel_left hl)
  -- no sign of a number is the first digit of another
  have hminus : ∀ {z : Nat} {v : Int} {r : List Byte},
      chr '-' :: r ≠ (if spec.has PLUS then [chr '+'] else []) ++ unsignedFor spec z v := by
    intro z v r hcons
    obtain ⟨c, r', hc, hhex⟩ := unsignedFor_head hbase z v
    split at hcons
    · injection hcons with hhead
      exact absurd hhead (by decide)
    · rw [hc] at hcons
      injection hcons with hhead
      exact (hex_not_sign hhex).1 hhead.symm
  by_cases hs : spec.has SIGN = true
  · rw [if_pos hs, if_pos hs] at hchars
    by_cases hneg : v < 0
    · by_cases hneg' : v' < 0
      · rw [if_pos hneg, if_pos hneg'] at hchars
        have := habs hchars
        omega
      · rw [if_pos hneg, if_neg hneg'] at hchars
        exact absurd hchars hminus
    · by_cases hneg' : v' < 0
      · rw [if_neg hneg, if_pos hneg'] at hchars
        exact absurd hchars.symm hminus
      · rw [if_neg hneg, if_neg hneg'] at hchars
        have := habs hchars
        omega
  · rw [if_neg hs, if_neg hs] at hchars
    have := habs hchars
    have := hv (Bool.eq_false_iff.mpr hs)
    omega

end Unique

/-! ## The argument -/

/-- `d`, `i`, `o`, `u`, `x` and `X`. -/
def isInteger (c : Byte) : Bool := ("diouxX".toList.map chr).contains c

def isSigned (c : Byte) : Bool := c = chr 'd' ∨ c = chr 'i'

/-- The width of the type that the modifier names, in an LP64 model. -/
def modifierBits (q : List Byte) : Nat :=
  if q = [chr 'h', chr 'h'] then 8 else if q = [chr 'h'] then 16 else if q = [] then 32 else 64

/-- The argument at a width, as a number. -/
def atWidth (signed : Bool) (n : Nat) (a : Arg) : Int :=
  if signed then (a.val.setWidth n).toInt else (a.val.setWidth n).toNat

/-- The argument converted to the type of the modifier and the conversion. -/
def converted (q : List Byte) (c : Byte) (a : Arg) : Int := atWidth (isSigned c) (modifierBits q) a

/-- What is fetched: `t` is not distinguished from no modifier. -/
def fetched (q : List Byte) (c : Byte) (a : Arg) : Int :=
  atWidth (isSigned c) (if q = [chr 't'] then 32 else modifierBits q) a

/-- A narrow value in the low half of the slot, extended to 64 bits. -/
theorem toNat_narrow {n : Nat} (hn : n ≤ 32) (a : Arg) :
    ((a.int.setWidth n).setWidth 64).toNat = (a.val.setWidth n).toNat := by
  rw [Arg.int, BitVec.setWidth_setWidth_of_le _ hn, BitVec.toNat_setWidth_of_le (by omega)]

theorem toInt_narrow {n : Nat} (hn : n ≤ 32) (a : Arg) :
    ((a.int.setWidth n).signExtend 64).toInt = (a.val.setWidth n).toInt := by
  rw [Arg.int, BitVec.setWidth_setWidth_of_le _ hn, BitVec.toInt_signExtend_of_le (by omega)]

/-- The second `switch` on the type that the first one computed. -/
theorem fetchNum_value {q : List Byte} (hq : q = [] ∨ q ∈ qualifiers) (signed : Bool) (a : Arg) :
    (if signed then (fetchNum (qualifiedType q signed) a).toInt
      else (fetchNum (qualifiedType q signed) a).toNat : Int) =
        atWidth signed (if q = [chr 't'] then 32 else modifierBits q) a := by
  have hsigned : ∀ {n}, n ≤ 32 →
      ((a.int.setWidth n).signExtend 64).toInt = (a.val.setWidth n).toInt := (toInt_narrow · a)
  have hunsigned : ∀ {n}, n ≤ 32 →
      ((a.int.setWidth n).setWidth 64).toNat = (a.val.setWidth n).toNat := (toNat_narrow · a)
  have hint := hsigned (n := 32) (Nat.le_refl _)
  have huint := hunsigned (n := 32) (Nat.le_refl _)
  rw [BitVec.setWidth_eq] at hint huint
  have hmem : q ∈ [] :: qualifiers := by simpa using hq
  simp only [qualifiers, List.map_cons, List.map_nil, List.mem_cons, List.not_mem_nil,
    or_false] at hmem
  rcases hmem with rfl | rfl | rfl | rfl | rfl | rfl | rfl | rfl <;> cases signed
  all_goals
    simp [fetchNum, qualifiedType, atWidth, modifierBits, -BitVec.toNat_setWidth, hsigned,
      hunsigned, hint, huint]

/-- The digits of a conversion without flags, width and precision. -/
def plainText (c : Byte) (v : Int) : List Byte :=
  (if v < 0 then [chr '-'] else []) ++ (lsd (baseOf c).toNat v.natAbs).reverse.map fun d =>
    (if c = chr 'x' then hexAscLower else hexAscUpper).getD d 0

/-- With `t` only the low half of the argument is fetched; it has to be the whole argument. -/
def FitsModifier (q : List Byte) (c : Byte) (a : Arg) : Prop :=
  q = [chr 't'] → a.val = if isSigned c then a.int.signExtend 64 else a.int.setWidth 64

instance (q : List Byte) (c : Byte) (a : Arg) : Decidable (FitsModifier q c a) :=
  inferInstanceAs (Decidable (_ → _))

theorem fetched_eq_iff (q : List Byte) (c : Byte) (a : Arg) :
    fetched q c a = converted q c a ↔ FitsModifier q c a := by
  have hlow : a.int.setWidth 32 = a.int := BitVec.setWidth_eq _
  have hint := toInt_narrow (Nat.le_refl 32) a
  have huint := toNat_narrow (Nat.le_refl 32) a
  rw [hlow] at hint huint
  unfold fetched converted FitsModifier
  by_cases ht : q = [chr 't']
  · have hbits : modifierBits q = 64 := by
      rw [ht]
      rfl
    rw [if_pos ht, hbits, forall_prop_of_true ht]
    cases isSigned c
    · simp only [atWidth, Bool.false_eq_true, if_false, BitVec.setWidth_eq, ← huint, Nat.cast_inj,
        BitVec.toNat_inj, eq_comm]
    · simp only [atWidth, if_true, BitVec.setWidth_eq, ← hint, BitVec.toInt_inj, eq_comm]
  · rw [if_neg ht]
    exact ⟨fun _ h => absurd h ht, fun _ => rfl⟩

theorem has_conversion {spec : PrintfSpec} {mask : Byte} (h : spec.flags &&& mask = 0)
    (q : List Byte) (c : Byte) :
    (conversionSpec q c spec).has mask = (conversionFlags c &&& mask != 0) := by
  rw [PrintfSpec.has, conversionSpec, BitVec.and_comm, BitVec.and_or_distrib_left,
    BitVec.and_comm mask, h, BitVec.and_comm mask]
  exact congrArg (· != 0) BitVec.zero_or

/-- `number` is called for the conversions of integers. -/
theorem convert_number {σ : Type} (S : Sink σ) (str : σ) {spec : PrintfSpec} {q : List Byte}
    {signed : Bool} (h : spec.type = qualifiedType q signed) (a : Arg) :
    convert S str spec a =
      some (putAll S str (numberText (fetchNum (qualifiedType q signed) a) spec), spec) := by
  rw [← h, ← number_eq]
  unfold qualifiedType at h
  unfold convert
  split_ifs at h <;> rw [h]

theorem isInteger_spec {c : Byte} (hc : isInteger c = true) :
    isConversion c = true ∧ (c ≠ chr 'c' ∧ c ≠ chr 's' ∧ c ≠ chr 'p' ∧ c ≠ chr '%') ∧
      (baseOf c = 8 ∨ baseOf c = 10 ∨ baseOf c = 16) ∧
      (conversionFlags c &&& SIGN != 0) = isSigned c ∧
      (conversionFlags c &&& SMALL != 0) = decide (c = chr 'x') := by
  have hall : ∀ c ∈ "diouxX".toList.map chr, isConversion c = true ∧
      (c ≠ chr 'c' ∧ c ≠ chr 's' ∧ c ≠ chr 'p' ∧ c ≠ chr '%') ∧
        (baseOf c = 8 ∨ baseOf c = 10 ∨ baseOf c = 16) ∧
        (conversionFlags c &&& SIGN != 0) = isSigned c ∧
        (conversionFlags c &&& SMALL != 0) = decide (c = chr 'x') := by decide
  exact hall c (List.contains_iff_mem.mp hc)

theorem isInteger_type {c : Byte} (hc : isInteger c = true) (q : List Byte) :
    typeOf q c = qualifiedType q (isSigned c) := by
  obtain ⟨-, ⟨hchar, hstr, hptr, hpercent⟩, -⟩ := isInteger_spec hc
  rw [typeOf, if_neg hchar, if_neg hstr, if_neg hptr, if_neg hpercent]
  rfl

/-- The number that a conversion hands to `number`. -/
theorem numberValue_fetch {q : List Byte} (hq : q = [] ∨ q ∈ qualifiers) {c : Byte}
    (hc : isInteger c = true) (a : Arg) {spec : PrintfSpec} (hs : spec.flags &&& SIGN = 0) :
    numberValue (fetchNum (qualifiedType q (isSigned c)) a) (conversionSpec q c spec) =
      fetched q c a := by
  obtain ⟨-, -, -, hsign, -⟩ := isInteger_spec hc
  rw [fetched, ← fetchNum_value hq, numberValue, has_conversion hs, hsign]

/-- The number that is read, for a field of any flags, width and precision. -/
theorem convert_fetched {q : List Byte} (hq : q = [] ∨ q ∈ qualifiers) {c : Byte}
    (hc : isInteger c = true) (a : Arg) {spec : PrintfSpec} (hs : spec.flags &&& SIGN = 0) :
    ∃ t, Shows (conversionSpec q c spec) t (fetched q c a) ∧
      ∀ {σ : Type} (S : Sink σ) (str : σ),
        convert S str (conversionSpec q c spec) a =
          some (putAll S str t, conversionSpec q c spec) := by
  obtain ⟨-, -, hbase, -⟩ := isInteger_spec hc
  refine ⟨_, ?_, fun S str => convert_number S str (isInteger_type hc q) a⟩
  rw [← numberValue_fetch hq hc a hs]
  exact numberText_shows _ hbase

theorem atWidth_nonneg (n : Nat) (a : Arg) : 0 ≤ atWidth false n a := Int.natCast_nonneg _

/-! ## A conversion alone -/

def plainDirective (q : List Byte) (c : Byte) : Directive := ⟨[], none, none, q, c, []⟩

def plainSpec (q : List Byte) (c : Byte) : PrintfSpec :=
  conversionSpec q c { PrintfSpec.zero with fieldWidth := -1, precision := -1 }

section Plain

variable {q : List Byte} {c : Byte} (hc : isInteger c = true)

include hc

theorem plainSpec_parts {v : Int} (hv : isSigned c = false → 0 ≤ v) :
    signFor (plainSpec q c) v = (if v < 0 then [chr '-'] else []) ∧
      prefixFor (plainSpec q c) v = [] ∧
      signFor (plainSpec q c) v ++ digitsFor (plainSpec q c) v = plainText c v := by
  obtain ⟨-, -, -, hsign, hsmall⟩ := isInteger_spec hc
  have hhas : ∀ mask, (plainSpec q c).has mask = (conversionFlags c &&& mask != 0) := fun mask =>
    has_conversion BitVec.zero_and q c
  have hrest : conversionFlags c &&& PLUS = 0 ∧ conversionFlags c &&& SPACE = 0 ∧
      conversionFlags c &&& SPECIAL = 0 := by
    unfold conversionFlags
    split_ifs <;> decide
  have hsigns : signFor (plainSpec q c) v = if v < 0 then [chr '-'] else [] := by
    unfold signFor
    simp only [hhas, hsign, hrest.1, hrest.2.1, bne_self_eq_false, Bool.false_eq_true, if_false]
    split
    · rfl
    · rename_i hun
      rw [if_neg (not_lt.mpr (hv (Bool.eq_false_iff.mpr hun)))]
  refine ⟨hsigns, ?_, ?_⟩
  · unfold prefixFor
    simp only [hhas, hrest.2.2, bne_self_eq_false, Bool.false_eq_true, if_false]
  · rw [hsigns, plainText, digitsFor, hhas, hsmall]
    simp only [decide_eq_true_eq]
    rfl

theorem plainText_shows {v : Int} (hv : isSigned c = false → 0 ≤ v) :
    Shows (plainSpec q c) (plainText c v) v := by
  obtain ⟨-, hpfx, htext⟩ := plainSpec_parts (q := q) hc hv
  refine ⟨0, 0, 0, ?_⟩
  rw [hpfx, ← htext]
  simp only [List.replicate_zero, List.nil_append, List.append_nil]

theorem numberText_plain (num : BitVec 64) :
    numberText num (plainSpec q c) = plainText c (numberValue num (plainSpec q c)) := by
  obtain ⟨-, -, hbase, hsign, -⟩ := isInteger_spec hc
  have hhas : ∀ mask, (plainSpec q c).has mask = (conversionFlags c &&& mask != 0) := fun mask =>
    has_conversion BitVec.zero_and q c
  have hv : isSigned c = false → 0 ≤ numberValue num (plainSpec q c) := fun hun => by
    rw [numberValue, hhas, hsign, hun]
    exact Int.natCast_nonneg _
  obtain ⟨-, hpfx, htext⟩ := plainSpec_parts (q := q) hc hv
  have hflags : (plainSpec q c).has LEFT = false ∧ (plainSpec q c).has ZEROPAD = false := by
    rw [hhas, hhas, conversionFlags]
    split_ifs <;> decide
  have hwidth : (plainSpec q c).fieldWidth.toInt = -1 := rfl
  have hprecision : (plainSpec q c).precision.toInt = -1 := rfl
  have hzeros : zeroChars num (plainSpec q c) = [] := by
    rw [zeroChars, hprecision, List.replicate_eq_nil_iff]
    omega
  have hfill : fill (signChars num (plainSpec q c)) num (plainSpec q c) = 0 := by
    rw [fill, hwidth]
    omega
  rw [numberText_eq num hbase, if_neg (by simp [hflags]), hfill, bodyText, hzeros, signChars_eq,
    prefixChars_eq_for, digitChars_eq, hpfx, ← htext, List.append_nil, List.append_nil]
  rfl

theorem plainDirective_wellFormed (hq : q = [] ∨ q ∈ qualifiers) :
    (plainDirective q c).WellFormed where
  flags d hd := absurd hd List.not_mem_nil
  width n hn := by contradiction
  precision n hn := by contradiction
  qualifier := hq
  conversion := (isInteger_spec hc).1
  tail d hd := absurd hd List.not_mem_nil
  tail_ptr h := absurd rfl h

/-- A format that is one conversion without flags, width and precision. -/
theorem fullText_plain (hq : q = [] ∨ q ∈ qualifiers) (a : Arg) :
    fullText (chr '%' :: (q ++ [c])) [a] = some (plainText c (fetched q c a)) := by
  have hwf := plainDirective_wellFormed hc hq
  have hmax : (plainDirective q c).FlagsMaximal := by
    intro ds hds
    contradiction
  have hlen : (plainDirective q c).text.length < 2 ^ 31 := by
    have hall : ∀ q ∈ [] :: qualifiers, q.length ≤ 2 := by decide
    have hle : q.length ≤ 2 := hall q (by simpa using hq)
    have htext : (plainDirective q c).text.length = q.length + 2 := by
      simp [Directive.text, Directive.body, plainDirective, numText, precisionText]
    omega
  have hspec : (plainDirective q c).spec 0 0 = plainSpec q c := by
    simp [Directive.spec, plainDirective, plainSpec, conversionSpec, flagBits, starLeft, widthOf,
      precisionOf, PrintfSpec.zero]
  have htype : (plainSpec q c).type = qualifiedType q (isSigned c) := isInteger_type hc q
  have hvalue : (plainSpec q c).type ≠ .percentChar := fun h =>
    (isInteger_spec hc).2.1.2.2.2 (typeOf_percent.mp h)
  have hrun : (plainDirective q c).run textSink [a] [] =
      some (plainText c (fetched q c a), []) := by
    have htake : takeValue textSink (plainSpec q c) [a] [] =
        some (plainText c (fetched q c a), []) := by
      rw [takeValue_cons hvalue]
      simp only [convert_number textSink [] htype a, putAll_textSink, numberText_plain hc,
        Option.map_some, List.nil_append]
      rw [plainSpec, numberValue_fetch hq hc a BitVec.zero_and]
    rw [← htake, ← hspec]
    rfl
  exact congrArg (Option.map Prod.fst) ((hwf.loop_eq hmax hlen textSink [a] []).trans hrun)

end Plain

/-- **Every integer conversion prints its argument at the width of its modifier**, in a field of any
flags, width and precision and alone, and to its most negative value; except that `t` is accepted
and names no type, so that the argument has to fit into an `int`. -/
theorem convert_renders_iff {q : List Byte} (hq : q = [] ∨ q ∈ qualifiers) {c : Byte}
    (hc : isInteger c = true) (a : Arg) :
    (∀ (start r : List Byte) (spec : PrintfSpec), spec.flags &&& SIGN = 0 →
      ((∃ n spec' t, decodeQualifier start (q ++ c :: r) spec = some (n, spec') ∧
        (∀ {σ : Type} (S : Sink σ) (str : σ),
          convert S str spec' a = some (putAll S str t, spec')) ∧
        Shows spec' t (converted q c a)) ↔ FitsModifier q c a)) ∧
    (fullText (chr '%' :: (q ++ [c])) [a] = some (plainText c (converted q c a)) ↔
      FitsModifier q c a) := by
  obtain ⟨hconv, -, hbase, hsign, -⟩ := isInteger_spec hc
  have hunsigned : isSigned c = false → 0 ≤ fetched q c a ∧ 0 ≤ converted q c a := fun hun => by
    rw [fetched, converted, hun]
    exact ⟨atWidth_nonneg _ _, atWidth_nonneg _ _⟩
  refine ⟨fun start r spec hs => ?_, ?_⟩
  · have hdecode : decodeQualifier start (q ++ c :: r) spec =
        some (readCount start r, conversionSpec q c spec) := by
      rw [decodeQualifier_eq _ _ hs, spanQualifier_text hq hconv, deref_cons, if_pos hconv]
      rfl
    obtain ⟨t, hshows, hconvert⟩ := convert_fetched hq hc a hs
    rw [← fetched_eq_iff]
    constructor
    · rintro ⟨n, spec', t', hd, hconvert', hshows'⟩
      obtain ⟨-, rfl⟩ := Prod.mk.inj (Option.some.inj (hdecode.symm.trans hd))
      have htext := congrArg (Option.map Prod.fst)
        ((hconvert textSink []).symm.trans (hconvert' textSink []))
      simp only [Option.map_some, putAll_textSink, List.nil_append, Option.some.injEq] at htext
      refine shows_unique hbase hshows (htext ▸ hshows') fun hun => hunsigned ?_
      rwa [has_conversion hs, hsign] at hun
    · intro heq
      exact ⟨_, _, t, hdecode, hconvert, heq ▸ hshows⟩
  · rw [fullText_plain hc hq, ← fetched_eq_iff, Option.some.injEq]
    constructor
    · intro htext
      have hshows := plainText_shows (q := q) hc fun hun => (hunsigned hun).1
      refine shows_unique hbase hshows
        (htext ▸ plainText_shows hc fun hun => (hunsigned hun).2) fun hun => hunsigned ?_
      rwa [plainSpec, has_conversion BitVec.zero_and, hsign] at hun
    · intro heq
      rw [heq]

/-- `%hhd` of the most negative `signed char`, and `%ld` of the most negative `long`. -/
theorem convert_renders_iff_minimum :
    fullText ("%hhd".toList.map chr) [⟨0x80, []⟩] = some ("-128".toList.map chr) ∧
      fullText ("%ld".toList.map chr) [⟨0x8000000000000000, []⟩] =
        some ("-9223372036854775808".toList.map chr) := by
  have hbyte := (convert_renders_iff (q := [chr 'h', chr 'h']) (c := chr 'd') (Or.inr (by decide))
    (by decide) ⟨0x80, []⟩).2.mpr (by decide)
  have hlong := (convert_renders_iff (q := [chr 'l']) (c := chr 'd') (Or.inr (by decide))
    (by decide) ⟨0x8000000000000000, []⟩).2.mpr (by decide)
  exact ⟨hbyte.trans (by decide +kernel), hlong.trans (by decide +kernel)⟩

/-- `%tu` of `2^32` prints a zero. -/
theorem convert_drops_ptrdiff :
    fullText ("%tu".toList.map chr) [⟨0x100000000, []⟩] = some ("0".toList.map chr) ∧
      fullText ("%tu".toList.map chr) [⟨0x100000000, []⟩] ≠
        some (plainText (chr 'u') (converted [chr 't'] (chr 'u') ⟨0x100000000, []⟩)) := by
  decide +kernel

end Eeos.Printk
