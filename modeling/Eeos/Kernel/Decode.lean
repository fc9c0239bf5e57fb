import Eeos.Kernel.Grammar

/-!
# `format_decode` read as a grammar

Each scanner of `format_decode` in closed form: `skipLiteral` and `flagLoop` drop a maximal run,
`skip_atoi` reads a maximal run of digits, and the three entry points are, by
`decodeFresh_percent`, `decodePrecision_eq` and `decodeQualifier_eq`, the spans of the grammar
followed by the spec they spell.

Principal result: `formatDecode_within` — in every entry state `format_decode` returns without
stepping past the NUL, and it makes progress unless the conversion is invalid.
-/

namespace Eeos.Printk

open ByteMem Ctype

/-! ## Characters -/

theorem tolowerFast_eq_l (c : Byte) : tolowerFast c = chr 'l' ↔ c = chr 'l' ∨ c = chr 'L' := by
  revert c; decide +kernel

theorem isFlag_iff (c : Byte) : isFlag c = (flagBit c).isSome := by
  revert c; decide +kernel

theorem digit_value (c : Byte) (h : isdigit c = true) :
    c.setWidth 32 - (chr '0').setWidth 32 = BitVec.ofNat 32 (c.toNat - 48) := by
  revert c; decide +kernel

theorem isConversion_nul : isConversion 0 = false := by decide

theorem isFlag_nul : isFlag 0 = false := by decide

/-- A flag is there or not. -/
theorem and_bit (flags : Byte) (i : Nat) : flags &&& BitVec.twoPow 8 i =
    if (flags &&& BitVec.twoPow 8 i != 0) = true then BitVec.twoPow 8 i else 0 := by
  rw [BitVec.and_twoPow]
  split
  · split
    · rfl
    · rename_i h
      simpa using h
  · rfl

/-- A bit that is in neither operand is not in their union. -/
theorem or_and_eq_zero {flags bits mask : Byte} (hf : flags &&& mask = 0) (hb : bits &&& mask = 0) :
    (flags ||| bits) &&& mask = 0 := by
  rw [BitVec.and_comm, BitVec.and_or_distrib_left, BitVec.and_comm mask, hf,
    BitVec.and_comm mask, hb]
  rfl

/-- A bit that no flag character of `l` sets. -/
theorem flagBits_and {mask : Byte} {l : List Byte}
    (h : ∀ c ∈ l, (flagBit c).getD 0 &&& mask = 0) : flagBits l &&& mask = 0 := by
  induction l with
  | nil => exact BitVec.zero_and
  | cons c l ih =>
    exact or_and_eq_zero (h c (by simp)) (ih fun d hd => h d (List.mem_cons_of_mem _ hd))

/-- No flag character, and so no spelled flag, sets the sign bit. -/
theorem flagBit_sign (c : Byte) : (flagBit c).getD 0 &&& SIGN = 0 := by
  revert c; decide +kernel

theorem flagBits_sign (l : List Byte) : flagBits l &&& SIGN = 0 :=
  flagBits_and fun c _ => flagBit_sign c

theorem deref_cons (c : Byte) (fmt : List Byte) : deref (c :: fmt) = c := rfl

theorem deref_nil : deref [] = 0 := rfl

theorem eq_cons_of_deref (fmt : List Byte) (h : deref fmt ≠ 0) : fmt = deref fmt :: fmt.tail := by
  cases fmt with
  | nil => exact absurd rfl h
  | cons c fmt => rfl

theorem incr_of_deref (fmt : List Byte) (h : deref fmt ≠ 0) : incr fmt = some fmt.tail := by
  cases fmt with
  | nil => exact absurd rfl h
  | cons c fmt => rfl

theorem tail_length_lt (fmt : List Byte) (h : deref fmt ≠ 0) : fmt.tail.length < fmt.length := by
  cases fmt with
  | nil => exact absurd rfl h
  | cons c fmt => simp

/-! ## Scanners -/

theorem skipLiteral_eq (fmt : List Byte) : skipLiteral fmt = fmt.dropWhile (· != chr '%') := by
  induction fmt with
  | nil => rfl
  | cons c fmt ih =>
    rw [skipLiteral, List.dropWhile_cons]
    by_cases h : c = chr '%' <;> simp [h, ih]

theorem flagLoop_eq (c : Byte) (fmt : List Byte) (flags : Byte) :
    flagLoop (c :: fmt) flags =
      some (fmt.dropWhile isFlag, flags ||| flagBits (fmt.takeWhile isFlag)) := by
  induction fmt generalizing c flags with
  | nil => simp [flagLoop, deref, flagBits, flagBit, chr]
  | cons a fmt ih =>
    rw [flagLoop, deref_cons, List.dropWhile_cons, List.takeWhile_cons, isFlag_iff]
    cases h : flagBit a with
    | none => simp [flagBits]
    | some bit => simp [ih, flagBits, h, BitVec.or_assoc]

theorem skipAtoi_go (c : Byte) (s : List Byte) (n : Nat) (hc : isdigit c = true) :
    skipAtoi (c :: s) (BitVec.ofNat 32 n) =
      some (BitVec.ofNat 32 ((c :: s.takeWhile isdigit).foldl
        (fun n c => 10 * n + (c.toNat - 48)) n), s.dropWhile isdigit) := by
  have step : ∀ (c : Byte) n, isdigit c = true →
      BitVec.ofNat 32 n * 10 + c.setWidth 32 - (chr '0').setWidth 32 =
        BitVec.ofNat 32 (10 * n + (c.toNat - 48)) := by
    intro c n hc
    rw [BitVec.sub_eq_add_neg, BitVec.add_assoc, ← BitVec.sub_eq_add_neg, digit_value c hc,
      BitVec.ofNat_add, Nat.mul_comm 10, BitVec.ofNat_mul]
    rfl
  induction s generalizing c n with
  | nil => rw [skipAtoi, step c n hc, deref_nil, isdigit_nul]; rfl
  | cons a s ih =>
    rw [skipAtoi, deref_cons, step c n hc]
    by_cases ha : isdigit a = true
    · simp only [ha, if_true, List.takeWhile_cons, List.dropWhile_cons]
      rw [ih a _ ha]
      rfl
    · simp [ha]

theorem skipAtoi_eq {s : List Byte} (h : isdigit (deref s) = true) :
    skipAtoi s 0 = some (BitVec.ofNat 32 (decimal (s.takeWhile isdigit)), s.dropWhile isdigit) := by
  cases s with
  | nil => rw [deref_nil, isdigit_nul] at h; contradiction
  | cons c s =>
    rw [deref_cons] at h
    simpa [h, decimal] using skipAtoi_go c s 0 h

/-- The one-character code of a qualifier: `hh` is `'H'`, `ll` is `'L'`. -/
def qualifierCode (q : List Byte) : Byte :=
  if q = [chr 'h', chr 'h'] then chr 'H' else if q = [chr 'l', chr 'l'] then chr 'L' else deref q

theorem readQualifier_eq (fmt : List Byte) :
    readQualifier fmt = some (qualifierCode (spanQualifier fmt).1, (spanQualifier fmt).2) := by
  cases fmt with
  | nil => decide
  | cons c fmt =>
    have hi : incr (c :: fmt) = some fmt := rfl
    simp only [readQualifier, spanQualifier, deref_cons, tolowerFast_eq_l, hi]
    by_cases hh : c = chr 'h'
    · subst hh
      by_cases h2 : deref fmt = chr 'h'
      · have := incr_of_deref fmt (by rw [h2]; decide)
        simp [h2, this, qualifierCode, chr]
      · simp only [h2, Ne.symm h2, if_false, and_false, true_or, if_true]
        rfl
    · by_cases hl : c = chr 'l'
      · subst hl
        by_cases h2 : deref fmt = chr 'l'
        · have := incr_of_deref fmt (by rw [h2]; decide)
          simp [h2, this, qualifierCode, chr]
        · simp only [h2, Ne.symm h2, if_false, and_false, true_or, or_true, if_true]
          rfl
      · by_cases ho : c = chr 'L' ∨ c = chr 'z' ∨ c = chr 't'
        · simp [hh, hl, ho, qualifierCode, deref]
        · simp [hh, hl, ho, qualifierCode, deref]

/-! ## Suffixes and lengths -/

theorem spanNum_suffix (fmt : List Byte) : (spanNum fmt).2 <:+ fmt := by
  unfold spanNum
  split
  · exact List.dropWhile_suffix _
  · split
    · exact List.tail_suffix _
    · exact List.suffix_rfl

theorem spanPrecision_suffix (fmt : List Byte) : (spanPrecision fmt).2 <:+ fmt := by
  unfold spanPrecision
  split
  · exact (spanNum_suffix _).trans (List.tail_suffix _)
  · exact List.suffix_rfl

theorem spanQualifier_suffix (fmt : List Byte) : (spanQualifier fmt).2 <:+ fmt := by
  cases fmt with
  | nil => exact List.suffix_rfl
  | cons c fmt =>
    simp only [spanQualifier]
    split
    · exact (List.tail_suffix _).trans (List.suffix_cons _ _)
    · split
      · exact List.suffix_cons _ _
      · exact List.suffix_rfl

theorem spanNum_append (fmt : List Byte) : numText (spanNum fmt).1 ++ (spanNum fmt).2 = fmt := by
  unfold spanNum
  split
  · exact List.takeWhile_append_dropWhile
  · split
    · rename_i h
      have := eq_cons_of_deref fmt (by rw [h]; decide)
      rw [h] at this
      exact this.symm
    · rfl

theorem spanPrecision_append (fmt : List Byte) :
    precisionText (spanPrecision fmt).1 ++ (spanPrecision fmt).2 = fmt := by
  unfold spanPrecision
  split
  · rename_i h
    have := eq_cons_of_deref fmt (by rw [h]; decide)
    rw [h] at this
    rw [precisionText, List.cons_append, spanNum_append, ← this]
  · rfl

theorem spanQualifier_append (fmt : List Byte) :
    (spanQualifier fmt).1 ++ (spanQualifier fmt).2 = fmt := by
  cases fmt with
  | nil => rfl
  | cons c fmt =>
    simp only [spanQualifier]
    split
    · rename_i h
      have hc : c ≠ 0 := by rcases h.1 with rfl | rfl <;> decide
      have := eq_cons_of_deref fmt (h.2 ▸ hc)
      rw [h.2] at this
      rw [List.cons_append, List.cons_append, List.nil_append, ← this]
    · split <;> rfl

/-! ## The entry points -/

/-- The spec after the conversion character `c` with the qualifier `q`. -/
def conversionSpec (q : List Byte) (c : Byte) (spec : PrintfSpec) : PrintfSpec :=
  { spec with
    base := baseOf c
    flags := spec.flags ||| conversionFlags c
    type := typeOf q c }

/-- What `spanQualifier` can find. -/
theorem spanQualifier_mem (fmt : List Byte) :
    (spanQualifier fmt).1 = [] ∨ (spanQualifier fmt).1 ∈ qualifiers := by
  cases fmt with
  | nil => exact Or.inl rfl
  | cons c fmt =>
    simp only [spanQualifier]
    split
    · rename_i h
      rcases h.1 with rfl | rfl <;> exact Or.inr (by simp [qualifiers])
    · split
      · rename_i h
        rcases h with rfl | rfl | rfl | rfl | rfl <;> exact Or.inr (by simp [qualifiers])
      · exact Or.inl rfl

/-- The two enumerations of the integer types agree. -/
theorem intType_eq {q : List Byte} (hq : q = [] ∨ q ∈ qualifiers) (flags : Byte) :
    intType (qualifierCode q) flags = qualifiedType q (flags &&& SIGN != 0) := by
  have hs : flags &&& SIGN = 0 ∨ flags &&& SIGN = 1 := by
    have hbit : flags &&& SIGN = if (flags &&& SIGN != 0) = true then SIGN else 0 := and_bit flags 0
    split at hbit
    · exact Or.inr hbit
    · exact Or.inl hbit
  have hm : q ∈ [] :: qualifiers := by simpa using hq
  rcases hs with h | h
  · simp only [intType, qualifiedType, h]
    clear hq
    revert q; decide
  · simp only [intType, qualifiedType, h]
    clear hq
    revert q; decide

theorem sign_or (flags : Byte) (h : flags &&& SIGN = 0) :
    (flags ||| SIGN) &&& SIGN = SIGN ∧ (flags ||| SMALL) &&& SIGN = 0 := by
  revert flags; decide +kernel

theorem readConversion_eq {q : List Byte} (hq : q = [] ∨ q ∈ qualifiers) (c : Byte)
    {spec : PrintfSpec} (hs : spec.flags &&& SIGN = 0) :
    readConversion (qualifierCode q) c spec =
      if isConversion c then some (conversionSpec q c spec) else none := by
  obtain ⟨hd, hx⟩ := sign_or _ hs
  by_cases h : isConversion c = true
  · have hm : c ∈ "csdiouxX%p".toList.map chr := by simpa [isConversion] using h
    simp only [h, if_true]
    simp at hm
    rcases hm with rfl | rfl | rfl | rfl | rfl | rfl | rfl | rfl | rfl | rfl <;>
      simp [readConversion, conversionSpec, typeOf, baseOf, conversionFlags, intType_eq hq, hs, hd,
        hx, show (SIGN != 0#8) = true from rfl]
  · simp [isConversion] at h
    simp [readConversion, isConversion, h]

theorem decodeQualifier_eq (start fmt : List Byte) {spec : PrintfSpec}
    (hs : spec.flags &&& SIGN = 0) :
    decodeQualifier start fmt spec =
      if isConversion (deref (spanQualifier fmt).2) then
        some (readCount start (spanQualifier fmt).2.tail,
          conversionSpec (spanQualifier fmt).1 (deref (spanQualifier fmt).2) spec)
      else
        some (readCount start (spanQualifier fmt).2, { spec with base := 10, type := .invalid }) := by
  rw [decodeQualifier, readQualifier_eq]
  simp only [readConversion_eq (spanQualifier_mem fmt) _ hs]
  by_cases h : isConversion (deref (spanQualifier fmt).2) = true
  · have hne : deref (spanQualifier fmt).2 ≠ 0 := by
      intro h0
      rw [h0, isConversion_nul] at h
      contradiction
    simp [h, incr_of_deref _ hne]
  · simp [h]

theorem star_not_digit : isdigit (chr '*') = false := by decide

@[simp] theorem clampPrecision_fieldWidth (spec : PrintfSpec) :
    (clampPrecision spec).fieldWidth = spec.fieldWidth := by
  unfold clampPrecision; split <;> rfl

@[simp] theorem clampPrecision_flags (spec : PrintfSpec) :
    (clampPrecision spec).flags = spec.flags := by
  unfold clampPrecision; split <;> rfl

@[simp] theorem clampPrecision_precision (spec : PrintfSpec) :
    (clampPrecision spec).precision = if spec.precision.toInt < 0 then 0 else spec.precision := by
  unfold clampPrecision; split <;> rfl

theorem clamp_digits (spec : PrintfSpec) (ds : List Byte) :
    clampPrecision (setPrecision { spec with precision := -1 } (BitVec.ofNat 32 (decimal ds))) =
      { spec with precision := precisionOf (some (.digits ds)) 0 } := by
  have hw : (BitVec.ofNat 32 (decimal ds)).setWidth 16 = BitVec.ofNat 16 (decimal ds) := by
    bv_omega
  simp only [clampPrecision, setPrecision, precisionOf, hw]
  split <;> rfl

theorem decodePrecision_eq (start fmt : List Byte) (spec : PrintfSpec) :
    decodePrecision start fmt spec =
      if (spanPrecision fmt).1 = some (some .star) then
        some (readCount start (spanPrecision fmt).2,
          { spec with precision := -1, type := .precision })
      else
        decodeQualifier start (spanPrecision fmt).2
          { spec with precision := precisionOf (spanPrecision fmt).1.join 0 } := by
  by_cases hd : deref fmt = chr '.'
  · have hi := incr_of_deref fmt (by rw [hd]; decide)
    simp only [decodePrecision, hd, if_true, hi, spanPrecision, spanNum, Option.join_some]
    by_cases hg : isdigit (deref fmt.tail) = true
    · simp only [hg, if_true, skipAtoi_eq hg, clamp_digits, reduceCtorEq, Option.some.injEq,
        if_false]
    · by_cases hs : deref fmt.tail = chr '*'
      · have hi2 := incr_of_deref fmt.tail (by rw [hs]; decide)
        simp only [hs, star_not_digit, Bool.false_eq_true, if_false, if_true, hi2, Option.map_some]
      · simp only [hg, hs, Bool.false_eq_true, if_false, reduceCtorEq, Option.some.injEq]
        rfl
  · simp only [decodePrecision, hd, if_false, spanPrecision, reduceCtorEq]
    rfl

/-- From a `%` on. -/
theorem decodeFresh_percent (body : List Byte) (spec : PrintfSpec) :
    decodeFresh (chr '%' :: body) spec =
      if (spanNum (body.dropWhile isFlag)).1 = some .star then
        some (readCount (chr '%' :: body) (spanNum (body.dropWhile isFlag)).2,
          { spec with
            type := .width, flags := flagBits (body.takeWhile isFlag), fieldWidth := -1 })
      else
        decodePrecision (chr '%' :: body) (spanNum (body.dropWhile isFlag)).2
          { spec with
            type := .none
            flags := flagBits (body.takeWhile isFlag)
            fieldWidth := widthOf (spanNum (body.dropWhile isFlag)).1 0 } := by
  have hp : skipLiteral (chr '%' :: body) = chr '%' :: body := by simp [skipLiteral]
  have hw : ∀ n : Nat, (BitVec.ofNat 32 n).setWidth 24 = BitVec.ofNat 24 n := by intro n; bv_omega
  have hne : chr '%' ≠ 0 := by decide
  have hz : ∀ flags : Byte, 0 ||| flags = flags := fun _ => BitVec.zero_or
  simp only [decodeFresh, hp, flagLoop_eq, deref_cons, hne, ne_eq, not_true_eq_false, or_self,
    if_false, hz, spanNum]
  generalize body.dropWhile isFlag = r
  by_cases hg : isdigit (deref r) = true
  · simp only [hg, if_true, skipAtoi_eq hg, reduceCtorEq, Option.some.injEq, if_false,
      setFieldWidth, hw, widthOf]
  · by_cases hs : deref r = chr '*'
    · have hi := incr_of_deref r (by rw [hs]; decide)
      simp only [hs, star_not_digit, Bool.false_eq_true, if_false, if_true, hi, Option.map_some]
    · simp only [hg, hs, Bool.false_eq_true, if_false, reduceCtorEq, widthOf]

/-- A run of literal text. -/
theorem decodeFresh_literal {l fmt : List Byte} (hl : l ≠ []) (hp : chr '%' ∉ l)
    (hf : fmt = [] ∨ fmt.head? = some (chr '%')) (spec : PrintfSpec) :
    decodeFresh (l ++ fmt) spec = some (readCount (l ++ fmt) fmt, { spec with type := .none }) := by
  have hs : skipLiteral (l ++ fmt) = fmt := by
    rw [skipLiteral_eq, List.dropWhile_append_of_pos]
    · rcases hf with rfl | hf
      · rfl
      · cases fmt with
        | nil => rfl
        | cons c fmt => simp_all
    · intro c hc
      simpa using fun h : c = chr '%' => hp (h ▸ hc)
  have hlen : fmt.length ≠ (l ++ fmt).length := by
    have := List.length_pos_iff.mpr hl
    rw [List.length_append]
    omega
  simp only [decodeFresh, hs, ne_eq, hlen, not_false_eq_true, true_or, if_true]

/-! ## Where `format_decode` stops -/

/-- `format_decode` started at `start` has stopped at a suffix of it, and made progress unless
the conversion is invalid. -/
def StopsWithin (start : List Byte) (res : Option (Int × PrintfSpec)) : Prop :=
  ∃ r spec, r <:+ start ∧ res = some (readCount start r, spec) ∧
    (deref start ≠ 0 → spec.type = .invalid ∨ r.length < start.length)

theorem readConversion_nul (q : Byte) (spec : PrintfSpec) : readConversion q 0 spec = none := by
  simp [readConversion]

theorem decodeQualifier_within {start fmt : List Byte} (hf : fmt <:+ start) (spec : PrintfSpec) :
    StopsWithin start (decodeQualifier start fmt spec) := by
  have hq := (spanQualifier_suffix fmt).trans hf
  rw [decodeQualifier, readQualifier_eq]
  simp only
  cases hc : readConversion (qualifierCode (spanQualifier fmt).1)
      (deref (spanQualifier fmt).2) spec with
  | none => exact ⟨_, _, hq, rfl, fun _ => Or.inl rfl⟩
  | some spec' =>
    have hne : deref (spanQualifier fmt).2 ≠ 0 := by
      intro h0
      rw [h0, readConversion_nul] at hc
      contradiction
    refine ⟨_, spec', (List.tail_suffix _).trans hq, by rw [incr_of_deref _ hne]; rfl, fun _ => ?_⟩
    have := hq.length_le
    have := tail_length_lt _ hne
    omega

theorem decodePrecision_within {start fmt : List Byte} (hf : fmt <:+ start) (spec : PrintfSpec) :
    StopsWithin start (decodePrecision start fmt spec) := by
  have hp := (spanPrecision_suffix fmt).trans hf
  rw [decodePrecision_eq]
  split
  · rename_i hs
    refine ⟨_, _, hp, rfl, fun _ => Or.inr ?_⟩
    have hdot : deref fmt = chr '.' := by
      by_contra h
      simp [spanPrecision, h] at hs
    have h1 := tail_length_lt fmt (by rw [hdot]; decide)
    have h2 := (spanNum_suffix fmt.tail).length_le
    have h3 := hf.length_le
    simp only [spanPrecision, hdot, if_true]
    omega
  · exact decodeQualifier_within hp _

theorem decodeFresh_within (start : List Byte) (spec : PrintfSpec) :
    StopsWithin start (decodeFresh start spec) := by
  cases start with
  | nil => exact ⟨[], _, List.suffix_rfl, rfl, fun h => absurd rfl h⟩
  | cons c body =>
    have hr := (spanNum_suffix (body.dropWhile isFlag)).trans (List.dropWhile_suffix _)
    by_cases hc : c = chr '%'
    · subst hc
      rw [decodeFresh_percent]
      split
      · refine ⟨_, _, hr.trans (List.suffix_cons _ _), rfl, fun _ => Or.inr ?_⟩
        have := hr.length_le
        rw [List.length_cons]
        omega
      · exact decodePrecision_within (hr.trans (List.suffix_cons _ _)) _
    · have hs : skipLiteral (c :: body) = skipLiteral body := by rw [skipLiteral, if_neg hc]
      have hb : skipLiteral body <:+ body := skipLiteral_eq body ▸ List.dropWhile_suffix _
      have hlt : (skipLiteral body).length < (c :: body).length := by
        have := hb.length_le
        rw [List.length_cons]
        omega
      refine ⟨skipLiteral body, { spec with type := .none }, hb.trans (List.suffix_cons _ _), ?_,
        fun _ => Or.inr hlt⟩
      simp only [decodeFresh, hs, ne_eq, Nat.ne_of_lt hlt, not_false_eq_true, true_or, if_true]

/-- **In every entry state `format_decode` returns without stepping past the NUL**, at a suffix
of the text it was given. -/
theorem formatDecode_within (fmt : List Byte) (spec : PrintfSpec) :
    StopsWithin fmt (formatDecode fmt spec) := by
  unfold formatDecode
  split
  · exact decodePrecision_within List.suffix_rfl _
  · split
    · exact decodeQualifier_within List.suffix_rfl _
    · exact decodeFresh_within fmt spec

theorem readCount_eq {start r : List Byte} (h : start.length - r.length < 2 ^ 31) :
    readCount start r = ((start.length - r.length : Nat) : Int) := by
  unfold readCount
  rw [BitVec.toInt_eq_toNat_of_lt (by rw [BitVec.toNat_ofNat]; omega), BitVec.toNat_ofNat,
    Nat.mod_eq_of_lt (by omega)]

end Eeos.Printk
