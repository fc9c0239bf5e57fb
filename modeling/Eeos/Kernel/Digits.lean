import Eeos.Kernel.Number
import Eeos.Lib.Digits

/-!
# The digits that `number` prints

`numberDigits` has three ways to fill `tmp`: a single digit, shifts and masks for the bases 8 and
16, and for base 10 the multiplications of `put_dec`, two digits at a time.

* `Appends tmp n out ds` — the buffer `out` continues the first `n` characters of `tmp` by the
  digits `ds`.
* `mulShift32_toNat`, `mulShift19_toNat` — the multiplications divide by 100.
* `putDecTrunc8_appends`, `putDecFull8_appends`, `putDec_appends` — the decimal routines.

Principal result: `numberDigits_tmpText` (in every base the digits of the number, the least significant
first).
-/

namespace Eeos.Printk

open ByteMem Ctype CLoop Digits

/-- The first `n` characters of `tmp`. -/
def tmpText (tmp : Tmp) (n : Nat) : List Byte := (List.range n).map tmp

/-- `hex_asc_upper[d] | locase`. -/
def digitChar (locase : Byte) (d : Nat) : Byte := hexAscUpper.getD d 0 ||| locase

theorem tmpText_update (tmp : Tmp) (n : Nat) (c : Byte) :
    tmpText (Function.update tmp n c) (n + 1) = tmpText tmp n ++ [c] := by
  have hsame : (List.range n).map (Function.update tmp n c) = (List.range n).map tmp := by
    apply List.map_congr_left
    intro i hi
    exact Function.update_of_ne (by have := List.mem_range.mp hi; omega) _ _
  rw [tmpText, tmpText, List.range_succ, List.map_append, hsame, List.map_singleton,
    Function.update_self]

/-! ## Pairs of decimal digits -/

theorem decpair_digits : ∀ k < 100,
    (decpair.getD k 0).setWidth 8 = digitChar 0 (k % 10) ∧
      (decpair.getD k 0 >>> 8).setWidth 8 = digitChar 0 (k / 10) := by decide +kernel

def Appends (tmp : Tmp) (n : Nat) (out : Tmp × Nat) (ds : List Nat) : Prop :=
  tmpText out.1 out.2 = tmpText tmp n ++ ds.map (digitChar 0)

theorem tmpText_storePair {r : BitVec 32} (h : r.toNat < 100) (tmp : Tmp) (n : Nat) :
    tmpText (storePair tmp n r) (n + 1) = tmpText tmp n ++ [digitChar 0 (r.toNat % 10)] ∧
      tmpText (storePair tmp n r) (n + 2) =
        tmpText tmp n ++ [digitChar 0 (r.toNat % 10), digitChar 0 (r.toNat / 10)] := by
  obtain ⟨hlow, hhigh⟩ := decpair_digits _ h
  have hone : tmpText (storePair tmp n r) (n + 1) =
      tmpText tmp n ++ [digitChar 0 (r.toNat % 10)] := by
    rw [storePair, store16, hlow, hhigh, Function.update_comm (by omega), tmpText_update]
    congr 1
    apply List.map_congr_left
    intro i hi
    exact Function.update_of_ne (by have := List.mem_range.mp hi; omega) _ _
  refine ⟨hone, ?_⟩
  have htwo : tmpText (storePair tmp n r) (n + 2) =
      tmpText (Function.update tmp n (digitChar 0 (r.toNat % 10))) (n + 1) ++
        [digitChar 0 (r.toNat / 10)] := by
    rw [storePair, store16, hlow, hhigh, tmpText_update]
  rw [htwo, tmpText_update, List.append_assoc]
  rfl

/-- A pair in the middle of the digits. -/
theorem appends_pair {r : BitVec 32} (h : r.toNat < 100) {tmp : Tmp} {n : Nat} {out : Tmp × Nat}
    {ds : List Nat} (hout : Appends (storePair tmp n r) (n + 2) out ds) :
    Appends tmp n out (r.toNat % 10 :: r.toNat / 10 :: ds) := by
  rw [Appends, hout, (tmpText_storePair h tmp n).2, List.append_assoc]
  rfl

/-- The last pair, of which a leading zero is dropped. -/
theorem appends_last {r : BitVec 32} (h : r.toNat < 100) (tmp : Tmp) (n : Nat) :
    Appends tmp n (storePair tmp n r, n + if r < 10 then 1 else 2) (lsd 10 r.toNat) := by
  obtain ⟨hone, htwo⟩ := tmpText_storePair h tmp n
  rw [Appends]
  by_cases h10 : r < 10
  · have hlt : r.toNat < 10 := h10
    rw [if_pos h10, hone, lsd_of_lt hlt, Nat.mod_eq_of_lt hlt]
    rfl
  · have hge : 10 ≤ r.toNat := Nat.not_lt.mp h10
    rw [if_neg h10, htwo, lsd_of_le (by omega) hge, lsd_of_lt (by omega)]
    rfl

/-! ## Division by 100 -/

theorem mulShift32_toNat {r : BitVec 32} (h : r.toNat < 100000000) :
    (mulShift32 r).toNat = r.toNat / 100 := by
  have hmul : (r.setWidth 64 * 0x28f5c29).toNat = r.toNat * 0x28f5c29 := by
    rw [BitVec.toNat_mul, BitVec.toNat_setWidth]
    show r.toNat % 2 ^ 64 * 0x28f5c29 % 2 ^ 64 = _
    omega
  have hdiv : r.toNat * 0x28f5c29 / 2 ^ 32 = r.toNat / 100 := by omega
  rw [mulShift32, BitVec.toNat_setWidth, BitVec.toNat_ushiftRight, hmul, Nat.shiftRight_eq_div_pow,
    hdiv]
  omega

theorem mulShift19_toNat {r : BitVec 32} (h : r.toNat < 10000) :
    (mulShift19 r).toNat = r.toNat / 100 := by
  have hmul : (r * 0x147b).toNat = r.toNat * 0x147b := by
    rw [BitVec.toNat_mul]
    show r.toNat * 0x147b % 2 ^ 32 = _
    omega
  rw [mulShift19, BitVec.toNat_ushiftRight, hmul, Nat.shiftRight_eq_div_pow]
  omega

theorem toNat_sub_hundred {r q : BitVec 32} (hq : q.toNat = r.toNat / 100) :
    (r - 100 * q).toNat = r.toNat % 100 := by
  have hmul : (100 * q).toNat = 100 * q.toNat := by
    rw [BitVec.toNat_mul]
    show 100 * q.toNat % 2 ^ 32 = _
    omega
  rw [BitVec.toNat_sub, hmul]
  omega

/-- A pair split off by such a division. -/
theorem appends_hundred {r q : BitVec 32} (hq : q.toNat = r.toNat / 100) {tmp : Tmp} {n : Nat}
    {out : Tmp × Nat} {ds : List Nat}
    (hout : Appends (storePair tmp n (r - 100 * q)) (n + 2) out ds) :
    Appends tmp n out (low 10 2 r.toNat ++ ds) := by
  have hr := toNat_sub_hundred hq
  have h := appends_pair (by omega) hout
  have hlow : low 10 2 r.toNat = [(r - 100 * q).toNat % 10, (r - 100 * q).toNat / 10] := by
    have hunits : r.toNat % 100 % 10 = r.toNat % 10 := by omega
    have htens : r.toNat % 100 / 10 = r.toNat / 10 % 10 := by omega
    rw [low, low, low, hr, hunits, htens]
  rwa [hlow]

/-! ## `put_dec` -/

theorem putDecTrunc8_appends {r : BitVec 32} (h : r.toNat < 100000000) (tmp : Tmp) (n : Nat) :
    Appends tmp n (putDecTrunc8 tmp n r) (lsd 10 r.toNat) := by
  have hsplit : ∀ {x : Nat}, 100 ≤ x → lsd 10 x = low 10 2 x ++ lsd 10 (x / 100) :=
    fun hx => lsd_append (by omega) hx
  have hlt : ∀ {x : BitVec 32}, x < 100 ↔ x.toNat < 100 := fun {x} => BitVec.lt_def
  have hq := mulShift32_toNat h
  unfold putDecTrunc8
  simp only [hlt]
  by_cases h100 : r.toNat < 100
  · rw [if_pos h100]
    exact appends_last h100 tmp n
  rw [if_neg h100, hsplit (by omega), ← hq]
  generalize mulShift32 r = q at hq
  by_cases hq100 : q.toNat < 100
  · rw [if_pos hq100]
    exact appends_hundred hq (appends_last hq100 _ _)
  have hr := mulShift32_toNat (r := q) (by omega)
  rw [if_neg hq100, hsplit (by omega), ← hr]
  generalize mulShift32 q = r' at hr
  by_cases hr100 : r'.toNat < 100
  · rw [if_pos hr100]
    exact appends_hundred hq (appends_hundred hr (appends_last hr100 _ _))
  have hq' := mulShift19_toNat (r := r') (by omega)
  rw [if_neg hr100, hsplit (by omega), ← hq']
  exact appends_hundred hq (appends_hundred hr (appends_hundred hq' (appends_last (by omega) _ _)))

/-- Four pairs, leading zeros included. -/
theorem appends_eight {r q r' q' : BitVec 32} (hq : q.toNat = r.toNat / 100)
    (hr : r'.toNat = q.toNat / 100) (hq' : q'.toNat = r'.toNat / 100) (h : q'.toNat < 100)
    (tmp : Tmp) (n : Nat) :
    Appends tmp n (storePair (storePair (storePair (storePair tmp n (r - 100 * q)) (n + 2)
      (q - 100 * r')) (n + 2 + 2) (r' - 100 * q')) (n + 2 + 2 + 2) q', n + 2 + 2 + 2 + 2)
      (low 10 8 r.toNat) := by
  have hend : ∀ (tmp : Tmp) (n : Nat), Appends tmp n (tmp, n) [] := fun tmp n => by
    rw [Appends, List.map_nil, List.append_nil]
  have hlow : low 10 8 r.toNat = low 10 2 r.toNat ++ (low 10 2 q.toNat ++ (low 10 2 r'.toNat ++
      [q'.toNat % 10, q'.toNat / 10])) := by
    have htens : q'.toNat / 10 = q'.toNat / 10 % 10 := by omega
    rw [htens, hq', hr, hq]
    simp only [low, List.cons_append, List.nil_append, Nat.div_div_eq_div_mul]
  rw [hlow]
  exact appends_hundred hq (appends_hundred hr (appends_hundred hq' (appends_pair h (hend _ _))))

theorem putDecFull8_appends {r : BitVec 32} (h : r.toNat < 100000000) (tmp : Tmp) (n : Nat) :
    Appends tmp n (putDecFull8 tmp n r) (low 10 8 r.toNat) := by
  have hq := mulShift32_toNat h
  unfold putDecFull8
  dsimp only
  generalize mulShift32 r = q at hq
  have hr := mulShift32_toNat (r := q) (by omega)
  generalize mulShift32 q = r' at hr
  have hq' := mulShift19_toNat (r := r') (by omega)
  generalize mulShift19 r' = q' at hq'
  exact appends_eight hq hr hq' (by omega) tmp n

/-- Eight digits, when the number has more. -/
theorem putDecChunk_appends {num : BitVec 64} {tmp : Tmp} {n : Nat} {out : Tmp × Nat}
    (hout : Appends (putDecChunk tmp n num).1.1 (putDecChunk tmp n num).1.2 out
      (lsd 10 (putDecChunk tmp n num).2.toNat)) :
    Appends tmp n out (lsd 10 num.toNat) := by
  unfold putDecChunk at hout
  by_cases h : 100000000 ≤ num
  · have hge : 100000000 ≤ num.toNat := h
    have hmod : ((num % 100000000).setWidth 32).toNat = num.toNat % 10 ^ 8 := by
      rw [BitVec.toNat_setWidth, BitVec.toNat_umod]
      show num.toNat % 100000000 % 2 ^ 32 = num.toNat % 100000000
      omega
    have hdiv : (num / 100000000).toNat = num.toNat / 10 ^ 8 := BitVec.toNat_udiv
    have hfull := putDecFull8_appends (r := (num % 100000000).setWidth 32) (by omega) tmp n
    rw [if_pos h, hdiv] at hout
    rw [hmod, low_mod] at hfull
    rw [Appends, hout, hfull, lsd_append (by omega) (show 10 ^ 8 ≤ num.toNat by omega),
      List.map_append, List.append_assoc]
  · rw [if_neg h] at hout
    exact hout

theorem putDecChunk_toNat (tmp : Tmp) (n : Nat) (num : BitVec 64) :
    (putDecChunk tmp n num).2.toNat < 100000000 ∨
      (putDecChunk tmp n num).2.toNat = num.toNat / 100000000 := by
  unfold putDecChunk
  by_cases h : 100000000 ≤ num
  · rw [if_pos h]
    exact Or.inr BitVec.toNat_udiv
  · rw [if_neg h]
    exact Or.inl (Nat.not_le.mp h)

theorem putDec_appends (tmp : Tmp) (n : Nat) (num : BitVec 64) :
    Appends tmp n (putDec tmp n num) (lsd 10 num.toNat) := by
  have hnum := num.isLt
  have h₁ := putDecChunk_toNat tmp n num
  apply putDecChunk_appends
  apply putDecChunk_appends
  have h₂ := putDecChunk_toNat (putDecChunk tmp n num).1.1 (putDecChunk tmp n num).1.2
    (putDecChunk tmp n num).2
  have hout : putDec tmp n num =
      putDecTrunc8 (putDecChunk (putDecChunk tmp n num).1.1 (putDecChunk tmp n num).1.2
        (putDecChunk tmp n num).2).1.1 (putDecChunk (putDecChunk tmp n num).1.1
        (putDecChunk tmp n num).1.2 (putDecChunk tmp n num).2).1.2
        ((putDecChunk (putDecChunk tmp n num).1.1 (putDecChunk tmp n num).1.2
        (putDecChunk tmp n num).2).2.setWidth 32) := rfl
  rw [hout]
  generalize putDecChunk tmp n num = x at h₁ h₂ ⊢
  generalize putDecChunk x.1.1 x.1.2 x.2 = y at h₂ ⊢
  have hsmall : y.2.toNat < 100000000 := by omega
  have hwidth : (y.2.setWidth 32).toNat = y.2.toNat := by
    rw [BitVec.toNat_setWidth]
    omega
  have h := putDecTrunc8_appends (hwidth ▸ hsmall) y.1.1 y.1.2
  rwa [hwidth] at h

/-! ## The other bases -/

/-- The mask and the shift of the loop for the base `b`. -/
structure Radix (b shift : Nat) (mask : BitVec 8) : Prop where
  digit : ∀ num : BitVec 64, (num.setWidth 8 &&& mask).toNat = num.toNat % b
  pow : b = 2 ^ shift
  shift_pos : 0 < shift

theorem digitLoop_tmpText {b shift : Nat} {mask : BitVec 8} (h : Radix b shift mask)
    (locase : Byte) {fuel : Nat} {num : BitVec 64} (hfuel : num.toNat < 2 ^ fuel) (tmp : Tmp)
    (i : Nat) (hnum : fuel ≠ 0) :
    tmpText (digitLoop mask shift locase fuel num tmp i).1
        (digitLoop mask shift locase fuel num tmp i).2 =
      tmpText tmp i ++ (lsd b num.toNat).map (digitChar locase) := by
  have hb : 1 < b := h.pow ▸ Nat.one_lt_two_pow h.shift_pos.ne'
  induction fuel generalizing num tmp i with
  | zero => exact absurd rfl hnum
  | succ fuel ih =>
    have hdiv : (num >>> shift).toNat = num.toNat / b := by
      rw [BitVec.toNat_ushiftRight, Nat.shiftRight_eq_div_pow, ← h.pow]
    have hdigit : hexAscUpper.getD (num.setWidth 8 &&& mask).toNat 0 ||| locase =
        digitChar locase (num.toNat % b) := by rw [h.digit, digitChar]
    rw [digitLoop]
    simp only [hdigit]
    by_cases hz : num >>> shift = 0
    · have hlt : num.toNat < b := by
        have : num.toNat / b = 0 := by rw [← hdiv, hz]; rfl
        exact (Nat.div_eq_zero_iff_lt (by omega)).mp this
      rw [if_neg (not_not.mpr hz), tmpText_update, lsd_of_lt hlt, Nat.mod_eq_of_lt hlt]
      rfl
    · have hpos : 0 < num.toNat / b := by
        rw [← hdiv]
        exact Nat.pos_of_ne_zero fun h0 => hz (BitVec.eq_of_toNat_eq h0)
      have hle : b ≤ num.toNat := (Nat.div_pos_iff.mp hpos).2
      have hsmall : num.toNat / b < 2 ^ fuel := by
        have hmul : 2 ^ fuel * 2 ≤ b * 2 ^ fuel := by
          rw [Nat.mul_comm]
          exact Nat.mul_le_mul_right _ hb
        rw [pow_succ] at hfuel
        exact Nat.div_lt_of_lt_mul (hfuel.trans_le hmul)
      have hfuel0 : fuel ≠ 0 := by
        rintro rfl
        omega
      rw [if_pos hz, ih (hdiv ▸ hsmall) _ _ hfuel0, tmpText_update, hdiv, lsd_of_le hb hle,
        List.append_assoc]
      rfl

theorem radix_hex : Radix 16 4 15 where
  digit num := by
    rw [BitVec.toNat_and, BitVec.toNat_setWidth]
    show num.toNat % 2 ^ 8 &&& 2 ^ 4 - 1 = _
    rw [Nat.and_two_pow_sub_one_eq_mod]
    omega
  pow := rfl
  shift_pos := by omega

theorem radix_oct : Radix 8 3 7 where
  digit num := by
    rw [BitVec.toNat_and, BitVec.toNat_setWidth]
    show num.toNat % 2 ^ 8 &&& 2 ^ 3 - 1 = _
    rw [Nat.and_two_pow_sub_one_eq_mod]
    omega
  pow := rfl
  shift_pos := by omega

/-- The decimal digits have no case. -/
theorem digitChar_dec {locase : Byte} (h : locase = 0 ∨ locase = SMALL) {d : Nat} (hd : d < 10) :
    digitChar locase d = digitChar 0 d := by
  rcases h with rfl | rfl
  · rfl
  · interval_cases d <;> rfl

/-- **The digits of the number, the least significant first.** -/
theorem numberDigits_tmpText (num : BitVec 64) {base locase : Byte}
    (hbase : base = 8 ∨ base = 10 ∨ base = 16) (hcase : locase = 0 ∨ locase = SMALL) :
    tmpText (numberDigits num base locase).1 (numberDigits num base locase).2 =
      (lsd base.toNat num.toNat).map (digitChar locase) := by
  rw [numberDigits]
  by_cases hlt : num.toNat < base.toNat
  · rw [if_pos hlt, lsd_of_lt hlt]
    exact tmpText_update _ 0 _
  rw [if_neg hlt]
  rcases hbase with rfl | rfl | rfl
  · have hmask : (8 : Byte) - 1 = 7 := rfl
    have hval : (8 : Byte).toNat = 8 := rfl
    rw [if_pos (by decide), if_neg (by decide), hmask, hval]
    exact digitLoop_tmpText radix_oct locase num.isLt _ 0 (by omega)
  · have hval : (10 : Byte).toNat = 10 := rfl
    have hdec : (lsd 10 num.toNat).map (digitChar locase) =
        (lsd 10 num.toNat).map (digitChar 0) :=
      List.map_congr_left fun d hd => digitChar_dec hcase (lsd_lt (by omega) d hd)
    rw [if_neg (not_not.mpr rfl), hval, hdec]
    exact putDec_appends (fun _ => 0) 0 num
  · have hmask : (16 : Byte) - 1 = 15 := rfl
    have hval : (16 : Byte).toNat = 16 := rfl
    rw [if_pos (by decide), if_pos rfl, hmask, hval]
    exact digitLoop_tmpText radix_hex locase num.isLt _ 0 (by omega)

/-- `while (--i >= 0)` goes through `tmp` from its last character to its first. -/
theorem rounds_tmp (tmp : Tmp) (i : Nat) :
    (rounds (-1) i).map (fun j => tmp j.toNat) = (tmpText tmp i).reverse := by
  induction i with
  | zero => rfl
  | succ i ih =>
    have hpred : ((i + 1 : Nat) : Int) - 1 = i := by omega
    have htext : tmpText tmp (i + 1) = tmpText tmp i ++ [tmp i] := by
      rw [tmpText, List.range_succ, List.map_append]
      rfl
    rw [rounds_of_lt (by omega), hpred, List.map_cons, ih, htext, List.reverse_append]
    rfl

end Eeos.Printk
