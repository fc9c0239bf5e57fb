import Eeos.Kernel.Star

/-!
# The field of a string

`%s` with or without `-`, with a width and a precision that are absent, written as digits or passed
through `*`.  The source stores the width in 24 bits and the precision in 16, both signed, and
counts the characters in an `int`.

* `justify left w l` — the text `l` in a field of `w` characters; `justify_take_iff` says when a
  shorter start of `l` fills the field in the same way.
* `StringFormat.expected` — the field that the caller asked for.
* `StringFormat.run_eq` — the field that the source makes of the bit-fields.

Principal result: `string_field_iff` — `%s` puts the string as its width and precision say exactly
if these fit the bit-fields of the spec and the string an `int`.
-/

namespace Eeos.Printk

open ByteMem Ctype CLoop Digits

/-! ## Justified text -/

/-- `l` in a field of `w` characters, to the left of it or to the right. -/
def justify (left : Bool) (w : Nat) (l : List Byte) : List Byte :=
  if left then l ++ List.replicate (w - l.length) (chr ' ')
  else List.replicate (w - l.length) (chr ' ') ++ l

def Blank (l : List Byte) : Prop := ∀ c ∈ l, c = chr ' '

instance (l : List Byte) : Decidable (Blank l) := inferInstanceAs (Decidable (∀ c ∈ l, c = chr ' '))

theorem length_justify (left : Bool) (w : Nat) (l : List Byte) :
    (justify left w l).length = max w l.length := by
  unfold justify
  split
  · rw [List.length_append, List.length_replicate]
    omega
  · rw [List.length_append, List.length_replicate]
    omega

theorem justify_of_le (left : Bool) {w : Nat} {l : List Byte} (h : w ≤ l.length) :
    justify left w l = l := by
  rw [justify, Nat.sub_eq_zero_of_le h, List.replicate_zero, List.append_nil, List.nil_append]
  exact ite_self _

theorem blank_iff_replicate (l : List Byte) : Blank l ↔ l = List.replicate l.length (chr ' ') :=
  List.eq_replicate_length.symm

/-- A text that blanks push over its own start is blank. -/
theorem blank_of_pushed {l r : List Byte} {n : Nat} (hn : 0 < n)
    (h : l ++ r = List.replicate n (chr ' ') ++ l) : Blank (l ++ r) := by
  have hlen : (l ++ r).length = n + l.length := by
    rw [h, List.length_append, List.length_replicate]
  have hat : ∀ i < (l ++ r).length, (l ++ r)[i]? = some (chr ' ') := by
    intro i
    induction i using Nat.strong_induction_on with
    | _ i ih =>
        intro hi
        by_cases hin : i < n
        · rw [h, List.getElem?_append_left (by simpa using hin), List.getElem?_replicate,
            if_pos hin]
        · -- `n` characters further left stands the same one
          have hback := ih (i - n) (by omega) (by omega)
          rw [List.getElem?_append_left (by omega)] at hback
          rw [h, List.getElem?_append_right (by simpa using hin), List.length_replicate, hback]
  intro c hc
  obtain ⟨i, hi⟩ := List.mem_iff_getElem?.mp hc
  rw [hat i (List.getElem?_eq_some_iff.mp hi).1] at hi
  exact (Option.some.inj hi).symm

/-- **A start of `l` fills the field as `l` does** only where it is the whole of `l`, or where the
width leaves room for `l` and what differs is blank. -/
theorem justify_take_iff (left : Bool) (w k : Nat) (l : List Byte) :
    justify left w (l.take k) = justify left w l ↔
      l.length ≤ k ∨ (l.length ≤ w ∧ Blank (if left then l.drop k else l)) := by
  by_cases hk : l.length ≤ k
  · rw [List.take_of_length_le hk]
    exact ⟨fun _ => Or.inl hk, fun _ => rfl⟩
  have htake : (l.take k).length = k := by
    rw [List.length_take]
    omega
  have hroom : l.length ≤ w → w - k = w - l.length + (l.length - k) ∧
      w - k = l.length - k + (w - l.length) := by omega
  constructor
  · intro h
    have hlen := congrArg List.length h
    rw [length_justify, length_justify, htake] at hlen
    have hw : l.length ≤ w := by omega
    refine Or.inr ⟨hw, ?_⟩
    unfold justify at h
    rw [htake] at h
    cases left
    · rw [if_neg (by decide), if_neg (by decide), (hroom hw).1, List.replicate_add,
        List.append_assoc] at h
      have hpushed := List.append_cancel_left h
      rw [if_neg (by decide), ← List.take_append_drop k l]
      apply blank_of_pushed (n := l.length - k) (by omega)
      rw [List.take_append_drop]
      exact hpushed.symm
    · rw [if_pos rfl, if_pos rfl] at h
      rw [if_pos rfl]
      have hsplit : l.take k ++ List.replicate (w - k) (chr ' ') =
          l.take k ++ (l.drop k ++ List.replicate (w - l.length) (chr ' ')) := by
        rw [h, ← List.append_assoc, List.take_append_drop]
      have hblanks := List.append_cancel_left hsplit
      intro c hc
      exact List.eq_of_mem_replicate (hblanks ▸ List.mem_append_left _ hc)
  · rintro (h | ⟨hw, hblank⟩)
    · exact absurd h hk
    · unfold justify
      rw [htake]
      cases left
      · rw [if_neg (by decide), blank_iff_replicate] at hblank
        rw [if_neg (by decide), if_neg (by decide), (hroom hw).1, hblank]
        simp only [List.take_replicate, List.length_replicate, List.replicate_append_replicate]
        congr 1
        omega
      · rw [if_pos rfl, blank_iff_replicate, List.length_drop] at hblank
        rw [if_pos rfl, if_pos rfl, (hroom hw).2, List.replicate_add, ← hblank,
          ← List.append_assoc, List.take_append_drop]

/-! ## The format -/

/-- A width or a precision as the caller gives it. -/
inductive Amount where
  | absent
  | digits (n : Nat)
  | star (a : Arg)
  deriving DecidableEq, Repr

def Amount.num : Amount → Option Num
  | .absent => none
  | .digits n => some (.digits (decimalText n))
  | .star _ => some .star

def Amount.value : Amount → Option Nat
  | .absent => none
  | .digits n => some n
  | .star a => some a.int.toNat

def Amount.args : Amount → List Arg
  | .star a => [a]
  | _ => []

/-- What the `*`, if there is one, takes. -/
def Amount.int : Amount → BitVec 32
  | .star a => a.int
  | _ => 0

theorem Amount.wellFormed (a : Amount) : ∀ n ∈ a.num, n.WellFormed := by
  intro n hn
  cases a with
  | absent => contradiction
  | digits k =>
      cases hn
      exact ⟨decimalText_ne_nil k, decimalText_digits k⟩
  | star a =>
      cases hn
      trivial

theorem Amount.length_le {a : Amount} (h : ∀ n ∈ a.value, n < 2 ^ 31) :
    (numText a.num).length ≤ 10 := by
  cases a with
  | absent => exact Nat.zero_le _
  | digits k => exact decimalText_length (h k rfl)
  | star a => exact Nat.succ_le_succ (Nat.zero_le _)

/-- A `%s` whose width and precision are numbers of type `int`, not negative. -/
structure StringFormat where
  left : Bool
  width : Amount
  precision : Amount
  width_lt : ∀ w ∈ width.value, w < 2 ^ 31
  precision_lt : ∀ p ∈ precision.value, p < 2 ^ 31

namespace StringFormat

variable (f : StringFormat)

def text : List Byte :=
  chr '%' :: ((if f.left then [chr '-'] else []) ++ (numText f.width.num ++
    (precisionText (f.precision.num.map some) ++ [chr 's'])))

/-- The arguments for the string object `a`. -/
def args (a : Arg) : List Arg := f.width.args ++ (f.precision.args ++ [a])

/-- The width asked for; an absent one asks for nothing. -/
def minimum : Nat := f.width.value.getD 0

/-- The part of `s` asked for. -/
def taken (s : List Byte) : List Byte :=
  match f.precision.value with
  | none => s
  | some p => s.take p

/-- The field that the caller asked for. -/
def expected (s : List Byte) : List Byte := justify f.left f.minimum (f.taken s)

/-- A width `0` in digits is the flag `0`. -/
def directive : Directive where
  flags := (if f.left then [chr '-'] else []) ++ (if f.width = .digits 0 then [chr '0'] else [])
  width := if f.width = .digits 0 then none else f.width.num
  precision := f.precision.num.map some
  qualifier := []
  conversion := chr 's'
  tail := []

def spec : PrintfSpec := f.directive.spec f.width.int f.precision.int

theorem text_eq : f.text = f.directive.text := by
  unfold text Directive.text Directive.body directive
  by_cases h : f.width = .digits 0
  · have hzero : numText (Amount.digits 0).num = [chr '0'] := by decide
    have hnone : numText none = [] := rfl
    rw [h, hzero]
    simp only [if_true, hnone, List.append_assoc, List.nil_append]
  · simp only [h, if_false, List.append_assoc, List.nil_append]

theorem wellFormed : f.directive.WellFormed where
  flags c hc := by
    rcases List.mem_append.mp hc with hc | hc
    · split at hc
      · rw [List.mem_singleton.mp hc]
        decide
      · exact absurd hc List.not_mem_nil
    · split at hc
      · rw [List.mem_singleton.mp hc]
        decide
      · exact absurd hc List.not_mem_nil
  width n hn := by
    have hmem : n ∈ (if f.width = .digits 0 then none else f.width.num) := hn
    split at hmem
    · contradiction
    · exact f.width.wellFormed n hmem
  precision n hn := by
    obtain ⟨k, hk, hsome⟩ := Option.map_eq_some_iff.mp (Option.join_eq_some_iff.mp hn)
    cases hsome
    exact f.precision.wellFormed n hk
  qualifier := Or.inl rfl
  conversion := (by decide : isConversion (chr 's') = true)
  tail c hc := absurd hc List.not_mem_nil
  tail_ptr h := absurd rfl h

theorem flagsMaximal : f.directive.FlagsMaximal := by
  intro ds hds
  have hwidth : (if f.width = .digits 0 then none else f.width.num) = some (.digits ds) := hds
  split at hwidth
  · contradiction
  · rename_i hzero
    cases hw : f.width with
    | absent => simp [hw, Amount.num] at hwidth
    | star a => simp [hw, Amount.num] at hwidth
    | digits n =>
        rw [hw] at hwidth hzero
        cases hwidth
        exact decimalText_head fun hn => hzero (hn ▸ rfl)

/-- No NUL, and short enough to be counted by an `int`. -/
theorem text_bounds : 0 ∉ f.text ∧ f.text.length < 2 ^ 31 := by
  refine ⟨f.text_eq ▸ f.wellFormed.text_no_nul, ?_⟩
  have hleft : (if f.left then [chr '-'] else []).length ≤ 1 := by
    split
    · exact Nat.le_refl _
    · exact Nat.zero_le _
  have hwidth := Amount.length_le f.width_lt
  have hprecision : (precisionText (f.precision.num.map some)).length ≤ 11 := by
    have hlen := Amount.length_le f.precision_lt
    cases hp : f.precision.num with
    | none => exact Nat.zero_le _
    | some n =>
        rw [hp] at hlen
        exact Nat.succ_le_succ hlen
  unfold text
  simp only [List.length_cons, List.length_append, List.length_nil]
  omega

/-! ## The text that is printed -/

/-- The characters of a NUL-terminated string that are taken. -/
theorem stringText_take {s : List Byte} (hs : 0 ∉ s) (rest : List Byte) (lim : BitVec 32) :
    stringText (s ++ 0 :: rest) lim = some (s.take lim.toNat) := by
  induction s generalizing lim with
  | nil =>
      rw [List.nil_append, stringText, List.take_nil]
      split
      · rfl
      · rfl
  | cons c s ih =>
      rw [List.mem_cons, not_or] at hs
      rw [List.cons_append, stringText]
      by_cases hlim : lim = 0
      · rw [if_pos hlim, hlim]
        rfl
      · obtain ⟨n, hn⟩ : ∃ n, lim.toNat = n + 1 :=
          Nat.exists_eq_succ_of_ne_zero fun h => hlim (BitVec.eq_of_toNat_eq h)
        have hpred : (lim - 1).toNat = n := by bv_omega
        rw [if_neg hlim, if_neg (Ne.symm hs.1), ih hs.2, hpred, hn, List.take_succ_cons]
        rfl

/-- `widen_string`, where the characters can be counted. -/
theorem widenString_justify {u : List Byte} (hu : u.length < 2 ^ 31) (spec : PrintfSpec) :
    widenString textSink u (BitVec.ofNat 32 u.length).toInt spec =
      justify (spec.has LEFT) spec.fieldWidth.toInt.toNat u := by
  have hcount : (BitVec.ofNat 32 u.length).toInt = u.length := by
    rw [BitVec.toInt_eq_toNat_of_lt] <;> rw [BitVec.toNat_ofNat] <;> omega
  have hwidth : spec.fieldWidth.toInt < 2 ^ 23 := BitVec.toInt_lt
  rw [hcount, widenString]
  by_cases hw : spec.fieldWidth.toInt < u.length
  · rw [if_pos hw, justify_of_le _ (by omega)]
  · have hspaces : (BitVec.ofInt 32 (spec.fieldWidth.toInt - u.length)).toNat =
        spec.fieldWidth.toInt.toNat - u.length := by
      rw [BitVec.toNat_ofInt]
      omega
    have hput := putAll_textSink u
      (List.replicate (spec.fieldWidth.toInt.toNat - u.length) (chr ' '))
    rw [if_neg hw, justify]
    simp only [hspaces]
    by_cases hleft : spec.has LEFT = true
    · rw [if_pos hleft, if_neg (by simp [hleft])]
      exact hput
    · rw [if_neg hleft, if_pos (by simp [hleft])]
      simp [textSink, hspaces]

theorem takeStar_amount (x : Amount) (args : List Arg) :
    takeStar x.num (x.args ++ args) = some (x.int, args) := by
  cases x <;> rfl

/-- The format, with the string in its object. -/
theorem fullText_eq {s : List Byte} (hs : 0 ∉ s) (ptr : BitVec 64) (rest : List Byte) :
    fullText f.text (f.args ⟨ptr, s ++ 0 :: rest⟩) =
      some (widenString textSink (s.take (f.spec.precision.signExtend 32).toNat)
        (BitVec.ofNat 32 (s.take (f.spec.precision.signExtend 32).toNat).length).toInt f.spec) := by
  have hwidth : takeStar f.directive.width (f.args ⟨ptr, s ++ 0 :: rest⟩) =
      some (f.width.int, f.precision.args ++ [⟨ptr, s ++ 0 :: rest⟩]) := by
    unfold args directive
    by_cases h : f.width = .digits 0
    · rw [h]
      rfl
    · simp only [if_neg h, takeStar_amount]
  have hprecision : takeStar f.directive.precision.join
      (f.precision.args ++ [⟨ptr, s ++ 0 :: rest⟩]) =
        some (f.precision.int, [⟨ptr, s ++ 0 :: rest⟩]) := by
    have hjoin : f.directive.precision.join = f.precision.num := by
      unfold directive
      cases f.precision.num <;> rfl
    rw [hjoin, takeStar_amount]
  have htype : f.spec.type = .str := rfl
  have hstring := string_eq textSink [] (s ++ 0 :: rest) f.spec
  rw [stringText_take hs, Option.map_some, putAll_textSink, List.nil_append] at hstring
  have hloop := f.wellFormed.loop_eq f.flagsMaximal (f.text_eq ▸ f.text_bounds.2) textSink
    (f.args ⟨ptr, s ++ 0 :: rest⟩) []
  rw [Directive.run, hwidth] at hloop
  simp only [hprecision] at hloop
  rw [← spec, takeValue_cons (by rw [htype]; decide)] at hloop
  simp only [convert, htype, hstring, Option.map_some] at hloop
  rw [fullText, textRun, f.text_eq, hloop]
  rfl

/-! ## The bit-fields -/

/-- The precision as 16 signed bits keep it, with a negative one taken for zero. -/
def cutPrecision (p : Nat) : Nat := if p % 2 ^ 16 < 2 ^ 15 then p % 2 ^ 16 else 0

theorem cutPrecision_le (p : Nat) : cutPrecision p ≤ p := by
  unfold cutPrecision
  split
  · exact Nat.mod_le _ _
  · exact Nat.zero_le _

theorem toNat_precisionOf (p : Nat) :
    ((precisionOf (some (.digits (decimalText p))) 0).signExtend 32).toNat = cutPrecision p := by
  have hlow : (BitVec.ofNat 16 p).toNat = p % 2 ^ 16 := BitVec.toNat_ofNat _ _
  have hsign : (BitVec.ofNat 16 p).toInt < 0 ↔ ¬ p % 2 ^ 16 < 2 ^ 15 := by
    rw [BitVec.toInt_eq_toNat_cond, hlow]
    split <;> omega
  rw [precisionOf, decimal_decimalText, cutPrecision]
  by_cases hp : p % 2 ^ 16 < 2 ^ 15
  · have hmsb : (BitVec.ofNat 16 p).msb = false := by
      rw [BitVec.msb_eq_false_iff_two_mul_lt, hlow]
      omega
    rw [if_neg (fun h => hsign.mp h hp), if_pos hp, BitVec.signExtend_eq_setWidth_of_msb_false hmsb,
      BitVec.toNat_setWidth_of_le (by omega), hlow]
  · rw [if_pos (hsign.mpr hp), if_neg hp]
    rfl

theorem toInt_of_lt {x : BitVec 32} (h : x.toNat < 2 ^ 31) : x.toInt = x.toNat :=
  BitVec.toInt_eq_toNat_of_lt (by omega)

theorem spec_precision : (f.spec.precision.signExtend 32).toNat =
    match f.precision.value with
    | none => 2 ^ 32 - 1
    | some p => cutPrecision p := by
  have hspec : f.spec.precision = precisionOf f.precision.num f.precision.int := by
    have hjoin : (f.precision.num.map some).join = f.precision.num := by
      cases f.precision.num <;> rfl
    rw [spec, Directive.spec, directive, hjoin]
  rw [hspec]
  cases hp : f.precision with
  | absent => rfl
  | digits p => exact toNat_precisionOf p
  | star a =>
      have ha := toInt_of_lt (f.precision_lt a.int.toNat (by rw [hp]; rfl))
      have hstar := precisionOf_star (p := a.int) (by omega)
      rw [ha, Int.natAbs_natCast] at hstar
      rw [Amount.num, Amount.int, hstar, toNat_precisionOf]
      rfl

/-- A width that fits is kept, with the `-` of the format. -/
theorem spec_width (h : f.minimum < 2 ^ 23) :
    f.spec.fieldWidth.toInt.toNat = f.minimum ∧ f.spec.has LEFT = f.left := by
  have hnarrow : ∀ n < 2 ^ 23, (BitVec.ofNat 24 n).toInt.toNat = n := fun n hn => by
    have hlow : (BitVec.ofNat 24 n).toNat = n := by
      rw [BitVec.toNat_ofNat]
      omega
    rw [BitVec.toInt_eq_toNat_of_lt (by omega), hlow, Int.toNat_natCast]
  have hwidth : (widthOf f.directive.width f.width.int).toInt.toNat = f.minimum ∧
      starLeft f.directive.width f.width.int = 0 := by
    have hdirective : f.directive.width =
        if f.width = .digits 0 then none else f.width.num := rfl
    rw [hdirective]
    unfold minimum at h ⊢
    by_cases hzero : f.width = .digits 0
    · rw [if_pos hzero, hzero]
      exact ⟨rfl, rfl⟩
    · rw [if_neg hzero]
      cases hw : f.width with
      | absent => exact ⟨rfl, rfl⟩
      | digits n =>
          rw [hw] at h
          refine ⟨?_, rfl⟩
          rw [Amount.num, widthOf, decimal_decimalText]
          exact hnarrow n h
      | star a =>
          rw [hw] at h
          have hlt : a.int.toNat < 2 ^ 23 := h
          have ha := toInt_of_lt (x := a.int) (by omega)
          obtain ⟨hstar, hleft⟩ := widthOf_star (w := a.int) (by omega)
          rw [ha, if_neg (by omega)] at hleft
          rw [ha, Int.natAbs_natCast] at hstar
          rw [Amount.num, Amount.int, hstar, hleft]
          exact ⟨hnarrow _ hlt, rfl⟩
  have hflags : ∀ left zero : Bool, ((flagBits ((if left then [chr '-'] else []) ++
      (if zero then [chr '0'] else [])) ||| 0 ||| conversionFlags (chr 's')) &&& LEFT != 0) =
        left := by
    decide
  refine ⟨hwidth.1, ?_⟩
  have hspec := hflags f.left (decide (f.width = .digits 0))
  simp only [decide_eq_true_eq] at hspec
  rw [PrintfSpec.has, spec, Directive.spec, hwidth.2]
  exact hspec

/-- Without a precision, the string is shorter than an `int` counts, and the width is one that the
bit-field holds or not larger than the string.  With one, the bit-field holds the width, and what is
left of the precision takes as much of the string, or what it leaves out is blank. -/
def Fits (s : List Byte) : Prop :=
  match f.precision.value with
  | none => s.length < 2 ^ 31 ∧ (f.minimum < 2 ^ 23 ∨ f.minimum ≤ s.length)
  | some p => f.minimum < 2 ^ 23 ∧ ((s.take p).length ≤ cutPrecision p ∨
      ((s.take p).length ≤ f.minimum ∧
        Blank (if f.left then (s.take p).drop (cutPrecision p) else s.take p)))

instance (s : List Byte) : Decidable (f.Fits s) := by
  unfold Fits
  split
  · exact inferInstance
  · exact inferInstance

/-- The field that the source makes, of a string that it can count. -/
def printed (s : List Byte) : List Byte :=
  justify (f.spec.has LEFT) f.spec.fieldWidth.toInt.toNat
    (s.take (f.spec.precision.signExtend 32).toNat)

theorem cutPrecision_lt (p : Nat) : cutPrecision p < 2 ^ 15 := by
  unfold cutPrecision
  split
  · assumption
  · exact Nat.two_pow_pos 15

theorem length_expected (s : List Byte) :
    (f.expected s).length = max f.minimum (f.taken s).length := length_justify _ _ _

/-- A string of which the caller asked for less than `2^31` characters can be counted. -/
theorem fullText_printed {s : List Byte} (hs : 0 ∉ s) (ptr : BitVec 64) (rest : List Byte)
    (h : (f.expected s).length < 2 ^ 31) :
    fullText f.text (f.args ⟨ptr, s ++ 0 :: rest⟩) = some (f.printed s) := by
  have hcount : (s.take (f.spec.precision.signExtend 32).toNat).length < 2 ^ 31 := by
    rw [length_expected] at h
    unfold taken at h
    rw [List.length_take, f.spec_precision]
    cases hp : f.precision.value with
    | none =>
        simp only [hp] at h ⊢
        omega
    | some p =>
        have := cutPrecision_lt p
        simp only
        omega
  rw [f.fullText_eq hs, widenString_justify hcount, printed]

theorem minimum_lt : f.minimum < 2 ^ 31 := by
  unfold minimum
  cases hw : f.width.value with
  | none => exact Nat.two_pow_pos 31
  | some w => exact f.width_lt w hw

theorem Fits.length_expected {f : StringFormat} {s : List Byte} (h : f.Fits s) :
    (f.expected s).length < 2 ^ 31 := by
  have hmin := f.minimum_lt
  rw [StringFormat.length_expected]
  unfold Fits taken at *
  cases hp : f.precision.value with
  | none =>
      simp only [hp] at h ⊢
      omega
  | some p =>
      have hlt := f.precision_lt p hp
      simp only [List.length_take]
      omega

/-- **What the bit-fields make of the field** is what was asked for, where it fits. -/
theorem printed_eq_iff {s : List Byte} (hs : (f.expected s).length < 2 ^ 31) :
    f.printed s = f.expected s ↔ f.Fits s := by
  have hmin := f.minimum_lt
  have hwidth : f.spec.fieldWidth.toInt.toNat < 2 ^ 23 := by
    have : f.spec.fieldWidth.toInt < 2 ^ 23 := BitVec.toInt_lt
    omega
  have hkept : f.minimum < 2 ^ 23 → ∀ l, justify (f.spec.has LEFT) f.spec.fieldWidth.toInt.toNat l =
      justify f.left f.minimum l := fun h l => by
    rw [(f.spec_width h).1, (f.spec_width h).2]
  rw [length_expected] at hs
  unfold printed expected Fits taken at *
  rw [f.spec_precision]
  cases hp : f.precision.value with
  | none =>
      simp only [hp] at hs ⊢
      have htake : s.take (2 ^ 32 - 1) = s := List.take_of_length_le (by omega)
      rw [htake]
      constructor
      · intro h
        have hlen := congrArg List.length h
        rw [length_justify, length_justify] at hlen
        omega
      · rintro ⟨-, hw⟩
        by_cases hlt : f.minimum < 2 ^ 23
        · exact hkept hlt s
        · rw [justify_of_le _ (by omega), justify_of_le _ (by omega)]
  | some p =>
      simp only [hp] at hs ⊢
      have hcut : s.take (cutPrecision p) = (s.take p).take (cutPrecision p) := by
        rw [List.take_take, Nat.min_eq_left (cutPrecision_le p)]
      rw [hcut]
      constructor
      · intro h
        have hlen := congrArg List.length h
        have hshort : ((s.take p).take (cutPrecision p)).length < 2 ^ 15 := by
          have := cutPrecision_lt p
          rw [List.length_take]
          omega
        rw [length_justify, length_justify] at hlen
        have hlt : f.minimum < 2 ^ 23 := by omega
        rw [hkept hlt] at h
        exact ⟨hlt, (justify_take_iff _ _ _ _).mp h⟩
      · rintro ⟨hlt, h⟩
        rw [hkept hlt]
        exact (justify_take_iff _ _ _ _).mpr h

end StringFormat

/-! ## What `vsnprintf` appends -/

/-- `vsnprintf` appends `t`: to the text, and in every buffer that has room for it. -/
def Prints (fmt : List Byte) (args : List Arg) (t : List Byte) : Prop :=
  fullText fmt args = some t ∧
    ∀ (m : Mem) (buf : Addr) (size : BitVec 64), buf.toNat + size.toNat < 2 ^ 64 →
      size.toNat < 2 ^ 63 → t.length < size.toNat →
      vsnprintf m buf size fmt args = some ((t.length : Int), blit m buf (t ++ [0]))

theorem prints_of_fullText {fmt t : List Byte} {args : List Arg} (h0 : 0 ∉ fmt)
    (hl : fmt.length < 2 ^ 31) (h : fullText fmt args = some t) (ht : t.length < 2 ^ 31) :
    Prints fmt args t := by
  refine ⟨h, fun m buf size hsize hs hroom => ?_⟩
  have hne : size ≠ 0 := by
    rintro rfl
    exact absurd hroom (Nat.not_lt_zero _)
  rw [vsnprintf_eq h0 (.of_length hl) h ht m buf size hsize hs (by omega), if_neg hne,
    List.take_of_length_le (by omega)]

theorem vsnprintf_lt {m m' : Mem} {buf : Addr} {size : BitVec 64} {fmt : List Byte}
    {args : List Arg} {n : Int} (h : vsnprintf m buf size fmt args = some (n, m')) :
    n < 2 ^ 31 := by
  unfold vsnprintf at h
  simp only at h
  split at h
  · contradiction
  · rw [← (Prod.mk.inj (Option.some.inj h)).1]
    exact BitVec.toInt_lt

/-- The length that is returned is an `int`. -/
theorem Prints.length_lt {fmt t : List Byte} {args : List Arg} (h : Prints fmt args t)
    (ht : t.length < 2 ^ 62) : t.length < 2 ^ 31 := by
  have hsize : (BitVec.ofNat 64 (t.length + 1)).toNat = t.length + 1 := by
    rw [BitVec.toNat_ofNat]
    omega
  have hzero : (0 : Addr).toNat = 0 := rfl
  have hprint := h.2 (fun _ => 0) 0 (BitVec.ofNat 64 (t.length + 1))
    (by rw [hsize, hzero]; omega) (by omega) (by omega)
  exact_mod_cast vsnprintf_lt hprint

theorem length_widenString_le (u : List Byte) (n : Int) (spec : PrintfSpec) :
    (widenString textSink u n spec).length ≤ u.length + 2 ^ 32 := by
  unfold widenString
  split
  · omega
  · have hspaces := (BitVec.ofInt 32 (spec.fieldWidth.toInt - n)).isLt
    simp only
    split
    · rw [length_shift]
      omega
    · have hput := putAll_textSink u (List.replicate
        (BitVec.ofInt 32 (spec.fieldWidth.toInt - n)).toNat (chr ' '))
      rw [← putAll, hput, List.length_append, List.length_replicate]
      omega

/-- **`%s` keeps to the width and the precision** that the caller passed exactly where they fit into
the bit-fields and the string into an `int`, up to blanks that stand in for blanks. -/
theorem string_field_iff (f : StringFormat) {s : List Byte} (hs : 0 ∉ s) (ptr : BitVec 64)
    (rest : List Byte) :
    Prints f.text (f.args ⟨ptr, s ++ 0 :: rest⟩) (f.expected s) ↔ f.Fits s := by
  obtain ⟨h0, hl⟩ := f.text_bounds
  constructor
  · intro h
    have hbound : (f.expected s).length < 2 ^ 62 := by
      have htext := h.1
      rw [f.fullText_eq hs] at htext
      rw [← Option.some.inj htext]
      have hle := length_widenString_le (s.take (f.spec.precision.signExtend 32).toNat)
        (BitVec.ofNat 32 (s.take (f.spec.precision.signExtend 32).toNat).length).toInt f.spec
      have hlim := (f.spec.precision.signExtend 32).isLt
      rw [List.length_take] at hle
      rw [List.length_take]
      omega
    have hlen := h.length_lt hbound
    rw [← f.printed_eq_iff hlen]
    exact Option.some.inj ((f.fullText_printed hs ptr rest hlen).symm.trans h.1)
  · intro h
    have hlen := h.length_expected
    refine prints_of_fullText h0 hl ?_ hlen
    rw [f.fullText_printed hs ptr rest hlen, (f.printed_eq_iff hlen).mpr h]

/-- `%-8.3s` of `kernel`. -/
theorem string_field_iff_left :
    Prints ("%-*.3s".toList.map chr) [⟨8, []⟩, ⟨0x1000, "kernel".toList.map chr ++ [0]⟩]
      ("ker     ".toList.map chr) := by
  have htext : (⟨true, .star ⟨8, []⟩, .digits 3, by decide, by decide⟩ : StringFormat).text =
      "%-*.3s".toList.map chr := by
    have hthree : decimalText 3 = [chr '3'] := decimalText_of_lt (by decide)
    simp only [StringFormat.text, Amount.num, hthree]
    rfl
  have hfield := (string_field_iff ⟨true, .star ⟨8, []⟩, .digits 3, by decide, by decide⟩
    (s := "kernel".toList.map chr) (by decide) 0x1000 []).mpr (by decide)
  rw [htext] at hfield
  exact hfield

/-- A precision of `2^15` prints nothing, and so less than a precision of one. -/
theorem string_field_wraps :
    (⟨false, .absent, .digits 32768, by decide, by decide⟩ : StringFormat).text =
        "%.32768s".toList.map chr ∧
      (⟨false, .absent, .digits 32768, by decide, by decide⟩ : StringFormat).expected
        [chr 'a'] = [chr 'a'] ∧
      ¬ Prints ("%.32768s".toList.map chr) [⟨0x1000, [chr 'a', 0]⟩] [chr 'a'] ∧
      fullText ("%.32768s".toList.map chr) [⟨0x1000, [chr 'a', 0]⟩] = some [] ∧
      fullText ("%.1s".toList.map chr) [⟨0x1000, [chr 'a', 0]⟩] = some [chr 'a'] := by
  have hempty : fullText ("%.32768s".toList.map chr) [⟨0x1000, [chr 'a', 0]⟩] = some [] := by
    decide +kernel
  refine ⟨by decide +kernel, by decide +kernel, fun h => ?_, hempty, by decide +kernel⟩
  exact absurd (hempty.symm.trans h.1) (by decide)

end Eeos.Printk
