import Eeos.Lib.Aarch64
import Eeos.Lib.Digits
import Eeos.Lib.View
import Eeos.Libc.Ctype
import Eeos.Libc.Str

/-!
# `strtoul` (`lib/libc/string.c`)

The parser as the source has it: a `0x` is skipped in base 16, then hexadecimal digits are
accumulated modulo `2^64` up to the first one beyond the base.  The test is `value > base`, so the
digit that equals the base is let through: `strtoul("1a", NULL, 10)` is 20.

A string without an end would be scanned for ever; the loop's fuel bounds the characters read.

* `Spells base c d` — `c` is read as the digit `d`, below the base.
* `digitRun`, `runEnd` — the digits of a string, and where they end.
* `takenRun` — what the loop reads instead.

Principal results: `strtoul_digits` (what spells a number parses to it) and `strtoul_parses_iff`
(for any string, when exactly its digits are parsed).
-/

namespace Eeos.Strtoul

open ByteMem Ctype Digits Aarch64 Str

/-- `isdigit(*cp) ? *cp - '0' : tolower(*cp) - 'a' + 10`. -/
def digitValue (c : Byte) : BitVec 32 :=
  if isdigit c then c.setWidth 32 - (chr '0').setWidth 32
  else (tolower c).setWidth 32 - (chr 'a').setWidth 32 + 10

/-- `while (isxdigit(*cp)) { … }`: where it stops, and the result. -/
def strtoulLoop (m : Mem) (base : BitVec 32) : Nat → Addr → BitVec 64 → Option (Addr × BitVec 64)
  | 0, _, _ => none
  | fuel + 1, cp, result =>
    if isxdigit (m cp) then
      let value := digitValue (m cp)
      if base < value then some (cp, result)
      else strtoulLoop m base fuel (cp + 1) (result * base.setWidth 64 + value.setWidth 64)
    else some (cp, result)

/-- `strtoul`: the result, and the memory with `*endp` stored. -/
def strtoul (fuel : Nat) (m : Mem) (cp endp : Addr) (base : BitVec 32) :
    Option (BitVec 64 × Mem) :=
  let base := if base = 0 then 10 else base
  let cp := if base = 16 ∧ m cp = chr '0' ∧ tolower (m (cp + 1)) = chr 'x' then cp + 2 else cp
  (strtoulLoop m base fuel cp 0).map fun r =>
    (r.2, if endp ≠ 0 then store64 m endp r.1 else m)

/-! ## Runs of digits -/

/-- The character `c` is the digit `d` of `base`. -/
structure Spells (base : BitVec 32) (c : Byte) (d : Nat) : Prop where
  isxdigit : isxdigit c = true
  value : (digitValue c).toNat = d
  lt : d < base.toNat

/-- One round: the arithmetic is that of the numbers, modulo `2^64`. -/
theorem strtoulLoop_digit {m : Mem} {base : BitVec 32} {cp : Addr} {d : Nat}
    (h : Spells base (m cp) d) (fuel r : Nat) :
    strtoulLoop m base (fuel + 1) cp (BitVec.ofNat 64 r) =
      strtoulLoop m base fuel (cp + 1) (BitVec.ofNat 64 (r * base.toNat + d)) := by
  have hle : ¬ base < digitValue (m cp) := by
    rw [BitVec.lt_def, h.value]
    exact Nat.not_lt.mpr h.lt.le
  have hacc : BitVec.ofNat 64 r * base.setWidth 64 + (digitValue (m cp)).setWidth 64 =
      BitVec.ofNat 64 (r * base.toNat + d) := by
    rw [BitVec.ofNat_add, BitVec.ofNat_mul, ← h.value, BitVec.ofNat_toNat, BitVec.ofNat_toNat]
  rw [strtoulLoop, if_pos h.isxdigit]
  simp only [if_neg hle, hacc]

/-- A run of digits and its end. -/
theorem strtoulLoop_digits {m : Mem} {base : BitVec 32} {cs : List Byte} {ds : List Nat}
    (hds : List.Forall₂ (Spells base) cs ds) {cp : Addr} {fuel : Nat} (hfuel : cs.length < fuel)
    (hcs : bytesAt m cp cs.length = cs)
    (hend : isxdigit (m (cp + BitVec.ofNat 64 cs.length)) = false) (r : Nat) :
    strtoulLoop m base fuel cp (BitVec.ofNat 64 r) = some (cp + BitVec.ofNat 64 cs.length,
      BitVec.ofNat 64 (ds.foldl (fun n d => n * base.toNat + d) r)) := by
  obtain ⟨fuel, rfl⟩ : ∃ k, fuel = k + 1 := ⟨fuel - 1, by omega⟩
  induction hds generalizing cp fuel r with
  | nil =>
    have hcp : cp + BitVec.ofNat 64 0 = cp := BitVec.add_zero cp
    rw [List.length_nil, hcp] at hend ⊢
    rw [strtoulLoop, hend]
    rfl
  | @cons c d cs ds h _ ih =>
    rw [List.length_cons] at hfuel hcs hend ⊢
    rw [bytesAt_succ] at hcs
    injection hcs with hc htail
    rw [← add_one_add] at hend ⊢
    obtain ⟨fuel, rfl⟩ : ∃ k, fuel = k + 1 := ⟨fuel - 1, by omega⟩
    rw [strtoulLoop_digit (hc ▸ h), ih htail hend _ _ (by omega)]
    rfl

/-- The two characters that base 16 skips. -/
def SkippedPrefix (pfx : List Byte) (base : BitVec 32) : Prop :=
  pfx = [] ∨ base = 16 ∧ ∃ x, tolower x = chr 'x' ∧ pfx = [chr '0', x]

/-- No character of a number is a NUL. -/
theorem no_nul {base : BitVec 32} {pfx cs : List Byte} {ds : List Nat}
    (hpfx : SkippedPrefix pfx base) (hds : List.Forall₂ (Spells base) cs ds) : 0 ∉ pfx ++ cs := by
  rw [List.mem_append, not_or]
  constructor
  · rcases hpfx with rfl | ⟨-, x, hx, rfl⟩
    · exact List.not_mem_nil
    · have hx0 : (0 : Byte) ≠ x := by
        rintro rfl
        exact tolower_nul hx
      exact List.not_mem_cons_of_ne_of_not_mem (by decide) (mt List.mem_singleton.mp hx0)
  · induction hds with
    | nil => exact List.not_mem_nil
    | cons h _ ih =>
      apply List.not_mem_cons_of_ne_of_not_mem _ ih
      rintro rfl
      exact Bool.noConfusion (isxdigit_nul.symm.trans h.isxdigit)

/-- No digit is taken for the `x` of a prefix. -/
theorem tolower_ne_x {c : Byte} (h : isxdigit c = true) : tolower c ≠ chr 'x' := by
  rw [ne_eq, tolower_eq_x]
  rintro (rfl | rfl)
  · exact Bool.noConfusion (class_x.1.2.symm.trans h)
  · exact Bool.noConfusion (class_x.2.2.symm.trans h)

/-- Behind a first digit comes a digit or the end. -/
theorem second_ne_x {m : Mem} {base : BitVec 32} {cs : List Byte} {ds : List Nat}
    (hds : List.Forall₂ (Spells base) cs ds) (hne : ds ≠ []) {cp : Addr}
    (hcs : bytesAt m cp cs.length = cs) (hend : m (cp + BitVec.ofNat 64 cs.length) = 0) :
    tolower (m (cp + 1)) ≠ chr 'x' := by
  cases hds with
  | nil => exact absurd rfl hne
  | cons _ htail =>
    cases htail with
    | nil =>
      have hnul : m (cp + 1) = 0 := hend
      rw [hnul]
      exact tolower_nul
    | cons hc _ =>
      rw [List.length_cons, List.length_cons, bytesAt_succ, bytesAt_succ] at hcs
      injection hcs with _ hcs
      injection hcs with hsecond _
      rw [hsecond]
      exact tolower_ne_x hc.isxdigit

/-- **The digits of a number parse to it**, behind leading zeros and a prefix. -/
theorem strtoul_digits {m : Mem} {base : BitVec 32} {pfx cs : List Byte} {n : BitVec 64} {k : Nat}
    (hbase : base ≠ 0) (hpfx : SkippedPrefix pfx base)
    (hds : List.Forall₂ (Spells base) cs
      (List.replicate k 0 ++ (lsd base.toNat n.toNat).reverse))
    {cp : Addr} (fuel : Nat) (hfuel : cs.length < fuel)
    (hcs : bytesAt m cp (pfx ++ cs).length = pfx ++ cs)
    (hend : m (cp + BitVec.ofNat 64 (pfx ++ cs).length) = 0) (endp : Addr) :
    strtoul fuel m cp endp base = some (n, if endp ≠ 0 then
      store64 m endp (cp + BitVec.ofNat 64 (pfx ++ cs).length) else m) := by
  have hrun : ∀ {cp : Addr}, bytesAt m cp cs.length = cs →
      m (cp + BitVec.ofNat 64 cs.length) = 0 → strtoulLoop m base fuel cp 0 =
        some (cp + BitVec.ofNat 64 cs.length, n) := by
    intro cp hcs hend
    have h := strtoulLoop_digits hds hfuel hcs (by rw [hend]; exact isxdigit_nul) 0
    have hvalue : (List.replicate k 0 ++ (lsd base.toNat n.toNat).reverse).foldl
        (fun n d => n * base.toNat + d) 0 = n.toNat := by
      rw [← value, value_zeros, value_lsd_reverse]
    rwa [hvalue, BitVec.ofNat_toNat, BitVec.setWidth_eq] at h
  unfold strtoul
  simp only [if_neg hbase]
  rcases hpfx with rfl | ⟨rfl, x, hx, rfl⟩
  · rw [List.nil_append] at hcs hend ⊢
    have hne : List.replicate k 0 ++ (lsd base.toNat n.toNat).reverse ≠ [] :=
      List.append_ne_nil_of_right_ne_nil _ (List.reverse_ne_nil_iff.mpr (lsd_ne_nil _ _))
    rw [if_neg (fun h => second_ne_x hds hne hcs hend h.2.2), hrun hcs hend]
    rfl
  · have htwo : ([chr '0', x] ++ cs).length = cs.length + 1 + 1 := by
      rw [List.cons_append, List.length_cons, List.cons_append, List.length_cons,
        List.nil_append]
    have hskip : cp + 1 + 1 = cp + 2 := by bv_omega
    rw [htwo, ← add_one_add, ← add_one_add, hskip] at hend ⊢
    rw [htwo, bytesAt_succ, bytesAt_succ, hskip] at hcs
    injection hcs with hzero hcs
    injection hcs with hsecond hcs
    rw [if_pos ⟨rfl, hzero, hsecond ▸ hx⟩, hrun hcs hend]
    rfl

/-! ## Any string -/

/-- The value of a hexadecimal character, in either case. -/
def hexValue (c : Byte) : Option Nat :=
  if chr '0' ≤ c ∧ c ≤ chr '9' then some (c.toNat - (chr '0').toNat)
  else if chr 'a' ≤ c ∧ c ≤ chr 'f' then some (c.toNat - (chr 'a').toNat + 10)
  else if chr 'A' ≤ c ∧ c ≤ chr 'F' then some (c.toNat - (chr 'A').toNat + 10)
  else none

/-- The class table and the values of the digits. -/
theorem hexValue_spec (c : Byte) : isxdigit c = (hexValue c).isSome ∧
    ((hexValue c).isSome = true → hexValue c = some (digitValue c).toNat) := by
  have htable : (ctype.toList.map fun mask => mask &&& (D ||| X) != 0) =
      (List.range 256).map fun n => (hexValue (BitVec.ofNat 8 n)).isSome := by decide +kernel
  have hclass := ismask_table htable c
  rw [BitVec.ofNat_toNat, BitVec.setWidth_eq] at hclass
  have hmem : ∀ c, (hexValue c).isSome = true →
      c ∈ "0123456789abcdefABCDEF".toList.map chr := by decide +kernel
  have hvalue : ∀ c ∈ "0123456789abcdefABCDEF".toList.map chr,
      hexValue c = some (digitValue c).toNat := by decide +kernel
  exact ⟨hclass, fun h => hvalue c (hmem c h)⟩

theorem hexValue_eq (c : Byte) :
    hexValue c = if isxdigit c then some (digitValue c).toNat else none := by
  obtain ⟨hclass, hvalue⟩ := hexValue_spec c
  rw [hclass]
  split
  · rename_i h
    exact hvalue h
  · rename_i h
    exact Option.not_isSome_iff_eq_none.mp h

/-- A character that has a value spells it. -/
theorem spells_of_hexValue {base : BitVec 32} {c : Byte} {d : Nat} (h : hexValue c = some d)
    (hlt : d < base.toNat) : Spells base c d where
  isxdigit := by
    rw [(hexValue_spec c).1, h]
    rfl
  value := by
    have hvalue := (hexValue_spec c).2 (by rw [h]; rfl)
    exact Option.some.inj (hvalue.symm.trans h)
  lt := hlt

/-- Base 0 means 10. -/
def radixOf (base : BitVec 32) : Nat := if base = 0 then 10 else base.toNat

def isDigitOf (radix : Nat) (c : Byte) : Bool := (hexValue c).any (· < radix)

/-- The length of the prefix `0x` or `0X`, which only base 16 has. -/
def skippedLength (base : BitVec 32) : List Byte → Nat
  | zero :: x :: _ =>
    if base = 16 ∧ zero = chr '0' ∧ (x = chr 'x' ∨ x = chr 'X') then 2 else 0
  | _ => 0

/-- The longest run of digits behind the prefix. -/
def digitRun (base : BitVec 32) (s : List Byte) : List Byte :=
  (s.drop (skippedLength base s)).takeWhile (isDigitOf (radixOf base))

/-- Where the run of digits ends. -/
def runEnd (base : BitVec 32) (s : List Byte) : Nat :=
  skippedLength base s + (digitRun base s).length

def numberOf (radix : Nat) (ds : List Byte) : Nat :=
  value radix (ds.map fun c => (hexValue c).getD 0)

/-- What the loop takes for a digit: `value > base` stops one too late. -/
def isTaken (radix : Nat) (c : Byte) : Bool := (hexValue c).any (· ≤ radix)

/-- The loop on a string. -/
theorem strtoulLoop_string {m : Mem} {base : BitVec 32} {s : List Byte} {cp : Addr}
    (hs : HoldsString (viewOf m) cp s) {fuel : Nat} (hfuel : s.length < fuel) (r : Nat) :
    strtoulLoop m base fuel cp (BitVec.ofNat 64 r) =
      some (cp + BitVec.ofNat 64 (s.takeWhile (isTaken base.toNat)).length,
        BitVec.ofNat 64 (((s.takeWhile (isTaken base.toNat)).map fun c =>
          (hexValue c).getD 0).foldl (fun n d => n * base.toNat + d) r)) := by
  obtain ⟨fuel, rfl⟩ : ∃ k, fuel = k + 1 := ⟨fuel - 1, by omega⟩
  induction s generalizing cp fuel r with
  | nil =>
      have hnul : m cp = 0 := Option.some.inj hs.nil
      rw [strtoulLoop, hnul, isxdigit_nul, List.takeWhile_nil, List.length_nil, add_ofNat_zero]
      rfl
  | cons c s ih =>
      have hc : m cp = c := Option.some.inj hs.head.1
      have hx := hexValue_eq c
      rw [strtoulLoop, hc]
      by_cases hxd : isxdigit c = true
      · rw [if_pos hxd] at hx ⊢
        by_cases hlt : base < digitValue c
        · have hstop : isTaken base.toNat c = false := by
            rw [isTaken, hx]
            exact decide_eq_false (Nat.not_le.mpr hlt)
          rw [List.takeWhile_cons_of_neg (by rw [hstop]; simp), List.length_nil, add_ofNat_zero]
          simp only [if_pos hlt]
          rfl
        · have htaken : isTaken base.toNat c = true := by
            rw [isTaken, hx]
            exact decide_eq_true (Nat.not_lt.mp hlt)
          have hacc : BitVec.ofNat 64 r * base.setWidth 64 + (digitValue c).setWidth 64 =
              BitVec.ofNat 64 (r * base.toNat + (digitValue c).toNat) := by
            rw [BitVec.ofNat_add, BitVec.ofNat_mul, BitVec.ofNat_toNat, BitVec.ofNat_toNat]
          rw [List.length_cons] at hfuel
          obtain ⟨fuel, rfl⟩ : ∃ k, fuel = k + 1 := ⟨fuel - 1, by omega⟩
          rw [List.takeWhile_cons_of_pos htaken, List.length_cons, ← add_one_add_ofNat,
            List.map_cons, hx]
          simp only [if_neg hlt, hacc]
          exact ih hs.tail _ _ (by omega)
      · rw [if_neg hxd] at hx ⊢
        have hstop : ¬ isTaken base.toNat c = true := by
          rw [isTaken, hx]
          exact Bool.false_ne_true
        rw [List.takeWhile_cons_of_neg hstop, List.length_nil, add_ofNat_zero]
        rfl

theorem skippedLength_le (base : BitVec 32) (s : List Byte) : skippedLength base s ≤ s.length := by
  unfold skippedLength
  split
  · split <;> simp
  · exact Nat.zero_le _

/-- The test for a prefix, read from the string. -/
theorem skip_eq {m : Mem} {base : BitVec 32} {s : List Byte} {cp : Addr}
    (hs : HoldsString (viewOf m) cp s) :
    (if base = 16 ∧ m cp = chr '0' ∧ tolower (m (cp + 1)) = chr 'x' then cp + 2 else cp) =
      cp + BitVec.ofNat 64 (skippedLength base s) := by
  cases s with
  | nil =>
      have hnul : m cp = 0 := Option.some.inj hs.nil
      rw [if_neg (fun h => absurd (hnul ▸ h.2.1) (by decide))]
      exact (add_ofNat_zero cp).symm
  | cons c s =>
      have hc : m cp = c := Option.some.inj hs.head.1
      cases s with
      | nil =>
          have hnul : m (cp + 1) = 0 := Option.some.inj hs.tail.nil
          rw [if_neg (fun h => tolower_nul (hnul ▸ h.2.2))]
          exact (add_ofNat_zero cp).symm
      | cons x s =>
          have hx : m (cp + 1) = x := Option.some.inj hs.tail.head.1
          simp only [hc, hx, tolower_eq_x, skippedLength]
          split
          · rfl
          · rw [add_ofNat_zero]

/-- What the loop takes behind the prefix. -/
def takenRun (base : BitVec 32) (s : List Byte) : List Byte :=
  (s.drop (skippedLength base s)).takeWhile (isTaken (radixOf base))

/-- `strtoul` on a string: the number of what it takes, and where that ends. -/
theorem strtoul_taken {m : Mem} {s : List Byte} {cp : Addr} (hs : HoldsString (viewOf m) cp s)
    (base : BitVec 32) {fuel : Nat} (hfuel : s.length < fuel) (endp : Addr) :
    strtoul fuel m cp endp base =
      some (BitVec.ofNat 64 (numberOf (radixOf base) (takenRun base s)), if endp ≠ 0 then
        store64 m endp (cp + BitVec.ofNat 64 (skippedLength base s + (takenRun base s).length))
          else m) := by
  have hradix : (if base = 0 then 10 else base).toNat = radixOf base := by
    unfold radixOf
    split <;> rfl
  have hsixteen : (if base = 0 then 10 else base) = 16 ↔ base = 16 := by
    split
    · subst base
      decide
    · rfl
  have hdrop := hs.drop (skippedLength_le base s)
  have hrun := @strtoulLoop_string m (if base = 0 then 10 else base) _ _ hdrop fuel
    (show (s.drop (skippedLength base s)).length < fuel by rw [List.length_drop]; omega) 0
  rw [hradix, BitVec.add_assoc, ← BitVec.ofNat_add] at hrun
  unfold strtoul
  simp only [hsixteen, skip_eq hs]
  exact congrArg (Option.map _) hrun

/-! ## Where the loop stops -/

theorem isDigitOf_le_isTaken {radix : Nat} {c : Byte} (h : isDigitOf radix c = true) :
    isTaken radix c = true := by
  unfold isDigitOf at h
  unfold isTaken
  cases hd : hexValue c with
  | none => rw [hd] at h; contradiction
  | some d =>
      rw [hd, Option.any_some, decide_eq_true_iff] at h
      rw [Option.any_some, decide_eq_true_iff]
      exact h.le

/-- The loop takes one character more than the digits exactly if it has the base's own value. -/
theorem taken_length_iff (radix : Nat) (s : List Byte) :
    (s.takeWhile (isTaken radix)).length = (s.takeWhile (isDigitOf radix)).length ↔
      ∀ c, s[(s.takeWhile (isDigitOf radix)).length]? = some c → hexValue c ≠ some radix := by
  induction s with
  | nil => simp
  | cons c s ih =>
      by_cases hd : isDigitOf radix c = true
      · rw [List.takeWhile_cons_of_pos hd, List.takeWhile_cons_of_pos (isDigitOf_le_isTaken hd),
          List.length_cons, List.length_cons, Nat.add_right_cancel_iff, List.getElem?_cons_succ]
        exact ih
      · rw [List.takeWhile_cons_of_neg hd, List.length_nil, List.getElem?_cons_zero,
          List.length_eq_zero_iff]
        have htaken : isTaken radix c = true ↔ hexValue c = some radix := by
          unfold isDigitOf at hd
          unfold isTaken
          cases hv : hexValue c with
          | none => simp
          | some d =>
              rw [hv, Option.any_some, decide_eq_true_iff] at hd
              rw [Option.any_some, decide_eq_true_iff, Option.some_inj]
              omega
        constructor
        · rintro hnil _ ⟨⟩ hradix
          rw [List.takeWhile_cons_of_pos (htaken.mpr hradix)] at hnil
          contradiction
        · intro hne
          rw [List.takeWhile_cons_of_neg (mt htaken.mp (hne c rfl))]

theorem digits_prefix_taken (radix : Nat) (s : List Byte) :
    s.takeWhile (isDigitOf radix) <+: s.takeWhile (isTaken radix) := by
  induction s with
  | nil => exact List.nil_prefix
  | cons c s ih =>
      by_cases hd : isDigitOf radix c = true
      · rw [List.takeWhile_cons_of_pos hd, List.takeWhile_cons_of_pos (isDigitOf_le_isTaken hd)]
        exact (List.prefix_cons_inj c).mpr ih
      · rw [List.takeWhile_cons_of_neg hd]
        exact List.nil_prefix

theorem takenRun_length_lt {m : Mem} {s : List Byte} {cp : Addr}
    (hs : HoldsString (viewOf m) cp s) (base : BitVec 32) :
    skippedLength base s + (takenRun base s).length < 2 ^ 64 := by
  have htaken : takenRun base s <+: s.drop (skippedLength base s) := List.takeWhile_prefix _
  have hle := htaken.length_le
  have hskip := skippedLength_le base s
  have hlt := hs.length_lt
  rw [List.length_drop] at hle
  omega

/-- **When `strtoul` parses exactly the digits of its base**: when the character behind them has
not the base's own value. -/
theorem strtoul_parses_iff {m : Mem} {cp : Addr} {s : List Byte}
    (hs : HoldsString (viewOf m) cp s) (base : BitVec 32) {fuel : Nat} (hfuel : s.length < fuel) :
    (∀ endp, strtoul fuel m cp endp base =
      some (BitVec.ofNat 64 (numberOf (radixOf base) (digitRun base s)), if endp ≠ 0 then
        store64 m endp (cp + BitVec.ofNat 64 (runEnd base s)) else m)) ↔
    ∀ c, s[runEnd base s]? = some c → hexValue c ≠ some (radixOf base) := by
  have hnext : s[runEnd base s]? = (s.drop (skippedLength base s))[(digitRun base s).length]? := by
    rw [List.getElem?_drop, runEnd]
  have hlength := taken_length_iff (radixOf base) (s.drop (skippedLength base s))
  rw [hnext]
  unfold digitRun
  rw [← hlength]
  constructor
  · intro h
    have hend := h 1
    rw [strtoul_taken hs base hfuel, Option.some_inj, Prod.mk.injEq, if_pos (by decide),
      if_pos (by decide)] at hend
    have hstored := congrArg (load64 · 1) hend.2
    simp only [load64_store64] at hstored
    have htaken := takenRun_length_lt hs base
    have hle := (digits_prefix_taken (radixOf base) (s.drop (skippedLength base s))).length_le
    unfold runEnd digitRun at hstored
    unfold takenRun at hstored htaken
    bv_omega
  · intro heq endp
    have hrun : takenRun base s = digitRun base s :=
      ((digits_prefix_taken (radixOf base) _).eq_of_length heq.symm).symm
    rw [strtoul_taken hs base hfuel, hrun]
    rfl

/-- `"12"` at address 0. -/
theorem strtoul_parses_iff_decimal :
    let m : Mem := blit (fun _ => 0) 0 [chr '1', chr '2', 0]
    (∀ endp, strtoul 3 m 0 endp 10 = some (12, if endp ≠ 0 then store64 m endp 2 else m)) ∧
      HoldsString (viewOf m) 0 [chr '1', chr '2'] := by
  have hs : HoldsString (viewOf (blit (fun _ => 0) 0 [chr '1', chr '2', 0])) 0
      [chr '1', chr '2'] := by
    decide +kernel
  exact ⟨(strtoul_parses_iff hs 10 (by decide)).mpr (by decide +kernel), hs⟩

/-- `strtoul("1a", NULL, 10)` is 20: the `a` has value 10. -/
theorem strtoul_base_taken :
    let m : Mem := blit (fun _ => 0) 0 [chr '1', chr 'a', 0]
    HoldsString (viewOf m) 0 [chr '1', chr 'a'] ∧
      (strtoul 3 m 0 0 10).map Prod.fst = some 20 ∧
      numberOf (radixOf 10) (digitRun 10 [chr '1', chr 'a']) = 1 := by
  decide +kernel

end Eeos.Strtoul
