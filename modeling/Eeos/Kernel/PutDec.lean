import Eeos.Kernel.Digits

/-!
# `put_dec` without a division

The routines of `put_dec` once more, as a checked execution: it fails at a product that overflows
its type, a difference below zero, an index of `decpair` from 100 on, a conversion that drops bits,
and a store outside the buffer.

* `mulShift32Checked`, `mulShift19Checked`, `storeRestChecked`, … — one check for each operation,
  with its `_ok` lemma.
* `putDecTrunc8Checked_ok`, `putDecFull8Checked_ok` — the chains respect the bounds that the
  comments of the source state.
* `Keeps buf size` — what a run that does not fail leaves alone.

Principal result: `putDec_decimal` (nothing fails, and what is stored is the decimal number).
-/

namespace Eeos.Printk

open ByteMem Ctype Digits

/-- `*((uint16_t *)buf) = decpair[r]` in a buffer of `size` bytes. -/
def storePairChecked (size : Nat) (tmp : Tmp) (buf : Nat) (r : BitVec 32) : Option Tmp :=
  if r.toNat < decpair.size ∧ buf + 2 ≤ size then some (storePair tmp buf r) else none

/-- `*((uint16_t *)buf) = decpair[r - 100 * q]`. -/
def storeRestChecked (size : Nat) (tmp : Tmp) (buf : Nat) (r q : BitVec 32) : Option Tmp :=
  if 100 * q.toNat < 2 ^ 32 ∧ 100 * q.toNat ≤ r.toNat then
    storePairChecked size tmp buf (r - 100 * q)
  else none

def mulShift32Checked (r : BitVec 32) : Option (BitVec 32) :=
  if r.toNat * 0x28f5c29 < 2 ^ 64 ∧ r.toNat * 0x28f5c29 / 2 ^ 32 < 2 ^ 32 then some (mulShift32 r)
  else none

def mulShift19Checked (r : BitVec 32) : Option (BitVec 32) :=
  if r.toNat * 0x147b < 2 ^ 32 then some (mulShift19 r) else none

/-- An `unsigned long long` passed as `unsigned`. -/
def narrowChecked (n : BitVec 64) : Option (BitVec 32) :=
  if n.toNat < 2 ^ 32 then some (n.setWidth 32) else none

/-- The code behind the label `out_r`. -/
def outRChecked (size : Nat) (tmp : Tmp) (buf : Nat) (r : BitVec 32) : Option (Tmp × Nat) := do
  let tmp ← storePairChecked size tmp buf r
  some (tmp, buf + if r < 10 then 1 else 2)

def putDecTrunc8Checked (size : Nat) (tmp : Tmp) (buf : Nat) (r : BitVec 32) :
    Option (Tmp × Nat) :=
  if r < 100 then outRChecked size tmp buf r
  else do
    let q ← mulShift32Checked r
    let tmp ← storeRestChecked size tmp buf r q
    if q < 100 then outRChecked size tmp (buf + 2) q
    else
      let r ← mulShift32Checked q
      let tmp ← storeRestChecked size tmp (buf + 2) q r
      if r < 100 then outRChecked size tmp (buf + 4) r
      else
        let q ← mulShift19Checked r
        let tmp ← storeRestChecked size tmp (buf + 4) r q
        outRChecked size tmp (buf + 6) q

def putDecFull8Checked (size : Nat) (tmp : Tmp) (buf : Nat) (r : BitVec 32) :
    Option (Tmp × Nat) := do
  let q ← mulShift32Checked r
  let tmp ← storeRestChecked size tmp buf r q
  let r ← mulShift32Checked q
  let tmp ← storeRestChecked size tmp (buf + 2) q r
  let q ← mulShift19Checked r
  let tmp ← storeRestChecked size tmp (buf + 4) r q
  let tmp ← storePairChecked size tmp (buf + 6) q
  some (tmp, buf + 8)

def putDecChunkChecked (size : Nat) (tmp : Tmp) (buf : Nat) (n : BitVec 64) :
    Option ((Tmp × Nat) × BitVec 64) :=
  if 100000000 ≤ n then do
    let r ← narrowChecked (n % 100000000)
    let out ← putDecFull8Checked size tmp buf r
    some (out, n / 100000000)
  else some ((tmp, buf), n)

def putDecChecked (size : Nat) (tmp : Tmp) (buf : Nat) (n : BitVec 64) : Option (Tmp × Nat) := do
  let ((tmp, buf), n) ← putDecChunkChecked size tmp buf n
  let ((tmp, buf), n) ← putDecChunkChecked size tmp buf n
  let r ← narrowChecked n
  putDecTrunc8Checked size tmp buf r

/-! ## Each operation -/

variable {size buf : Nat} {r q : BitVec 32}

theorem storePairChecked_ok (h : r.toNat < 100) (hsize : buf + 2 ≤ size) (tmp : Tmp) :
    storePairChecked size tmp buf r = some (storePair tmp buf r) := by
  have hdec : decpair.size = 100 := Array.size_ofFn
  exact if_pos ⟨hdec ▸ h, hsize⟩

theorem storeRestChecked_ok (hq : q.toNat = r.toNat / 100) (hsize : buf + 2 ≤ size) (tmp : Tmp) :
    storeRestChecked size tmp buf r q = some (storePair tmp buf (r - 100 * q)) := by
  have hrest := toNat_sub_hundred hq
  rw [storeRestChecked, if_pos (by omega), storePairChecked_ok (by omega) hsize]

theorem mulShift32Checked_ok (h : r.toNat < 100000000) :
    mulShift32Checked r = some (mulShift32 r) :=
  if_pos (by omega)

theorem mulShift19Checked_ok (h : r.toNat < 10000) : mulShift19Checked r = some (mulShift19 r) :=
  if_pos (by omega)

theorem narrowChecked_ok {n : BitVec 64} (h : n.toNat < 2 ^ 32) :
    narrowChecked n = some (n.setWidth 32) :=
  if_pos h

theorem outRChecked_ok (h : r.toNat < 100) (hsize : buf + 2 ≤ size) (tmp : Tmp) :
    outRChecked size tmp buf r = some (storePair tmp buf r, buf + if r < 10 then 1 else 2) := by
  rw [outRChecked, storePairChecked_ok h hsize]
  rfl

/-! ## The chains -/

/-- Room for the pairs of digits that `put_dec_trunc8` stores. -/
structure Room (size buf r : Nat) : Prop where
  two : buf + 2 ≤ size
  four : 100 ≤ r → buf + 4 ≤ size
  six : 10000 ≤ r → buf + 6 ≤ size
  eight : 1000000 ≤ r → buf + 8 ≤ size

theorem putDecTrunc8Checked_ok (h : r.toNat < 100000000) (hroom : Room size buf r.toNat)
    (tmp : Tmp) : putDecTrunc8Checked size tmp buf r = some (putDecTrunc8 tmp buf r) := by
  have hq := mulShift32_toNat h
  unfold putDecTrunc8Checked putDecTrunc8
  simp only [Option.bind_eq_bind]
  by_cases h100 : r < 100
  · rw [if_pos h100, if_pos h100]
    exact outRChecked_ok h100 hroom.two tmp
  have hfour := hroom.four (Nat.not_lt.mp h100)
  rw [if_neg h100, if_neg h100, mulShift32Checked_ok h, Option.bind_some,
    storeRestChecked_ok hq hroom.two, Option.bind_some]
  by_cases hq100 : mulShift32 r < 100
  · rw [if_pos hq100, if_pos hq100]
    exact outRChecked_ok hq100 hfour _
  have hq100' : 100 ≤ (mulShift32 r).toNat := Nat.not_lt.mp hq100
  have hsix := hroom.six (by omega)
  have hr := mulShift32_toNat (r := mulShift32 r) (by omega)
  rw [if_neg hq100, if_neg hq100, mulShift32Checked_ok (by omega), Option.bind_some,
    storeRestChecked_ok hr (by omega), Option.bind_some]
  by_cases hr100 : mulShift32 (mulShift32 r) < 100
  · rw [if_pos hr100, if_pos hr100]
    exact outRChecked_ok hr100 hsix _
  have hr100' : 100 ≤ (mulShift32 (mulShift32 r)).toNat := Nat.not_lt.mp hr100
  have height := hroom.eight (by omega)
  have hq' := mulShift19_toNat (r := mulShift32 (mulShift32 r)) (by omega)
  rw [if_neg hr100, if_neg hr100, mulShift19Checked_ok (by omega), Option.bind_some,
    storeRestChecked_ok hq' (by omega), Option.bind_some]
  exact outRChecked_ok (by omega) (by omega) _

theorem putDecFull8Checked_ok (h : r.toNat < 100000000) (hsize : buf + 8 ≤ size) (tmp : Tmp) :
    putDecFull8Checked size tmp buf r = some (putDecFull8 tmp buf r) := by
  have hq := mulShift32_toNat h
  have hr := mulShift32_toNat (r := mulShift32 r) (by omega)
  have hq' := mulShift19_toNat (r := mulShift32 (mulShift32 r)) (by omega)
  unfold putDecFull8Checked putDecFull8
  simp only [Option.bind_eq_bind]
  rw [mulShift32Checked_ok h, Option.bind_some, storeRestChecked_ok hq (by omega),
    Option.bind_some, mulShift32Checked_ok (by omega), Option.bind_some,
    storeRestChecked_ok hr (by omega), Option.bind_some, mulShift19Checked_ok (by omega),
    Option.bind_some, storeRestChecked_ok hq' (by omega), Option.bind_some,
    storePairChecked_ok (by omega) (by omega), Option.bind_some]

theorem putDecChunkChecked_ok {n : BitVec 64} (hsize : 100000000 ≤ n.toNat → buf + 8 ≤ size)
    (tmp : Tmp) : putDecChunkChecked size tmp buf n = some (putDecChunk tmp buf n) := by
  unfold putDecChunkChecked putDecChunk
  simp only [Option.bind_eq_bind]
  by_cases h : 100000000 ≤ n
  · have hrest : (n % 100000000).toNat < 100000000 := by
      rw [BitVec.toNat_umod]
      show n.toNat % 100000000 < 100000000
      omega
    have hwidth : ((n % 100000000).setWidth 32).toNat < 100000000 := by
      rw [BitVec.toNat_setWidth]
      exact (Nat.mod_le _ _).trans_lt hrest
    have hge : 100000000 ≤ n.toNat := h
    rw [if_pos h, if_pos h, narrowChecked_ok (hrest.trans (by decide)),
      Option.bind_some, putDecFull8Checked_ok hwidth (hsize hge), Option.bind_some]
  · rw [if_neg h, if_neg h]

/-- A chunk is eight digits, or none. -/
theorem putDecChunk_cases (tmp : Tmp) (buf : Nat) (n : BitVec 64) :
    (100000000 ≤ n.toNat ∧ (putDecChunk tmp buf n).1.2 = buf + 8 ∧
        (putDecChunk tmp buf n).2.toNat = n.toNat / 100000000) ∨
      (n.toNat < 100000000 ∧ (putDecChunk tmp buf n).1.2 = buf ∧
        (putDecChunk tmp buf n).2.toNat = n.toNat) := by
  unfold putDecChunk
  by_cases h : 100000000 ≤ n
  · rw [if_pos h]
    exact Or.inl ⟨h, rfl, BitVec.toNat_udiv⟩
  · rw [if_neg h]
    exact Or.inr ⟨Nat.not_le.mp h, rfl, rfl⟩

/-- Twenty bytes are enough for any number. -/
theorem putDecChecked_ok (tmp : Tmp) (n : BitVec 64) (hsize : buf + 20 ≤ size) :
    putDecChecked size tmp buf n = some (putDec tmp buf n) := by
  have hn := n.isLt
  have h₁ := putDecChunk_cases tmp buf n
  unfold putDecChecked putDec
  simp only [Option.bind_eq_bind]
  rw [putDecChunkChecked_ok (by omega), Option.bind_some]
  generalize putDecChunk tmp buf n = x at h₁ ⊢
  obtain ⟨⟨tmp₁, buf₁⟩, n₁⟩ := x
  have h₂ := putDecChunk_cases tmp₁ buf₁ n₁
  dsimp only at h₁ h₂ ⊢
  rw [putDecChunkChecked_ok (by omega), Option.bind_some]
  generalize putDecChunk tmp₁ buf₁ n₁ = y at h₂ ⊢
  obtain ⟨⟨tmp₂, buf₂⟩, n₂⟩ := y
  dsimp only at h₂ ⊢
  have hsmall : n₂.toNat < 100000000 := by omega
  have hwidth : (n₂.setWidth 32).toNat = n₂.toNat := by
    rw [BitVec.toNat_setWidth]
    omega
  have hroom : Room size buf₂ n₂.toNat :=
    ⟨by omega, fun _ => by omega, fun _ => by omega, fun _ => by omega⟩
  rw [narrowChecked_ok (by omega), Option.bind_some,
    putDecTrunc8Checked_ok (hwidth ▸ hsmall) (hwidth ▸ hroom)]

/-! ## What is stored -/

/-- No byte below `buf` or from `size` on has changed. -/
def Keeps (buf size : Nat) (tmp tmp' : Tmp) : Prop := ∀ i, i < buf ∨ size ≤ i → tmp' i = tmp i

theorem Keeps.trans {tmp tmp₁ tmp₂ : Tmp} {k : Nat} (h : Keeps buf size tmp tmp₁)
    (h' : Keeps (buf + k) size tmp₁ tmp₂) : Keeps buf size tmp tmp₂ := by
  intro i hi
  rw [h' i (by omega), h i hi]

theorem storePairChecked_keeps {tmp tmp' : Tmp} (h : storePairChecked size tmp buf r = some tmp') :
    Keeps buf size tmp tmp' := by
  unfold storePairChecked at h
  split at h
  · rename_i hok
    injection h with h
    subst h
    intro i hi
    unfold storePair store16
    rw [Function.update_of_ne (by omega), Function.update_of_ne (by omega)]
  · contradiction

theorem storeRestChecked_keeps {tmp tmp' : Tmp}
    (h : storeRestChecked size tmp buf r q = some tmp') : Keeps buf size tmp tmp' := by
  unfold storeRestChecked at h
  split at h
  · exact storePairChecked_keeps h
  · contradiction

theorem outRChecked_keeps {tmp : Tmp} {out : Tmp × Nat}
    (h : outRChecked size tmp buf r = some out) : Keeps buf size tmp out.1 := by
  unfold outRChecked at h
  rw [Option.bind_eq_bind, Option.bind_eq_some_iff] at h
  obtain ⟨tmp₁, h₁, hout⟩ := h
  injection hout with hout
  exact hout ▸ storePairChecked_keeps h₁

theorem putDecTrunc8Checked_keeps {tmp : Tmp} {out : Tmp × Nat}
    (h : putDecTrunc8Checked size tmp buf r = some out) : Keeps buf size tmp out.1 := by
  unfold putDecTrunc8Checked at h
  simp only [Option.bind_eq_bind] at h
  split at h
  · exact outRChecked_keeps h
  obtain ⟨q, -, h⟩ := Option.bind_eq_some_iff.mp h
  obtain ⟨tmp₁, h₁, h⟩ := Option.bind_eq_some_iff.mp h
  apply (storeRestChecked_keeps h₁).trans (k := 2)
  split at h
  · exact outRChecked_keeps h
  obtain ⟨r, -, h⟩ := Option.bind_eq_some_iff.mp h
  obtain ⟨tmp₂, h₂, h⟩ := Option.bind_eq_some_iff.mp h
  apply (storeRestChecked_keeps h₂).trans (k := 2)
  split at h
  · exact outRChecked_keeps h
  obtain ⟨q, -, h⟩ := Option.bind_eq_some_iff.mp h
  obtain ⟨tmp₃, h₃, h⟩ := Option.bind_eq_some_iff.mp h
  exact (storeRestChecked_keeps h₃).trans (k := 2) (outRChecked_keeps h)

theorem putDecFull8Checked_keeps {tmp : Tmp} {out : Tmp × Nat}
    (h : putDecFull8Checked size tmp buf r = some out) :
    out.2 = buf + 8 ∧ Keeps buf size tmp out.1 := by
  unfold putDecFull8Checked at h
  simp only [Option.bind_eq_bind] at h
  obtain ⟨q, -, h⟩ := Option.bind_eq_some_iff.mp h
  obtain ⟨tmp₁, h₁, h⟩ := Option.bind_eq_some_iff.mp h
  obtain ⟨r, -, h⟩ := Option.bind_eq_some_iff.mp h
  obtain ⟨tmp₂, h₂, h⟩ := Option.bind_eq_some_iff.mp h
  obtain ⟨q, -, h⟩ := Option.bind_eq_some_iff.mp h
  obtain ⟨tmp₃, h₃, h⟩ := Option.bind_eq_some_iff.mp h
  obtain ⟨tmp₄, h₄, h⟩ := Option.bind_eq_some_iff.mp h
  injection h with h
  subst h
  refine ⟨rfl, ?_⟩
  apply (storeRestChecked_keeps h₁).trans (k := 2)
  apply (storeRestChecked_keeps h₂).trans (k := 2)
  exact (storeRestChecked_keeps h₃).trans (k := 2) (storePairChecked_keeps h₄)

theorem putDecChunkChecked_keeps {tmp : Tmp} {n : BitVec 64} {out : (Tmp × Nat) × BitVec 64}
    (h : putDecChunkChecked size tmp buf n = some out) :
    ∃ k, out.1.2 = buf + k ∧ Keeps buf size tmp out.1.1 := by
  unfold putDecChunkChecked at h
  simp only [Option.bind_eq_bind] at h
  split at h
  · obtain ⟨r, -, h⟩ := Option.bind_eq_some_iff.mp h
    obtain ⟨full, hfull, h⟩ := Option.bind_eq_some_iff.mp h
    injection h with h
    subst h
    exact ⟨8, putDecFull8Checked_keeps hfull⟩
  · injection h with h
    subst h
    exact ⟨0, rfl, fun _ _ => rfl⟩

theorem putDecChecked_keeps {tmp : Tmp} {n : BitVec 64} {out : Tmp × Nat}
    (h : putDecChecked size tmp buf n = some out) : Keeps buf size tmp out.1 := by
  unfold putDecChecked at h
  simp only [Option.bind_eq_bind] at h
  obtain ⟨⟨⟨tmp₁, buf₁⟩, n₁⟩, h₁, h⟩ := Option.bind_eq_some_iff.mp h
  obtain ⟨⟨⟨tmp₂, buf₂⟩, n₂⟩, h₂, h⟩ := Option.bind_eq_some_iff.mp h
  obtain ⟨r, -, h⟩ := Option.bind_eq_some_iff.mp h
  obtain ⟨k, rfl, hkeep₁⟩ := putDecChunkChecked_keeps h₁
  obtain ⟨l, rfl, hkeep₂⟩ := putDecChunkChecked_keeps h₂
  exact hkeep₁.trans (hkeep₂.trans (putDecTrunc8Checked_keeps h))

/-! ## The text -/

theorem digitChar_zero : ∀ d < 10, digitChar 0 d = chr '0' + BitVec.ofNat 8 d := by decide

theorem tmpText_get {tmp : Tmp} {n i : Nat} (h : i < n) : (tmpText tmp n)[i]? = some (tmp i) := by
  rw [tmpText, List.getElem?_map, List.getElem?_range h, Option.map_some]

/-- Digits appended at the end stand there one by one. -/
theorem Appends.get {tmp : Tmp} {n : Nat} {out : Tmp × Nat} {ds : List Nat}
    (h : Appends tmp n out ds) : out.2 = n + ds.length ∧
      ∀ i d, ds[i]? = some d → out.1 (n + i) = digitChar 0 d := by
  have hlen := congrArg List.length h
  simp only [tmpText, List.length_append, List.length_map, List.length_range] at hlen
  refine ⟨hlen, fun i d hd => ?_⟩
  have hi : i < ds.length := (List.getElem?_eq_some_iff.mp hd).1
  have hget := congrArg (·[n + i]?) h
  have hn : (tmpText tmp n).length = n := by
    rw [tmpText, List.length_map, List.length_range]
  simp only [tmpText_get (show n + i < out.2 by omega)] at hget
  rw [List.getElem?_append_right (by omega), hn, Nat.add_sub_cancel_left, List.getElem?_map, hd,
    Option.map_some] at hget
  exact Option.some.inj hget

/-- **`put_dec` writes the decimal number**, the least significant digit first.  No product,
difference, index, conversion or store leaves its range: the checked execution does not fail. -/
theorem putDec_decimal (tmp : Tmp) (buf : Nat) (n : BitVec 64) :
    putDecChecked (buf + 21) tmp buf n = some (putDec tmp buf n) ∧
      (putDec tmp buf n).2 = buf + (lsd 10 n.toNat).length ∧ (lsd 10 n.toNat).length ≤ 20 ∧
      (∀ i d, (lsd 10 n.toNat)[i]? = some d →
        (putDec tmp buf n).1 (buf + i) = chr '0' + BitVec.ofNat 8 d) ∧
      (∀ i, i < buf ∨ buf + 21 ≤ i → (putDec tmp buf n).1 i = tmp i) ∧
      (∀ r : BitVec 32, r.toNat < 10 ^ 8 → (mulShift32 r).toNat = r.toNat / 100) ∧
      ∀ r : BitVec 32, r.toNat < 10 ^ 4 → (mulShift19 r).toNat = r.toNat / 100 := by
  have hrun : putDecChecked (buf + 21) tmp buf n = some (putDec tmp buf n) :=
    putDecChecked_ok tmp n (by omega)
  obtain ⟨hend, hdigits⟩ := (putDec_appends tmp buf n).get
  refine ⟨hrun, hend, length_lsd_le (by omega) (by omega) (n.isLt.trans (by decide)), ?_,
    putDecChecked_keeps hrun, fun r => mulShift32_toNat, fun r => mulShift19_toNat⟩
  intro i d hd
  rw [hdigits i d hd]
  exact digitChar_zero d (lsd_lt (by omega) d (List.mem_of_getElem? hd))

end Eeos.Printk
