import Eeos.Lib.View

/-!
# Comparisons (`lib/libc/string.c`)

`strcmp`, `strncmp` and `memcmp`, each reading through a `View`: a byte outside what the view
holds cannot be read.  The fuel of `strcmp` bounds the characters it reads.

The two string comparisons return `c1 < c2 ? 1 : -1` at the first difference, `memcmp` returns
`*su1 - *su2`: the signs are opposite.

* `Orders r a b` — the sign of `r` is that of the comparison of `a` with `b`, byte by byte.
* `Heads v cs ct a b` — how two strings start; the inductions on two strings split on it.
* `strncmp_eq` — `strncmp` is `memcmp` with the other sign, up to a terminator.

Principal result: `strcmp_orders_iff` — `memcmp` has the sign of the order, `strcmp` and `strncmp`
only on equal strings.
-/

namespace Eeos.Compare

open ByteMem

def strcmp (v : View) : Nat → Addr → Addr → Option Int
  | 0, _, _ => none
  | fuel + 1, cs, ct => do
    let c1 ← v cs
    let c2 ← v ct
    if c1 ≠ c2 then some (if c1 < c2 then 1 else -1)
    else if c1 = 0 then some 0
    else strcmp v fuel (cs + 1) (ct + 1)

def strncmp (v : View) : Nat → Addr → Addr → Option Int
  | 0, _, _ => some 0
  | count + 1, cs, ct => do
    let c1 ← v cs
    let c2 ← v ct
    if c1 ≠ c2 then some (if c1 < c2 then 1 else -1)
    else if c1 = 0 then some 0
    else strncmp v count (cs + 1) (ct + 1)

def memcmp (v : View) : Nat → Addr → Addr → Option Int
  | 0, _, _ => some 0
  | count + 1, su1, su2 => do
    let b1 ← v su1
    let b2 ← v su2
    let res : Int := b1.toNat - b2.toNat
    if res ≠ 0 then some res else memcmp v count (su1 + 1) (su2 + 1)

/-! ## The order of the bytes -/

/-- `r` is negative, zero or positive as `a` precedes, equals or follows `b`. -/
structure Orders (r : Int) (a b : List Byte) : Prop where
  neg : r < 0 ↔ a < b
  zero : r = 0 ↔ a = b
  pos : 0 < r ↔ b < a

instance : Std.Asymm fun x y : Byte => x < y := ⟨fun _ _ => BitVec.lt_asymm⟩

variable {r : Int} {a b : List Byte} {c d : Byte}

theorem Orders.swap (h : Orders r a b) : Orders (-r) b a where
  neg := by rw [neg_lt_zero, h.pos]
  zero := by rw [neg_eq_zero, h.zero, eq_comm]
  pos := by rw [neg_pos, h.neg]

theorem Orders.sign (h : Orders r a b) : Orders r.sign a b where
  neg := by rw [Int.sign_neg_iff, h.neg]
  zero := by rw [Int.sign_eq_zero_iff_zero, h.zero]
  pos := by rw [Int.sign_pos_iff, h.pos]

theorem Orders.refl (a : List Byte) : Orders 0 a a where
  neg := iff_of_false (lt_irrefl 0) (List.lt_irrefl a)
  zero := iff_of_true rfl rfl
  pos := iff_of_false (lt_irrefl 0) (List.lt_irrefl a)

theorem Orders.of_lt (hr : r < 0) (h : a < b) : Orders r a b where
  neg := iff_of_true hr h
  zero := iff_of_false hr.ne (fun heq => List.lt_irrefl b (heq ▸ h))
  pos := iff_of_false hr.not_gt (List.lt_asymm h)

/-- A common first byte changes nothing. -/
theorem Orders.cons (h : Orders r a b) : Orders r (c :: a) (c :: b) where
  neg := by simp [h.neg]
  zero := by simp [h.zero]
  pos := by simp [h.pos]

/-- Two lists are ordered both ways only if they are equal. -/
theorem Orders.both_iff (h : Orders r b a) : Orders r a b ↔ a = b := by
  constructor
  · intro h'
    apply h'.zero.mp
    apply le_antisymm
    · exact not_lt.mp fun hpos => List.lt_asymm (h.pos.mp hpos) (h'.pos.mp hpos)
    · exact not_lt.mp fun hneg => List.lt_asymm (h.neg.mp hneg) (h'.neg.mp hneg)
  · rintro rfl
    exact h

/-! ## The loops -/

variable {v : View} {cs ct : Addr}

theorem memcmp_same (hc : v cs = some c) (hd : v ct = some c) (n : Nat) :
    memcmp v (n + 1) cs ct = memcmp v n (cs + 1) (ct + 1) := by
  simp [memcmp, hc, hd]

theorem memcmp_differ (hc : v cs = some c) (hd : v ct = some d) (hne : c ≠ d) (n : Nat) :
    memcmp v (n + 1) cs ct = some (c.toNat - d.toNat : Int) := by
  have hres : (c.toNat - d.toNat : Int) ≠ 0 := by bv_omega
  simp [memcmp, hc, hd, hres]

theorem strcmp_same (hc : v cs = some c) (hd : v ct = some c) (h0 : c ≠ 0) (n : Nat) :
    strcmp v (n + 1) cs ct = strcmp v n (cs + 1) (ct + 1) := by
  rw [strcmp, hc, hd]
  simp only [Option.bind_eq_bind, Option.bind_some, ne_eq, not_true, if_false, if_neg h0]

theorem strncmp_same (hc : v cs = some c) (hd : v ct = some c) (h0 : c ≠ 0) (n : Nat) :
    strncmp v (n + 1) cs ct = strncmp v n (cs + 1) (ct + 1) := by
  rw [strncmp, hc, hd]
  simp only [Option.bind_eq_bind, Option.bind_some, ne_eq, not_true, if_false, if_neg h0]

theorem strncmp_nul (hc : v cs = some 0) (hd : v ct = some 0) (n : Nat) :
    strncmp v (n + 1) cs ct = some 0 := by
  simp [strncmp, hc, hd]

theorem strncmp_differ (hc : v cs = some c) (hd : v ct = some d) (hne : c ≠ d) (n : Nat) :
    strncmp v (n + 1) cs ct = some (if c < d then 1 else -1) := by
  simp [strncmp, hc, hd, hne]

/-- The sign of a difference of bytes. -/
theorem orders_differ (hne : c ≠ d) (a b : List Byte) :
    Orders (c.toNat - d.toNat : Int) (c :: a) (d :: b) := by
  rcases lt_or_gt_of_ne (BitVec.toNat_ne.mp hne) with hlt | hgt
  · exact Orders.of_lt (by omega) (List.cons_lt_cons_iff.mpr (Or.inl hlt))
  · have hlt : d :: b < c :: a := List.cons_lt_cons_iff.mpr (Or.inl hgt)
    have h := Orders.of_lt (r := (d.toNat - c.toNat : Int)) (by omega) hlt
    rw [← neg_sub]
    exact h.swap

/-- A terminator precedes every character. -/
theorem orders_nul (h0 : d ≠ 0) (b : List Byte) :
    Orders ((0 : Byte).toNat - d.toNat : Int) [] (d :: b) :=
  Orders.of_lt (by bv_omega) (List.nil_lt_cons d b)

/-- `memcmp` of any bytes. -/
theorem memcmp_holds (ha : Holds v cs a) (hb : Holds v ct b) {n : Nat} (hna : n ≤ a.length)
    (hnb : n ≤ b.length) : ∃ r, memcmp v n cs ct = some r ∧ Orders r (a.take n) (b.take n) := by
  induction n generalizing a b cs ct with
  | zero => exact ⟨0, rfl, Orders.refl []⟩
  | succ n ih =>
      cases a with
      | nil => contradiction
      | cons c a =>
          cases b with
          | nil => contradiction
          | cons d b =>
              by_cases hcd : c = d
              · subst d
                obtain ⟨r, hr, horders⟩ := ih ha.2 hb.2 (Nat.le_of_succ_le_succ hna)
                  (Nat.le_of_succ_le_succ hnb)
                exact ⟨r, (memcmp_same ha.1 hb.1 n).trans hr, horders.cons⟩
              · exact ⟨_, memcmp_differ ha.1 hb.1 hcd n, orders_differ hcd _ _⟩

/-- How two strings start: both end, they differ, or a common character leaves two strings. -/
inductive Heads (v : View) (cs ct : Addr) : List Byte → List Byte → Prop where
  | ends (hc : v cs = some 0) (hd : v ct = some 0) : Heads v cs ct [] []
  | differ {a b : List Byte} {c d : Byte} (hc : v cs = some c) (hd : v ct = some d) (hne : c ≠ d)
      (horders : ∀ n, Orders (c.toNat - d.toNat : Int) (a.take (n + 1)) (b.take (n + 1))) :
      Heads v cs ct a b
  | same {a b : List Byte} {c : Byte} (hc : v cs = some c) (hd : v ct = some c) (h0 : c ≠ 0)
      (htail : HoldsString v (cs + 1) a) (htail' : HoldsString v (ct + 1) b) :
      Heads v cs ct (c :: a) (c :: b)

theorem heads (ha : HoldsString v cs a) (hb : HoldsString v ct b) : Heads v cs ct a b := by
  cases a with
  | nil =>
      cases b with
      | nil => exact .ends ha.nil hb.nil
      | cons d b =>
          obtain ⟨hd, hd0⟩ := hb.head
          exact .differ ha.nil hd hd0.symm fun n => orders_nul hd0 _
  | cons c a =>
      obtain ⟨hc, hc0⟩ := ha.head
      cases b with
      | nil =>
          refine .differ hc hb.nil hc0 fun n => ?_
          rw [← neg_sub]
          exact (orders_nul hc0 _).swap
      | cons d b =>
          by_cases hcd : c = d
          · subst d
            exact .same hc hb.head.1 hc0 ha.tail hb.tail
          · exact .differ hc hb.head.1 hcd fun n => orders_differ hcd _ _

/-- `memcmp` over the first `n` bytes of two strings and at most one terminator. -/
theorem memcmp_strings (ha : HoldsString v cs a) (hb : HoldsString v ct b) (n : Nat) :
    ∃ r, memcmp v (min n (min a.length b.length + 1)) cs ct = some r ∧
      Orders r (a.take n) (b.take n) := by
  induction n generalizing a b cs ct with
  | zero => exact ⟨0, by rw [Nat.zero_min]; rfl, Orders.refl []⟩
  | succ n ih =>
      rw [Nat.succ_min_succ]
      cases heads ha hb with
      | ends hc hd =>
          refine ⟨0, ?_, Orders.refl []⟩
          rw [memcmp_same hc hd, List.length_nil, Nat.zero_min, Nat.min_zero]
          rfl
      | differ hc hd hne horders => exact ⟨_, memcmp_differ hc hd hne _, horders n⟩
      | same hc hd h0 htail htail' =>
          obtain ⟨r, hr, horders⟩ := ih htail htail'
          refine ⟨r, ?_, horders.cons⟩
          rw [memcmp_same hc hd, List.length_cons, List.length_cons, Nat.succ_min_succ]
          exact hr

/-- `strncmp` is `memcmp` with the other sign, up to a terminator. -/
theorem strncmp_eq (ha : HoldsString v cs a) (hb : HoldsString v ct b) (n : Nat) :
    strncmp v n cs ct =
      (memcmp v (min n (min a.length b.length + 1)) cs ct).map fun r => -r.sign := by
  induction n generalizing a b cs ct with
  | zero => rw [Nat.zero_min]; rfl
  | succ n ih =>
      rw [Nat.succ_min_succ]
      cases heads ha hb with
      | ends hc hd =>
          rw [strncmp_nul hc hd, memcmp_same hc hd, List.length_nil, Nat.zero_min, Nat.min_zero]
          rfl
      | differ hc hd hne =>
          rw [strncmp_differ hc hd hne, memcmp_differ hc hd hne, Option.map_some, Option.some_inj]
          split
          · rw [Int.sign_eq_neg_one_of_neg (by bv_omega)]
            rfl
          · rw [Int.sign_eq_one_of_pos (by bv_omega)]
      | same hc hd h0 htail htail' =>
          rw [strncmp_same hc hd h0, memcmp_same hc hd, List.length_cons, List.length_cons,
            Nat.succ_min_succ]
          exact ih htail htail'

/-- `strcmp` is `strncmp` with a count beyond the first string. -/
theorem strcmp_eq (ha : HoldsString v cs a) (hb : HoldsString v ct b) {n : Nat}
    (hn : a.length < n) : strcmp v n cs ct = strncmp v n cs ct := by
  induction n generalizing a b cs ct with
  | zero => contradiction
  | succ n ih =>
      cases heads ha hb with
      | ends hc hd => simp [strcmp, strncmp, hc, hd]
      | differ hc hd hne => simp [strcmp, strncmp, hc, hd, hne]
      | same hc hd h0 htail htail' =>
          rw [strcmp_same hc hd h0, strncmp_same hc hd h0]
          exact ih htail htail' (Nat.lt_of_succ_lt_succ hn)

/-! ## The order of two strings -/

/-- `strncmp` orders the first `n` characters the wrong way round. -/
theorem strncmp_orders (ha : HoldsString v cs a) (hb : HoldsString v ct b) (n : Nat) :
    ∃ r, strncmp v n cs ct = some r ∧ Orders r (b.take n) (a.take n) := by
  obtain ⟨r, hr, horders⟩ := memcmp_strings ha hb n
  refine ⟨-r.sign, ?_, horders.sign.swap⟩
  rw [strncmp_eq ha hb, hr]
  rfl

/-- `memcmp` over two strings and one terminator orders them. -/
theorem memcmp_orders (ha : HoldsString v cs a) (hb : HoldsString v ct b) :
    ∃ r, memcmp v (min a.length b.length + 1) cs ct = some r ∧ Orders r a b := by
  have h := memcmp_strings ha hb (max a.length b.length + 1)
  rwa [List.take_of_length_le (by omega), List.take_of_length_le (by omega),
    Nat.min_eq_right (by omega)] at h

/-- `strcmp` orders two strings the wrong way round. -/
theorem strcmp_orders (ha : HoldsString v cs a) (hb : HoldsString v ct b) {fuel : Nat}
    (hfuel : a.length < fuel) : ∃ r, strcmp v fuel cs ct = some r ∧ Orders r b a := by
  obtain ⟨r, hr, horders⟩ := memcmp_orders ha hb
  refine ⟨-r.sign, ?_, horders.sign.swap⟩
  rw [strcmp_eq ha hb hfuel, strncmp_eq ha hb, Nat.min_eq_right (by omega), hr]
  rfl

/-- **When the string comparisons have the sign of `memcmp`**: when there is nothing to order. -/
theorem strcmp_orders_iff (ha : HoldsString v cs a) (hb : HoldsString v ct b) {fuel : Nat}
    (hfuel : a.length < fuel) :
    (∃ r, memcmp v (min a.length b.length + 1) cs ct = some r ∧ Orders r a b) ∧
      ((∃ r, strcmp v fuel cs ct = some r ∧ Orders r a b) ↔ a = b) ∧
      ∀ n, (∃ r, strncmp v n cs ct = some r ∧ Orders r (a.take n) (b.take n)) ↔
        a.take n = b.take n := by
  obtain ⟨r, hr, horders⟩ := strcmp_orders ha hb hfuel
  refine ⟨memcmp_orders ha hb, ?_, fun n => ?_⟩
  · simp only [hr, Option.some_inj, exists_eq_left', horders.both_iff]
  · obtain ⟨r, hr, horders⟩ := strncmp_orders ha hb n
    simp only [hr, Option.some_inj, exists_eq_left', horders.both_iff]

/-- `"ab"` at addresses 0 and 3. -/
theorem strcmp_orders_iff_same :
    let v : View := viewOf (blit (fun _ => 0) 0 [97, 98, 0, 97, 98, 0])
    HoldsString v 0 [97, 98] ∧ HoldsString v 3 [97, 98] ∧
      ∃ r, strcmp v 3 0 3 = some r ∧ Orders r [97, 98] [97, 98] := by
  have ha : HoldsString (viewOf (blit (fun _ => 0) 0 [97, 98, 0, 97, 98, 0])) 0 [97, 98] := by
    decide +kernel
  have hb : HoldsString (viewOf (blit (fun _ => 0) 0 [97, 98, 0, 97, 98, 0])) 3 [97, 98] := by
    decide +kernel
  exact ⟨ha, hb, (strcmp_orders_iff ha hb (by decide)).2.1.mpr rfl⟩

/-- `strcmp("a", "b")` is 1, and `memcmp` of the same bytes is -1. -/
theorem strcmp_a_b :
    let v : View := viewOf (blit (fun _ => 0) 0 [97, 0, 98, 0])
    HoldsString v 0 [97] ∧ HoldsString v 2 [98] ∧ ([97] : List Byte) < [98] ∧
      strcmp v 2 0 2 = some 1 ∧ strncmp v 1 0 2 = some 1 ∧ memcmp v 2 0 2 = some (-1) := by
  decide +kernel

end Eeos.Compare
