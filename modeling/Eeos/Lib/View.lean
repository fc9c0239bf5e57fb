import Eeos.Lib.ByteMem

/-!
# Reads that can fail

A `View` is memory as a reader sees it: the bytes that may be read, and `none` for all others.  A
reader that succeeds on every view that holds its objects reads nothing but the objects, because a
view need not hold anything else.

* `Holds v p l` — the bytes of `l` can be read from `p` on.
* `HoldsString v p s` — the characters of `s` and the NUL behind them can.

Principal results: `Holds.get` (the bytes by their offsets), `HoldsString.drop` (a string read
from a later character on) and `HoldsString.length_lt` (a string is shorter than the address
space, however its addresses wrap).
-/

namespace ByteMem

abbrev View := Addr → Option Byte

/-- Every byte of `m` may be read. -/
def viewOf (m : Mem) : View := fun a => some (m a)

def Holds (v : View) (p : Addr) : List Byte → Prop
  | [] => True
  | c :: l => v p = some c ∧ Holds v (p + 1) l

instance decidableHolds (v : View) : (p : Addr) → (l : List Byte) → Decidable (Holds v p l)
  | _, [] => inferInstanceAs (Decidable True)
  | p, c :: l =>
    have := decidableHolds v (p + 1) l
    inferInstanceAs (Decidable (v p = some c ∧ Holds v (p + 1) l))

/-- A string and its terminator. -/
structure HoldsString (v : View) (p : Addr) (s : List Byte) : Prop where
  holds : Holds v p (s ++ [0])
  no_nul : 0 ∉ s

theorem holdsString_iff (v : View) (p : Addr) (s : List Byte) :
    Holds v p (s ++ [0]) ∧ s.all (· ≠ 0) = true ↔ HoldsString v p s := by
  constructor
  · rintro ⟨holds, hall⟩
    exact ⟨holds, fun h0 => by simpa using List.all_eq_true.mp hall 0 h0⟩
  · rintro ⟨holds, no_nul⟩
    refine ⟨holds, List.all_eq_true.mpr fun c hc => decide_eq_true ?_⟩
    exact fun h0 => no_nul (h0 ▸ hc)

instance (v : View) (p : Addr) (s : List Byte) : Decidable (HoldsString v p s) :=
  decidable_of_iff _ (holdsString_iff v p s)

variable {v : View} {p : Addr} {s l : List Byte}

theorem add_one_add_ofNat (p : Addr) (i : Nat) :
    p + 1 + BitVec.ofNat 64 i = p + BitVec.ofNat 64 (i + 1) := by
  bv_omega

theorem add_ofNat_zero (p : Addr) : p + BitVec.ofNat 64 0 = p := BitVec.add_zero p

theorem Holds.get (h : Holds v p l) {i : Nat} {c : Byte} (hc : l[i]? = some c) :
    v (p + BitVec.ofNat 64 i) = some c := by
  induction l generalizing p i with
  | nil => rw [List.getElem?_nil] at hc; contradiction
  | cons a l ih =>
      cases i with
      | zero =>
          rw [List.getElem?_cons_zero] at hc
          rw [add_ofNat_zero, h.1, hc]
      | succ i =>
          rw [List.getElem?_cons_succ] at hc
          rw [← add_one_add_ofNat]
          exact ih h.2 hc

theorem Holds.left {l' : List Byte} (h : Holds v p (l ++ l')) : Holds v p l := by
  induction l generalizing p with
  | nil => trivial
  | cons a l ih => exact ⟨h.1, ih h.2⟩

/-! ## Strings -/

theorem HoldsString.nil (h : HoldsString v p []) : v p = some 0 := h.holds.1

theorem HoldsString.head {c : Byte} (h : HoldsString v p (c :: s)) : v p = some c ∧ c ≠ 0 :=
  ⟨h.holds.1, fun hc => h.no_nul (hc ▸ List.mem_cons_self)⟩

/-- The string behind the first character. -/
theorem HoldsString.tail {c : Byte} (h : HoldsString v p (c :: s)) : HoldsString v (p + 1) s :=
  ⟨h.holds.2, fun h0 => h.no_nul (List.mem_cons_of_mem c h0)⟩

/-- The string behind its first `n` characters. -/
theorem HoldsString.drop (h : HoldsString v p s) {n : Nat} (hn : n ≤ s.length) :
    HoldsString v (p + BitVec.ofNat 64 n) (s.drop n) := by
  induction n generalizing p s with
  | zero => rwa [add_ofNat_zero]
  | succ n ih =>
      cases s with
      | nil => contradiction
      | cons c s =>
          rw [← add_one_add_ofNat]
          exact ih h.tail (Nat.le_of_succ_le_succ hn)

/-- Were a string as long as the address space, its NUL would stand on one of its characters. -/
theorem HoldsString.length_lt (h : HoldsString v p s) : s.length < 2 ^ 64 := by
  by_contra hge
  have hnul := h.holds.get (i := s.length) (c := 0) (by simp)
  have hwrap : p + BitVec.ofNat 64 s.length = p + BitVec.ofNat 64 (s.length % 2 ^ 64) := by
    bv_omega
  have hlt : s.length % 2 ^ 64 < s.length := by omega
  have hchar := h.holds.get (i := s.length % 2 ^ 64) (c := s[s.length % 2 ^ 64]) (by
    rw [List.getElem?_append_left hlt, List.getElem?_eq_getElem hlt])
  rw [hwrap, hchar] at hnul
  exact h.no_nul (Option.some.inj hnul ▸ List.getElem_mem hlt)

end ByteMem
