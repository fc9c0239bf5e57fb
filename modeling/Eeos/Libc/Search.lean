import Mathlib.Order.Bounds.Basic
import Eeos.Libc.Compare

/-!
# Substring search (`lib/libc/string.c`)

`strstr` and `strnsrt` run one loop: the remaining length is counted down, `memcmp` compares at the
current position, the position moves on.  Every byte is read through a `View`, so a search that
succeeds in all views that hold its two objects reads nothing beyond them.

The outer `Option` is a failed read (or too little fuel), the inner one a `NULL` result.

* `Occurs b a i` — `b` stands in `a` at position `i`.
* `Finds r p a b` — `r` is the first occurrence of `b` in the bytes `a` at `p`, or `NULL`.
* `searchLoop_finds` — the loop, by induction on the bytes still to be searched.

Principal result: `search_finds` — `strstr` and `strnsrt` find the first occurrence, or none if
there is none, and read nothing but the two strings.
-/

namespace Eeos.Search

open ByteMem Compare

/-- `for (sc = s; *sc != '\0'; ++sc)`. -/
def strlenLoop (v : View) : Nat → Addr → Option Addr
  | 0, _ => none
  | fuel + 1, sc => do
    let c ← v sc
    if c = 0 then some sc else strlenLoop v fuel (sc + 1)

def strlen (fuel : Nat) (v : View) (s : Addr) : Option (BitVec 64) :=
  (strlenLoop v fuel s).map (· - s)

/-- `while (l1 >= l2) { … }` of `strstr`, with `len` for `l1` that of `strnsrt`. -/
def searchLoop (v : View) (s2 : Addr) (l2 : BitVec 64) :
    Nat → BitVec 64 → Addr → Option (Option Addr)
  | 0, _, _ => none
  | fuel + 1, l1, s1 =>
    if l1 ≥ l2 then do
      let res ← memcmp v l2.toNat s1 s2
      if res = 0 then some (some s1) else searchLoop v s2 l2 fuel (l1 - 1) (s1 + 1)
    else some none

def strstr (fuel : Nat) (v : View) (s1 s2 : Addr) : Option (Option Addr) := do
  let l2 ← strlen fuel v s2
  if l2 = 0 then some (some s1)
  else
    let l1 ← strlen fuel v s1
    searchLoop v s2 l2 fuel l1 s1

def strnsrt (fuel : Nat) (v : View) (s1 s2 : Addr) (len : BitVec 64) : Option (Option Addr) := do
  let l2 ← strlen fuel v s2
  if l2 = 0 then some (some s1) else searchLoop v s2 l2 fuel len s1

/-! ## Occurrences -/

/-- `b` stands in `a` at position `i`. -/
structure Occurs (b a : List Byte) (i : Nat) : Prop where
  fits : i + b.length ≤ a.length
  same : (a.drop i).take b.length = b

/-- `r` is the first occurrence of `b` in the bytes `a` at `p`, or `NULL`. -/
def Finds (r : Option (Option Addr)) (p : Addr) (a b : List Byte) : Prop :=
  (∃ i, IsLeast {i | Occurs b a i} i ∧ r = some (some (p + BitVec.ofNat 64 i))) ∨
    (∀ i, ¬ Occurs b a i) ∧ r = some none

variable {a b : List Byte} {c : Byte}

theorem occurs_succ {i : Nat} : Occurs b (c :: a) (i + 1) ↔ Occurs b a i := by
  constructor
  · intro h
    exact ⟨by have := h.fits; rw [List.length_cons] at this; omega, h.same⟩
  · intro h
    exact ⟨by have := h.fits; rw [List.length_cons]; omega, h.same⟩

theorem occurs_zero : Occurs b a 0 ↔ b.length ≤ a.length ∧ a.take b.length = b := by
  constructor
  · intro h
    exact ⟨by have := h.fits; omega, h.same⟩
  · rintro ⟨hfits, hsame⟩
    exact ⟨by omega, hsame⟩

/-- An occurrence at the first position is the first. -/
theorem finds_here {p : Addr} (h : Occurs b a 0) : Finds (some (some p)) p a b :=
  Or.inl ⟨0, ⟨h, fun _ _ => Nat.zero_le _⟩, by rw [add_ofNat_zero]⟩

/-- Without one there, the search goes on behind the first byte. -/
theorem finds_later {r : Option (Option Addr)} {p : Addr} (h : ¬ Occurs b (c :: a) 0)
    (hr : Finds r (p + 1) a b) : Finds r p (c :: a) b := by
  rcases hr with ⟨i, ⟨hocc, hleast⟩, rfl⟩ | ⟨hnone, rfl⟩
  · refine Or.inl ⟨i + 1, ⟨occurs_succ.mpr hocc, ?_⟩, by rw [add_one_add_ofNat]⟩
    intro j hj
    cases j with
    | zero => exact absurd hj h
    | succ j => exact Nat.succ_le_succ (hleast (occurs_succ.mp hj))
  · refine Or.inr ⟨fun i hi => ?_, rfl⟩
    cases i with
    | zero => exact h hi
    | succ i => exact hnone i (occurs_succ.mp hi)

/-! ## The loops -/

variable {v : View} {p s1 s2 : Addr}

theorem strlenLoop_string (h : HoldsString v p a) {fuel : Nat} (hfuel : a.length < fuel) :
    strlenLoop v fuel p = some (p + BitVec.ofNat 64 a.length) := by
  obtain ⟨fuel, rfl⟩ : ∃ k, fuel = k + 1 := ⟨fuel - 1, by omega⟩
  induction a generalizing p fuel with
  | nil =>
      rw [strlenLoop, h.nil, List.length_nil, add_ofNat_zero]
      rfl
  | cons c a ih =>
      obtain ⟨hc, hc0⟩ := h.head
      rw [List.length_cons] at hfuel ⊢
      obtain ⟨fuel, rfl⟩ : ∃ k, fuel = k + 1 := ⟨fuel - 1, by omega⟩
      rw [strlenLoop, hc, ← add_one_add_ofNat, ← ih h.tail fuel (by omega)]
      exact if_neg hc0

theorem strlen_string (h : HoldsString v p a) {fuel : Nat} (hfuel : a.length < fuel) :
    strlen fuel v p = some (BitVec.ofNat 64 a.length) := by
  rw [strlen, strlenLoop_string h hfuel, Option.map_some, Option.some_inj]
  bv_omega

/-- With fewer bytes left than are looked for, the loop ends. -/
theorem searchLoop_short {l1 l2 : BitVec 64} (h : l1 < l2) (fuel : Nat) :
    searchLoop v s2 l2 (fuel + 1) l1 s1 = some none := by
  unfold searchLoop
  exact if_neg (BitVec.not_le.mpr h)

/-- One round: the comparison succeeds exactly at an occurrence. -/
theorem searchLoop_round (hb : Holds v s2 b) (hlen : b.length < 2 ^ 64) (ha : Holds v s1 a)
    (hlen' : a.length < 2 ^ 64) (hle : b.length ≤ a.length) (fuel : Nat) :
    searchLoop v s2 (BitVec.ofNat 64 b.length) (fuel + 1) (BitVec.ofNat 64 a.length) s1 =
      if a.take b.length = b then some (some s1)
      else searchLoop v s2 (BitVec.ofNat 64 b.length) fuel (BitVec.ofNat 64 a.length - 1)
        (s1 + 1) := by
  have hge : BitVec.ofNat 64 a.length ≥ BitVec.ofNat 64 b.length := by
    rw [ge_iff_le, BitVec.le_def, BitVec.toNat_ofNat, BitVec.toNat_ofNat, Nat.mod_eq_of_lt hlen,
      Nat.mod_eq_of_lt hlen']
    exact hle
  obtain ⟨r, hr, horders⟩ := memcmp_holds ha hb hle le_rfl
  rw [List.take_length] at horders
  rw [searchLoop, if_pos hge, BitVec.toNat_ofNat, Nat.mod_eq_of_lt hlen, hr]
  simp only [Option.bind_eq_bind, Option.bind_some, horders.zero]

/-- The loop finds the first occurrence of what is not empty. -/
theorem searchLoop_finds (hb : Holds v s2 b) (hne : b ≠ []) (hlen : b.length < 2 ^ 64)
    (ha : Holds v s1 a) (hlen' : a.length < 2 ^ 64) {fuel : Nat} (hfuel : a.length < fuel) :
    Finds (searchLoop v s2 (BitVec.ofNat 64 b.length) fuel (BitVec.ofNat 64 a.length) s1)
      s1 a b := by
  obtain ⟨fuel, rfl⟩ : ∃ k, fuel = k + 1 := ⟨fuel - 1, by omega⟩
  have hpos := List.length_pos_iff.mpr hne
  induction a generalizing s1 fuel with
  | nil =>
      rw [searchLoop_short (by rw [List.length_nil]; bv_omega)]
      exact Or.inr ⟨fun i hi => by have := hi.fits; rw [List.length_nil] at this; omega, rfl⟩
  | cons c a ih =>
      rw [List.length_cons] at hfuel hlen'
      by_cases hle : b.length ≤ (c :: a).length
      · rw [searchLoop_round hb hlen ha hlen' hle]
        split
        · exact finds_here (occurs_zero.mpr ⟨hle, ‹_›⟩)
        · obtain ⟨fuel, rfl⟩ : ∃ k, fuel = k + 1 := ⟨fuel - 1, by omega⟩
          have hpred : BitVec.ofNat 64 (c :: a).length - 1 = BitVec.ofNat 64 a.length := by
            rw [List.length_cons]
            bv_omega
          rw [hpred]
          exact finds_later (fun h => ‹¬ _› (occurs_zero.mp h).2)
            (ih ha.2 (by omega) fuel (by omega))
      · rw [searchLoop_short (by rw [List.length_cons] at hle ⊢; bv_omega)]
        exact Or.inr ⟨fun i hi => by have := hi.fits; omega, rfl⟩

/-! ## The two functions -/

theorem strnsrt_finds {len : BitVec 64} (hb : HoldsString v s2 b) (ha : Holds v s1 a)
    (hlen : a.length = len.toNat) {fuel : Nat} (hfuel : a.length < fuel)
    (hfuel' : b.length < fuel) : Finds (strnsrt fuel v s1 s2 len) s1 a b := by
  have hlt := hb.length_lt
  have hlen' : len = BitVec.ofNat 64 a.length := by
    rw [hlen, BitVec.ofNat_toNat, BitVec.setWidth_eq]
  unfold strnsrt
  rw [strlen_string hb hfuel', hlen']
  simp only [Option.bind_eq_bind, Option.bind_some]
  cases b with
  | nil => exact finds_here ⟨Nat.zero_le _, rfl⟩
  | cons d b =>
      rw [if_neg (by rw [List.length_cons] at hlt ⊢; bv_omega)]
      exact searchLoop_finds hb.holds.left (List.cons_ne_nil d b) hlt ha (by omega) hfuel

/-- `strstr` is `strnsrt` with the length of the string. -/
theorem strstr_eq (ha : HoldsString v s1 a) (hb : HoldsString v s2 b) {fuel : Nat}
    (hfuel : a.length < fuel) (hfuel' : b.length < fuel) :
    strstr fuel v s1 s2 = strnsrt fuel v s1 s2 (BitVec.ofNat 64 a.length) := by
  unfold strstr strnsrt
  rw [strlen_string hb hfuel', strlen_string ha hfuel]
  rfl

/-- **The substring search finds the first occurrence** and reads nothing but its objects: the
string `a` or the `len` bytes of a buffer, and the string `b`. -/
theorem search_finds (hb : HoldsString v s2 b) {fuel : Nat} (hfuel' : b.length < fuel) :
    (∀ s1 a, HoldsString v s1 a → a.length < fuel →
      Finds (strstr fuel v s1 s2) s1 a b ∧
        strstr fuel v s1 s2 = strnsrt fuel v s1 s2 (BitVec.ofNat 64 a.length)) ∧
      ∀ s1 buf len, Holds v s1 buf → buf.length = len.toNat → buf.length < fuel →
        Finds (strnsrt fuel v s1 s2 len) s1 buf b := by
  constructor
  · intro s1 a ha hfuel
    have hlen : a.length = (BitVec.ofNat 64 a.length).toNat := by
      rw [BitVec.toNat_ofNat, Nat.mod_eq_of_lt ha.length_lt]
    have heq := strstr_eq ha hb hfuel hfuel'
    refine ⟨?_, heq⟩
    rw [heq]
    exact strnsrt_finds hb ha.holds.left hlen hfuel hfuel'
  · intro s1 buf len hbuf hlen hfuel
    exact strnsrt_finds hb hbuf hlen hfuel hfuel'

/-- `"bana"` and `"an"`, and nothing else. -/
theorem search_finds_an :
    let v : View := fun p => ([98, 97, 110, 97, 0, 97, 110, 0] : List Byte)[p.toNat]?
    Finds (strstr 5 v 0 5) 0 [98, 97, 110, 97] [97, 110] ∧
      strstr 5 v 0 5 = strnsrt 5 v 0 5 4 ∧ Finds (strnsrt 5 v 0 5 3) 0 [98, 97, 110] [97, 110] := by
  have h := @search_finds [97, 110]
    (fun p => ([98, 97, 110, 97, 0, 97, 110, 0] : List Byte)[p.toNat]?) 5 (by decide +kernel) 5
    (by decide)
  obtain ⟨hfinds, heq⟩ := h.1 0 [98, 97, 110, 97] (by decide +kernel) (by decide)
  exact ⟨hfinds, heq, h.2 0 [98, 97, 110] 3 (by decide +kernel) (by decide) (by decide)⟩

end Eeos.Search
