import Eeos.Libc.Copy
import Eeos.Libc.Search

/-!
# Looking for one byte (`lib/libc/string.c`)

`memchr`, `strchr`, `strrchr` and `strnlen` over a `View`.  `memchr` and `strnlen` count down, the
fuel of the other two bounds the characters they read.  The character is an `int`, of which the
low byte is compared.

* `FindsLast r p a b` — `Finds` with the last occurrence.
* `memchr_finds`, `strchr_eq_memchr`, `strrchrLoop_last` — the loops, by induction on the bytes.
* `strnlen_eq_memchr` — `strnlen` is `memchr` for the terminator, in any view.

Principal results: `byteSearch_finds` (the terminator counts as a character of the string) and
`strnlen_measures` (what is left of a string in `count` bytes).
-/

namespace Eeos.Search

open ByteMem Compare

/-- `while (n-- != 0)`: `p` is moved on by the comparison and back by the result. -/
def memchr (v : View) (c : BitVec 32) : Nat → Addr → Option (Option Addr)
  | 0, _ => some none
  | n + 1, p => do
    let b ← v p
    if c.setWidth 8 = b then some (some p) else memchr v c n (p + 1)

def strchr (v : View) (ch : BitVec 32) : Nat → Addr → Option (Option Addr)
  | 0, _ => none
  | fuel + 1, src => do
    let b ← v src
    if b ≠ ch.setWidth 8 then
      if b = 0 then some none else strchr v ch fuel (src + 1)
    else some (some src)

/-- `do { … } while (*s++)`. -/
def strrchrLoop (v : View) (c : BitVec 32) : Nat → Addr → Option Addr → Option (Option Addr)
  | 0, _, _ => none
  | fuel + 1, s, last => do
    let b ← v s
    let last := if b = c.setWidth 8 then some s else last
    if b ≠ 0 then strrchrLoop v c fuel (s + 1) last else some last

def strrchr (v : View) (c : BitVec 32) (fuel : Nat) (s : Addr) : Option (Option Addr) :=
  strrchrLoop v c fuel s none

/-- `for (sc = s; count-- && *sc != '\0'; ++sc)`. -/
def strnlenLoop (v : View) : Nat → Addr → Option Addr
  | 0, sc => some sc
  | count + 1, sc => do
    let b ← v sc
    if b ≠ 0 then strnlenLoop v count (sc + 1) else some sc

def strnlen (v : View) (s : Addr) (count : Nat) : Option (BitVec 64) :=
  (strnlenLoop v count s).map (· - s)

/-- `r` is the last occurrence of `b` in the bytes `a` at `p`, or `NULL`. -/
def FindsLast (r : Option (Option Addr)) (p : Addr) (a b : List Byte) : Prop :=
  (∃ i, IsGreatest {i | Occurs b a i} i ∧ r = some (some (p + BitVec.ofNat 64 i))) ∨
    (∀ i, ¬ Occurs b a i) ∧ r = some none

/-! ## Occurrences of one byte -/

variable {a b : List Byte} {c d : Byte}

theorem occurs_byte_zero : Occurs [d] (c :: a) 0 ↔ c = d := by
  simp [occurs_zero]

theorem not_occurs_nil (i : Nat) : ¬ Occurs [d] [] i := by
  intro h
  have hfits := h.fits
  simp at hfits

theorem not_occurs_cons (hne : c ≠ d) (h : ∀ i, ¬ Occurs [d] a i) (i : Nat) :
    ¬ Occurs [d] (c :: a) i := by
  intro hi
  cases i with
  | zero => exact hne (occurs_byte_zero.mp hi)
  | succ i => exact h i (occurs_succ.mp hi)

/-- The last occurrence is here if there is none further on. -/
theorem last_here (heq : c = d) (h : ∀ i, ¬ Occurs [d] a i) :
    IsGreatest {i | Occurs [d] (c :: a) i} 0 := by
  refine ⟨occurs_byte_zero.mpr heq, fun i hi => ?_⟩
  cases i with
  | zero => exact le_rfl
  | succ i => exact absurd (occurs_succ.mp hi) (h i)

theorem last_later {i : Nat} (h : IsGreatest {i | Occurs [d] a i} i) :
    IsGreatest {i | Occurs [d] (c :: a) i} (i + 1) := by
  refine ⟨occurs_succ.mpr h.1, fun j hj => ?_⟩
  cases j with
  | zero => exact Nat.zero_le _
  | succ j => exact Nat.succ_le_succ (h.2 (occurs_succ.mp hj))

/-- The first occurrence is one place only. -/
theorem finds_unique {r r' : Option (Option Addr)} {p : Addr} (h : Finds r p a b)
    (h' : Finds r' p a b) : r = r' := by
  rcases h with ⟨i, hi, rfl⟩ | ⟨hnone, rfl⟩ <;> rcases h' with ⟨j, hj, rfl⟩ | ⟨hnone', rfl⟩
  · rw [hi.unique hj]
  · exact absurd hi.1 (hnone' i)
  · exact absurd hj.1 (hnone j)
  · rfl

/-- What is not the looked-for byte may stand behind the bytes or not. -/
theorem finds_append_iff {r : Option (Option Addr)} {p : Addr} (hne : c ≠ d) :
    Finds r p (a ++ [c]) [d] ↔ Finds r p a [d] := by
  have hsame (i : Nat) : Occurs [d] (a ++ [c]) i ↔ Occurs [d] a i := by
    induction a generalizing i with
    | nil => exact iff_of_false (not_occurs_cons hne not_occurs_nil i) (not_occurs_nil i)
    | cons e a ih =>
      cases i with
      | zero => rw [List.cons_append, occurs_byte_zero, occurs_byte_zero]
      | succ i => rw [List.cons_append, occurs_succ, occurs_succ, ih]
  simp only [Finds, hsame]

/-! ## The loops -/

variable {v : View} {p : Addr} {str : List Byte}

theorem memchr_finds (ch : BitVec 32) (ha : Holds v p a) :
    Finds (memchr v ch a.length p) p a [ch.setWidth 8] := by
  induction a generalizing p with
  | nil => exact Or.inr ⟨not_occurs_nil, rfl⟩
  | cons c a ih =>
    rw [List.length_cons, memchr, ha.1]
    simp only [Option.bind_eq_bind, Option.bind_some]
    split
    · rename_i heq
      exact finds_here (occurs_byte_zero.mpr heq.symm)
    · rename_i hne
      exact finds_later (fun h => hne (occurs_byte_zero.mp h).symm) (ih ha.2)

/-- `strchr` is `memchr` over the string and its terminator. -/
theorem strchr_eq_memchr (ch : BitVec 32) (h : HoldsString v p str) {fuel : Nat}
    (hfuel : str.length < fuel) : strchr v ch fuel p = memchr v ch (str.length + 1) p := by
  obtain ⟨fuel, rfl⟩ : ∃ k, fuel = k + 1 := ⟨fuel - 1, by omega⟩
  induction str generalizing p fuel with
  | nil =>
    rw [strchr, memchr, h.nil]
    simp only [Option.bind_eq_bind, Option.bind_some]
    by_cases h0 : ch.setWidth 8 = 0
    · rw [if_neg (not_not.mpr h0.symm), if_pos h0]
    · rw [if_pos (Ne.symm h0), if_pos trivial, if_neg h0, List.length_nil, memchr]
  | cons c str ih =>
    obtain ⟨hc, hc0⟩ := h.head
    rw [List.length_cons] at hfuel ⊢
    obtain ⟨fuel, rfl⟩ : ∃ k, fuel = k + 1 := ⟨fuel - 1, by omega⟩
    rw [strchr, memchr, hc]
    simp only [Option.bind_eq_bind, Option.bind_some]
    by_cases heq : ch.setWidth 8 = c
    · rw [if_neg (not_not.mpr heq.symm), if_pos heq]
    · rw [if_pos (Ne.symm heq), if_neg hc0, if_neg heq, ih h.tail fuel (by omega)]

/-- `last` changes at every occurrence, so the last one stays. -/
theorem strrchrLoop_last (ch : BitVec 32) (h : HoldsString v p str) (last : Option Addr)
    {fuel : Nat} (hfuel : str.length < fuel) :
    (∃ i, IsGreatest {i | Occurs [ch.setWidth 8] (str ++ [0]) i} i ∧
        strrchrLoop v ch fuel p last = some (some (p + BitVec.ofNat 64 i))) ∨
      (∀ i, ¬ Occurs [ch.setWidth 8] (str ++ [0]) i) ∧
        strrchrLoop v ch fuel p last = some last := by
  obtain ⟨fuel, rfl⟩ : ∃ k, fuel = k + 1 := ⟨fuel - 1, by omega⟩
  induction str generalizing p last fuel with
  | nil =>
    rw [strrchrLoop, h.nil]
    simp only [Option.bind_eq_bind, Option.bind_some, List.nil_append]
    rw [if_neg (not_not.mpr rfl)]
    split
    · exact Or.inl ⟨0, last_here ‹_› not_occurs_nil, by rw [add_ofNat_zero]⟩
    · exact Or.inr ⟨not_occurs_cons ‹_› not_occurs_nil, rfl⟩
  | cons c str ih =>
    obtain ⟨hc, hc0⟩ := h.head
    rw [List.length_cons] at hfuel
    obtain ⟨fuel, rfl⟩ : ∃ k, fuel = k + 1 := ⟨fuel - 1, by omega⟩
    rw [strrchrLoop, hc]
    simp only [Option.bind_eq_bind, Option.bind_some]
    rw [if_pos hc0]
    rcases ih h.tail (if c = ch.setWidth 8 then some p else last) fuel (by omega) with
      ⟨i, hlast, heq⟩ | ⟨hnone, heq⟩
    · exact Or.inl ⟨i + 1, last_later hlast, by rw [heq, add_one_add_ofNat]⟩
    · rw [heq]
      split
      · exact Or.inl ⟨0, last_here ‹_› hnone, by rw [add_ofNat_zero]⟩
      · exact Or.inr ⟨not_occurs_cons ‹_› hnone, rfl⟩

/-- **The searches for one byte agree.**  `strchr` finds its first place in a string, the
terminator included, and `strrchr` its last; both read nothing else.  `memchr` over the string and
its terminator is `strchr`, and so is `strstr` of a string of one character. -/
theorem byteSearch_finds (ch : BitVec 32) (h : HoldsString v p str) {fuel : Nat}
    (hfuel : str.length < fuel) :
    Finds (strchr v ch fuel p) p (str ++ [0]) [ch.setWidth 8] ∧
      FindsLast (strrchr v ch fuel p) p (str ++ [0]) [ch.setWidth 8] ∧
      memchr v ch (str.length + 1) p = strchr v ch fuel p ∧
      ∀ q, HoldsString v q [ch.setWidth 8] → 1 < fuel →
        strstr fuel v p q = strchr v ch fuel p := by
  have hmemchr := memchr_finds ch h.holds
  rw [List.length_append, List.length_singleton, ← strchr_eq_memchr ch h hfuel] at hmemchr
  refine ⟨hmemchr, strrchrLoop_last ch h none hfuel, (strchr_eq_memchr ch h hfuel).symm, ?_⟩
  intro q hq hone
  have hlen : str.length = (BitVec.ofNat 64 str.length).toNat := by
    rw [BitVec.toNat_ofNat, Nat.mod_eq_of_lt h.length_lt]
  have hstrstr := strnsrt_finds hq h.holds.left hlen hfuel hone
  rw [← strstr_eq h hq hfuel hone] at hstrstr
  exact finds_unique ((finds_append_iff hq.head.2.symm).mpr hstrstr) hmemchr

/-- The two `a`s of `"bana"`. -/
theorem byteSearch_finds_a :
    let v : View := fun p => ([98, 97, 110, 97, 0, 97, 0] : List Byte)[p.toNat]?
    Finds (strchr v 97 5 0) 0 [98, 97, 110, 97, 0] [97] ∧
      FindsLast (strrchr v 97 5 0) 0 [98, 97, 110, 97, 0] [97] ∧
      strstr 5 v 0 5 = strchr v 97 5 0 := by
  intro v
  have hstr : HoldsString v 0 [98, 97, 110, 97] := by decide +kernel
  have h := byteSearch_finds 97 hstr (show _ < 5 by decide)
  exact ⟨h.1, h.2.1, h.2.2.2 5 (by decide +kernel) (by decide)⟩

/-! ## `strnlen` -/

theorem strnlenLoop_eq_memchr (v : View) (s : Addr) (count : Nat) :
    strnlenLoop v count s =
      (memchr v 0 count s).map fun r => r.getD (s + BitVec.ofNat 64 count) := by
  induction count generalizing s with
  | zero => simp [strnlenLoop, memchr]
  | succ count ih =>
    rw [strnlenLoop, memchr]
    cases hb : v s with
    | none => rfl
    | some b =>
      simp only [Option.bind_eq_bind, Option.bind_some]
      by_cases h0 : b = 0
      · simp [h0]
      · rw [if_pos h0, if_neg (by simpa using Ne.symm h0), ih, add_one_add_ofNat]

/-- Characters are counted. -/
theorem strnlenLoop_chars (ha : Holds v p a) (h0 : 0 ∉ a) (r : Nat) :
    strnlenLoop v (a.length + r) p = strnlenLoop v r (p + BitVec.ofNat 64 a.length) := by
  induction a generalizing p with
  | nil => simp
  | cons c a ih =>
    have hc0 : c ≠ 0 := fun hc => h0 (hc ▸ List.mem_cons_self)
    rw [List.length_cons, Nat.add_right_comm, strnlenLoop, ha.1, ← add_one_add_ofNat,
      ← ih ha.2 fun hmem => h0 (List.mem_cons_of_mem c hmem)]
    exact if_pos hc0

/-- Without a terminator in its `count` bytes, the count is the result. -/
theorem strnlen_chars (ha : Holds v p a) (h0 : 0 ∉ a) :
    strnlen v p a.length = some (BitVec.ofNat 64 a.length) := by
  rw [strnlen, ← Nat.add_zero a.length, strnlenLoop_chars ha h0 0, strnlenLoop, Option.map_some,
    Option.some_inj]
  bv_omega

theorem strnlen_take {count : Nat} (h : Holds v p ((str ++ [0]).take count)) (h0 : 0 ∉ str) :
    strnlen v p count = some (BitVec.ofNat 64 (min str.length count)) := by
  rcases Nat.lt_or_ge str.length count with hlt | hle
  · obtain ⟨r, rfl⟩ : ∃ r, count = str.length + (r + 1) := ⟨count - str.length - 1, by omega⟩
    rw [List.take_of_length_le (by simp)] at h
    have hnul : v (p + BitVec.ofNat 64 str.length) = some 0 := h.get (by simp)
    rw [strnlen, strnlenLoop_chars h.left h0, strnlenLoop, hnul, Nat.min_eq_left (by omega)]
    simp only [Option.bind_eq_bind, Option.bind_some]
    rw [if_neg (not_not.mpr rfl), Option.map_some, Option.some_inj]
    bv_omega
  · rw [List.take_append_of_le_length hle] at h
    have hchars := strnlen_chars h fun hmem => h0 (List.mem_of_mem_take hmem)
    rw [List.length_take, Nat.min_eq_left hle] at hchars
    rw [hchars, Nat.min_eq_right hle]

/-- **`strnlen`** is `memchr` for the terminator, measures a string up to `count` without reading
on, and so tells what `strncpy` has left of one: all `count` bytes are characters where the
destination was within the string. -/
theorem strnlen_measures (count : Nat) :
    (∀ v p, strnlen v p count =
        (memchr v 0 count p).map fun r => r.getD (p + BitVec.ofNat 64 count) - p) ∧
      (∀ v p str, 0 ∉ str → Holds v p ((str ++ [0]).take count) →
        strnlen v p count = some (BitVec.ofNat 64 (min str.length count))) ∧
      ∀ m dest src str, count < 2 ^ 64 → HoldsString (viewOf m) src str →
        strnlen (viewOf (Str.strncpy m dest src count).2) dest count =
          some (BitVec.ofNat 64
            (if Str.Within src dest str then count else min str.length count)) := by
  refine ⟨fun v p => ?_, fun v p str h0 h => strnlen_take h h0, ?_⟩
  · rw [strnlen, strnlenLoop_eq_memchr, Option.map_map]
    rfl
  · intro m dest src str hcount h
    have hholds {l : List Byte} (hl : l.length = count) :
        Holds (viewOf (blit m dest l)) dest l := by
      rw [Str.holds_viewOf_iff, bytesAt_blit_start m dest le_rfl (by omega), List.take_length]
    rw [Str.strncpy]
    by_cases hin : Str.Within src dest str
    · have hchars := strnlen_chars (hholds (Str.length_tile (m := m) (s := src) _))
        (Str.tile_within_no_nul h hin)
      rw [Str.length_tile] at hchars
      rw [Str.strncpyLoop_within h hin hcount, if_pos hin, hchars]
    · rw [Str.strncpyLoop_fitted h hin hcount, if_neg hin]
      have hfitted := hholds (Str.length_fitted str count)
      obtain ⟨l, hl⟩ := Str.fitted_prefix str count
      rw [hl] at hfitted ⊢
      exact strnlen_take hfitted.left h.no_nul

/-- `"ab"` in two bytes, and moved up by one onto itself. -/
theorem strnlen_measures_two :
    let m : Mem := blit (fun _ => 0) 16 [97, 98, 0]
    strnlen (viewOf (Str.strncpy m 19 16 4).2) 19 4 = some 2 ∧
      strnlen (viewOf (Str.strncpy m 17 16 4).2) 17 4 = some 4 :=
  have h : HoldsString (viewOf (blit (fun _ => 0) 16 [97, 98, 0])) 16 [97, 98] := by decide
  have hout : ¬ Str.Within 16 19 [97, 98] := by decide
  have hin : Str.Within 16 17 [97, 98] := by decide
  ⟨((strnlen_measures 4).2.2 _ 19 16 _ (by decide) h).trans (by rw [if_neg hout]; rfl),
    ((strnlen_measures 4).2.2 _ 17 16 _ (by decide) h).trans (by rw [if_pos hin]; rfl)⟩

end Eeos.Search
