import Eeos.Lib.View
import Eeos.Libc.Str

/-!
# Copies that overlap (`lib/libc/string.c`)

`memcpy`, `strcpy` and `strncpy` run forwards whatever the ranges.  With the destination `o > 0`
bytes above the source, the loop comes upon its own output after `o` bytes, and what it reads from
there on has period `o`.

* `tile m s o n` — the `n` bytes such a loop reads.  `i % 0 = i`: a destination on the source
  changes nothing.
* `copyUp_tile` — the forward loop lays down one `tile`, for every overlap.
* `Within src dest s` — `dest` stands in the string `s` at `src`, behind its first byte.
* `strcpyLoop_ends`, `strcpyLoop_endless`, `strncpyLoop_copies`, `strncpyLoop_pads` — the string
  loops, by what they read.

Principal results: `memcpy_eq_memmove_iff` (on overlap `memcpy` repeats what is below the
destination), `strcpy_ends_iff` (`strcpy` ends exactly if the destination is not within the string)
and `strncpy_writes` (the string cut or padded, or repeated where the destination is within it).
-/

namespace Eeos.Str

open ByteMem

/-- `while ((*dest++ = *src++) != '\0')`. -/
def strcpyLoop : Nat → Mem → Addr → Addr → Option Mem
  | 0, _, _, _ => none
  | fuel + 1, m, dest, src =>
    if m src ≠ 0 then strcpyLoop fuel (store m dest (m src)) (dest + 1) (src + 1)
    else some (store m dest (m src))

/-- The result is `tmp`, where `dest` stood at first. -/
def strcpy (fuel : Nat) (m : Mem) (dest src : Addr) : Option (Addr × Mem) :=
  (strcpyLoop fuel m dest src).map fun m' => (dest, m')

/-- `while (count) { … }` of `strncpy`: at the terminator `src` stays. -/
def strncpyLoop : Nat → Mem → Addr → Addr → Mem
  | 0, m, _, _ => m
  | count + 1, m, tmp, src =>
    strncpyLoop count (store m tmp (m src)) (tmp + 1) (if m src ≠ 0 then src + 1 else src)

def strncpy (m : Mem) (dest src : Addr) (count : Nat) : Addr × Mem :=
  (dest, strncpyLoop count m dest src)

/-! ## What a forward loop reads -/

/-- The `n` bytes that a forward loop reads from `s` on, writing `o` bytes further up. -/
def tile (m : Mem) (s : Addr) (o n : Nat) : List Byte :=
  (List.range n).map fun i => m (s + BitVec.ofNat 64 (i % o))

variable {m : Mem} {d s : Addr} {n : Nat}

@[simp] theorem length_tile (o : Nat) : (tile m s o n).length = n := by simp [tile]

theorem getElem_tile {o i : Nat} (hi : i < (tile m s o n).length) :
    (tile m s o n)[i] = m (s + BitVec.ofNat 64 (i % o)) := by
  simp [tile]

theorem tile_succ (o : Nat) :
    tile m s o (n + 1) = tile m s o n ++ [m (s + BitVec.ofNat 64 (n % o))] := by
  simp [tile, List.range_succ]

/-- Up to the destination, and for a destination on the source, nothing is read back. -/
theorem tile_eq_bytesAt {o : Nat} (h : o = 0 ∨ n ≤ o) : tile m s o n = bytesAt m s n := by
  apply List.map_congr_left
  intro i hi
  rcases h with rfl | h
  · rw [Nat.mod_zero]
  · rw [Nat.mod_eq_of_lt (by have := List.mem_range.mp hi; omega)]

theorem tile_eq_bytesAt_iff {o : Nat} :
    tile m s o n = bytesAt m s n ↔
      ∀ i < n, m (s + BitVec.ofNat 64 (i % o)) = m (s + BitVec.ofNat 64 i) := by
  simp [tile, bytesAt]

/-- Behind `n` bytes of the tile, the loop reads the next byte of the tile. -/
theorem blit_tile_read (hn : n < 2 ^ 64) :
    blit m d (tile m s (offset s d) n) (s + BitVec.ofNat 64 n) =
      m (s + BitVec.ofNat 64 (n % offset s d)) := by
  have ho := offset_lt s d
  have hd : offset d (s + BitVec.ofNat 64 n) =
      if offset s d ≤ n then n - offset s d else 2 ^ 64 + n - offset s d := by
    unfold offset
    split <;> bv_omega
  by_cases hback : 0 < offset s d ∧ offset s d ≤ n
  · -- the byte was written `offset s d` turns ago
    rw [if_pos hback.2] at hd
    have haddr : s + BitVec.ofNat 64 n = d + BitVec.ofNat 64 (n - offset s d) := by
      rw [← hd]
      unfold offset
      bv_omega
    rw [haddr, blit_at m d (by rw [length_tile]; omega) (by rw [length_tile]; omega), getElem_tile,
      ← Nat.mod_eq_sub_mod hback.2]
  · have hmod : n % offset s d = n := by
      rcases Nat.eq_zero_or_pos (offset s d) with h0 | hpos
      · rw [h0, Nat.mod_zero]
      · exact Nat.mod_eq_of_lt (by omega)
    rw [hmod, blit_off]
    rw [length_tile, hd]
    split <;> omega

/-- One more turn at the end. -/
theorem copyUp_succ_last (m : Mem) (d s : Addr) (n : Nat) :
    copyUp m d s (n + 1) = store (copyUp m d s n) (d + BitVec.ofNat 64 n)
      (copyUp m d s n (s + BitVec.ofNat 64 n)) := by
  induction n generalizing m d s with
  | zero => simp [copyUp]
  | succ n ih => rw [copyUp, ih, add_one_add, add_one_add, copyUp]

/-- The forward loop, for every overlap. -/
theorem copyUp_tile (hn : n ≤ 2 ^ 64) :
    copyUp m d s n = blit m d (tile m s (offset s d) n) := by
  induction n with
  | zero => simp [copyUp, tile]
  | succ n ih =>
    rw [copyUp_succ_last, ih (by omega), blit_tile_read (by omega), tile_succ]
    have hstore := store_after_blit m d (l := tile m s (offset s d) n)
      (m (s + BitVec.ofNat 64 (n % offset s d))) (by rw [length_tile]; omega)
    rwa [length_tile] at hstore

theorem copyUp_read (hn : n < 2 ^ 64) :
    copyUp m d s n (s + BitVec.ofNat 64 n) = m (s + BitVec.ofNat 64 (n % offset s d)) := by
  rw [copyUp_tile (by omega), blit_tile_read hn]

/-! ## `memcpy` -/

theorem blit_inj {l l' : List Byte} (hl : l.length ≤ 2 ^ 64) (hlen : l.length = l'.length) :
    blit m d l = blit m d l' ↔ l = l' := by
  constructor
  · intro h
    have hread := bytesAt_blit_start m d (l := l) (n := l.length) le_rfl hl
    rw [h, bytesAt_blit_start m d (by omega) (by omega), List.take_length, hlen,
      List.take_length] at hread
    exact hread.symm
  · intro h
    rw [h]

/-- **`memcpy` where the ranges overlap** repeats the bytes below the destination, and it is
`memmove` exactly if the source has that period already. -/
theorem memcpy_eq_memmove_iff (m : Mem) (dest src : Addr) (count : Nat)
    (hd : dest.toNat + count ≤ 2 ^ 64) (hs : src.toNat + count ≤ 2 ^ 64) :
    (∀ i < count, memcpy m dest src count (dest + BitVec.ofNat 64 i) =
        m (src + BitVec.ofNat 64 (i % offset src dest))) ∧
      (∀ a, count ≤ offset dest a → memcpy m dest src count a = m a) ∧
      (memcpy m dest src count = memmove m dest src count ↔
        ∀ i < count, m (src + BitVec.ofNat 64 (i % offset src dest)) =
          m (src + BitVec.ofNat 64 i)) := by
  have hcopy : memcpy m dest src count = blit m dest (tile m src (offset src dest) count) :=
    copyUp_tile (by omega)
  rw [hcopy, memmove_eq m dest src hd hs]
  refine ⟨?_, ?_, ?_⟩
  · intro i hi
    rw [blit_at m dest (by rwa [length_tile]) (by rw [length_tile]; omega), getElem_tile]
  · intro a ha
    exact blit_off m (by rwa [length_tile])
  · rw [blit_inj (by rw [length_tile]; omega) (by rw [length_tile, length_bytesAt]),
      tile_eq_bytesAt_iff]

/-- Three bytes copied up by one: the first is repeated. -/
theorem memcpy_eq_memmove_iff_up :
    let m : Mem := blit (fun _ => 0) 16 [1, 2, 3]
    memcpy m 17 16 3 19 = 1 ∧ memcpy m 17 16 3 ≠ memmove m 17 16 3 :=
  have h := memcpy_eq_memmove_iff (blit (fun _ => 0) 16 [1, 2, 3]) 17 16 3 (by decide)
    (by decide)
  ⟨(h.1 2 (by decide)).trans (by decide),
    fun heq => absurd (h.2.2.mp heq 1 (by decide)) (by decide)⟩

/-! ## `strcpy` -/

/-- `dest` stands in the string `str` at `src`, behind its first byte. -/
def Within (src dest : Addr) (str : List Byte) : Prop :=
  0 < offset src dest ∧ offset src dest ≤ str.length

instance (src dest : Addr) (str : List Byte) : Decidable (Within src dest str) :=
  inferInstanceAs (Decidable (_ ∧ _))

variable {str : List Byte}

theorem holds_viewOf_iff {l : List Byte} : Holds (viewOf m) d l ↔ bytesAt m d l.length = l := by
  induction l generalizing d with
  | nil => simp [Holds, bytesAt]
  | cons c l ih =>
    rw [Holds, ih, List.length_cons, bytesAt_succ, List.cons.injEq, viewOf, Option.some.injEq]

theorem string_bytes (h : HoldsString (viewOf m) s str) :
    bytesAt m s (str.length + 1) = str ++ [0] := by
  simpa using holds_viewOf_iff.mp h.holds

theorem string_take (h : HoldsString (viewOf m) s str) (hn : n ≤ str.length + 1) :
    bytesAt m s n = (str ++ [0]).take n := by
  obtain ⟨k, hk⟩ := Nat.exists_eq_add_of_le hn
  have hbytes := string_bytes h
  rw [hk, bytesAt_add] at hbytes
  rw [← hbytes, List.take_left' (length_bytesAt _ _ _)]

theorem string_nul (h : HoldsString (viewOf m) s str) :
    m (s + BitVec.ofNat 64 str.length) = 0 :=
  Option.some.inj (h.holds.get (by simp))

theorem string_char (h : HoldsString (viewOf m) s str) {i : Nat} (hi : i < str.length) :
    m (s + BitVec.ofNat 64 i) ≠ 0 := by
  have hget := h.holds.get (i := i) (c := str[i]) (by
    rw [List.getElem?_append_left hi, List.getElem?_eq_getElem hi])
  rw [Option.some.inj hget]
  exact fun h0 => h.no_nul (h0 ▸ List.getElem_mem hi)

/-- The characters a forward loop reads while it is inside the string are no terminators. -/
theorem copyUp_read_char (h : HoldsString (viewOf m) s str) {i : Nat}
    (hi : i < str.length) : copyUp m d s i (s + BitVec.ofNat 64 i) ≠ 0 := by
  have hlen := h.length_lt
  rw [copyUp_read (by omega)]
  exact string_char h (Nat.lt_of_le_of_lt (Nat.mod_le i _) hi)

/-- With the destination not within, it finds the terminator where it was. -/
theorem copyUp_read_nul (h : HoldsString (viewOf m) s str) (hout : ¬ Within s d str) :
    copyUp m d s str.length (s + BitVec.ofNat 64 str.length) = 0 := by
  rw [copyUp_read h.length_lt, ← string_nul h]
  rcases Nat.eq_zero_or_pos (offset s d) with h0 | hpos
  · rw [h0, Nat.mod_zero]
  · rw [Nat.mod_eq_of_lt (by unfold Within at hout; omega)]

/-- The loop ends behind the first terminator it reads. -/
theorem strcpyLoop_ends {k fuel : Nat} (hk : k < fuel)
    (hchars : ∀ i < k, copyUp m d s i (s + BitVec.ofNat 64 i) ≠ 0)
    (hnul : copyUp m d s k (s + BitVec.ofNat 64 k) = 0) :
    strcpyLoop fuel m d s = some (copyUp m d s (k + 1)) := by
  induction k generalizing m d s fuel with
  | zero =>
    obtain ⟨fuel, rfl⟩ : ∃ f, fuel = f + 1 := ⟨fuel - 1, by omega⟩
    simp only [copyUp, add_ofNat_zero] at hnul
    rw [strcpyLoop, if_neg (not_not.mpr hnul)]
    rfl
  | succ k ih =>
    obtain ⟨fuel, rfl⟩ : ∃ f, fuel = f + 1 := ⟨fuel - 1, by omega⟩
    have hhere : m s ≠ 0 := by simpa [copyUp] using hchars 0 (by omega)
    rw [strcpyLoop, if_pos hhere]
    refine ih (by omega) (fun i hi => ?_) ?_
    · rw [add_one_add]
      exact hchars (i + 1) (by omega)
    · rw [add_one_add]
      exact hnul

/-- Characters all the way up to a destination above the source: the loop writes one there before
it reads there, so the characters never end. -/
theorem strcpyLoop_endless (hpos : 0 < offset s d)
    (hchars : ∀ i < offset s d, m (s + BitVec.ofNat 64 i) ≠ 0) (fuel : Nat) :
    strcpyLoop fuel m d s = none := by
  induction fuel generalizing m d s with
  | zero => rfl
  | succ fuel ih =>
    have hoff : offset (s + 1) (d + 1) = offset s d := by
      unfold offset
      bv_omega
    have hhere : m s ≠ 0 := by simpa using hchars 0 hpos
    rw [strcpyLoop, if_pos hhere]
    refine ih (by rwa [hoff]) fun i hi => ?_
    rw [hoff] at hi
    rw [add_one_add, store]
    split
    · exact hhere
    · rename_i hne
      -- the window moved up by one: its last byte is the one just written
      have hlast : i + 1 ≠ offset s d := by
        intro heq
        apply hne
        rw [heq, offset]
        bv_omega
      exact hchars (i + 1) (by omega)

/-- A forward loop over a string and its terminator, with the destination not within. -/
theorem copyUp_string (h : HoldsString (viewOf m) s str) (hout : ¬ Within s d str)
    (hn : n ≤ str.length + 1) : copyUp m d s n = blit m d ((str ++ [0]).take n) := by
  have hlen := h.length_lt
  rw [copyUp_tile (by omega), tile_eq_bytesAt (by unfold Within at hout; omega), string_take h hn]

theorem holdsString_blit (h0 : 0 ∉ str) (hlen : str.length < 2 ^ 64) :
    HoldsString (viewOf (blit m d (str ++ [0]))) d str where
  holds := by
    rw [holds_viewOf_iff, bytesAt_blit_start _ _ le_rfl (by simp; omega), List.take_length]
  no_nul := h0

/-- **`strcpy` ends exactly if the destination is not within the string.**  Then it is the `memcpy`
of the string with its terminator; else it writes for ever. -/
theorem strcpy_ends_iff (dest src : Addr) (h : HoldsString (viewOf m) src str) :
    (Within src dest str → ∀ fuel, strcpy fuel m dest src = none) ∧
      (¬ Within src dest str →
        (∀ fuel, str.length < fuel →
          strcpy fuel m dest src = some (dest, memcpy m dest src (str.length + 1))) ∧
        HoldsString (viewOf (memcpy m dest src (str.length + 1))) dest str ∧
        ∀ a, str.length < offset dest a → memcpy m dest src (str.length + 1) a = m a) := by
  constructor
  · rintro ⟨hpos, hle⟩ fuel
    rw [strcpy, strcpyLoop_endless hpos fun i hi => string_char h (by omega)]
    rfl
  · intro hout
    have hcopy : memcpy m dest src (str.length + 1) = blit m dest (str ++ [0]) := by
      rw [memcpy, copyUp_string h hout le_rfl, List.take_of_length_le (by simp)]
    refine ⟨fun fuel hfuel => ?_, ?_, fun a ha => ?_⟩
    · have hnul := copyUp_read_nul h hout
      rw [strcpy, strcpyLoop_ends hfuel (fun i hi => copyUp_read_char h hi) hnul]
      rfl
    · rw [hcopy]
      exact holdsString_blit h.no_nul h.length_lt
    · rw [hcopy]
      exact blit_off m (by rw [List.length_append]; exact ha)

/-- A string of two characters, copied behind its terminator and onto its second character. -/
theorem strcpy_ends_iff_two :
    let m : Mem := blit (fun _ => 0) 16 [97, 98, 0]
    strcpy 3 m 19 16 = some (19, memcpy m 19 16 3) ∧ ∀ fuel, strcpy fuel m 17 16 = none :=
  have h : HoldsString (viewOf (blit (fun _ => 0) 16 [97, 98, 0])) 16 [97, 98] := by decide
  ⟨((strcpy_ends_iff 19 16 h).2 (by decide)).1 3 (by decide),
    (strcpy_ends_iff 17 16 h).1 (by decide)⟩

/-! ## `strncpy` -/

/-- While the loop reads characters, it copies. -/
theorem strncpyLoop_copies {k : Nat} (r : Nat)
    (hchars : ∀ i < k, copyUp m d s i (s + BitVec.ofNat 64 i) ≠ 0) :
    strncpyLoop (k + r) m d s =
      strncpyLoop r (copyUp m d s k) (d + BitVec.ofNat 64 k) (s + BitVec.ofNat 64 k) := by
  induction k generalizing m d s with
  | zero => simp [copyUp]
  | succ k ih =>
    have hhere : m s ≠ 0 := by simpa [copyUp] using hchars 0 (by omega)
    rw [Nat.add_right_comm, strncpyLoop, if_pos hhere, ih fun i hi => ?_, copyUp, add_one_add,
      add_one_add]
    rw [add_one_add]
    exact hchars (i + 1) (by omega)

/-- At a terminator it stays: only zeros are written, so the terminator stays one. -/
theorem strncpyLoop_pads (hnul : m s = 0) (r : Nat) : strncpyLoop r m d s = memset m d 0 r := by
  induction r generalizing m d with
  | zero => rfl
  | succ r ih =>
    have hstays : store m d 0 s = 0 := by
      rw [store]
      split
      · rfl
      · exact hnul
    rw [strncpyLoop, hnul, if_neg (not_not.mpr rfl), ih hstays, memset]

/-- `count` bytes of a string: cut, or padded with zeros. -/
def fitted (str : List Byte) (count : Nat) : List Byte := (str ++ List.replicate count 0).take count

@[simp] theorem length_fitted (str : List Byte) (count : Nat) :
    (fitted str count).length = count := by
  simp [fitted]

theorem fitted_of_le {count : Nat} (h : count ≤ str.length) : fitted str count = str.take count :=
  List.take_append_of_le_length h

theorem fitted_add (str : List Byte) (r : Nat) :
    fitted str (str.length + r) = str ++ List.replicate r 0 := by
  rw [fitted, List.take_append, List.take_of_length_le (by omega), List.take_replicate]
  congr 2
  omega

/-- It starts with the string, or what there is room for of it and its terminator. -/
theorem fitted_prefix (str : List Byte) (count : Nat) :
    ∃ l, fitted str count = (str ++ [0]).take count ++ l := by
  cases count with
  | zero => exact ⟨[], rfl⟩
  | succ k =>
    refine ⟨(List.replicate k 0).take (k + 1 - (str ++ [0]).length), ?_⟩
    rw [fitted, List.replicate_succ, ← List.take_append, List.append_assoc, List.singleton_append]

theorem nul_mem_fitted {count : Nat} (h : 0 ∉ str) :
    0 ∈ fitted str count ↔ str.length < count := by
  rcases Nat.lt_or_ge str.length count with hlt | hle
  · obtain ⟨r, rfl⟩ : ∃ r, count = str.length + r := ⟨count - str.length, by omega⟩
    rw [fitted_add]
    exact iff_of_true (List.mem_append_right str (List.mem_replicate.mpr ⟨by omega, rfl⟩)) hlt
  · rw [fitted_of_le hle]
    exact iff_of_false (fun h0 => h (List.mem_of_mem_take h0)) (by omega)

theorem tile_within_no_nul (h : HoldsString (viewOf m) s str) (hin : Within s d str) :
    0 ∉ tile m s (offset s d) n := by
  intro h0
  obtain ⟨i, -, hi⟩ := List.mem_map.mp h0
  exact string_char h (Nat.lt_of_lt_of_le (Nat.mod_lt i hin.1) hin.2) hi

/-- With the destination within the string no terminator is ever read. -/
theorem strncpyLoop_within (h : HoldsString (viewOf m) s str) (hin : Within s d str)
    (hn : n < 2 ^ 64) : strncpyLoop n m d s = blit m d (tile m s (offset s d) n) := by
  have hchars (i : Nat) (hi : i < n) : copyUp m d s i (s + BitVec.ofNat 64 i) ≠ 0 := by
    rw [copyUp_read (by omega)]
    exact string_char h (Nat.lt_of_lt_of_le (Nat.mod_lt i hin.1) hin.2)
  have hloop := strncpyLoop_copies 0 hchars
  rw [← copyUp_tile (by omega)]
  exact hloop

theorem strncpyLoop_fitted (h : HoldsString (viewOf m) s str) (hout : ¬ Within s d str)
    (hn : n < 2 ^ 64) : strncpyLoop n m d s = blit m d (fitted str n) := by
  rcases Nat.lt_or_ge str.length n with hlt | hle
  · -- the string, and zeros behind it
    obtain ⟨r, rfl⟩ : ∃ r, n = str.length + r := ⟨n - str.length, by omega⟩
    have hcopied : copyUp m d s str.length = blit m d str := by
      rw [copyUp_string h hout (by omega), List.take_left]
    have hnul := copyUp_read_nul h hout
    rw [hcopied] at hnul
    rw [strncpyLoop_copies r fun i hi => copyUp_read_char h hi, hcopied,
      strncpyLoop_pads hnul, memset_eq _ _ _ (by omega), blit_append _ _ (by simp; omega),
      fitted_add]
  · -- cut: only characters are copied
    have hloop := strncpyLoop_copies (d := d) 0 fun i (hi : i < n) => copyUp_read_char h (by omega)
    rw [copyUp_string h hout (by omega), List.take_append_of_le_length hle] at hloop
    rw [fitted_of_le hle]
    exact hloop

/-- **`strncpy`** lays down the string, cut or padded with zeros to `count` bytes; with the
destination within the string, the characters below the destination repeated.  A terminator
is among the `count` bytes exactly if there is room for one and the destination is not within. -/
theorem strncpy_writes (dest src : Addr) (count : Nat) (h : HoldsString (viewOf m) src str)
    (hcount : count < 2 ^ 64) :
    strncpy m dest src count = (dest, blit m dest
        (if Within src dest str then tile m src (offset src dest) count else fitted str count)) ∧
      (0 ∈ bytesAt (strncpy m dest src count).2 dest count ↔
        str.length < count ∧ ¬ Within src dest str) := by
  have hread {l : List Byte} (hl : l.length = count) : bytesAt (blit m dest l) dest count = l := by
    rw [bytesAt_blit_start m dest hl.ge (by omega), ← hl, List.take_length]
  by_cases hin : Within src dest str
  · rw [if_pos hin, strncpy, strncpyLoop_within h hin hcount]
    refine ⟨rfl, ?_⟩
    rw [hread (length_tile _)]
    exact iff_of_false (tile_within_no_nul h hin) fun hboth => hboth.2 hin
  · rw [if_neg hin, strncpy, strncpyLoop_fitted h hin hcount]
    refine ⟨rfl, ?_⟩
    rw [hread (length_fitted _ _), nul_mem_fitted h.no_nul]
    exact (and_iff_left hin).symm

/-- Four bytes for a string of two characters: behind it, and onto its second character. -/
theorem strncpy_writes_two :
    let m : Mem := blit (fun _ => 0) 16 [97, 98, 0]
    bytesAt (strncpy m 19 16 4).2 19 4 = [97, 98, 0, 0] ∧
      0 ∉ bytesAt (strncpy m 17 16 4).2 17 4 :=
  have h : HoldsString (viewOf (blit (fun _ => 0) 16 [97, 98, 0])) 16 [97, 98] := by decide
  ⟨by rw [(strncpy_writes 19 16 4 h (by decide)).1]; decide,
    fun h0 => ((strncpy_writes 17 16 4 h (by decide)).2.mp h0).2 (by decide)⟩

end Eeos.Str
