import Eeos.Kernel.Buffer
import Eeos.Libc.Copy
import Eeos.Libc.Search

/-!
# Buffers at the end of the address space, and texts in pieces (`kernel/printk.c`)

`vsprintf` and `sprintf` give `vsnprintf` the size `0xFFFFFFFF`, whatever the buffer is.  Where
the end of the buffer wraps around, `vsnprintf` takes the last address for it.

* `room buf size` — the bytes that `vsnprintf` takes the buffer to have.
* `vsnprintf_room` — the text is cut to the room, for every size.
* `sprintfAll` — calls of `sprintf`, each one at the NUL of the one before.

Principal results: `vsnprintf_truncates_any` (the truncation law also where `buf + size` wraps
around) and `sprintf_appends` (calls one behind the other leave their texts one behind the other).
-/

namespace Eeos.Printk

open ByteMem Ctype Str Search

/-- `va_list` and the variable arguments are the same list here. -/
def vsprintf (m : Mem) (buf : Addr) (fmt : List Byte) (args : List Arg) : Option (Int × Mem) :=
  vsnprintf m buf 0xFFFFFFFF fmt args

def sprintf (m : Mem) (buf : Addr) (fmt : List Byte) (args : List Arg) : Option (Int × Mem) :=
  vsprintf m buf fmt args

/-! ## Any size -/

/-- What is left of the size below the last address. -/
def room (buf : Addr) (size : BitVec 64) : Nat := min size.toNat (2 ^ 64 - 1 - buf.toNat)

variable {m : Mem} {buf : Addr} {size : BitVec 64} {fmt T : List Byte} {args : List Arg}

/-- The end and the size are all that the size decides. -/
theorem vsnprintf_congr {size' : BitVec 64}
    (h : (if buf + size < buf then (-1, -1 - buf) else (buf + size, size)) =
      (if buf + size' < buf then (-1, -1 - buf) else (buf + size', size'))) :
    vsnprintf m buf size fmt args = vsnprintf m buf size' fmt args := by
  simp only [vsnprintf]
  rw [h]

/-- The `end < buf` branch. -/
theorem vsnprintf_wraps (h : 2 ^ 64 ≤ buf.toNat + size.toNat) :
    vsnprintf m buf size fmt args = vsnprintf m buf (-1 - buf) fmt args := by
  have hwraps : buf + size < buf := by
    rw [BitVec.lt_def, BitVec.toNat_add]
    omega
  have hlast : buf + (-1 - buf) = -1 := by
    rw [BitVec.sub_eq_add_neg, BitVec.add_comm (-1), ← BitVec.add_assoc, BitVec.add_right_neg,
      BitVec.zero_add]
  have hnot : ¬ buf + (-1 - buf) < buf := by
    rw [hlast, BitVec.lt_def]
    have := buf.isLt
    have hones : (-1 : Addr).toNat = 2 ^ 64 - 1 := by decide
    omega
  apply vsnprintf_congr
  rw [if_pos hwraps, if_neg hnot, hlast]

/-- A size stands for its room. -/
theorem vsnprintf_eq_room :
    vsnprintf m buf size fmt args = vsnprintf m buf (BitVec.ofNat 64 (room buf size)) fmt args := by
  rcases Nat.lt_or_ge (buf.toNat + size.toNat) (2 ^ 64) with hlt | hge
  · have hroom : BitVec.ofNat 64 (room buf size) = size := by
      rw [room, Nat.min_eq_left (by omega)]
      bv_omega
    rw [hroom]
  · have hroom : BitVec.ofNat 64 (room buf size) = -1 - buf := by
      rw [room, Nat.min_eq_right (by omega)]
      bv_omega
    rw [hroom, vsnprintf_wraps hge]

theorem toNat_room (buf : Addr) (size : BitVec 64) :
    (BitVec.ofNat 64 (room buf size)).toNat = room buf size := by
  have hle : room buf size ≤ 2 ^ 64 - 1 - buf.toNat := Nat.min_le_right _ _
  rw [BitVec.toNat_ofNat, Nat.mod_eq_of_lt (by omega)]

/-- `vsnprintf` for every size. -/
theorem vsnprintf_room (h0 : 0 ∉ fmt) (hc : Counted fmt) (hT : fullText fmt args = some T)
    (hlen : T.length < 2 ^ 31) (hs : room buf size < 2 ^ 63)
    (hcur : buf.toNat + T.length < 2 ^ 64) :
    vsnprintf m buf size fmt args = some ((T.length : Int),
      if BitVec.ofNat 64 (room buf size) = 0 then m
      else blit m buf (T.take (room buf size - 1) ++ [0])) := by
  have hle : room buf size ≤ 2 ^ 64 - 1 - buf.toNat := Nat.min_le_right _ _
  have heq := vsnprintf_eq h0 hc hT hlen m buf (BitVec.ofNat 64 (room buf size))
    (by rw [toNat_room]; omega) (by rwa [toNat_room]) hcur
  rw [vsnprintf_eq_room, heq, toNat_room]

/-- **The truncation law for every size**, with the room in its place: `vsnprintf` never comes to
the last address, nor around the address space. -/
theorem vsnprintf_truncates_any (h0 : 0 ∉ fmt) (hc : Counted fmt)
    (hm : ArgsMatch fmt args) :
    ∃ T, fullText fmt args = some T ∧ (T.length < 2 ^ 31 →
      ∀ (m : Mem) (buf : Addr) (size : BitVec 64), size.toNat < 2 ^ 63 ∨ 2 ^ 63 ≤ buf.toNat →
        buf.toNat + T.length < 2 ^ 64 →
        ∃ m', vsnprintf m buf size fmt args = some ((T.length : Int), m') ∧
          Truncated T buf (BitVec.ofNat 64 (room buf size)) m m' ∧
          ∀ a, a.toNat < buf.toNat ∨ a = -1 → m' a = m a) := by
  obtain ⟨T, hT⟩ := fullText_isSome h0 hc hm
  refine ⟨T, hT, fun hlen m buf size hs hcur => ?_⟩
  have hleft : room buf size ≤ size.toNat := Nat.min_le_left _ _
  have hright : room buf size ≤ 2 ^ 64 - 1 - buf.toNat := Nat.min_le_right _ _
  have hroom : room buf size < 2 ^ 63 := by omega
  have hcut : Truncated T buf (BitVec.ofNat 64 (room buf size)) m _ :=
    truncated_blit (by rwa [toNat_room]) m
  rw [toNat_room] at hcut
  refine ⟨_, vsnprintf_room h0 hc hT hlen hroom hcur, hcut, fun a ha => ?_⟩
  apply hcut.frame
  rcases Nat.eq_zero_or_pos (room buf size) with hz | hpos
  · exact Or.inl (by rw [hz]; rfl)
  · -- below the buffer is above its room, around the address space
    have hoff : room buf size ≤ offset buf a := by
      rcases ha with hlt | rfl
      · unfold offset
        bv_omega
      · rw [offset, BitVec.toNat_sub, show (-1 : Addr).toNat = 2 ^ 64 - 1 from rfl]
        omega
    rw [toNat_room]
    omega

/-- `%3s` four bytes below address 0: two characters and the NUL. -/
theorem vsnprintf_truncates_any_top :
    ∃ m', vsnprintf (fun _ => 0xff) (-4) 0xFFFFFFFF [chr '%', chr '3', chr 's']
        [⟨0, [chr 'x', 0]⟩] = some (3, m') ∧ m' (-3) = chr ' ' ∧ m' (-2) = 0 ∧ m' (-1) = 0xff := by
  have hd : spanDirective [chr '3', chr 's'] =
      some (⟨[], some (.digits [chr '3']), none, [], chr 's', []⟩, []) := by decide +kernel
  obtain ⟨hwf, hmax, hp, -⟩ := spanDirective_sound hd
  have hfull : fullText [chr '%', chr '3', chr 's'] [⟨0, [chr 'x', 0]⟩] =
      some [chr ' ', chr ' ', chr 'x'] := by decide +kernel
  have hargs : ArgsMatch [chr '%', chr '3', chr 's'] [⟨0, [chr 'x', 0]⟩] :=
    ⟨_, [], .directive hwf hmax hp .done, ⟨0, [⟨0, [chr 'x', 0]⟩], 0, [⟨0, [chr 'x', 0]⟩], rfl, rfl,
      Or.inr ⟨_, [], rfl, fun _ => Or.inl (by decide)⟩⟩, Nat.zero_le _⟩
  obtain ⟨T, hT, h⟩ := vsnprintf_truncates_any (by decide) (.of_length (by decide)) hargs
  cases hT.symm.trans hfull
  obtain ⟨m', hrun, hcut, hframe⟩ := h (by decide) (fun _ => 0xff) (-4) 0xFFFFFFFF
    (Or.inl (by decide)) (by decide)
  exact ⟨m', hrun, hcut.text 1 (by decide) (by decide), hcut.nul (by decide),
    hframe (-1) (Or.inr rfl)⟩

/-! ## `sprintf` -/

/-- `sprintf` has room for every text that ends below the last address. -/
theorem sprintf_eq (h0 : 0 ∉ fmt) (hc : Counted fmt) (hT : fullText fmt args = some T)
    (hlen : T.length < 2 ^ 31) (hend : buf.toNat + T.length + 1 < 2 ^ 64) :
    sprintf m buf fmt args = some ((T.length : Int), blit m buf (T ++ [0])) := by
  have hle : room buf 0xFFFFFFFF ≤ 0xFFFFFFFF := Nat.min_le_left _ _
  have hfits : T.length + 1 ≤ room buf 0xFFFFFFFF := by
    apply Nat.le_min.mpr
    refine ⟨?_, by omega⟩
    rw [show (0xFFFFFFFF : BitVec 64).toNat = 0xFFFFFFFF from rfl]
    omega
  have hne : BitVec.ofNat 64 (room buf 0xFFFFFFFF) ≠ 0 := by
    intro hz
    have hnat := toNat_room buf 0xFFFFFFFF
    rw [hz, show (0 : BitVec 64).toNat = 0 from rfl] at hnat
    omega
  rw [sprintf, vsprintf, vsnprintf_room h0 hc hT hlen (by omega) (by omega), if_neg hne,
    List.take_of_length_le (by omega)]

/-- Calls of `sprintf`, each one where the one before put its NUL. -/
def sprintfAll : Mem → Addr → List (List Byte × List Arg) → Option (Int × Mem)
  | m, _, [] => some (0, m)
  | m, buf, (fmt, args) :: calls => do
    let (n, m) ← sprintf m buf fmt args
    let (k, m) ← sprintfAll m (buf + BitVec.ofInt 64 n) calls
    some (n + k, m)

/-- The call has the text `T`. -/
structure HasText (call : List Byte × List Arg) (T : List Byte) : Prop where
  no_nul : 0 ∉ call.1
  counted : Counted call.1
  text : fullText call.1 call.2 = some T

/-- One call more: its text replaces the NUL. -/
theorem sprintf_behind {l : List Byte} {call : List Byte × List Arg} (h : HasText call T)
    (hlen : T.length < 2 ^ 31) (hend : buf.toNat + l.length + T.length + 1 < 2 ^ 64) :
    sprintf (blit m buf (l ++ [0])) (buf + BitVec.ofNat 64 l.length) call.1 call.2 =
      some ((T.length : Int), blit m buf (l ++ (T ++ [0]))) := by
  have haddr : (buf + BitVec.ofNat 64 l.length).toNat = buf.toNat + l.length := by bv_omega
  rw [sprintf_eq h.no_nul h.counted h.text hlen (by omega),
    blit_overwrite m buf (by simp) (by simp; omega)]

theorem sprintfAll_behind {l : List Byte} {calls : List (List Byte × List Arg)}
    {Ts : List (List Byte)} (h : List.Forall₂ HasText calls Ts) (hlen : Ts.flatten.length < 2 ^ 31)
    (hend : buf.toNat + l.length + Ts.flatten.length + 1 < 2 ^ 64) :
    sprintfAll (blit m buf (l ++ [0])) (buf + BitVec.ofNat 64 l.length) calls =
      some ((Ts.flatten.length : Int), blit m buf (l ++ (Ts.flatten ++ [0]))) := by
  induction h generalizing l with
  | nil => rfl
  | @cons call T calls Ts hcall _ ih =>
    rw [List.flatten_cons, List.length_append] at hlen hend
    have hnext := ih (l := l ++ T) (by omega) (by rw [List.length_append]; omega)
    have haddr : buf + BitVec.ofNat 64 l.length + BitVec.ofInt 64 (T.length : Int) =
        buf + BitVec.ofNat 64 (l ++ T).length := by
      rw [List.length_append, BitVec.ofInt_natCast, addr_add_add]
    rw [List.append_assoc] at hnext
    rw [sprintfAll, sprintf_behind hcall (by omega) (by omega)]
    simp only [Option.bind_eq_bind, Option.bind_some]
    rw [haddr, hnext]
    simp

/-- **`sprintf` calls, each one at the NUL of the one before**, leave their texts one after the
other, and the results add up to the length. -/
theorem sprintf_appends (m : Mem) (buf : Addr) {calls : List (List Byte × List Arg)}
    {Ts : List (List Byte)} (h : List.Forall₂ HasText calls Ts) (hne : calls ≠ [])
    (hlen : Ts.flatten.length < 2 ^ 31) (hend : buf.toNat + Ts.flatten.length + 1 < 2 ^ 64) :
    sprintfAll m buf calls =
        some ((Ts.flatten.length : Int), blit m buf (Ts.flatten ++ [0])) ∧
      ∀ fuel, Ts.flatten.length < fuel → 0 ∉ Ts.flatten →
        strlen fuel (viewOf (blit m buf (Ts.flatten ++ [0]))) buf =
          some (BitVec.ofNat 64 Ts.flatten.length) := by
  constructor
  · cases h with
    | nil => exact absurd rfl hne
    | @cons call T calls Ts hcall hcalls =>
      rw [List.flatten_cons, List.length_append] at hlen hend
      have hrest := @sprintfAll_behind m buf T calls Ts hcalls (by omega) (by omega)
      rw [sprintfAll, sprintf_eq hcall.no_nul hcall.counted hcall.text (by omega) (by omega)]
      simp only [Option.bind_eq_bind, Option.bind_some]
      rw [BitVec.ofInt_natCast, hrest]
      simp
  · intro fuel hfuel h0
    exact strlen_string (holdsString_blit h0 (by omega)) hfuel

/-- `%d` and then `-%c`. -/
theorem sprintf_appends_d_c :
    ∃ m', sprintfAll (fun _ => 0xff) 0x1000
        [([chr '%', chr 'd'], [⟨7, []⟩]), ([chr '-', chr '%', chr 'c'], [⟨0x41, []⟩])] =
        some (3, m') ∧
      strlen 4 (viewOf m') 0x1000 = some 3 := by
  have hcalls : List.Forall₂ HasText
      [([chr '%', chr 'd'], [⟨7, []⟩]), ([chr '-', chr '%', chr 'c'], [⟨0x41, []⟩])]
      [[chr '7'], [chr '-', chr 'A']] :=
    .cons ⟨by decide, .of_length (by decide), by decide +kernel⟩
      (.cons ⟨by decide, .of_length (by decide), by decide +kernel⟩ .nil)
  obtain ⟨hrun, hstrlen⟩ := sprintf_appends (fun _ => 0xff) 0x1000 hcalls (List.cons_ne_nil _ _)
    (by decide) (by decide)
  exact ⟨_, hrun, hstrlen 4 (by decide) (by decide)⟩

end Eeos.Printk
