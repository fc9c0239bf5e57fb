import Eeos.Lib.ByteMem

/-!
# Character classes (`lib/ctype.c`, `include/lib/ctype.h`)

The class table `ctype` and the predicates that `printk.c` and `string.c` read from it.  `char` is
unsigned on this target, so a character is a `Byte` and `(int)(unsigned char)(x)` is its value.
-/

namespace Eeos.Ctype

open ByteMem

/-- A character constant of the source. -/
def chr (c : Char) : Byte := BitVec.ofNat 8 c.toNat

/-- Comparisons of character constants are decided by their codes. -/
@[simp] theorem chr_eq_chr (a b : Char) : chr a = chr b ↔ a.toNat % 256 = b.toNat % 256 := by
  unfold chr; bv_omega

@[simp] theorem chr_eq_zero (a : Char) : chr a = 0#8 ↔ a.toNat % 256 = 0 := by
  unfold chr; bv_omega

@[simp] theorem zero_eq_chr (a : Char) : 0#8 = chr a ↔ a.toNat % 256 = 0 := by
  unfold chr; bv_omega

def U : Byte := 0x01
def L : Byte := 0x02
def D : Byte := 0x04
def C : Byte := 0x08
def P : Byte := 0x10
def S : Byte := 0x20
def X : Byte := 0x40
def SP : Byte := 0x80

/-- `_ctype`: the class bits of each character. -/
def ctype : Array Byte := #[
  C, C, C, C, C, C, C, C,
  C, C ||| S, C ||| S, C ||| S, C ||| S, C ||| S, C, C,
  C, C, C, C, C, C, C, C,
  C, C, C, C, C, C, C, C,
  S ||| SP, P, P, P, P, P, P, P,
  P, P, P, P, P, P, P, P,
  D, D, D, D, D, D, D, D,
  D, D, P, P, P, P, P, P,
  P, U ||| X, U ||| X, U ||| X, U ||| X, U ||| X, U ||| X, U,
  U, U, U, U, U, U, U, U,
  U, U, U, U, U, U, U, U,
  U, U, U, P, P, P, P, P,
  P, L ||| X, L ||| X, L ||| X, L ||| X, L ||| X, L ||| X, L,
  L, L, L, L, L, L, L, L,
  L, L, L, L, L, L, L, L,
  L, L, L, P, P, P, P, C,
  0, 0, 0, 0, 0, 0, 0, 0,
  0, 0, 0, 0, 0, 0, 0, 0,
  0, 0, 0, 0, 0, 0, 0, 0,
  0, 0, 0, 0, 0, 0, 0, 0,
  S ||| SP, P, P, P, P, P, P, P,
  P, P, P, P, P, P, P, P,
  P, P, P, P, P, P, P, P,
  P, P, P, P, P, P, P, P,
  U, U, U, U, U, U, U, U,
  U, U, U, U, U, U, U, U,
  U, U, U, U, U, U, U, P,
  U, U, U, U, U, U, U, L,
  L, L, L, L, L, L, L, L,
  L, L, L, L, L, L, L, L,
  L, L, L, L, L, L, L, P,
  L, L, L, L, L, L, L, L]

/-- `__ismask`. -/
def ismask (c : Byte) : Byte := ctype.getD c.toNat 0

def isalnum (c : Byte) : Bool := ismask c &&& (U ||| L ||| D) != 0

def isupper (c : Byte) : Bool := ismask c &&& U != 0

def isxdigit (c : Byte) : Bool := ismask c &&& (D ||| X) != 0

def isdigit (c : Byte) : Bool := chr '0' ≤ c && c ≤ chr '9'

/-- `__tolower`, the function behind the macro `tolower`. -/
def tolower (c : Byte) : Byte := if isupper c then c - (chr 'A' - chr 'a') else c

/-- `_tolower`: the fast form, which only sets bit 5. -/
def tolowerFast (c : Byte) : Byte := c ||| 0x20

/-- What holds of the table entry by entry holds of the class of every character. -/
theorem ismask_table {α : Type} {f : Byte → α} {g : Nat → α}
    (h : ctype.toList.map f = (List.range 256).map g) (c : Byte) : f (ismask c) = g c.toNat := by
  have hlt : c.toNat < (List.range 256).length := by
    rw [List.length_range]
    exact c.isLt
  have hsize : c.toNat < ctype.toList.length := by
    rw [← List.length_map (f := f), h, List.length_map]
    exact hlt
  have hat : (ctype.toList.map f)[c.toNat]? = ((List.range 256).map g)[c.toNat]? := by rw [h]
  rw [List.getElem?_map, List.getElem?_map, List.getElem?_eq_getElem hlt, List.getElem_range,
    List.getElem?_eq_getElem hsize] at hat
  rw [ismask, Array.getD_eq_getD_getElem?, ← Array.getElem?_toList,
    List.getElem?_eq_getElem hsize, Option.getD_some]
  exact Option.some.inj hat

theorem class_nul : isalnum 0 = false ∧ isxdigit 0 = false := by decide +kernel

theorem isalnum_nul : isalnum 0 = false := class_nul.1

theorem isdigit_nul : isdigit 0 = false := by decide

theorem isxdigit_nul : isxdigit 0 = false := class_nul.2

theorem class_x : (isupper (chr 'x') = false ∧ isxdigit (chr 'x') = false) ∧
    isupper (chr 'X') = true ∧ isxdigit (chr 'X') = false := by decide +kernel

theorem tolower_eq_x (c : Byte) : tolower c = chr 'x' ↔ c = chr 'x' ∨ c = chr 'X' := by
  obtain ⟨⟨hlower, -⟩, hupper, -⟩ := class_x
  have hshift : chr 'A' - chr 'a' = 0xE0 ∧ chr 'x' = 0x78 ∧ chr 'X' = 0x58 := by decide
  unfold tolower
  constructor
  · intro h
    split at h
    · rw [hshift.1, hshift.2.1] at h
      rw [hshift.2.2]
      exact Or.inr (by bv_omega)
    · exact Or.inl h
  · rintro (rfl | rfl)
    · rw [hlower]
      rfl
    · rw [if_pos hupper]
      rfl

theorem tolower_nul : tolower 0 ≠ chr 'x' := by
  rw [ne_eq, tolower_eq_x]
  decide

end Eeos.Ctype
