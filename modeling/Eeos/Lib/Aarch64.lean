import Eeos.Lib.ByteMem

/-!
# A fragment of AArch64

The instructions that save and restore a context: 64-bit loads and stores at an offset from `sp`,
moves between a general register and a system register, and the adjustment of `sp`.  Memory is
little-endian; an access does not fault.

* `slot m base i` — the `i`-th doubleword from `base` on.
* `run_stores` / `run_loads` — straight-line code that only stores, or only loads, as one list of
  registers with their offsets.

Principal results: `slot_stored` (what such a list of stores leaves in memory) and `reg_loaded` (what
such a list of loads leaves in the registers).
-/

namespace Aarch64

open ByteMem

abbrev Word := BitVec 64

/-! ## Doublewords in memory -/

/-- The bytes of a doubleword, the lowest first. -/
def bytesOf (v : Word) : List Byte := (List.range 8).map fun i => v.extractLsb' (8 * i) 8

def ofBytes (l : List Byte) : Word :=
  BitVec.ofNat 64 (l.foldr (fun b acc => b.toNat + 256 * acc) 0)

def store64 (m : Mem) (a : Addr) (v : Word) : Mem := blit m a (bytesOf v)

def load64 (m : Mem) (a : Addr) : Word := ofBytes (bytesAt m a 8)

@[simp] theorem length_bytesOf (v : Word) : (bytesOf v).length = 8 := by simp [bytesOf]

theorem ofBytes_bytesOf (v : Word) : ofBytes (bytesOf v) = v := by
  apply BitVec.eq_of_toNat_eq
  have hv := v.isLt
  have hrange : List.range 8 = [0, 1, 2, 3, 4, 5, 6, 7] := rfl
  simp only [ofBytes, bytesOf, hrange, List.map_cons, List.map_nil, List.foldr_cons, List.foldr_nil,
    BitVec.extractLsb'_toNat, Nat.shiftRight_eq_div_pow, BitVec.toNat_ofNat, Nat.reduceMul,
    Nat.reducePow]
  omega

theorem load64_store64 (m : Mem) (a : Addr) (v : Word) : load64 (store64 m a v) a = v := by
  have h := bytesAt_blit_start m a (l := bytesOf v) (n := 8) (by simp) (by simp)
  rw [load64, store64, h, List.take_of_length_le (by simp), ofBytes_bytesOf]

/-- The lowest byte of a doubleword is the one at its address. -/
theorem toNat_load64_mod (m : Mem) (a : Addr) : (load64 m a).toNat % 256 = (m a).toNat := by
  have hzero : a + BitVec.ofNat 64 0 = a := BitVec.add_zero a
  have hlt : (m a).toNat < 256 := (m a).isLt
  simp only [load64, ofBytes, bytesAt, List.range_succ_eq_map, List.map_cons, List.foldr_cons, hzero,
    BitVec.toNat_ofNat]
  omega

theorem store64_off (m : Mem) {a b : Addr} (v : Word) (h : 8 ≤ offset a b) :
    store64 m a v b = m b := by
  apply blit_off
  rw [length_bytesOf]
  exact h

/-- The address of the `i`-th doubleword from `base` on. -/
def slotAddr (base : Addr) (i : Nat) : Addr := base + BitVec.ofNat 64 (8 * i)

def slot (m : Mem) (base : Addr) (i : Nat) : Word := load64 m (slotAddr base i)

/-- Memories that agree on a doubleword. -/
theorem slot_congr {m m' : Mem} {base : Addr} {i : Nat}
    (h : ∀ k < 8, m' (base + BitVec.ofNat 64 (8 * i + k)) = m (base + BitVec.ofNat 64 (8 * i + k))) :
    slot m' base i = slot m base i := by
  unfold slot load64 bytesAt slotAddr
  congr 1
  apply List.map_congr_left
  intro k hk
  rw [addr_add_add]
  exact h k (List.mem_range.1 hk)

theorem slot_store64 (m : Mem) (base : Addr) {i j : Nat} (hi : i < 2 ^ 60) (hj : j < 2 ^ 60)
    (v : Word) :
    slot (store64 m (slotAddr base i) v) base j = if j = i then v else slot m base j := by
  split
  · rename_i h
    subst h
    exact load64_store64 m _ v
  · rename_i h
    apply slot_congr
    intro k hk
    apply store64_off
    have hoff := offset_base_add base (base + BitVec.ofNat 64 (8 * j + k)) (n := 8 * i) (by omega)
    rw [offset_add base (by omega)] at hoff
    rw [slotAddr, hoff]
    split <;> omega

/-- A store into the first `n` doublewords leaves everything else. -/
theorem store64_slot_off (m : Mem) {base a : Addr} {i n : Nat} (hi : i < n) (hn : n < 2 ^ 60)
    (v : Word) (h : 8 * n ≤ offset base a) : store64 m (slotAddr base i) v a = m a := by
  apply store64_off
  have hoff := offset_base_add base a (n := 8 * i) (by omega)
  rw [slotAddr, hoff, if_pos (by omega)]
  omega

/-! ## Instructions -/

structure Cpu where
  x : Fin 31 → Word
  sp : Word
  elr : Word
  spsr : Word
  mem : Mem

inductive Instr where
  | subSp (imm : Nat)
  | addSp (imm : Nat)
  | stp (t u : Fin 31) (imm : Nat)
  | ldp (t u : Fin 31) (imm : Nat)
  | str (t : Fin 31) (imm : Nat)
  | ldr (t : Fin 31) (imm : Nat)
  | mrsElr (t : Fin 31)
  | mrsSpsr (t : Fin 31)
  | msrElr (t : Fin 31)
  | msrSpsr (t : Fin 31)

namespace Cpu

variable (s : Cpu)

def store (t : Fin 31) (imm : Nat) : Cpu :=
  { s with mem := store64 s.mem (s.sp + BitVec.ofNat 64 imm) (s.x t) }

def load (t : Fin 31) (imm : Nat) : Cpu :=
  { s with x := Function.update s.x t (load64 s.mem (s.sp + BitVec.ofNat 64 imm)) }

end Cpu

def exec (i : Instr) (s : Cpu) : Cpu :=
  match i with
  | .subSp imm => { s with sp := s.sp - BitVec.ofNat 64 imm }
  | .addSp imm => { s with sp := s.sp + BitVec.ofNat 64 imm }
  | .stp t u imm => (s.store t imm).store u (imm + 8)
  | .ldp t u imm => (s.load t imm).load u (imm + 8)
  | .str t imm => s.store t imm
  | .ldr t imm => s.load t imm
  | .mrsElr t => { s with x := Function.update s.x t s.elr }
  | .mrsSpsr t => { s with x := Function.update s.x t s.spsr }
  | .msrElr t => { s with elr := s.x t }
  | .msrSpsr t => { s with spsr := s.x t }

/-- Straight-line code. -/
def run (is : List Instr) (s : Cpu) : Cpu := is.foldl (fun s i => exec i s) s

theorem run_cons (i : Instr) (is : List Instr) (s : Cpu) : run (i :: is) s = run is (exec i s) := rfl

theorem run_append (is js : List Instr) (s : Cpu) : run (is ++ js) s = run js (run is s) :=
  List.foldl_append

/-! ## Code that only stores or only loads -/

/-- The registers that an instruction stores, or loads, with their offsets. -/
def Instr.moved : Instr → List (Fin 31 × Nat)
  | .stp t u imm => [(t, imm), (u, imm + 8)]
  | .ldp t u imm => [(t, imm), (u, imm + 8)]
  | .str t imm => [(t, imm)]
  | .ldr t imm => [(t, imm)]
  | _ => []

def Instr.isStore : Instr → Bool
  | .stp .. => true
  | .str .. => true
  | _ => false

def Instr.isLoad : Instr → Bool
  | .ldp .. => true
  | .ldr .. => true
  | _ => false

theorem exec_store {i : Instr} (h : i.isStore = true) (s : Cpu) :
    exec i s = i.moved.foldl (fun s p => s.store p.1 p.2) s := by
  cases i <;> first | rfl | cases h

theorem exec_load {i : Instr} (h : i.isLoad = true) (s : Cpu) :
    exec i s = i.moved.foldl (fun s p => s.load p.1 p.2) s := by
  cases i <;> first | rfl | cases h

theorem run_stores {is : List Instr} (h : ∀ i ∈ is, i.isStore = true) (s : Cpu) :
    run is s = (is.flatMap Instr.moved).foldl (fun s p => s.store p.1 p.2) s := by
  induction is generalizing s with
  | nil => rfl
  | cons i is ih =>
    rw [List.forall_mem_cons] at h
    rw [run_cons, ih h.2, exec_store h.1, List.flatMap_cons, List.foldl_append]

theorem run_loads {is : List Instr} (h : ∀ i ∈ is, i.isLoad = true) (s : Cpu) :
    run is s = (is.flatMap Instr.moved).foldl (fun s p => s.load p.1 p.2) s := by
  induction is generalizing s with
  | nil => rfl
  | cons i is ih =>
    rw [List.forall_mem_cons] at h
    rw [run_cons, ih h.2, exec_load h.1, List.flatMap_cons, List.foldl_append]

section Moves

variable {ps : List (Fin 31 × Nat)}

/-- Stores change the memory only. -/
theorem stores_frame (ps : List (Fin 31 × Nat)) (s : Cpu) :
    ps.foldl (fun s p => s.store p.1 p.2) s =
      { s with mem := (ps.foldl (fun s p => s.store p.1 p.2) s).mem } := by
  induction ps generalizing s with
  | nil => rfl
  | cons p ps ih => rw [List.foldl_cons, ih]; rfl

/-- Loads change the registers only. -/
theorem loads_frame (ps : List (Fin 31 × Nat)) (s : Cpu) :
    ps.foldl (fun s p => s.load p.1 p.2) s =
      { s with x := (ps.foldl (fun s p => s.load p.1 p.2) s).x } := by
  induction ps generalizing s with
  | nil => rfl
  | cons p ps ih => rw [List.foldl_cons, ih]; rfl

theorem slot_store (p : Fin 31 × Nat) (hp : p.2 = 8 * p.1.val) (s : Cpu) (j : Fin 31) :
    slot (s.store p.1 p.2).mem s.sp j = if j.val = p.1.val then s.x p.1 else slot s.mem s.sp j := by
  have hstep := slot_store64 s.mem s.sp (i := p.1.val) (j := j.val) (by omega) (by omega) (s.x p.1)
  rw [← hstep, Cpu.store, hp]
  rfl

/-- Registers stored each in the slot of its number: the slots of the others. -/
theorem slot_not_stored (hps : ∀ p ∈ ps, p.2 = 8 * p.1.val) (s : Cpu) {j : Fin 31}
    (hj : j ∉ ps.map Prod.fst) :
    slot (ps.foldl (fun s p => s.store p.1 p.2) s).mem s.sp j = slot s.mem s.sp j := by
  induction ps generalizing s with
  | nil => rfl
  | cons p ps ih =>
    rw [List.forall_mem_cons] at hps
    rw [List.map_cons, List.mem_cons, not_or] at hj
    have hne : j.val ≠ p.1.val := fun h => hj.1 (Fin.ext h)
    have hrest := ih hps.2 (s.store p.1 p.2) hj.2
    have hsp : (s.store p.1 p.2).sp = s.sp := rfl
    rw [hsp, slot_store p hps.1, if_neg hne] at hrest
    exact hrest

/-- Registers stored each in the slot of its number: their slots. -/
theorem slot_stored (hps : ∀ p ∈ ps, p.2 = 8 * p.1.val) (s : Cpu) {j : Fin 31}
    (hj : j ∈ ps.map Prod.fst) :
    slot (ps.foldl (fun s p => s.store p.1 p.2) s).mem s.sp j = s.x j := by
  induction ps generalizing s with
  | nil => exact absurd hj List.not_mem_nil
  | cons p ps ih =>
    rw [List.forall_mem_cons] at hps
    have hsp : (s.store p.1 p.2).sp = s.sp := rfl
    by_cases hmem : j ∈ ps.map Prod.fst
    · have hrest := ih hps.2 (s.store p.1 p.2) hmem
      rw [hsp] at hrest
      rw [List.foldl_cons, hrest]
      rfl
    · have hrest := slot_not_stored hps.2 (s.store p.1 p.2) hmem
      rw [List.map_cons, List.mem_cons, or_iff_left hmem] at hj
      rw [hsp, slot_store p hps.1, if_pos (congrArg Fin.val hj)] at hrest
      rw [List.foldl_cons, hrest, hj]

theorem load_x (p : Fin 31 × Nat) (hp : p.2 = 8 * p.1.val) (s : Cpu) :
    (s.load p.1 p.2).x = Function.update s.x p.1 (slot s.mem s.sp p.1) := by
  rw [Cpu.load, hp]
  rfl

/-- Registers loaded each from the slot of its number: the others. -/
theorem reg_not_loaded (s : Cpu) {j : Fin 31} (hj : j ∉ ps.map Prod.fst) :
    (ps.foldl (fun s p => s.load p.1 p.2) s).x j = s.x j := by
  induction ps generalizing s with
  | nil => rfl
  | cons p ps ih =>
    rw [List.map_cons, List.mem_cons, not_or] at hj
    rw [List.foldl_cons, ih (s.load p.1 p.2) hj.2]
    exact Function.update_of_ne hj.1 _ _

/-- Registers loaded each from the slot of its number. -/
theorem reg_loaded (hps : ∀ p ∈ ps, p.2 = 8 * p.1.val) (s : Cpu) {j : Fin 31}
    (hj : j ∈ ps.map Prod.fst) :
    (ps.foldl (fun s p => s.load p.1 p.2) s).x j = slot s.mem s.sp j := by
  induction ps generalizing s with
  | nil => exact absurd hj List.not_mem_nil
  | cons p ps ih =>
    rw [List.forall_mem_cons] at hps
    rw [List.foldl_cons]
    by_cases hmem : j ∈ ps.map Prod.fst
    · rw [ih hps.2 (s.load p.1 p.2) hmem]
      rfl
    · rw [List.map_cons, List.mem_cons, or_iff_left hmem] at hj
      rw [reg_not_loaded (s.load p.1 p.2) hmem, load_x p hps.1, hj, Function.update_self]

/-- Stores into the first `n` slots leave the memory elsewhere. -/
theorem mem_stored {n : Nat} (hn : n < 2 ^ 60) (hps : ∀ p ∈ ps, ∃ i < n, p.2 = 8 * i) (s : Cpu)
    {a : Addr} (h : 8 * n ≤ offset s.sp a) :
    (ps.foldl (fun s p => s.store p.1 p.2) s).mem a = s.mem a := by
  induction ps generalizing s with
  | nil => rfl
  | cons p ps ih =>
    rw [List.forall_mem_cons] at hps
    obtain ⟨i, hi, hp⟩ := hps.1
    rw [List.foldl_cons, ih hps.2 (s.store p.1 p.2) h, Cpu.store, hp]
    exact store64_slot_off s.mem hi hn _ h

end Moves

end Aarch64
