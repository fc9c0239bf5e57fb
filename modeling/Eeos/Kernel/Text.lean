import Eeos.Kernel.Segments

/-!
# The text of a format

`textSink` only collects the characters, so a run on it gives the text that `vsnprintf` would
write into an unbounded buffer: `fullText`.

* `number_eq` — `number` feeds `numberText` to the cursor, one character after the other;
  `padChar_eq` and `charField_eq` say the same of `%c`.
* `Simulates S φ ok` — the sink `S` at `φ t` does what `textSink` does at `t`, as long as the text
  stays `ok`.

Principal results: `runSegments_sim` — one simulation, on `put`, `copy` and `shift`, carries
every emitter and every run; `runSegments_text_append` — `textSink` simulates itself from any text
already there.
-/

namespace Eeos.Printk

open ByteMem Ctype CLoop

variable {σ : Type}

/-- Collects the characters. -/
def textSink : Sink (List Byte) where
  put t c := t ++ [c]
  copy t fmt read := some (t ++ fmt.take read.toNat)
  shift t n spaces :=
    t.take (t.length - n.toNat) ++ List.replicate spaces.toNat (chr ' ') ++
      t.drop (t.length - n.toNat)

/-- The text of a format with its arguments, and the arguments it leaves. -/
def textRun (fmt : List Byte) (args : List Arg) : Option (List Byte × List Arg) :=
  vsnprintfLoop textSink (fmt.length + 1) ⟨fmt, .zero, args, []⟩

def fullText (fmt : List Byte) (args : List Arg) : Option (List Byte) :=
  (textRun fmt args).map Prod.fst

/-! ## Emitters that only append -/

/-- `l` goes to the cursor, one character after the other. -/
def putAll (S : Sink σ) (str : σ) (l : List Byte) : σ := l.foldl S.put str

@[simp] theorem putAll_nil (S : Sink σ) (str : σ) : putAll S str [] = str := rfl

@[simp] theorem putAll_cons (S : Sink σ) (str : σ) (c : Byte) (l : List Byte) :
    putAll S str (c :: l) = putAll S (S.put str c) l := rfl

theorem putAll_append (S : Sink σ) (str : σ) (l l' : List Byte) :
    putAll S str (l ++ l') = putAll S (putAll S str l) l' := List.foldl_append

/-- A loop that puts the same character every round. -/
theorem whileDec_put (S : Sink σ) (lo : Int) (c : Byte) (n : Int) (str : σ) :
    whileDec lo (fun _ str => S.put str c) n str =
      (putAll S str (List.replicate (n - 1 - lo).toNat c), min (n - 1) lo) := by
  apply Prod.ext
  · rw [whileDec_fst lo S.put (fun _ => c), map_const_rounds]
    rfl
  · exact whileDec_snd _ _ _ _

theorem putAll_ite (S : Sink σ) (p : Prop) [Decidable p] (l : List Byte) (str : σ) :
    (if p then putAll S str l else str) = putAll S str (if p then l else []) := by
  split <;> rfl

theorem put_ite (S : Sink σ) (p : Prop) [Decidable p] (c : Byte) (str : σ) :
    (if p then S.put str c else str) = putAll S str (if p then [c] else []) := by
  split <;> rfl

/-- The text of `number`. -/
def numberText (num : BitVec 64) (spec : PrintfSpec) : List Byte :=
  let needPfx := spec.has SPECIAL && spec.base != 10
  let isZero := num == 0
  let locase := spec.flags &&& SMALL
  let spec := dropZeropad spec
  let (sign, num, fieldWidth) := numberSign spec num spec.fieldWidth.toInt
  let fieldWidth :=
    if needPfx then
      if spec.base = 16 then fieldWidth - 2 else if !isZero then fieldWidth - 1 else fieldWidth
    else fieldWidth
  let (tmp, i) := numberDigits num spec.base locase
  let precision := spec.precision.toInt
  let precision := if precision < i then (i : Int) else precision
  let fieldWidth := fieldWidth - precision
  let leading :=
    if !spec.has (ZEROPAD ||| LEFT) then List.replicate (fieldWidth - 1).toNat (chr ' ') else []
  let fieldWidth := if !spec.has (ZEROPAD ||| LEFT) then min (fieldWidth - 1) 0 else fieldWidth
  let prefixed :=
    if needPfx then
      (if spec.base = 16 || !isZero then [chr '0'] else []) ++
        (if spec.base = 16 then [chr 'X' ||| locase] else [])
    else []
  let padding :=
    if !spec.has LEFT then
      List.replicate fieldWidth.toNat (chr ' ' + (spec.flags &&& ZEROPAD))
    else []
  let fieldWidth := if !spec.has LEFT then min (fieldWidth - 1) (-1) else fieldWidth
  leading ++ (if sign != 0 then [sign] else []) ++ prefixed ++ padding ++
    List.replicate (precision - i).toNat (chr '0') ++
    (rounds (-1) i).map (fun j => tmp j.toNat) ++ List.replicate fieldWidth.toNat (chr ' ')

/-- `number` is `numberText`, put one character after the other. -/
theorem number_eq (S : Sink σ) (str : σ) (num : BitVec 64) (spec : PrintfSpec) :
    number S str num spec = putAll S str (numberText num spec) := by
  have hd : ∀ (tmp : Tmp) (i : Nat) (str : σ),
      (whileDec (-1) (fun j buf => S.put buf (tmp j.toNat)) i str).1 =
        putAll S str ((rounds (-1) i).map fun j => tmp j.toNat) :=
    fun tmp i str => whileDec_fst (-1) S.put (fun j => tmp j.toNat) i str
  simp only [number, numberText, whileDec_put, hd, apply_ite Prod.fst, apply_ite Prod.snd,
    put_ite, ← putAll_append, putAll_ite, sub_zero, sub_neg_eq_add, sub_add_cancel,
    sub_sub_sub_cancel_right, List.append_assoc]
  by_cases hp : (spec.has SPECIAL && spec.base != 10) = true
  · simp only [hp, if_true, ← putAll_append, List.append_assoc]
  · simp only [hp, Bool.false_eq_true, if_false, ← putAll_append, List.append_assoc,
      List.nil_append]

/-- The padding of `%c` does not depend on the cursor. -/
theorem padChar_eq (fw : BitVec 24) :
    ∃ l fw', ∀ {σ : Type} (S : Sink σ) (str : σ), padChar S fw str = (putAll S str l, fw') := by
  have loop : ∀ fuel (fw : BitVec 24), ∃ l fw', ∀ {σ : Type} (S : Sink σ) (str : σ),
      padCharLoop S fuel fw str = (putAll S str l, fw') := by
    intro fuel
    induction fuel with
    | zero => intro fw; exact ⟨[], fw - 1, fun S str => rfl⟩
    | succ fuel ih =>
      intro fw
      obtain ⟨l, fw', h⟩ := ih (fw - 1)
      by_cases hpos : 0 < (fw - 1).toInt
      · exact ⟨chr ' ' :: l, fw', fun S str => by rw [padCharLoop, if_pos hpos, h, putAll_cons]⟩
      · exact ⟨[], fw - 1, fun S str => by rw [padCharLoop, if_neg hpos, putAll_nil]⟩
  exact loop _ _

theorem charField_eq (c : Byte) (spec : PrintfSpec) :
    ∃ l spec', ∀ {σ : Type} (S : Sink σ) (str : σ),
      charField S str c spec = (putAll S str l, spec') := by
  by_cases hl : spec.has LEFT = true
  · obtain ⟨l, fw, h⟩ := padChar_eq spec.fieldWidth
    exact ⟨c :: l, { spec with fieldWidth := fw }, fun S str => by simp [charField, hl, h]⟩
  · obtain ⟨l, fw, h⟩ := padChar_eq spec.fieldWidth
    obtain ⟨l', fw', h'⟩ := padChar_eq fw
    exact ⟨l ++ c :: l', { spec with fieldWidth := fw' }, fun S str => by
      simp [charField, hl, h, h', putAll_append]⟩

/-- The characters that `string` takes from its argument, before any padding. -/
def stringText : List Byte → BitVec 32 → Option (List Byte)
  | [], lim => if lim = 0 then some [] else none
  | c :: s, lim =>
    if lim = 0 then some [] else if c = 0 then some [] else (stringText s (lim - 1)).map (c :: ·)

theorem stringLoop_eq (S : Sink σ) (s : List Byte) (lim len : BitVec 32) (str : σ) :
    stringLoop S s lim len str =
      (stringText s lim).map fun u => (putAll S str u, len + BitVec.ofNat 32 u.length) := by
  induction s generalizing lim len str with
  | nil =>
    rw [stringLoop, stringText]
    split <;> simp
  | cons c s ih =>
    rw [stringLoop, stringText]
    split
    · simp
    · split
      · simp
      · rw [ih]
        cases stringText s (lim - 1) with
        | none => rfl
        | some u =>
          have : len + 1#32 + BitVec.ofNat 32 u.length =
              len + BitVec.ofNat 32 (u.length + 1) := by bv_omega
          simp [this]

/-! ## Simulation of the text by a sink -/

/-- `S` at `φ t` does what `textSink` does at `t`, while the length of the text is `ok`. -/
structure Simulates (S : Sink σ) (φ : List Byte → σ) (ok : Nat → Prop) : Prop where
  mono : ∀ {m n}, m ≤ n → ok n → ok m
  put : ∀ t c, ok (t.length + 1) → S.put (φ t) c = φ (t ++ [c])
  copy : ∀ t l r, ok (t.length + l.length) → S.copy (φ t) (l ++ r) l.length = some (φ (t ++ l))
  shift : ∀ t n spaces, n.toNat ≤ t.length → (t.length < 2 ^ 31 → 0 ≤ n) →
    ok (t.length + spaces.toNat) → S.shift (φ t) n spaces = φ (textSink.shift t n spaces)

@[simp] theorem putAll_textSink (t l : List Byte) : putAll textSink t l = t ++ l := by
  induction l generalizing t with
  | nil => simp
  | cons c l ih => rw [putAll_cons, ih]; simp [textSink]

theorem length_shift (t : List Byte) (n : Int) (spaces : BitVec 32) :
    (textSink.shift t n spaces).length = t.length + spaces.toNat := by
  simp [textSink]
  omega

theorem length_widenString (t : List Byte) (n : Int) (spec : PrintfSpec) :
    t.length ≤ (widenString textSink t n spec).length := by
  have hp (l : List Byte) : l.foldl textSink.put t = t ++ l := putAll_textSink t l
  simp only [widenString, hp]
  split
  · exact Nat.le_refl _
  · split
    · rw [length_shift]; omega
    · simp

/-- `string` lays down the characters it takes and widens the field. -/
theorem string_eq (S : Sink σ) (str : σ) (s : List Byte) (spec : PrintfSpec) :
    string S str s spec = (stringText s (spec.precision.signExtend 32)).map fun u =>
      widenString S (putAll S str u) (BitVec.ofNat 32 u.length).toInt spec := by
  rw [string, stringLoop_eq, Option.map_map]
  congr 1
  funext u
  simp

/-- The `int` that counts the characters taken by `string` does not exceed their number. -/
theorem count_toInt (u : List Byte) : (BitVec.ofNat 32 u.length).toInt.toNat ≤ u.length ∧
    (u.length < 2 ^ 31 → 0 ≤ (BitVec.ofNat 32 u.length).toInt) := by
  rw [BitVec.toInt_eq_toNat_bmod, BitVec.toNat_ofNat, Int.bmod_def]
  omega

theorem length_string {t t' s : List Byte} {spec : PrintfSpec}
    (h : string textSink t s spec = some t') : t.length ≤ t'.length := by
  rw [string_eq] at h
  obtain ⟨u, -, rfl⟩ := Option.map_eq_some_iff.mp h
  have := length_widenString (putAll textSink t u) (BitVec.ofNat 32 u.length).toInt spec
  rw [putAll_textSink, List.length_append] at this
  rw [putAll_textSink]
  omega

/-- The conversions other than `%s` only append a text that does not depend on the cursor. -/
theorem convert_eq {spec : PrintfSpec} (hs : spec.type ≠ .str) (a : Arg) :
    ∃ l spec', ∀ {σ : Type} (S : Sink σ) (str : σ),
      convert S str spec a = some (putAll S str l, spec') := by
  unfold convert
  split
  · obtain ⟨l, spec', h⟩ := charField_eq (a.int.setWidth 8) spec
    exact ⟨l, spec', fun S str => by rw [h]⟩
  · contradiction
  · exact ⟨_, spec, fun S str => by rw [pointerString, number_eq]⟩
  · exact ⟨_, spec, fun S str => by rw [number_eq]⟩

theorem length_convert {t : List Byte} {spec : PrintfSpec} {a : Arg} {x : List Byte × PrintfSpec}
    (h : convert textSink t spec a = some x) : t.length ≤ x.1.length := by
  by_cases hs : spec.type = .str
  · simp only [convert, hs] at h
    obtain ⟨t', ht, rfl⟩ := Option.map_eq_some_iff.mp h
    exact length_string ht
  · obtain ⟨l, spec', hc⟩ := convert_eq hs a
    rw [hc, putAll_textSink] at h
    cases h
    simp

/-- Whether a conversion reads outside its argument does not depend on the cursor. -/
theorem convert_none {S : Sink σ} {t : List Byte} {spec : PrintfSpec} {a : Arg}
    (h : convert textSink t spec a = none) (str : σ) : convert S str spec a = none := by
  by_cases hs : spec.type = .str
  · simp only [convert, hs, string_eq, Option.map_eq_none_iff] at h ⊢
    exact h
  · obtain ⟨l, spec', hc⟩ := convert_eq hs a
    rw [hc] at h
    contradiction

theorem length_takeValue {t : List Byte} {spec : PrintfSpec} {args : List Arg}
    {x : List Byte × List Arg} (h : takeValue textSink spec args t = some x) :
    t.length ≤ x.1.length := by
  by_cases hp : spec.type = .percentChar
  · rw [takeValue_percent hp] at h
    cases h
    simp [textSink]
  · cases args with
    | nil =>
      rw [takeValue_nil hp] at h
      contradiction
    | cons a args =>
      rw [takeValue_cons hp] at h
      obtain ⟨y, hy, rfl⟩ := Option.map_eq_some_iff.mp h
      exact length_convert hy

theorem takeValue_none {S : Sink σ} {t : List Byte} {spec : PrintfSpec} {args : List Arg}
    (h : takeValue textSink spec args t = none) (str : σ) : takeValue S spec args str = none := by
  by_cases hp : spec.type = .percentChar
  · rw [takeValue_percent hp] at h
    contradiction
  · cases args with
    | nil => exact takeValue_nil hp str
    | cons a args =>
      rw [takeValue_cons hp, Option.map_eq_none_iff] at h ⊢
      exact convert_none h str

/-- A directive that takes its `*` arguments does the rest in `takeValue`. -/
theorem Directive.run_cases (d : Directive) (args : List Arg) :
    (∀ {σ : Type} (S : Sink σ) (str : σ), d.run S args str = none) ∨
    (∃ spec args', ∀ {σ : Type} (S : Sink σ) (str : σ),
      d.run S args str = takeValue S spec args' str) := by
  unfold Directive.run
  cases takeStar d.width args with
  | none => exact Or.inl fun S str => rfl
  | some x =>
    cases hp : takeStar d.precision.join x.2 with
    | none => exact Or.inl fun S str => by simp only [hp]
    | some y => exact Or.inr ⟨d.spec x.1 y.1, y.2, fun S str => by simp only [hp]⟩

theorem length_run {t : List Byte} {d : Directive} {args : List Arg} {x : List Byte × List Arg}
    (h : d.run textSink args t = some x) : t.length ≤ x.1.length := by
  rcases d.run_cases args with hn | ⟨spec, args', hv⟩
  · rw [hn] at h; contradiction
  · rw [hv] at h; exact length_takeValue h

theorem directive_none {S : Sink σ} {t : List Byte} {d : Directive} {args : List Arg}
    (h : d.run textSink args t = none) (str : σ) : d.run S args str = none := by
  rcases d.run_cases args with hn | ⟨spec, args', hv⟩
  · exact hn S str
  · rw [hv] at h ⊢; exact takeValue_none h str

/-- A literal segment is always copied into the text. -/
theorem copy_textSink (t l r : List Byte) :
    textSink.copy t (l ++ r) (l.length : Int) = some (t ++ l) := by
  simp [textSink]

theorem length_runSegments {rest : List Byte} {segs : List Segment} {args : List Arg}
    {t : List Byte} {x : List Byte × List Arg}
    (h : runSegments textSink rest segs args t = some x) : t.length ≤ x.1.length := by
  induction segs generalizing args t with
  | nil =>
    simp only [runSegments, stopAt] at h
    split at h
    · cases h; exact Nat.le_refl _
    · contradiction
  | cons seg segs ih =>
    cases seg with
    | literal l =>
      simp only [runSegments, copy_textSink] at h
      have := ih h
      rw [List.length_append] at this
      omega
    | directive d =>
      simp only [runSegments] at h
      cases hd : d.run textSink args t with
      | none => simp [hd] at h
      | some y =>
        simp only [hd] at h
        exact (length_run hd).trans (ih h)

section Simulation

variable {S : Sink σ} {φ : List Byte → σ} {ok : Nat → Prop} (hS : Simulates S φ ok)

include hS

theorem putAll_sim {t l : List Byte} (h : ok (t.length + l.length)) :
    putAll S (φ t) l = φ (t ++ l) := by
  induction l generalizing t with
  | nil => simp
  | cons c l ih =>
    rw [List.length_cons] at h
    have hl : (t ++ [c]).length + l.length = t.length + (l.length + 1) := by
      rw [List.length_append, List.length_singleton]
      omega
    rw [putAll_cons, hS.put t c (hS.mono (by omega) h), ih (hl ▸ h), List.append_assoc]
    rfl

theorem widenString_sim {t : List Byte} {n : Int} {spec : PrintfSpec} (hn : n.toNat ≤ t.length)
    (hn0 : t.length < 2 ^ 31 → 0 ≤ n) (h : ok (widenString textSink t n spec).length) :
    widenString S (φ t) n spec = φ (widenString textSink t n spec) := by
  have hp {σ : Type} (S : Sink σ) (str : σ) (l : List Byte) :
      l.foldl S.put str = putAll S str l := rfl
  simp only [widenString, hp] at h ⊢
  split
  · rfl
  · rename_i hw
    rw [if_neg hw] at h
    split
    · rename_i hl
      rw [if_pos hl, length_shift] at h
      exact hS.shift t n _ hn hn0 h
    · rename_i hl
      rw [if_neg hl, putAll_textSink, List.length_append] at h
      rw [putAll_textSink, putAll_sim hS h]

theorem string_sim {t t' s : List Byte} {spec : PrintfSpec}
    (h : string textSink t s spec = some t') (hok : ok t'.length) :
    string S (φ t) s spec = some (φ t') := by
  rw [string_eq] at h ⊢
  obtain ⟨u, hu, rfl⟩ := Option.map_eq_some_iff.mp h
  rw [putAll_textSink] at hok ⊢
  have hlen := length_widenString (t ++ u) (BitVec.ofNat 32 u.length).toInt spec
  obtain ⟨hn, hn0⟩ := count_toInt u
  have hput : putAll S (φ t) u = φ (t ++ u) :=
    putAll_sim hS (hS.mono (by rwa [List.length_append] at hlen) hok)
  rw [hu, Option.map_some, hput, widenString_sim hS _ _ hok]
  · rw [List.length_append]; omega
  · intro hl
    rw [List.length_append] at hl
    exact hn0 (by omega)

theorem convert_sim {t : List Byte} {spec : PrintfSpec} {a : Arg} {x : List Byte × PrintfSpec}
    (h : convert textSink t spec a = some x) (hok : ok x.1.length) :
    convert S (φ t) spec a = some (φ x.1, x.2) := by
  by_cases hs : spec.type = .str
  · simp only [convert, hs] at h ⊢
    obtain ⟨t', ht, rfl⟩ := Option.map_eq_some_iff.mp h
    rw [string_sim hS ht hok]
    rfl
  · obtain ⟨l, spec', hc⟩ := convert_eq hs a
    rw [hc, putAll_textSink] at h
    cases h
    rw [hc, putAll_sim hS (by simpa using hok)]

theorem takeValue_sim {t : List Byte} {spec : PrintfSpec} {args : List Arg}
    {x : List Byte × List Arg} (h : takeValue textSink spec args t = some x)
    (hok : ok x.1.length) : takeValue S spec args (φ t) = some (φ x.1, x.2) := by
  by_cases hp : spec.type = .percentChar
  · rw [takeValue_percent hp] at h ⊢
    cases h
    have hput := putAll_sim (l := [chr '%']) (t := t) hS (by simpa [textSink] using hok)
    rw [putAll_cons, putAll_nil] at hput
    rw [hput]
    rfl
  · cases args with
    | nil =>
      rw [takeValue_nil hp] at h
      contradiction
    | cons a args =>
      rw [takeValue_cons hp] at h ⊢
      obtain ⟨y, hy, rfl⟩ := Option.map_eq_some_iff.mp h
      rw [convert_sim hS hy hok, Option.map_some]

theorem run_sim {t : List Byte} {d : Directive} {args : List Arg} {x : List Byte × List Arg}
    (h : d.run textSink args t = some x) (hok : ok x.1.length) :
    d.run S args (φ t) = some (φ x.1, x.2) := by
  rcases d.run_cases args with hn | ⟨spec, args', hv⟩
  · rw [hn] at h; contradiction
  · rw [hv] at h ⊢; exact takeValue_sim hS h hok

/-- **A sink that simulates `put`, `copy` and `shift` simulates whole formats.** -/
theorem runSegments_sim {rest : List Byte} {segs : List Segment} {args : List Arg} {t : List Byte}
    {x : List Byte × List Arg} (h : runSegments textSink rest segs args t = some x)
    (hok : ok x.1.length) : runSegments S rest segs args (φ t) = some (φ x.1, x.2) := by
  induction segs generalizing args t with
  | nil =>
    simp only [runSegments, stopAt] at h ⊢
    split at h
    · rename_i hle
      cases h
      rw [if_pos hle]
    · contradiction
  | cons seg segs ih =>
    cases seg with
    | literal l =>
      simp only [runSegments, copy_textSink] at h ⊢
      have hlen := length_runSegments h
      rw [List.length_append] at hlen
      rw [hS.copy t l _ (hS.mono hlen hok)]
      exact ih h
    | directive d =>
      simp only [runSegments] at h ⊢
      cases hd : d.run textSink args t with
      | none => simp [hd] at h
      | some y =>
        simp only [hd] at h
        rw [run_sim hS hd (hS.mono (length_runSegments h) hok)]
        exact ih h

/-- Without a bound on the text, a run that fails on the text fails everywhere. -/
theorem runSegments_none (htop : ∀ n, ok n) {rest : List Byte} {segs : List Segment}
    {args : List Arg} {t : List Byte} (h : runSegments textSink rest segs args t = none) :
    runSegments S rest segs args (φ t) = none := by
  induction segs generalizing args t with
  | nil =>
    simp only [runSegments, stopAt] at h ⊢
    split at h
    · contradiction
    · rename_i hle
      rw [if_neg hle]
  | cons seg segs ih =>
    cases seg with
    | literal l =>
      simp only [runSegments, copy_textSink] at h ⊢
      rw [hS.copy t l _ (htop _)]
      exact ih h
    | directive d =>
      simp only [runSegments] at h ⊢
      cases hd : d.run textSink args t with
      | none => rw [directive_none hd]
      | some y =>
        simp only [hd] at h
        rw [run_sim hS hd (htop _)]
        exact ih h

end Simulation

/-! ## Text already there -/

theorem append_simulates (t₀ : List Byte) :
    Simulates textSink (fun t => t₀ ++ t) (fun _ => True) where
  mono _ _ := trivial
  put t c _ := List.append_assoc _ _ _
  copy t l r _ := by rw [copy_textSink, List.append_assoc]
  shift t n spaces hn _ _ := by
    simp only [textSink]
    have h : (t₀ ++ t).length - n.toNat = t₀.length + (t.length - n.toNat) := by
      rw [List.length_append]; omega
    rw [h, List.take_length_add_append, List.drop_length_add_append]
    simp

/-- **A run on the text starts where the text already there ends.** -/
theorem runSegments_text_append (rest : List Byte) (segs : List Segment) (args : List Arg)
    (t : List Byte) :
    runSegments textSink rest segs args t =
      (runSegments textSink rest segs args []).map fun x => (t ++ x.1, x.2) := by
  have hS := append_simulates t
  cases h : runSegments textSink rest segs args [] with
  | none =>
    have := runSegments_none hS (fun _ => trivial) h
    simpa using this
  | some x =>
    have := runSegments_sim hS h trivial
    simpa using this

theorem textRun_eq {fmt : List Byte} {segs : List Segment} {rest : List Byte}
    (h : Segmentation fmt segs rest) (hc : Counted fmt) (h0 : 0 ∉ fmt) (args : List Arg) :
    textRun fmt args = runSegments textSink rest segs args [] :=
  loop_eq_runSegments textSink h hc h0 args [] (Nat.lt_succ_self _)

end Eeos.Printk
