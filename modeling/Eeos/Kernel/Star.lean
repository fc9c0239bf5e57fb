import Eeos.Kernel.RoundTrip

/-!
# Width and precision through `*`

A directive with `*` is decoded in two or three calls of `format_decode`, and `vsnprintf` puts the
argument into the spec between them; a directive with digits is decoded in one call.

* `Writes d d' w p` — `d'` is `d` with the values `w` and `p` of its `*`s written out.
* `Writes.spec` — the two spell one spec, as long as the values fit into the bit-fields.

Principal result: `vsnprintf_star` — the two directives do the same to every cursor and to every
buffer, whatever follows them.
-/

namespace Eeos.Printk

open ByteMem Ctype CLoop Digits

variable {σ : Type}

/-! ## Values written out -/

/-- `d'` has digits where `d` has a `*`, and a `-` more among its flags where the width is
negative. -/
structure Writes (d d' : Directive) (w p : Int) : Prop where
  flags : d'.flags.Perm (if d.width = some .star ∧ w < 0 then chr '-' :: d.flags else d.flags)
  width : d'.width =
    if d.width = some .star then some (.digits (decimalText w.natAbs)) else d.width
  precision : d'.precision =
    if d.precision = some (some .star) then some (some (.digits (decimalText p.natAbs)))
    else d.precision
  qualifier : d'.qualifier = d.qualifier
  conversion : d'.conversion = d.conversion
  tail : d'.tail = d.tail

/-- The arguments that the `*`s of `d` take. -/
def starArgs (d : Directive) (w p : Arg) : List Arg :=
  (if d.width = some .star then [w] else []) ++
    if d.precision = some (some .star) then [p] else []

/-- A width that the bit-field holds and that is not the flag `0`; a precision that is not negative,
which both directives cut to 16 bits. -/
structure FitsFields (d : Directive) (w p : Int) : Prop where
  width : d.width = some .star → 0 < w.natAbs ∧ w.natAbs < 2 ^ 23
  precision : d.precision = some (some .star) → 0 ≤ p

/-! ## The spec -/

theorem flagBits_perm {l l' : List Byte} (h : l.Perm l') : flagBits l = flagBits l' := by
  induction h with
  | nil => rfl
  | cons c _ ih => exact congrArg ((flagBit c).getD 0 ||| ·) ih
  | swap a b l =>
      simp only [flagBits, List.foldr_cons, ← BitVec.or_assoc]
      rw [BitVec.or_comm ((flagBit b).getD 0)]
  | trans _ _ ih ih' => exact ih.trans ih'

theorem decimal_append (ds : List Byte) (c : Byte) :
    decimal (ds ++ [c]) = 10 * decimal ds + (c.toNat - 48) := by
  rw [decimal, List.foldl_append]
  rfl

/-- **The digits of a number spell it.** -/
theorem decimal_decimalText (n : Nat) : decimal (decimalText n) = n := by
  have hdigit : ∀ d < 10, (hexAscUpper.getD d 0).toNat - 48 = d := by decide
  have hvalue : ∀ ds : List Nat, (∀ d ∈ ds, d < 10) →
      decimal (ds.reverse.map fun d => hexAscUpper.getD d 0) = value 10 ds.reverse := by
    intro ds hds
    induction ds with
    | nil => rfl
    | cons d ds ih =>
        rw [List.reverse_cons, List.map_append, List.map_singleton, decimal_append, value_snoc,
          ih fun e he => hds e (List.mem_cons_of_mem _ he), hdigit d (hds d List.mem_cons_self),
          Nat.mul_comm]
  rw [decimalText, hvalue _ (lsd_lt (by omega)), value_lsd_reverse]

theorem toInt_cases (w : BitVec 32) : (w.toInt = w.toNat ∧ w.toNat < 2 ^ 31) ∨
    (w.toInt = w.toNat - 2 ^ 32 ∧ 2 ^ 31 ≤ w.toNat) := by
  rw [BitVec.toInt_eq_toNat_cond]
  split
  · exact Or.inl ⟨rfl, by omega⟩
  · exact Or.inr ⟨rfl, by omega⟩

/-- A width that fits is stored by its magnitude; its sign is a flag. -/
theorem widthOf_star {w : BitVec 32} (h : w.toInt.natAbs < 2 ^ 23) :
    widthOf (some .star) w = BitVec.ofNat 24 w.toInt.natAbs ∧
      starLeft (some .star) w = if w.toInt < 0 then LEFT else 0 := by
  have hlow : (w.setWidth 24).toNat = w.toNat % 2 ^ 24 := BitVec.toNat_setWidth _ _
  have hnarrow : (w.setWidth 24).toInt = w.toInt := by
    rw [BitVec.toInt_eq_toNat_cond, hlow]
    rcases toInt_cases w with ⟨hint, hlt⟩ | ⟨hint, hle⟩ <;> omega
  refine ⟨?_, by rw [starLeft, hnarrow]⟩
  rw [widthOf, hnarrow]
  rcases toInt_cases w with ⟨hint, hlt⟩ | ⟨hint, hle⟩
  · rw [if_neg (by omega)]
    bv_omega
  · rw [if_pos (by omega)]
    bv_omega

theorem precisionOf_star {p : BitVec 32} (hpos : 0 ≤ p.toInt) :
    precisionOf (some .star) p = precisionOf (some (.digits (decimalText p.toInt.natAbs))) 0 := by
  have hnarrow : p.setWidth 16 = BitVec.ofNat 16 p.toInt.natAbs := by
    rcases toInt_cases p with ⟨hint, hlt⟩ | ⟨hint, -⟩
    · bv_omega
    · omega
  rw [precisionOf, precisionOf, decimal_decimalText, hnarrow]

/-- Only a `*` looks at its argument. -/
theorem widthOf_const {n : Option Num} (h : n ≠ some .star) (w w' : BitVec 32) :
    widthOf n w = widthOf n w' ∧ starLeft n w = 0 := by
  rcases n with _ | ⟨ds⟩ | _
  · exact ⟨rfl, rfl⟩
  · exact ⟨rfl, rfl⟩
  · exact absurd rfl h

theorem precisionOf_const {n : Option Num} (h : n ≠ some .star) (p p' : BitVec 32) :
    precisionOf n p = precisionOf n p' := by
  rcases n with _ | ⟨ds⟩ | _
  · rfl
  · rfl
  · exact absurd rfl h

theorem takeStar_digits {n : Option Num} (h : n ≠ some .star) (args : List Arg) :
    takeStar n args = some (0, args) := by
  rcases n with _ | ⟨ds⟩ | _
  · rfl
  · rfl
  · exact absurd rfl h

theorem takeStar_args (n : Option Num) (a : Arg) (args : List Arg) :
    takeStar n ((if n = some .star then [a] else []) ++ args) =
      some (if n = some .star then a.int else 0, args) := by
  by_cases h : n = some .star
  · rw [if_pos h, if_pos h, h]
    rfl
  · rw [if_neg h, if_neg h]
    exact takeStar_digits h args

theorem spec_stars (d : Directive) (w p : BitVec 32) :
    d.spec (if d.width = some .star then w else 0)
      (if d.precision.join = some .star then p else 0) = d.spec w p := by
  have hwidth : widthOf d.width (if d.width = some .star then w else 0) = widthOf d.width w ∧
      starLeft d.width (if d.width = some .star then w else 0) = starLeft d.width w := by
    by_cases h : d.width = some .star
    · rw [if_pos h]
      exact ⟨rfl, rfl⟩
    · rw [if_neg h, (widthOf_const h 0 w).2, (widthOf_const h w 0).2]
      exact ⟨(widthOf_const h 0 w).1, rfl⟩
  have hprecision : precisionOf d.precision.join (if d.precision.join = some .star then p else 0) =
      precisionOf d.precision.join p := by
    by_cases h : d.precision.join = some .star
    · rw [if_pos h]
    · exact precisionOf_const h _ _
  simp only [Directive.spec, hwidth, hprecision]

section Written

variable {d d' : Directive} {w p : Arg} (hd : d.WellFormed) (hm : d.FlagsMaximal)
  (h : Writes d d' w.int.toInt p.int.toInt) (hfit : FitsFields d w.int.toInt p.int.toInt)

include h

theorem Writes.no_star : d'.width ≠ some .star ∧ d'.precision.join ≠ some .star := by
  constructor
  · rw [h.width]
    split
    · simp
    · assumption
  · rw [h.precision]
    split
    · simp
    · rename_i hne
      exact fun hj => hne (Option.join_eq_some_iff.mp hj)

include hd in
theorem Writes.wellFormed : d'.WellFormed where
  flags c hc := by
    have hmem := h.flags.mem_iff.mp hc
    split at hmem
    · rcases List.mem_cons.mp hmem with rfl | hmem
      · decide
      · exact hd.flags c hmem
    · exact hd.flags c hmem
  width n hn := by
    rw [h.width] at hn
    split at hn
    · cases hn
      exact ⟨decimalText_ne_nil _, decimalText_digits _⟩
    · exact hd.width n hn
  precision n hn := by
    rw [h.precision] at hn
    split at hn
    · cases hn
      exact ⟨decimalText_ne_nil _, decimalText_digits _⟩
    · exact hd.precision n hn
  qualifier := h.qualifier ▸ hd.qualifier
  conversion := h.conversion ▸ hd.conversion
  tail := h.tail ▸ hd.tail
  tail_ptr := h.tail ▸ h.conversion ▸ hd.tail_ptr

include hm hfit in
/-- The digits of a width that is not zero do not start with the flag `0`. -/
theorem Writes.flagsMaximal : d'.FlagsMaximal := by
  intro ds hds
  rw [h.width] at hds
  split at hds
  · rename_i hstar
    cases hds
    exact decimalText_head (hfit.width hstar).1.ne'
  · exact hm ds hds

theorem Writes.precisionOf (hp : d.precision = some (some .star) → 0 ≤ p.int.toInt)
    (p' : BitVec 32) :
    precisionOf d'.precision.join p' = precisionOf d.precision.join p.int := by
  rw [precisionOf_const h.no_star.2 p' 0, h.precision]
  by_cases hstar : d.precision = some (some .star)
  · rw [if_pos hstar, hstar, Option.join_some, Option.join_some, precisionOf_star (hp hstar)]
  · rw [if_neg hstar]
    exact precisionOf_const (fun hj => hstar (Option.join_eq_some_iff.mp hj)) _ _

/-- The width and the `-` that it may come with. -/
theorem Writes.widthOf (hw : d.width = some .star → w.int.toInt.natAbs < 2 ^ 23) (w' : BitVec 32) :
    widthOf d'.width w' = widthOf d.width w.int ∧
      flagBits d'.flags ||| starLeft d'.width w' =
        flagBits d.flags ||| starLeft d.width w.int := by
  have hz : ∀ flags : Byte, flags ||| 0 = flags := fun _ => BitVec.or_zero
  rw [(widthOf_const h.no_star.1 w' 0).1, (widthOf_const h.no_star.1 w' 0).2, hz,
    flagBits_perm h.flags, h.width]
  by_cases hstar : d.width = some .star
  · obtain ⟨hwidth, hleft⟩ := widthOf_star (hw hstar)
    rw [if_pos hstar, hstar, hwidth, hleft, Printk.widthOf, decimal_decimalText]
    refine ⟨rfl, ?_⟩
    by_cases hneg : w.int.toInt < 0
    · rw [if_pos ⟨rfl, hneg⟩, if_pos hneg, BitVec.or_comm]
      rfl
    · rw [if_neg fun hand => hneg hand.2, if_neg hneg, hz]
  · obtain ⟨hwidth, -⟩ := widthOf_const hstar 0 w.int
    rw [if_neg hstar, if_neg fun hand => hstar hand.1, hwidth, (widthOf_const hstar w.int 0).2,
      hz]
    exact ⟨rfl, rfl⟩

include hfit in
/-- **Both directives spell the same spec.** -/
theorem Writes.spec (w' p' : BitVec 32) : d'.spec w' p' = d.spec w.int p.int := by
  obtain ⟨hwidth, hflags⟩ := h.widthOf (fun hs => (hfit.width hs).2) w'
  have hprecision := h.precisionOf hfit.precision p'
  simp only [Directive.spec, hwidth, hflags, hprecision, h.qualifier, h.conversion]

/-- The digits are not shorter than the `*`s. -/
theorem Writes.length_le : d.flags.length ≤ d'.flags.length ∧
    (numText d.width).length ≤ (numText d'.width).length ∧
    (precisionText d.precision).length ≤ (precisionText d'.precision).length := by
  have hflags : d.flags.length ≤ d'.flags.length := by
    rw [h.flags.length_eq]
    split
    · exact Nat.le_succ _
    · exact Nat.le_refl _
  have hpos : ∀ n, 1 ≤ (decimalText n).length := fun n =>
    List.length_pos_iff.mpr (decimalText_ne_nil n)
  have hwidth : (numText d.width).length ≤ (numText d'.width).length := by
    rw [h.width]
    split
    · rename_i hstar
      rw [hstar]
      exact hpos _
    · exact Nat.le_refl _
  have hprecision : (precisionText d.precision).length ≤ (precisionText d'.precision).length := by
    rw [h.precision]
    split
    · rename_i hstar
      rw [hstar]
      exact Nat.succ_le_succ (hpos _)
    · exact Nat.le_refl _
  exact ⟨hflags, hwidth, hprecision⟩

/-- The one call that reads the digits counts at least what any call counts with the `*`s. -/
theorem Writes.counts_lt {b : Nat} (hc : ∀ n ∈ (Segment.directive d').counts, n < b) :
    ∀ n ∈ (Segment.directive d).counts, n < b := by
  intro n hn
  obtain ⟨hwidth, hprecision⟩ := h.no_star
  have hstar : d'.precision ≠ some (some .star) := fun hp => hprecision (by rw [hp]; rfl)
  simp only [Segment.counts, directiveCounts, precisionCounts, if_neg hwidth, if_neg hstar,
    List.forall_mem_singleton, h.qualifier] at hc
  have hle := le_of_mem_directiveCounts hn
  have hlengths := h.length_le
  omega

/-- One directive takes its values from the arguments, the other from its text. -/
theorem Writes.run (hfit : FitsFields d w.int.toInt p.int.toInt) (S : Sink σ) (args : List Arg)
    (str : σ) : d.run S (starArgs d w p ++ args) str = d'.run S args str := by
  have hwritten : d'.run S args str = takeValue S (d.spec w.int p.int) args str := by
    rw [Directive.run, takeStar_digits h.no_star.1]
    simp only [takeStar_digits h.no_star.2, h.spec hfit]
  have hargs : starArgs d w p ++ args = (if d.width = some .star then [w] else []) ++
      ((if d.precision.join = some .star then [p] else []) ++ args) := by
    simp only [starArgs, Option.join_eq_some_iff, List.append_assoc]
  rw [hwritten, Directive.run, hargs, takeStar_args]
  simp only [takeStar_args, spec_stars]

end Written

/-- **Passing width and precision through `*` is the same as writing them**, for every cursor and
every buffer, whatever follows the directive. -/
theorem vsnprintf_star {d d' : Directive} {w p : Arg} (hd : d.WellFormed) (hm : d.FlagsMaximal)
    (h : Writes d d' w.int.toInt p.int.toInt) (hfit : FitsFields d w.int.toInt p.int.toInt)
    {r : List Byte} (hr : d.conversion = chr 'p' → isalnum (deref r) = false) (h0 : 0 ∉ r)
    (hc : Counted (d'.text ++ r)) (args : List Arg) :
    (∀ {σ : Type} (S : Sink σ) (str : σ) (n n' : Nat), (d.text ++ r).length < n →
      (d'.text ++ r).length < n' →
      vsnprintfLoop S n ⟨d.text ++ r, .zero, starArgs d w p ++ args, str⟩ =
        vsnprintfLoop S n' ⟨d'.text ++ r, .zero, args, str⟩) ∧
    ∀ (m : Mem) (buf : Addr) (size : BitVec 64),
      vsnprintf m buf size (d.text ++ r) (starArgs d w p ++ args) =
        vsnprintf m buf size (d'.text ++ r) args := by
  have hd' := h.wellFormed hd
  obtain ⟨segs, rest, hseg⟩ := segmentation_exists r
  have hstar := Segmentation.directive hd hm hr hseg
  have hwritten := Segmentation.directive hd' (h.flagsMaximal hm hfit)
    (fun hp => hr (h.conversion ▸ hp)) hseg
  obtain ⟨hsegs, hrest⟩ := hc.segments hwritten
  obtain ⟨hdigits, hbehind⟩ := List.forall_mem_cons.mp hsegs
  have hcstar : Counted (d.text ++ r) :=
    ⟨_, rest, hstar, List.forall_mem_cons.mpr ⟨h.counts_lt hdigits, hbehind⟩, hrest⟩
  have hnul : ∀ {d : Directive}, d.WellFormed → 0 ∉ d.text ++ r := fun hwf hmem =>
    (List.mem_append.mp hmem).elim hwf.text_no_nul h0
  have hloop : ∀ {σ : Type} (S : Sink σ) (str : σ) (n n' : Nat), (d.text ++ r).length < n →
      (d'.text ++ r).length < n' →
      vsnprintfLoop S n ⟨d.text ++ r, .zero, starArgs d w p ++ args, str⟩ =
        vsnprintfLoop S n' ⟨d'.text ++ r, .zero, args, str⟩ := by
    intro σ S str n n' hn hn'
    rw [loop_eq_runSegments S hstar hcstar (hnul hd) _ str hn,
      loop_eq_runSegments S hwritten hc (hnul hd') args str hn', runSegments, h.run hfit]
    rfl
  refine ⟨hloop, fun m buf size => ?_⟩
  simp only [vsnprintf, hloop _ _ _ _ (Nat.lt_succ_self _) (Nat.lt_succ_self _)]

/-- `%0*.*d` and `%-05.3d`. -/
theorem vsnprintf_star_negative :
    vsnprintf (fun _ => 0xff) 0x1000 64 ("%0*.*d".toList.map chr) [⟨-5, []⟩, ⟨3, []⟩, ⟨42, []⟩] =
      vsnprintf (fun _ => 0xff) 0x1000 64 ("%-05.3d".toList.map chr) [⟨42, []⟩] := by
  have hwrites : Writes ⟨[chr '0'], some .star, some (some .star), [], chr 'd', []⟩
      ⟨[chr '-', chr '0'], some (.digits [chr '5']), some (some (.digits [chr '3'])), [], chr 'd',
        []⟩ (-5) 3 := by
    refine ⟨List.Perm.refl _, ?_, ?_, rfl, rfl, rfl⟩
    · have hfive : decimalText (-5 : Int).natAbs = [chr '5'] := decimalText_of_lt (by decide)
      rw [hfive]
      rfl
    · have hthree : decimalText (3 : Int).natAbs = [chr '3'] := decimalText_of_lt (by decide)
      rw [hthree]
      rfl
  exact (vsnprintf_star (w := ⟨-5, []⟩) (p := ⟨3, []⟩) (r := [])
    ⟨by decide, by simp [Num.WellFormed], by simp [Num.WellFormed], Or.inl rfl, rfl, by simp,
      by simp⟩ (by simp [Directive.FlagsMaximal]) hwrites ⟨fun _ => by decide, fun _ => by decide⟩
    (by decide) (by simp) (.of_length (by decide)) [⟨42, []⟩]).2 (fun _ => 0xff) 0x1000 64

/-! ## A directive too long to be counted -/

/-- One call of `format_decode` reads a directive without `*`. -/
theorem decodeFresh_whole {d : Directive} (hd : d.WellFormed) (hm : d.FlagsMaximal)
    (hwidth : d.width ≠ some .star) (hprecision : d.precision.join ≠ some .star)
    (hp : d.conversion ≠ chr 'p') (spec : PrintfSpec) :
    ∃ spec', decodeFresh d.text spec = some (readCount d.text [], spec') := by
  have hspan := spanDirective_body hd hm (r := []) fun h => absurd h hp
  rw [List.append_nil] at hspan
  simp only [spanDirective] at hspan
  split at hspan
  case isFalse => contradiction
  rename_i hconv
  obtain ⟨hdir, hrest⟩ := Prod.mk.inj (Option.some.inj hspan)
  have hw : (spanNum (d.body.dropWhile isFlag)).1 ≠ some .star := by
    rwa [← congrArg Directive.width hdir] at hwidth
  have hpr : (spanPrecision (spanNum (d.body.dropWhile isFlag)).2).1 ≠ some (some .star) := by
    intro h
    rw [← congrArg Directive.precision hdir, h] at hprecision
    exact hprecision rfl
  have hend :
      (spanQualifier (spanPrecision (spanNum (d.body.dropWhile isFlag)).2).2).2.tail = [] := by
    rwa [afterValue, if_neg] at hrest
    rw [typeOf_ptr]
    exact fun h => hp ((congrArg Directive.conversion hdir).symm.trans h)
  rw [Directive.text, decodeFresh_percent, if_neg hw, decodePrecision_eq, if_neg hpr,
    decodeQualifier_eq _ _ (flagBits_sign _), if_pos hconv, hend]
  exact ⟨_, rfl⟩

/-- `%--…-*c` with `n` flags, and with a width of 10 written out. -/
def leftStar (n : Nat) : Directive :=
  ⟨List.replicate n (chr '-'), some .star, none, [], chr 'c', []⟩

def leftDigits (n : Nat) : Directive :=
  ⟨List.replicate n (chr '-'), some (.digits (decimalText 10)), none, [], chr 'c', []⟩

theorem leftStar_writes (n : Nat) :
    (leftStar n).WellFormed ∧ (leftStar n).FlagsMaximal ∧ Writes (leftStar n) (leftDigits n) 10 0 ∧
      FitsFields (leftStar n) 10 0 := by
  refine ⟨⟨fun c hc => ?_, ?_, by simp [leftStar], Or.inl rfl,
    (by decide : isConversion (chr 'c') = true), by simp [leftStar], by simp [leftStar]⟩,
    ?_, ?_, ?_⟩
  · rw [List.eq_of_mem_replicate hc]
    decide
  · rintro n ⟨⟩
    trivial
  · intro ds hds
    simp [leftStar] at hds
  · exact ⟨List.Perm.refl _, rfl, rfl, rfl, rfl, rfl⟩
  · exact ⟨fun _ => by decide, fun _ => by decide⟩

/-- The digits make the directive one character too long. -/
theorem fullText_leftDigits {n : Nat} (h : 2 ^ 31 ≤ n + 4) (h' : n + 4 < 2 ^ 32) (args : List Arg) :
    fullText (leftDigits n).text args = none := by
  obtain ⟨hd, hm, hwrites, hfit⟩ := leftStar_writes n
  have hlen : (leftDigits n).text.length = n + 4 := by
    have hten : (decimalText 10).length = 2 := by
      rw [decimalText, lsd_of_le (by omega) (by omega), lsd_of_lt (by omega)]
      rfl
    simp [Directive.text, Directive.body, leftDigits, numText, Num.text, precisionText, hten]
  have hwf : (leftDigits n).WellFormed :=
    Writes.wellFormed (w := ⟨10, []⟩) (p := ⟨0, []⟩) hd hwrites
  have hmax : (leftDigits n).FlagsMaximal :=
    Writes.flagsMaximal (w := ⟨10, []⟩) (p := ⟨0, []⟩) hm hwrites hfit
  obtain ⟨spec', hdecode⟩ := decodeFresh_whole hwf hmax (by simp [leftDigits])
    (by simp [leftDigits]) (by decide : chr 'c' ≠ chr 'p') .zero
  have hne : deref (leftDigits n).text ≠ 0 := by
    rw [Directive.text, deref_cons]
    decide
  have hneg := readCount_neg (hlen ▸ h) (hlen ▸ h')
  rw [fullText, textRun, loop_negative hne hdecode hneg]
  rfl

/-- With `*` no call of `format_decode` reads the whole directive. -/
theorem fullText_leftStar {n : Nat} (h : n + 3 < 2 ^ 31) (w a : Arg) :
    fullText (leftStar n).text [w, a] ≠ none := by
  obtain ⟨hd, hm, -, -⟩ := leftStar_writes n
  have hlen : (leftStar n).text.length = n + 3 := by
    simp [Directive.text, Directive.body, leftStar, numText, Num.text, precisionText]
  have htype : ((leftStar n).spec w.int 0).type = .char := rfl
  have hstr : ((leftStar n).spec w.int 0).type ≠ .str := by
    rw [htype]
    decide
  obtain ⟨l, spec', hconvert⟩ := convert_eq hstr a
  have hrun : (leftStar n).run textSink [w, a] [] = some (l, []) := by
    have htake : takeValue textSink ((leftStar n).spec w.int 0) [a] [] = some (l, []) := by
      rw [takeValue_cons (by rw [htype]; decide)]
      simp only [hconvert, putAll_textSink, Option.map_some, List.nil_append]
    rw [← htake]
    rfl
  rw [fullText, textRun, hd.loop_eq hm (hlen ▸ h), hrun]
  exact Option.some_ne_none l

/-- The law needs its bound: a `*` may stand where its digits are too many. -/
theorem vsnprintf_star_bound_needed :
    (leftStar (2 ^ 31 - 4)).WellFormed ∧ (leftStar (2 ^ 31 - 4)).FlagsMaximal ∧
      Writes (leftStar (2 ^ 31 - 4)) (leftDigits (2 ^ 31 - 4)) 10 0 ∧
      FitsFields (leftStar (2 ^ 31 - 4)) 10 0 ∧
      fullText (leftStar (2 ^ 31 - 4)).text [⟨10, []⟩, ⟨0x78, []⟩] ≠
        fullText (leftDigits (2 ^ 31 - 4)).text [⟨0x78, []⟩] := by
  obtain ⟨hd, hm, hwrites, hfit⟩ := leftStar_writes (2 ^ 31 - 4)
  refine ⟨hd, hm, hwrites, hfit, ?_⟩
  rw [fullText_leftDigits (by omega) (by omega)]
  exact fullText_leftStar (by omega) _ _

end Eeos.Printk
