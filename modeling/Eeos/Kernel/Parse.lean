import Eeos.Kernel.Decode
import Mathlib.Data.List.TakeWhile

/-!
# The `vsnprintf` loop as a one-pass parser

The loop decodes a directive with `*` in up to three rounds and carries its `printf_spec` from one
round to the next.  Here the rounds of one directive are put together again.

* `Ends` — the loop ends, with what result: every round that goes on has read at least one
  character, so it ends within the fuel that `vsnprintfLoop` has (`Ends.loop`).
* `finish`, `fromPercent` read a directive in one pass; `K` stands for the rest of the format.
* `ends_literal` — from a fresh spec, a round on literal text copies it.

Principal result: `ends_percent` — from a fresh spec, the rounds of a directive whose counts fit
an `int` are `fromPercent`.
-/

namespace Eeos.Printk

open ByteMem Ctype

variable {σ : Type}

/-! ## Rounds -/

theorem readCount_nonneg {start r : List Byte} (h : start.length - r.length < 2 ^ 31) :
    ¬ readCount start r < 0 := by
  rw [readCount_eq h]; omega

/-- `fmt += read` leaves the text at which `format_decode` stopped. -/
theorem drop_readCount {start r : List Byte} (h : start.length - r.length < 2 ^ 31)
    (hr : r <:+ start) : start.drop (readCount start r).toNat = r := by
  rw [readCount_eq h, Int.toNat_natCast]
  exact (List.suffix_iff_eq_drop.mp hr).symm

/-- The types of the conversions that print an argument. -/
def FormatType.isValue : FormatType → Bool
  | .none | .width | .precision | .percentChar | .invalid => false
  | _ => true

/-- What is skipped after a conversion: the suffix of a `%p`. -/
def afterValue (type : FormatType) (r : List Byte) : List Byte :=
  if type = .ptr then r.dropWhile isalnum else r

theorem afterValue_suffix (type : FormatType) (r : List Byte) : afterValue type r <:+ r := by
  unfold afterValue
  split
  · exact List.dropWhile_suffix _
  · exact List.suffix_rfl

/-- A round on a conversion that prints an argument. -/
theorem dispatch_value (S : Sink σ) {st : Run σ} {r : List Byte} {spec : PrintfSpec}
    (hl : st.fmt.length - r.length < 2 ^ 31) (hr : r <:+ st.fmt)
    (hv : spec.type.isValue = true) :
    dispatch S st (readCount st.fmt r) spec =
      match st.args with
      | [] => none
      | a :: args => (convert S st.str spec a).map fun x =>
          .next ⟨afterValue spec.type r, x.2, args, x.1⟩ := by
  simp only [dispatch, readCount_nonneg hl, if_false, drop_readCount hl hr, afterValue]
  cases ht : spec.type <;> first | rfl | simp [ht, FormatType.isValue] at hv

theorem convert_type {S : Sink σ} {str : σ} {spec : PrintfSpec} {a : Arg} {x : σ × PrintfSpec}
    (h : convert S str spec a = some x) : x.2.type = spec.type := by
  unfold convert at h
  split at h
  · cases h; rfl
  · obtain ⟨y, -, rfl⟩ := Option.map_eq_some_iff.mp h; rfl
  · cases h; rfl
  · cases h; rfl

/-! ## The loop -/

/-- The loop ends from the state with the result, `none` being a read that fails.  A round that
goes on has read something. -/
inductive Ends (S : Sink σ) : Run σ → Option (σ × List Arg) → Prop where
  | nul {st : Run σ} : deref st.fmt = 0 → Ends S st (some (st.str, st.args))
  | fail {st : Run σ} : deref st.fmt ≠ 0 → vsnprintfRound S st = none → Ends S st none
  | out {st : Run σ} {str : σ} {args : List Arg} : deref st.fmt ≠ 0 →
      vsnprintfRound S st = some (.out str args) → Ends S st (some (str, args))
  | next {st st' : Run σ} {res : Option (σ × List Arg)} : deref st.fmt ≠ 0 →
      vsnprintfRound S st = some (.next st') → st'.fmt.length < st.fmt.length → Ends S st' res →
      Ends S st res

/-- The fuel is enough. -/
theorem Ends.loop {S : Sink σ} {st : Run σ} {res : Option (σ × List Arg)} (h : Ends S st res)
    {n : Nat} (hn : st.fmt.length < n) : vsnprintfLoop S n st = res := by
  induction h generalizing n with
  | nul h0 =>
    obtain ⟨n, rfl⟩ : ∃ i, n = i + 1 := ⟨n - 1, by omega⟩
    rw [vsnprintfLoop, if_pos h0]
  | fail h0 hr =>
    obtain ⟨n, rfl⟩ : ∃ i, n = i + 1 := ⟨n - 1, by omega⟩
    rw [vsnprintfLoop, if_neg h0, hr]
  | out h0 hr =>
    obtain ⟨n, rfl⟩ : ∃ i, n = i + 1 := ⟨n - 1, by omega⟩
    rw [vsnprintfLoop, if_neg h0, hr]
  | next h0 hr hlt _ ih =>
    obtain ⟨n, rfl⟩ : ∃ i, n = i + 1 := ⟨n - 1, by omega⟩
    rw [vsnprintfLoop, if_neg h0, hr]
    exact ih (by omega)

/-- The loop ends with `res` after a round that started at `fmt`. -/
def Resumes (S : Sink σ) (fmt : List Byte) (res : Option (σ × List Arg)) :
    Option (Round σ) → Prop
  | none => res = none
  | some (.out str args) => res = some (str, args)
  | some (.next st) => st.fmt.length < fmt.length ∧ Ends S st res

theorem Ends.of_round {S : Sink σ} {st : Run σ} {res : Option (σ × List Arg)}
    (h0 : deref st.fmt ≠ 0) (h : Resumes S st.fmt res (vsnprintfRound S st)) : Ends S st res := by
  cases hr : vsnprintfRound S st with
  | none =>
    rw [hr] at h
    obtain rfl : res = none := h
    exact .fail h0 hr
  | some round =>
    rw [hr] at h
    cases round with
    | out str args =>
      obtain rfl : res = some (str, args) := h
      exact .out h0 hr
    | next st' => exact .next h0 hr h.1 h.2

theorem vsnprintfRound_eq (S : Sink σ) (st : Run σ) :
    vsnprintfRound S st =
      (formatDecode st.fmt st.spec).bind fun x => dispatch S st x.1 x.2 := by
  unfold vsnprintfRound
  cases formatDecode st.fmt st.spec <;> rfl

/-! ## One directive in one pass -/

/-- The spec at the start of a literal or a directive. -/
def PrintfSpec.Fresh (spec : PrintfSpec) : Prop :=
  spec.type ≠ .width ∧ spec.type ≠ .precision

/-- A directive from its qualifier on; `K` is the rest of the format. -/
def finish (S : Sink σ) (K : List Byte → List Arg → σ → Option (σ × List Arg)) (fmt : List Byte)
    (spec : PrintfSpec) (args : List Arg) (str : σ) : Option (σ × List Arg) :=
  let c := deref (spanQualifier fmt).2
  if isConversion c then
    match takeValue S (conversionSpec (spanQualifier fmt).1 c spec) args str with
    | none => none
    | some (str, args) =>
      K (afterValue (typeOf (spanQualifier fmt).1 c) (spanQualifier fmt).2.tail) args str
  else some (str, args)

/-- A directive from its precision on. -/
def fromPrecision (S : Sink σ) (K : List Byte → List Arg → σ → Option (σ × List Arg))
    (fmt : List Byte) (spec : PrintfSpec) (args : List Arg) (str : σ) : Option (σ × List Arg) :=
  match takeStar (spanPrecision fmt).1.join args with
  | none => none
  | some (p, args) =>
    finish S K (spanPrecision fmt).2
      { spec with precision := precisionOf (spanPrecision fmt).1.join p } args str

/-- A directive from behind its `%` on. -/
def fromPercent (S : Sink σ) (K : List Byte → List Arg → σ → Option (σ × List Arg))
    (body : List Byte) (args : List Arg) (str : σ) : Option (σ × List Arg) :=
  let width := spanNum (body.dropWhile isFlag)
  match takeStar width.1 args with
  | none => none
  | some (w, args) =>
    fromPrecision S K width.2
      { type := .none
        fieldWidth := widthOf width.1 w
        flags := flagBits (body.takeWhile isFlag) ||| starLeft width.1 w
        base := 0
        precision := 0 } args str

/-- What follows the directive of which `fmt` is the qualifier and the conversion. -/
def behind (fmt : List Byte) : List Byte :=
  afterValue (typeOf (spanQualifier fmt).1 (deref (spanQualifier fmt).2)) (spanQualifier fmt).2.tail

/-- `K` is the loop behind that directive, whatever fresh spec it starts from. -/
def Continues (S : Sink σ) (K : List Byte → List Arg → σ → Option (σ × List Arg))
    (fmt : List Byte) : Prop :=
  isConversion (deref (spanQualifier fmt).2) = true →
    ∀ spec : PrintfSpec, spec.Fresh → ∀ args str,
      Ends S ⟨behind fmt, spec, args, str⟩ (K (behind fmt) args str)

theorem qualifiedType_isValue (q : List Byte) (signed : Bool) :
    (qualifiedType q signed).isValue = true := by
  unfold qualifiedType
  split_ifs <;> rfl

/-- `%%` and the conversions that print an argument are all there is. -/
theorem typeOf_cases (q : List Byte) (c : Byte) :
    typeOf q c = .percentChar ∨ (typeOf q c).isValue = true := by
  by_cases hp : c = chr '%'
  · rw [hp]
    exact Or.inl rfl
  · unfold typeOf
    rw [if_neg hp]
    split_ifs
    · exact Or.inr rfl
    · exact Or.inr rfl
    · exact Or.inr rfl
    · exact Or.inr (qualifiedType_isValue q _)

theorem fresh_of_isValue {spec : PrintfSpec} (h : spec.type.isValue = true) : spec.Fresh :=
  ⟨fun hw => by simp [hw, FormatType.isValue] at h, fun hp => by simp [hp, FormatType.isValue] at h⟩

theorem finish_congr (S : Sink σ) (K : List Byte → List Arg → σ → Option (σ × List Arg))
    (fmt : List Byte) {spec spec' : PrintfSpec} (hw : spec.fieldWidth = spec'.fieldWidth)
    (hf : spec.flags = spec'.flags) (hp : spec.precision = spec'.precision) (args : List Arg)
    (str : σ) : finish S K fmt spec args str = finish S K fmt spec' args str := by
  simp only [finish, conversionSpec, hw, hf, hp]

theorem fromPrecision_congr (S : Sink σ) (K : List Byte → List Arg → σ → Option (σ × List Arg))
    (fmt : List Byte) {spec spec' : PrintfSpec} (hw : spec.fieldWidth = spec'.fieldWidth)
    (hf : spec.flags = spec'.flags) (args : List Arg) (str : σ) :
    fromPrecision S K fmt spec args str = fromPrecision S K fmt spec' args str := by
  unfold fromPrecision
  cases takeStar (spanPrecision fmt).1.join args with
  | none => rfl
  | some x =>
    refine finish_congr S K _ ?_ ?_ ?_ x.2 str
    · exact hw
    · exact hf
    · rfl

theorem spanQualifier_nul {fmt : List Byte} (h : deref fmt = 0) : (spanQualifier fmt).2 = fmt := by
  cases fmt with
  | nil => rfl
  | cons c fmt =>
    rw [deref_cons] at h
    subst h
    simp [spanQualifier]

theorem finish_nul (S : Sink σ) (K : List Byte → List Arg → σ → Option (σ × List Arg))
    {fmt : List Byte} (h : deref fmt = 0) (spec : PrintfSpec) (args : List Arg) (str : σ) :
    finish S K fmt spec args str = some (str, args) := by
  simp only [finish, spanQualifier_nul h, h, isConversion_nul, Bool.false_eq_true, if_false]

/-! ## Counts -/

/-- What the last call reads of a directive: the qualifier, and a conversion that there is. -/
def lastCount (fmt : List Byte) : Nat :=
  (spanQualifier fmt).1.length + if isConversion (deref (spanQualifier fmt).2) then 1 else 0

/-- The counts on what follows a `%`, well formed or not. -/
def bodyCounts (body : List Byte) : List Nat :=
  let width := spanNum (body.dropWhile isFlag)
  let precision := spanPrecision width.2
  directiveCounts (body.takeWhile isFlag) width.1 precision.1 (lastCount precision.2)

theorem length_spanNum (fmt : List Byte) :
    (numText (spanNum fmt).1).length + (spanNum fmt).2.length = fmt.length := by
  rw [← List.length_append, spanNum_append]

theorem length_spanPrecision (fmt : List Byte) :
    (precisionText (spanPrecision fmt).1).length + (spanPrecision fmt).2.length = fmt.length := by
  rw [← List.length_append, spanPrecision_append]

theorem length_spanQualifier (fmt : List Byte) :
    (spanQualifier fmt).1.length + (spanQualifier fmt).2.length = fmt.length := by
  rw [← List.length_append, spanQualifier_append]

theorem length_tail (fmt : List Byte) (h : deref fmt ≠ 0) : fmt.tail.length + 1 = fmt.length := by
  have := congrArg List.length (eq_cons_of_deref fmt h)
  rw [List.length_cons] at this
  exact this.symm

theorem deref_of_isConversion {fmt : List Byte} (h : isConversion (deref fmt) = true) :
    deref fmt ≠ 0 := by
  intro h0
  rw [h0, isConversion_nul] at h
  contradiction

/-! ## The rounds of a directive -/

section Stages

variable {S : Sink σ} {K : List Byte → List Arg → σ → Option (σ × List Arg)}

/-- The round that ends a well-formed directive. -/
theorem resumes_conversion {st : Run σ} {r : List Byte} (hr : r <:+ st.fmt)
    (hlt : r.length < st.fmt.length) (hl : st.fmt.length - r.length < 2 ^ 31) (q : List Byte)
    (c : Byte) (spec : PrintfSpec)
    (hK : ∀ spec : PrintfSpec, spec.Fresh → ∀ args str,
      Ends S ⟨afterValue (typeOf q c) r, spec, args, str⟩ (K (afterValue (typeOf q c) r) args str)) :
    Resumes S st.fmt
      (match takeValue S (conversionSpec q c spec) st.args st.str with
      | none => none
      | some (str, args) => K (afterValue (typeOf q c) r) args str)
      (dispatch S st (readCount st.fmt r) (conversionSpec q c spec)) := by
  have ht : (conversionSpec q c spec).type = typeOf q c := rfl
  have hle := (afterValue_suffix (typeOf q c) r).length_le
  rcases typeOf_cases q c with hp | hv
  · have hfr : (conversionSpec q c spec).Fresh := by
      unfold PrintfSpec.Fresh
      rw [ht, hp]
      simp
    have hafter : afterValue (typeOf q c) r = r := by
      rw [hp]
      rfl
    rw [takeValue_percent (ht.trans hp), hafter]
    rw [hafter] at hK
    simp only [dispatch, readCount_nonneg hl, if_false, drop_readCount hl hr, ht, hp]
    exact ⟨hlt, hK _ hfr _ _⟩
  · have hnp : typeOf q c ≠ .percentChar := fun h => by simp [h, FormatType.isValue] at hv
    rw [dispatch_value S hl hr (ht ▸ hv)]
    cases st.args with
    | nil =>
      rw [takeValue_nil (ht ▸ hnp)]
      rfl
    | cons a args =>
      rw [takeValue_cons (ht ▸ hnp)]
      cases hc : convert S st.str (conversionSpec q c spec) a with
      | none =>
        simp only [hc, Option.map_none]
        rfl
      | some x =>
        have hfr : x.2.Fresh := fresh_of_isValue (by rw [convert_type hc, ht]; exact hv)
        simp only [hc, Option.map_some, ht]
        exact ⟨Nat.lt_of_le_of_lt hle hlt, hK x.2 hfr args x.1⟩

theorem resumes_qualifier (st : Run σ) {fmt : List Byte} (hf : fmt <:+ st.fmt)
    (hc : st.fmt.length - fmt.length + lastCount fmt < 2 ^ 31) (hK : Continues S K fmt)
    {spec : PrintfSpec} (hs : spec.flags &&& SIGN = 0) :
    Resumes S st.fmt (finish S K fmt spec st.args st.str)
      ((decodeQualifier st.fmt fmt spec).bind fun x => dispatch S st x.1 x.2) := by
  have hq := (spanQualifier_suffix fmt).trans hf
  have hlen := length_spanQualifier fmt
  have hle := hf.length_le
  rw [decodeQualifier_eq _ _ hs, finish]
  unfold lastCount at hc
  by_cases hconv : isConversion (deref (spanQualifier fmt).2) = true
  · have htail := length_tail _ (deref_of_isConversion hconv)
    rw [if_pos hconv] at hc ⊢
    rw [if_pos hconv]
    exact resumes_conversion ((List.tail_suffix _).trans hq) (by omega) (by omega) _ _ _ (hK hconv)
  · rw [if_neg hconv] at hc ⊢
    rw [if_neg hconv]
    have hnonneg : ¬ readCount st.fmt (spanQualifier fmt).2 < 0 := readCount_nonneg (by omega)
    simp only [Option.bind_some, dispatch, hnonneg, if_false]
    rfl

/-- The round after a `*` precision. -/
theorem ends_precision {fmt : List Byte} (hc : lastCount fmt < 2 ^ 31) (hK : Continues S K fmt)
    {spec : PrintfSpec} (ht : spec.type = .precision) (hs : spec.flags &&& SIGN = 0)
    (args : List Arg) (str : σ) :
    Ends S ⟨fmt, spec, args, str⟩ (finish S K fmt (clampPrecision spec) args str) := by
  by_cases h0 : deref fmt = 0
  · rw [finish_nul S K h0]
    exact .nul h0
  · have hs' : ({ clampPrecision spec with type := .none } : PrintfSpec).flags &&& SIGN = 0 := by
      simpa using hs
    have hfinish : finish S K fmt { clampPrecision spec with type := .none } args str =
        finish S K fmt (clampPrecision spec) args str := finish_congr S K fmt rfl rfl rfl args str
    refine .of_round h0 ?_
    rw [vsnprintfRound_eq, ← hfinish]
    simp only [formatDecode, ht, reduceCtorEq, if_false, if_true]
    exact resumes_qualifier ⟨fmt, spec, args, str⟩ List.suffix_rfl (by simpa using hc) hK hs'

theorem resumes_precision (st : Run σ) {fmt : List Byte} (hf : fmt <:+ st.fmt)
    (hc : ∀ n ∈ precisionCounts (st.fmt.length - fmt.length) (spanPrecision fmt).1
      (lastCount (spanPrecision fmt).2), n < 2 ^ 31)
    (hK : Continues S K (spanPrecision fmt).2) {spec : PrintfSpec} (hs : spec.flags &&& SIGN = 0) :
    Resumes S st.fmt (fromPrecision S K fmt spec st.args st.str)
      ((decodePrecision st.fmt fmt spec).bind fun x => dispatch S st x.1 x.2) := by
  have hp := (spanPrecision_suffix fmt).trans hf
  have hlen := length_spanPrecision fmt
  have hle := hf.length_le
  rw [decodePrecision_eq, fromPrecision]
  unfold precisionCounts at hc
  by_cases hstar : (spanPrecision fmt).1 = some (some .star)
  · have htext : (precisionText (spanPrecision fmt).1).length = 2 := by
      rw [hstar]
      rfl
    rw [if_pos hstar] at hc
    have hcount := hc _ (List.mem_cons_self ..)
    have hlast := hc _ (List.mem_cons_of_mem _ (List.mem_cons_self ..))
    have hl : st.fmt.length - (spanPrecision fmt).2.length < 2 ^ 31 := by omega
    simp only [hstar, if_true, Option.bind_some, dispatch, readCount_nonneg hl, if_false,
      drop_readCount hl hp, Option.join_some]
    cases st.args with
    | nil => rfl
    | cons a args =>
      refine ⟨by simp only; omega, ?_⟩
      have ht : (setPrecision { spec with precision := -1, type := .precision } a.int).type =
          .precision := rfl
      have hend := ends_precision hlast hK ht hs args st.str
      have hspec : finish S K (spanPrecision fmt).2 (clampPrecision
          (setPrecision { spec with precision := -1, type := .precision } a.int)) args st.str =
            finish S K (spanPrecision fmt).2
              { spec with precision := precisionOf (some .star) a.int } args st.str := by
        apply finish_congr <;> simp [setPrecision, precisionOf]
      rwa [hspec] at hend
  · have htake : takeStar (spanPrecision fmt).1.join st.args = some (0, st.args) := by
      cases h : (spanPrecision fmt).1.join with
      | none => rfl
      | some n =>
        cases n with
        | digits ds => rfl
        | star => simp [Option.join_eq_some_iff] at h; exact absurd h hstar
    rw [if_neg hstar] at hc ⊢
    rw [htake]
    exact resumes_qualifier st hp (by have := hc _ (List.mem_singleton_self _); omega) hK hs

theorem fromPrecision_nul {fmt : List Byte} (h : deref fmt = 0) (spec : PrintfSpec)
    (args : List Arg) (str : σ) : fromPrecision S K fmt spec args str = some (str, args) := by
  have hp : spanPrecision fmt = (none, fmt) := by
    rw [spanPrecision, h]
    rfl
  simp only [fromPrecision, hp, Option.join_none, takeStar, finish_nul S K h]

/-- The spec that a `*` width leaves: a negative one asks for left justification. -/
def clampWidth (spec : PrintfSpec) : PrintfSpec :=
  if spec.fieldWidth.toInt < 0 then
    { spec with fieldWidth := -spec.fieldWidth, flags := spec.flags ||| LEFT }
  else spec

@[simp] theorem clampWidth_fieldWidth (spec : PrintfSpec) : (clampWidth spec).fieldWidth =
    if spec.fieldWidth.toInt < 0 then -spec.fieldWidth else spec.fieldWidth := by
  unfold clampWidth; split <;> rfl

@[simp] theorem clampWidth_flags (spec : PrintfSpec) : (clampWidth spec).flags =
    spec.flags ||| if spec.fieldWidth.toInt < 0 then LEFT else 0 := by
  unfold clampWidth; split <;> simp

theorem clampWidth_sign {spec : PrintfSpec} (hs : spec.flags &&& SIGN = 0) :
    (clampWidth spec).flags &&& SIGN = 0 := by
  unfold clampWidth
  split
  · exact or_and_eq_zero hs (by decide)
  · exact hs

/-- The round after a `*` width. -/
theorem ends_width {fmt : List Byte}
    (hc : ∀ n ∈ precisionCounts 0 (spanPrecision fmt).1 (lastCount (spanPrecision fmt).2),
      n < 2 ^ 31)
    (hK : Continues S K (spanPrecision fmt).2) {spec : PrintfSpec} (ht : spec.type = .width)
    (hs : spec.flags &&& SIGN = 0) (args : List Arg) (str : σ) :
    Ends S ⟨fmt, spec, args, str⟩ (fromPrecision S K fmt (clampWidth spec) args str) := by
  by_cases h0 : deref fmt = 0
  · rw [fromPrecision_nul h0]
    exact .nul h0
  · have hself : fmt.length - fmt.length = 0 := Nat.sub_self _
    have hfresh : fromPrecision S K fmt { clampWidth spec with type := .none } args str =
        fromPrecision S K fmt (clampWidth spec) args str :=
      fromPrecision_congr S K fmt rfl rfl args str
    have hdecode : formatDecode fmt spec =
        decodePrecision fmt fmt { clampWidth spec with type := .none } := by
      rw [formatDecode, if_pos ht]
      rfl
    have hs' : ({ clampWidth spec with type := .none } : PrintfSpec).flags &&& SIGN = 0 :=
      clampWidth_sign hs
    refine .of_round h0 ?_
    rw [vsnprintfRound_eq, ← hfresh, hdecode]
    exact resumes_precision ⟨fmt, spec, args, str⟩ List.suffix_rfl (hself.symm ▸ hc) hK hs'

/-- **From a `%` on**, the rounds read the directive in one pass. -/
theorem ends_percent {body : List Byte} (hc : ∀ n ∈ bodyCounts body, n < 2 ^ 31)
    (hK : Continues S K (spanPrecision (spanNum (body.dropWhile isFlag)).2).2)
    {spec : PrintfSpec} (hf : spec.Fresh) (args : List Arg) (str : σ) :
    Ends S ⟨chr '%' :: body, spec, args, str⟩ (fromPercent S K body args str) := by
  have hne : deref (chr '%' :: body) ≠ 0 := by rw [deref_cons]; decide
  have hw := (spanNum_suffix (body.dropWhile isFlag)).trans (List.dropWhile_suffix _)
  have hr := hw.trans (List.suffix_cons (chr '%') body)
  have hnum := length_spanNum (body.dropWhile isFlag)
  have hflags : (body.takeWhile isFlag).length + (body.dropWhile isFlag).length = body.length := by
    rw [← List.length_append, List.takeWhile_append_dropWhile]
  have hcons : (chr '%' :: body).length = body.length + 1 := List.length_cons
  refine .of_round hne ?_
  rw [vsnprintfRound_eq]
  simp only [formatDecode, if_neg hf.1, if_neg hf.2, decodeFresh_percent]
  unfold fromPercent
  simp only [bodyCounts, directiveCounts] at hc
  by_cases hstar : (spanNum (body.dropWhile isFlag)).1 = some .star
  · rw [if_pos hstar] at hc
    have hcount := hc _ (List.mem_cons_self ..)
    have hl : (chr '%' :: body).length - (spanNum (body.dropWhile isFlag)).2.length < 2 ^ 31 := by
      omega
    simp only [hstar, if_true, Option.bind_some, dispatch, readCount_nonneg hl, if_false,
      drop_readCount hl hr]
    cases args with
    | nil => rfl
    | cons a args =>
      refine ⟨by simp only; omega, ?_⟩
      have ht : (setFieldWidth { spec with
          type := .width, flags := flagBits (body.takeWhile isFlag), fieldWidth := -1 }
          a.int).type = .width := rfl
      have hend := ends_width (fun n hn => hc n (List.mem_cons_of_mem _ hn)) hK ht
        (flagBits_sign _) args str
      have hspec : fromPrecision S K (spanNum (body.dropWhile isFlag)).2
          (clampWidth (setFieldWidth { spec with
            type := .width, flags := flagBits (body.takeWhile isFlag), fieldWidth := -1 } a.int))
          args str = fromPrecision S K (spanNum (body.dropWhile isFlag)).2
            ⟨.none, widthOf (some .star) a.int,
              flagBits (body.takeWhile isFlag) ||| starLeft (some .star) a.int, 0, 0⟩ args str := by
        apply fromPrecision_congr <;> simp [setFieldWidth, widthOf, starLeft]
      rwa [hspec] at hend
  · have htake : takeStar (spanNum (body.dropWhile isFlag)).1 args = some (0, args) ∧
        starLeft (spanNum (body.dropWhile isFlag)).1 0 = 0 := by
      cases h : (spanNum (body.dropWhile isFlag)).1 with
      | none => exact ⟨rfl, rfl⟩
      | some n =>
        cases n with
        | digits ds => exact ⟨rfl, rfl⟩
        | star => exact absurd h hstar
    have hz : flagBits (body.takeWhile isFlag) ||| 0 = flagBits (body.takeWhile isFlag) :=
      BitVec.or_zero
    have hread : 1 + (body.takeWhile isFlag).length +
          (numText (spanNum (body.dropWhile isFlag)).1).length =
        (chr '%' :: body).length - (spanNum (body.dropWhile isFlag)).2.length := by omega
    rw [if_neg hstar, hread] at hc
    rw [if_neg hstar]
    simp only [htake.1, htake.2, hz]
    have hspec : ∀ spec' : PrintfSpec, fromPrecision S K (spanNum (body.dropWhile isFlag)).2
        ⟨.none, widthOf (spanNum (body.dropWhile isFlag)).1 0, flagBits (body.takeWhile isFlag),
          spec'.base, spec'.precision⟩ args str =
        fromPrecision S K (spanNum (body.dropWhile isFlag)).2
          ⟨.none, widthOf (spanNum (body.dropWhile isFlag)).1 0, flagBits (body.takeWhile isFlag),
            0, 0⟩ args str := fun _ => fromPrecision_congr S K _ rfl rfl args str
    rw [← hspec spec]
    exact resumes_precision ⟨chr '%' :: body, spec, args, str⟩ hr hc hK (flagBits_sign _)

/-- A run of literal text. -/
theorem ends_literal {l fmt : List Byte} (hl : l.length < 2 ^ 31) (hne : l ≠ [])
    (hz : deref l ≠ 0) (hp : chr '%' ∉ l) (hf : fmt = [] ∨ fmt.head? = some (chr '%'))
    {spec : PrintfSpec} (hfr : spec.Fresh) (args : List Arg) (str : σ)
    {res : σ → Option (σ × List Arg)}
    (h : ∀ str, Ends S ⟨fmt, { spec with type := .none }, args, str⟩ (res str)) :
    Ends S ⟨l ++ fmt, spec, args, str⟩
      (match S.copy str (l ++ fmt) l.length with
      | none => none
      | some str => res str) := by
  have hd : deref (l ++ fmt) ≠ 0 := by
    rw [eq_cons_of_deref _ hz, List.cons_append, deref_cons]
    exact hz
  have hlen : (l ++ fmt).length - fmt.length = l.length := by
    rw [List.length_append]
    omega
  have hread : (l ++ fmt).length - fmt.length < 2 ^ 31 := by omega
  have hcount : readCount (l ++ fmt) fmt = (l.length : Int) := by rw [readCount_eq hread, hlen]
  refine .of_round hd ?_
  rw [vsnprintfRound_eq]
  simp only [formatDecode, if_neg hfr.1, if_neg hfr.2, decodeFresh_literal hne hp hf,
    Option.bind_some]
  simp only [dispatch, readCount_nonneg hread, if_false,
    drop_readCount hread (List.suffix_append l fmt)]
  rw [hcount]
  cases S.copy str (l ++ fmt) l.length with
  | none => rfl
  | some str =>
    have hpos := List.length_pos_iff.mpr hne
    exact ⟨by simp only; omega, h str⟩

end Stages

theorem fresh_none (spec : PrintfSpec) : ({ spec with type := .none } : PrintfSpec).Fresh :=
  ⟨by simp, by simp⟩

theorem fresh_zero : PrintfSpec.zero.Fresh := fresh_none .zero

/-- A text that does not start with a `%` starts with a maximal run of literal text. -/
theorem literal_split {fmt : List Byte} (h : fmt ≠ []) (hp : deref fmt ≠ chr '%') :
    ∃ l r, fmt = l ++ r ∧ l ≠ [] ∧ deref l = deref fmt ∧ chr '%' ∉ l ∧
      (r = [] ∨ r.head? = some (chr '%')) := by
  obtain ⟨c, body, rfl⟩ := List.exists_cons_of_ne_nil h
  rw [deref_cons] at hp
  refine ⟨c :: body.takeWhile (· != chr '%'), body.dropWhile (· != chr '%'), ?_, by simp, rfl,
    ?_, ?_⟩
  · rw [List.cons_append, List.takeWhile_append_dropWhile]
  · intro hm
    rcases List.mem_cons.mp hm with he | hm
    · exact hp he.symm
    · simpa using List.mem_takeWhile_imp hm
  · cases hb : body.dropWhile (· != chr '%') with
    | nil => exact Or.inl rfl
    | cons a r =>
      have := List.head?_dropWhile_not (· != chr '%') body
      rw [hb] at this
      exact Or.inr (by simpa using this)

end Eeos.Printk
