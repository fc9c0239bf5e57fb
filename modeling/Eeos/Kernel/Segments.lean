import Eeos.Kernel.Parse

/-!
# Segmentation of a format

The grammar is unambiguous and the loop follows it.

* `spanDirective` reads one directive in one pass; `spanDirective_body` and `spanDirective_sound`
  say that it inverts `Directive.body`, and `spanDirective_isSome` that it fails only where no
  directive of the grammar starts.
* `segmentation_exists`, `segmentation_unique` — every format has exactly one segmentation.

Principal result: `ends_runSegments` — for every sink, the loop on a format ends, with what
`runSegments` makes of its segments.
-/

namespace Eeos.Printk

open ByteMem Ctype

variable {σ : Type}

/-! ## Spans of the grammar's own texts -/

theorem span_append {p : Byte → Bool} {l r : List Byte} (hl : ∀ c ∈ l, p c = true)
    (hr : p (deref r) = false) : (l ++ r).takeWhile p = l ∧ (l ++ r).dropWhile p = r := by
  rw [List.takeWhile_append_of_pos hl, List.dropWhile_append_of_pos hl]
  cases r with
  | nil => simp
  | cons c r =>
    rw [deref_cons] at hr
    simp [hr]

theorem deref_dropWhile {p : Byte → Bool} (h0 : p 0 = false) (l : List Byte) :
    p (deref (l.dropWhile p)) = false := by
  have := List.head?_dropWhile_not p l
  cases h : l.dropWhile p with
  | nil => exact h0
  | cons c r =>
    rw [h] at this
    rw [deref_cons]
    simpa using this

theorem spanNum_text {n : Option Num} (hn : ∀ m ∈ n, m.WellFormed) {x : List Byte}
    (hd : isdigit (deref x) = false) (hs : deref x ≠ chr '*') :
    spanNum (numText n ++ x) = (n, x) := by
  rcases n with _ | ⟨ds⟩ | _
  · simp [numText, spanNum, hd, hs]
  · obtain ⟨hne, hds⟩ : ds ≠ [] ∧ ∀ c ∈ ds, isdigit c = true := hn _ rfl
    obtain ⟨h1, h2⟩ := span_append hds hd
    obtain ⟨c, ds', rfl⟩ := List.exists_cons_of_ne_nil hne
    have hc : isdigit (deref (c :: ds' ++ x)) = true := hds c (by simp)
    rw [numText, Num.text, spanNum, if_pos hc, h1, h2]
  · simp only [numText, Num.text, List.cons_append, List.nil_append, spanNum, star_not_digit,
      Bool.false_eq_true, if_false, deref_cons, if_true, List.tail_cons]

theorem spanPrecision_text {p : Option (Option Num)} (hp : ∀ m ∈ p.join, m.WellFormed)
    {x : List Byte} (hd : isdigit (deref x) = false) (hs : deref x ≠ chr '*')
    (hdot : deref x ≠ chr '.') : spanPrecision (precisionText p ++ x) = (p, x) := by
  cases p with
  | none => simp [precisionText, spanPrecision, hdot]
  | some n =>
    simp only [precisionText, List.cons_append, spanPrecision, deref_cons, if_true, List.tail_cons,
      spanNum_text (n := n) (by simpa using hp) hd hs]

/-- No conversion character continues a qualifier. -/
theorem conversion_not_qualifier {c : Byte} (hc : isConversion c = true) :
    c ≠ chr 'h' ∧ c ≠ chr 'l' ∧ c ≠ chr 'L' ∧ c ≠ chr 'z' ∧ c ≠ chr 't' := by
  revert c; decide +kernel

theorem spanQualifier_text {q : List Byte} (hq : q = [] ∨ q ∈ qualifiers) {c : Byte}
    (hc : isConversion c = true) (x : List Byte) :
    spanQualifier (q ++ c :: x) = (q, c :: x) := by
  obtain ⟨h1, h2, h3, h4, h5⟩ := conversion_not_qualifier hc
  rcases hq with rfl | hq
  · simp [spanQualifier, h1, h2, h3, h4, h5]
  · simp only [qualifiers, List.map_cons, List.map_nil, List.mem_cons, List.not_mem_nil,
      or_false] at hq
    rcases hq with rfl | rfl | rfl | rfl | rfl | rfl | rfl <;>
      simp [spanQualifier, deref, h1, h2]

/-! ## What follows each field -/

/-- Neither a flag nor the start of a width or a precision. -/
def Plain (c : Byte) : Prop := isFlag c = false ∧ isdigit c = false ∧ c ≠ chr '*'

instance (c : Byte) : Decidable (Plain c) := inferInstanceAs (Decidable (_ ∧ _ ∧ _))

theorem plain_conversion {c : Byte} (hc : isConversion c = true) : Plain c ∧ c ≠ chr '.' := by
  revert c; decide +kernel

theorem deref_append {l : List Byte} (h : l ≠ []) (r : List Byte) : deref (l ++ r) = deref l := by
  obtain ⟨c, l', rfl⟩ := List.exists_cons_of_ne_nil h
  rfl

theorem plain_qualifier {q : List Byte} (hq : q = [] ∨ q ∈ qualifiers) {c : Byte}
    (hc : isConversion c = true) (x : List Byte) :
    Plain (deref (q ++ c :: x)) ∧ deref (q ++ c :: x) ≠ chr '.' := by
  rcases hq with rfl | hq
  · exact plain_conversion hc
  · have hall : ∀ q ∈ qualifiers, q ≠ [] ∧ Plain (deref q) ∧ deref q ≠ chr '.' := by decide
    obtain ⟨hne, hp⟩ := hall q hq
    rwa [deref_append hne]

theorem plain_precision (p : Option (Option Num)) {x : List Byte} (hx : Plain (deref x)) :
    Plain (deref (precisionText p ++ x)) := by
  cases p with
  | none => exact hx
  | some n => exact (by decide : Plain (chr '.'))

/-! ## One directive -/

/-- The characters that a `%p` skips. -/
def pointerTail (c : Byte) (r : List Byte) : List Byte :=
  if c = chr 'p' then r.takeWhile isalnum else []

/-- The directive behind a `%`, and what follows it. -/
def spanDirective (body : List Byte) : Option (Directive × List Byte) :=
  let width := spanNum (body.dropWhile isFlag)
  let precision := spanPrecision width.2
  let qualifier := spanQualifier precision.2
  let c := deref qualifier.2
  let r := qualifier.2.tail
  if isConversion c then
    some (⟨body.takeWhile isFlag, width.1, precision.1, qualifier.1, c, pointerTail c r⟩,
      afterValue (typeOf qualifier.1 c) r)
  else none

/-- A qualifier only chooses among the integer types. -/
theorem qualifiedType_integer (q : List Byte) (signed : Bool) :
    qualifiedType q signed ≠ .ptr ∧ qualifiedType q signed ≠ .percentChar := by
  unfold qualifiedType
  split_ifs <;> decide

theorem typeOf_ptr (q : List Byte) (c : Byte) : typeOf q c = .ptr ↔ c = chr 'p' := by
  unfold typeOf
  constructor
  · intro h
    by_contra hc
    rw [if_neg hc] at h
    split_ifs at h
    exact (qualifiedType_integer _ _).1 h
  · rintro rfl
    rfl

/-- `spanDirective` inverts `Directive.body`. -/
theorem spanDirective_body {d : Directive} (hd : d.WellFormed) (hm : d.FlagsMaximal)
    {r : List Byte} (hr : d.conversion = chr 'p' → isalnum (deref r) = false) :
    spanDirective (d.body ++ r) = some (d, r) := by
  have hq := plain_qualifier hd.qualifier hd.conversion (d.tail ++ r)
  have hp := plain_precision d.precision hq.1
  have hw : isFlag (deref (numText d.width ++ (precisionText d.precision ++
      (d.qualifier ++ d.conversion :: (d.tail ++ r))))) = false := by
    rcases hn : d.width with _ | ⟨ds⟩ | _
    · exact hp.1
    · obtain ⟨hne, hds⟩ : ds ≠ [] ∧ ∀ c ∈ ds, isdigit c = true := hd.width _ hn
      obtain ⟨c, ds', rfl⟩ := List.exists_cons_of_ne_nil hne
      have hz := hm _ hn
      have hc := hds c (by simp)
      have : ∀ c : Byte, isdigit c = true → c ≠ chr '0' → isFlag c = false := by decide +kernel
      exact this c hc (by simpa using hz)
    · exact (by decide : isFlag (chr '*') = false)
  have htext : d.body ++ r = d.flags ++ (numText d.width ++ (precisionText d.precision ++
      (d.qualifier ++ d.conversion :: (d.tail ++ r)))) := by
    simp [Directive.body]
  obtain ⟨hf1, hf2⟩ := span_append hd.flags hw
  have htail : pointerTail d.conversion (d.tail ++ r) = d.tail ∧
      afterValue (typeOf d.qualifier d.conversion) (d.tail ++ r) = r := by
    unfold pointerTail afterValue
    by_cases hc : d.conversion = chr 'p'
    · rw [if_pos hc, if_pos ((typeOf_ptr _ _).mpr hc)]
      exact span_append hd.tail (hr hc)
    · have : d.tail = [] := by
        by_contra h
        exact hc (hd.tail_ptr h)
      rw [if_neg hc, if_neg (mt (typeOf_ptr _ _).mp hc), this]
      exact ⟨rfl, rfl⟩
  rw [htext]
  simp only [spanDirective, hf1, hf2, spanNum_text hd.width hp.2.1 hp.2.2,
    spanPrecision_text hd.precision hq.1.2.1 hq.1.2.2 hq.2,
    spanQualifier_text hd.qualifier hd.conversion, deref_cons, List.tail_cons, hd.conversion,
    if_true, htail.1, htail.2]

theorem spanNum_wellFormed (fmt : List Byte) : ∀ n ∈ (spanNum fmt).1, n.WellFormed := by
  intro n hn
  unfold spanNum at hn
  split at hn
  · rename_i h
    cases hn
    refine ⟨?_, fun c hc => List.mem_takeWhile_imp hc⟩
    have := eq_cons_of_deref fmt (fun h0 => by rw [h0, isdigit_nul] at h; contradiction)
    rw [this, List.takeWhile_cons_of_pos h]
    simp
  · split at hn
    · cases hn; trivial
    · cases hn

theorem spanPrecision_wellFormed (fmt : List Byte) :
    ∀ n ∈ (spanPrecision fmt).1.join, n.WellFormed := by
  unfold spanPrecision
  split
  · simpa using spanNum_wellFormed fmt.tail
  · simp

/-- What a `%p` skips and what it leaves are the text behind the conversion. -/
theorem pointerTail_append (q : List Byte) (c : Byte) (r : List Byte) :
    pointerTail c r ++ afterValue (typeOf q c) r = r := by
  unfold pointerTail afterValue
  by_cases h : c = chr 'p'
  · rw [if_pos h, if_pos ((typeOf_ptr _ _).mpr h)]
    exact List.takeWhile_append_dropWhile
  · rw [if_neg h, if_neg (mt (typeOf_ptr _ _).mp h)]
    rfl

/-- The digits of a width do not start with a zero, which is a flag. -/
theorem spanNum_head (body : List Byte) {ds : List Byte}
    (h : (spanNum (body.dropWhile isFlag)).1 = some (.digits ds)) : ds.head? ≠ some (chr '0') := by
  intro hz
  have hflag := deref_dropWhile isFlag_nul body
  unfold spanNum at h
  split at h
  · rename_i hdig
    cases h
    have hcons := eq_cons_of_deref (body.dropWhile isFlag) (fun h0 => by
      rw [h0, isdigit_nul] at hdig; contradiction)
    rw [hcons, List.takeWhile_cons_of_pos hdig] at hz
    rw [Option.some.inj hz] at hflag
    exact absurd hflag (by decide)
  · split at h <;> simp at h

/-- What `spanDirective` takes for a directive. -/
theorem spanDirective_some {body r : List Byte} {d : Directive}
    (h : spanDirective body = some (d, r)) :
    let width := spanNum (body.dropWhile isFlag)
    let precision := spanPrecision width.2
    let qualifier := spanQualifier precision.2
    let c := deref qualifier.2
    isConversion c = true ∧ r = afterValue (typeOf qualifier.1 c) qualifier.2.tail ∧
      d = ⟨body.takeWhile isFlag, width.1, precision.1, qualifier.1, c,
        pointerTail c qualifier.2.tail⟩ := by
  intro width precision qualifier c
  simp only [spanDirective] at h
  split at h
  case isFalse => contradiction
  rename_i hc
  obtain ⟨hd, hr⟩ := Prod.mk.inj (Option.some.inj h)
  exact ⟨hc, hr.symm, hd.symm⟩

/-- What `spanDirective` finds is a directive of the grammar. -/
theorem spanDirective_sound {body r : List Byte} {d : Directive}
    (h : spanDirective body = some (d, r)) :
    d.WellFormed ∧ d.FlagsMaximal ∧ (d.conversion = chr 'p' → isalnum (deref r) = false) ∧
      body = d.body ++ r := by
  obtain ⟨hc, rfl, rfl⟩ := spanDirective_some h
  generalize hw : spanNum (body.dropWhile isFlag) = w at hc ⊢
  generalize hp : spanPrecision w.2 = p at hc ⊢
  generalize hq : spanQualifier p.2 = q at hc ⊢
  have hne : deref q.2 ≠ 0 := by
    intro h0
    rw [h0, isConversion_nul] at hc
    contradiction
  refine ⟨⟨fun c h => List.mem_takeWhile_imp h, ?_, ?_, ?_, hc, ?_, ?_⟩, ?_, ?_, ?_⟩
  · exact hw ▸ spanNum_wellFormed _
  · exact hp ▸ spanPrecision_wellFormed _
  · exact hq ▸ spanQualifier_mem _
  · intro c h
    unfold pointerTail at h
    split at h
    · exact List.mem_takeWhile_imp h
    · exact absurd h List.not_mem_nil
  · intro h
    by_contra hnp
    exact h (if_neg hnp)
  · intro ds hds
    exact spanNum_head body (hw ▸ hds)
  · intro h
    unfold afterValue
    rw [if_pos ((typeOf_ptr _ _).mpr h)]
    exact deref_dropWhile isalnum_nul _
  · have h1 : numText w.1 ++ w.2 = body.dropWhile isFlag := hw ▸ spanNum_append _
    have h2 : precisionText p.1 ++ p.2 = w.2 := hp ▸ spanPrecision_append _
    have h3 : q.1 ++ q.2 = p.2 := hq ▸ spanQualifier_append _
    calc body = body.takeWhile isFlag ++ (numText w.1 ++ (precisionText p.1 ++ (q.1 ++ q.2))) := by
          rw [h3, h2, h1, List.takeWhile_append_dropWhile]
      _ = body.takeWhile isFlag ++ (numText w.1 ++ (precisionText p.1 ++ (q.1 ++
            (deref q.2 :: (pointerTail (deref q.2) q.2.tail ++
              afterValue (typeOf q.1 (deref q.2)) q.2.tail))))) := by
          rw [pointerTail_append, ← eq_cons_of_deref _ hne]
      _ = _ := by simp [Directive.body]

/-- However a text splits into flags and width, the scanners find the end of the width. -/
theorem spanNum_after_flags {flags : List Byte} (hf : ∀ c ∈ flags, isFlag c = true)
    {n : Option Num} (hn : ∀ m ∈ n, m.WellFormed) {x : List Byte} (hx : Plain (deref x)) :
    (spanNum ((flags ++ (numText n ++ x)).dropWhile isFlag)).2 = x := by
  have hstop : x.dropWhile isFlag = x := (span_append (l := []) (by simp) hx.1).2
  rw [List.dropWhile_append_of_pos hf]
  rcases n with _ | ⟨ds⟩ | _
  · rw [show numText none ++ x = x from rfl, hstop]
    exact congrArg Prod.snd (spanNum_text (n := none) (by simp) hx.2.1 hx.2.2)
  · obtain ⟨-, hds⟩ : ds ≠ [] ∧ ∀ c ∈ ds, isdigit c = true := hn _ rfl
    -- leading zeros go with the flags; the digits left, if any, are the width
    have hrest : ∀ c ∈ ds.dropWhile isFlag, isdigit c = true :=
      fun c hc => hds c ((List.dropWhile_suffix _).subset hc)
    have happ : (ds ++ x).dropWhile isFlag = ds.dropWhile isFlag ++ x := by
      rw [List.dropWhile_append]
      split
      · rename_i he
        rw [List.isEmpty_iff.mp he, hstop, List.nil_append]
      · rfl
    rw [numText, Num.text, happ]
    by_cases he : ds.dropWhile isFlag = []
    · rw [he]
      exact congrArg Prod.snd (spanNum_text (n := none) (by simp) hx.2.1 hx.2.2)
    · have hwf : ∀ m ∈ some (Num.digits (ds.dropWhile isFlag)), m.WellFormed := by
        rintro m ⟨⟩
        exact ⟨he, hrest⟩
      exact congrArg Prod.snd (spanNum_text hwf hx.2.1 hx.2.2)
  · have : (numText (some .star) ++ x).dropWhile isFlag = numText (some .star) ++ x :=
      (span_append (l := []) (by simp) (by decide : isFlag (chr '*') = false)).2
    rw [this, spanNum_text (by simp [Num.WellFormed]) hx.2.1 hx.2.2]

theorem spanDirective_isSome {d : Directive} (hd : d.WellFormed) (r : List Byte) :
    (spanDirective (d.body ++ r)).isSome = true := by
  have hq := plain_qualifier hd.qualifier hd.conversion (d.tail ++ r)
  have hp := plain_precision d.precision hq.1
  have htext : d.body ++ r = d.flags ++ (numText d.width ++ (precisionText d.precision ++
      (d.qualifier ++ d.conversion :: (d.tail ++ r)))) := by
    simp [Directive.body]
  rw [htext, spanDirective]
  simp only [spanNum_after_flags hd.flags hd.width hp,
    spanPrecision_text hd.precision hq.1.2.1 hq.1.2.2 hq.2,
    spanQualifier_text hd.qualifier hd.conversion, deref_cons, hd.conversion, if_true,
    Option.isSome_some]

/-- `spanDirective` fails only where no directive starts. -/
theorem spanDirective_none {body : List Byte} :
    spanDirective body = none ↔ ¬ StartsDirective (chr '%' :: body) := by
  constructor
  · rintro h ⟨d, r, hd, he⟩
    have hb : body = d.body ++ r := (List.cons.inj he).2
    have := spanDirective_isSome hd r
    rw [← hb, h] at this
    contradiction
  · intro h
    cases hs : spanDirective body with
    | none => rfl
    | some x =>
      obtain ⟨d, r⟩ := x
      obtain ⟨hd, -, -, hb⟩ := spanDirective_sound hs
      exact absurd ⟨d, r, hd, by rw [hb]; rfl⟩ h

/-! ## Segmentations -/

/-- **Every format has a segmentation.** -/
theorem segmentation_exists (fmt : List Byte) : ∃ segs rest, Segmentation fmt segs rest := by
  obtain ⟨n, hn⟩ : ∃ n, fmt.length ≤ n := ⟨_, Nat.le_refl _⟩
  induction n generalizing fmt with
  | zero =>
    rw [List.length_eq_zero_iff.mp (Nat.le_zero.mp hn)]
    exact ⟨[], [], .done⟩
  | succ n ih =>
    cases fmt with
    | nil => exact ⟨[], [], .done⟩
    | cons c body =>
      by_cases hc : c = chr '%'
      · subst hc
        cases hs : spanDirective body with
        | none => exact ⟨[], _, .stop rfl (spanDirective_none.mp hs)⟩
        | some x =>
          obtain ⟨d, r⟩ := x
          obtain ⟨hd, hm, hr, rfl⟩ := spanDirective_sound hs
          obtain ⟨segs, rest, hseg⟩ := ih r (by simp at hn; omega)
          exact ⟨_, rest, Segmentation.directive hd hm hr hseg⟩
      · obtain ⟨l, r, he, hl, -, hp, hr⟩ := literal_split (List.cons_ne_nil c body) hc
        rw [he] at hn ⊢
        have := List.length_pos_iff.mpr hl
        obtain ⟨segs, rest, hseg⟩ := ih r (by simp at hn; omega)
        exact ⟨_, rest, Segmentation.literal hl hp hr hseg⟩

/-- The first step of a segmentation, by the first character. -/
theorem segmentation_first {fmt : List Byte} {segs : List Segment} {rest : List Byte}
    (h : Segmentation fmt segs rest) :
    (fmt = [] ∧ segs = [] ∧ rest = []) ∨
    (∃ body, fmt = chr '%' :: body ∧ match spanDirective body with
      | none => segs = [] ∧ rest = fmt
      | some (d, r) => ∃ segs', segs = .directive d :: segs' ∧ Segmentation r segs' rest) ∨
    (fmt ≠ [] ∧ deref fmt ≠ chr '%' ∧ ∃ segs', segs = .literal (fmt.takeWhile (· != chr '%')) :: segs' ∧
      Segmentation (fmt.dropWhile (· != chr '%')) segs' rest) := by
  cases h with
  | done => exact Or.inl ⟨rfl, rfl, rfl⟩
  | stop hp hn =>
    obtain ⟨body, rfl⟩ : ∃ body, fmt = chr '%' :: body := List.head?_eq_some_iff.mp hp
    exact Or.inr (Or.inl ⟨body, rfl, by rw [spanDirective_none.mpr hn]; exact ⟨rfl, rfl⟩⟩)
  | @literal l r segs' _ hl hp hr hs =>
    have hall : ∀ c ∈ l, (c != chr '%') = true := by
      intro c hc
      simpa using fun h : c = chr '%' => hp (h ▸ hc)
    have hstop : r.takeWhile (· != chr '%') = [] ∧ r.dropWhile (· != chr '%') = r := by
      rcases hr with rfl | hr
      · exact ⟨rfl, rfl⟩
      · obtain ⟨r', rfl⟩ := List.head?_eq_some_iff.mp hr
        simp
    refine Or.inr (Or.inr ⟨by simp [hl], ?_, segs', ?_, ?_⟩)
    · obtain ⟨c, l', rfl⟩ := List.exists_cons_of_ne_nil hl
      have := hall c (by simp)
      rw [List.cons_append, deref_cons]
      simpa using this
    · rw [List.takeWhile_append_of_pos hall, hstop.1, List.append_nil]
    · rwa [List.dropWhile_append_of_pos hall, hstop.2]
  | @directive d r segs' _ hd hm hr hs =>
    refine Or.inr (Or.inl ⟨d.body ++ r, rfl, ?_⟩)
    rw [spanDirective_body hd hm hr]
    exact ⟨segs', rfl, hs⟩

/-- **The grammar is unambiguous.** -/
theorem segmentation_unique {fmt : List Byte} {segs segs' : List Segment} {rest rest' : List Byte}
    (h : Segmentation fmt segs rest) (h' : Segmentation fmt segs' rest') :
    segs = segs' ∧ rest = rest' := by
  induction segs generalizing fmt segs' with
  | nil =>
    rcases segmentation_first h with ⟨rfl, -, rfl⟩ | ⟨body, rfl, hb⟩ | ⟨-, -, s, hs, -⟩
    · rcases segmentation_first h' with ⟨-, rfl, rfl⟩ | ⟨body, hb, -⟩ | ⟨hne, -⟩
      · exact ⟨rfl, rfl⟩
      · contradiction
      · exact absurd rfl hne
    · rcases segmentation_first h' with ⟨hn, -⟩ | ⟨body', he, hb'⟩ | ⟨-, hne, -⟩
      · contradiction
      · obtain rfl := (List.cons.inj he).2
        cases hd : spanDirective body with
        | none =>
          rw [hd] at hb hb'
          exact ⟨hb'.1.symm, hb.2.trans hb'.2.symm⟩
        | some x =>
          rw [hd] at hb
          obtain ⟨s, hs, -⟩ := hb
          contradiction
      · exact absurd rfl hne
    · contradiction
  | cons seg segs ih =>
    rcases segmentation_first h with ⟨-, hs, -⟩ | ⟨body, rfl, hb⟩ | ⟨hne, hnp, s, hs, hseg⟩
    · contradiction
    · rcases segmentation_first h' with ⟨hn, -⟩ | ⟨body', he, hb'⟩ | ⟨-, hnp, -⟩
      · contradiction
      · obtain rfl := (List.cons.inj he).2
        cases hd : spanDirective body with
        | none =>
          rw [hd] at hb
          exact absurd hb.1 (List.cons_ne_nil _ _)
        | some x =>
          rw [hd] at hb hb'
          obtain ⟨s, hs, hseg⟩ := hb
          obtain ⟨s', hs', hseg'⟩ := hb'
          obtain ⟨rfl, rfl⟩ := List.cons.inj hs
          obtain ⟨rfl, rfl⟩ := ih hseg hseg'
          exact ⟨hs'.symm, rfl⟩
      · exact absurd rfl hnp
    · rcases segmentation_first h' with ⟨hn, -⟩ | ⟨body', rfl, -⟩ | ⟨-, -, s', hs', hseg'⟩
      · contradiction
      · exact absurd rfl hnp
      · obtain ⟨rfl, rfl⟩ := List.cons.inj hs
        obtain ⟨rfl, rfl⟩ := ih hseg hseg'
        exact ⟨hs'.symm, rfl⟩

theorem segmentation_text {fmt : List Byte} {segs : List Segment} {rest : List Byte}
    (h : Segmentation fmt segs rest) : fmt = segmentsText segs ++ rest := by
  induction h with
  | done => rfl
  | stop => rfl
  | literal hl hp hf hs ih => simp [segmentsText, Segment.text, ih]
  | directive hd hm hr hs ih => simp [segmentsText, Segment.text, ih]

/-! ## The loop on the segments -/

theorem fromPercent_directive (S : Sink σ) {rest : List Byte} {segs : List Segment}
    {body r : List Byte} {d : Directive} (h : spanDirective body = some (d, r)) (args : List Arg)
    (str : σ) :
    fromPercent S (fun _ => runSegments S rest segs) body args str =
      runSegments S rest (.directive d :: segs) args str := by
  obtain ⟨hc, rfl, rfl⟩ := spanDirective_some h
  simp only [fromPercent, fromPrecision, runSegments, Directive.run, finish, hc, if_true]
  cases takeStar (spanNum (body.dropWhile isFlag)).1 args with
  | none => rfl
  | some x =>
    simp only
    cases takeStar (spanPrecision (spanNum (body.dropWhile isFlag)).2).1.join x.2 with
    | none => rfl
    | some y => rfl

/-- Each `*` in a malformed directive takes one argument. -/
theorem takeStars (n : Option Num) (p : Option (Option Num)) (args : List Arg) (str : σ) :
    (match takeStar n args with
      | none => none
      | some (_, args) =>
        match takeStar p.join args with
        | none => none
        | some (_, args) => some (str, args)) =
      if (if n = some .star then 1 else 0) + (if p = some (some .star) then 1 else 0) ≤ args.length
      then some (str, args.drop
        ((if n = some .star then 1 else 0) + (if p = some (some .star) then 1 else 0)))
      else none := by
  rcases n with _ | ⟨ds⟩ | _ <;> rcases p with _ | _ | ⟨ds'⟩ | _ <;>
    rcases args with _ | ⟨a, _ | ⟨b, args⟩⟩ <;> simp [takeStar]

theorem spanDirective_conversion {body : List Byte} (h : spanDirective body = none) :
    isConversion (deref (spanQualifier
      (spanPrecision (spanNum (body.dropWhile isFlag)).2).2).2) = false := by
  simp only [spanDirective] at h
  split at h
  · contradiction
  · rename_i hc
    simpa using hc

theorem fromPercent_none (S : Sink σ) (K : List Byte → List Arg → σ → Option (σ × List Arg))
    {body : List Byte} (h : spanDirective body = none) (args : List Arg) (str : σ) :
    fromPercent S K body args str = stopAt (chr '%' :: body) args str := by
  simp only [fromPercent, fromPrecision, finish, spanDirective_conversion h, Bool.false_eq_true,
    if_false, stopAt, starsSeen, List.tail_cons]
  exact takeStars _ _ args str

/-- `spanDirective` and the rounds count the same characters. -/
theorem bodyCounts_some {body r : List Byte} {d : Directive} (h : spanDirective body = some (d, r)) :
    bodyCounts body = (Segment.directive d).counts := by
  obtain ⟨hc, -, rfl⟩ := spanDirective_some h
  simp only [bodyCounts, lastCount, hc, if_true, Segment.counts]

theorem bodyCounts_none {body : List Byte} (h : spanDirective body = none) :
    bodyCounts body = malformedCounts (chr '%' :: body) := by
  simp only [bodyCounts, malformedCounts, lastCount, spanDirective_conversion h,
    Bool.false_eq_true, if_false, Nat.add_zero, List.tail_cons]

/-- **The loop ends and follows the grammar**, for every sink and whatever spec the directive
before has left behind. -/
theorem ends_runSegments (S : Sink σ) {fmt : List Byte} {segs : List Segment} {rest : List Byte}
    (h : Segmentation fmt segs rest) (hc : ∀ seg ∈ segs, ∀ n ∈ seg.counts, n < 2 ^ 31)
    (hrest : ∀ n ∈ malformedCounts rest, n < 2 ^ 31) (h0 : 0 ∉ fmt) {spec : PrintfSpec}
    (hf : spec.Fresh) (args : List Arg) (str : σ) :
    Ends S ⟨fmt, spec, args, str⟩ (runSegments S rest segs args str) := by
  induction h generalizing spec args str with
  | done => exact .nul rfl
  | @stop rest hp hn =>
    obtain ⟨body, rfl⟩ := List.head?_eq_some_iff.mp hp
    have hspan := spanDirective_none.mpr hn
    rw [runSegments, ← fromPercent_none S (fun _ _ _ => none) hspan]
    refine ends_percent (bodyCounts_none hspan ▸ hrest) (fun hconv => ?_) hf args str
    exact absurd (hconv.symm.trans (spanDirective_conversion hspan)) Bool.noConfusion
  | @literal l fmt segs rest hl hp hl' hs ih =>
    have hz : deref l ≠ 0 := by
      obtain ⟨c, l', rfl⟩ := List.exists_cons_of_ne_nil hl
      intro hd
      rw [deref_cons] at hd
      exact h0 (by rw [hd]; simp)
    have hshort : l.length < 2 ^ 31 := hc _ (List.mem_cons_self ..) _ (List.mem_singleton_self _)
    rw [runSegments, ← segmentation_text hs]
    exact ends_literal hshort hl hz hp hl' hf args str fun str =>
      ih (fun seg hm => hc seg (List.mem_cons_of_mem _ hm)) hrest
        (fun hm => h0 (List.mem_append_right _ hm)) (fresh_none spec) args str
  | @directive d fmt segs rest hd hm hr hs ih =>
    have hspan := spanDirective_body hd hm hr
    have hcounts := bodyCounts_some hspan ▸ hc _ (List.mem_cons_self ..)
    rw [← fromPercent_directive S hspan]
    refine ends_percent hcounts (fun _ spec hfr args str => ?_) hf args str
    have hbehind : behind (spanPrecision (spanNum ((d.body ++ fmt).dropWhile isFlag)).2).2 = fmt :=
      (spanDirective_some hspan).2.1.symm
    rw [hbehind]
    exact ih (fun seg hm => hc seg (List.mem_cons_of_mem _ hm)) hrest
      (fun hm => h0 (List.mem_append_right _ hm)) hfr args str

/-- The counts of a format are those of its segmentation. -/
theorem Counted.segments {fmt : List Byte} {segs : List Segment} {rest : List Byte}
    (hc : Counted fmt) (h : Segmentation fmt segs rest) :
    (∀ seg ∈ segs, ∀ n ∈ seg.counts, n < 2 ^ 31) ∧ ∀ n ∈ malformedCounts rest, n < 2 ^ 31 := by
  obtain ⟨segs', rest', h', hsegs, hrest⟩ := hc
  obtain ⟨rfl, rfl⟩ := segmentation_unique h h'
  exact ⟨hsegs, hrest⟩

/-- **The loop on a format is its segments**, whatever the fuel. -/
theorem loop_eq_runSegments (S : Sink σ) {fmt : List Byte} {segs : List Segment} {rest : List Byte}
    (h : Segmentation fmt segs rest) (hc : Counted fmt) (h0 : 0 ∉ fmt) (args : List Arg) (str : σ)
    {n : Nat} (hn : fmt.length < n) :
    vsnprintfLoop S n ⟨fmt, .zero, args, str⟩ = runSegments S rest segs args str :=
  (ends_runSegments S h (hc.segments h).1 (hc.segments h).2 h0 fresh_zero args str).loop hn

/-! ## Short formats -/

theorem le_of_mem_directiveCounts {flags : List Byte} {width : Option Num}
    {precision : Option (Option Num)} {last n : Nat}
    (h : n ∈ directiveCounts flags width precision last) :
    n ≤ 1 + flags.length + (numText width).length + (precisionText precision).length + last := by
  unfold directiveCounts precisionCounts at h
  split at h <;> split at h <;> simp at h <;> omega

theorem Segment.le_of_mem_counts {seg : Segment} {n : Nat} (h : n ∈ seg.counts) :
    n ≤ seg.text.length := by
  cases seg with
  | literal l => exact Nat.le_of_eq (List.mem_singleton.mp h)
  | directive d =>
    have := le_of_mem_directiveCounts h
    simp only [Segment.text, Directive.text, Directive.body, List.length_cons, List.length_append]
    omega

theorem le_of_mem_malformedCounts {rest : List Byte} {n : Nat} (h : n ∈ malformedCounts rest) :
    n ≤ max 1 rest.length := by
  have hle := le_of_mem_directiveCounts h
  have hflags : (rest.tail.takeWhile isFlag).length + (rest.tail.dropWhile isFlag).length =
      rest.tail.length := by
    rw [← List.length_append, List.takeWhile_append_dropWhile]
  have hwidth := length_spanNum (rest.tail.dropWhile isFlag)
  have hprecision := length_spanPrecision (spanNum (rest.tail.dropWhile isFlag)).2
  have hqualifier :=
    length_spanQualifier (spanPrecision (spanNum (rest.tail.dropWhile isFlag)).2).2
  have htail := List.length_tail (l := rest)
  omega

/-- A format of fewer than `2^31` characters has no part that is too long. -/
theorem Counted.of_length {fmt : List Byte} (h : fmt.length < 2 ^ 31) : Counted fmt := by
  obtain ⟨segs, rest, hseg⟩ := segmentation_exists fmt
  have htext := congrArg List.length (segmentation_text hseg)
  rw [List.length_append] at htext
  refine ⟨segs, rest, hseg, fun seg hs n hn => ?_, fun n hn => ?_⟩
  · have := Segment.le_of_mem_counts hn
    have : seg.text.length ≤ (segmentsText segs).length := by
      obtain ⟨a, b, rfl⟩ := List.append_of_mem hs
      simp [segmentsText]
      omega
    omega
  · have := le_of_mem_malformedCounts hn
    omega

end Eeos.Printk
