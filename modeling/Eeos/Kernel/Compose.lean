import Eeos.Kernel.Text

/-!
# Whole formats

* `vsnprintf_parses` — termination, the three entry states of `format_decode`, the grammar and the
  consumption of the arguments, for every format that is `Counted`.
* `textRun_append` — formatting is compositional: the segments of two formats in a row are those of
  the one and those of the other, up to a literal that joins (`segmentation_append`).

Both need the counts to fit: `format_decode` returns the number of characters it has read as an
`int`, and `long_literal_fails` is a literal that is too long for it.
-/

namespace Eeos.Printk

open ByteMem Ctype

variable {σ : Type}

/-! ## Arguments -/

def starsOf (n : Option Num) : Nat := if n = some .star then 1 else 0

/-- One argument per `*`, and one per directive other than `%%`. -/
def Directive.argsTaken (d : Directive) : Nat :=
  starsOf d.width + starsOf d.precision.join + (if d.conversion = chr '%' then 0 else 1)

def Segment.argsTaken : Segment → Nat
  | .literal _ => 0
  | .directive d => d.argsTaken

theorem takeStar_some {n : Option Num} {args args' : List Arg} {w : BitVec 32}
    (h : takeStar n args = some (w, args')) :
    args' = args.drop (starsOf n) ∧ ∀ more, takeStar n (args ++ more) = some (w, args' ++ more) := by
  rcases n with _ | ⟨ds⟩ | _
  · cases h; exact ⟨rfl, fun more => rfl⟩
  · cases h; exact ⟨rfl, fun more => rfl⟩
  · cases args with
    | nil => contradiction
    | cons a args => cases h; exact ⟨rfl, fun more => rfl⟩

theorem takeValue_some {S : Sink σ} {spec : PrintfSpec} {args args' : List Arg} {str str' : σ}
    (h : takeValue S spec args str = some (str', args')) :
    args' = args.drop (if spec.type = .percentChar then 0 else 1) ∧
      ∀ more, takeValue S spec (args ++ more) str = some (str', args' ++ more) := by
  by_cases hp : spec.type = .percentChar
  · rw [takeValue_percent hp] at h
    cases h
    rw [if_pos hp]
    exact ⟨rfl, fun more => takeValue_percent hp _ _⟩
  · rw [if_neg hp]
    cases args with
    | nil =>
      rw [takeValue_nil hp] at h
      contradiction
    | cons a args =>
      rw [takeValue_cons hp] at h
      obtain ⟨x, hx, he⟩ := Option.map_eq_some_iff.mp h
      cases he
      refine ⟨rfl, fun more => ?_⟩
      rw [List.cons_append, takeValue_cons hp, hx, Option.map_some]

theorem typeOf_percent {q : List Byte} {c : Byte} : typeOf q c = .percentChar ↔ c = chr '%' := by
  unfold typeOf
  constructor
  · intro h
    by_contra hc
    rw [if_neg hc] at h
    split_ifs at h
    exact (qualifiedType_integer _ _).2 h
  · rintro rfl
    rfl

theorem directive_args {S : Sink σ} {d : Directive} {args args' : List Arg} {str str' : σ}
    (h : d.run S args str = some (str', args')) :
    args' = args.drop d.argsTaken ∧
      ∀ more, d.run S (args ++ more) str = some (str', args' ++ more) := by
  unfold Directive.run at h ⊢
  cases hw : takeStar d.width args with
  | none => simp [hw] at h
  | some x =>
    obtain ⟨w, args₁⟩ := x
    simp only [hw] at h
    cases hp : takeStar d.precision.join args₁ with
    | none => simp [hp] at h
    | some y =>
      obtain ⟨p, args₂⟩ := y
      simp only [hp] at h
      obtain ⟨rfl, hw'⟩ := takeStar_some hw
      obtain ⟨rfl, hp'⟩ := takeStar_some hp
      obtain ⟨rfl, hv'⟩ := takeValue_some h
      refine ⟨?_, fun more => by simp only [hw', hp', hv']⟩
      have ht : (d.spec w p).type = typeOf d.qualifier d.conversion := rfl
      simp only [ht, typeOf_percent, List.drop_drop, Directive.argsTaken]

/-- **The arguments are consumed left to right**, each segment taking its own, and a malformed
directive only the `*`s it shows. -/
theorem runSegments_args {S : Sink σ} {rest : List Byte} {segs : List Segment}
    {args args' : List Arg} {str str' : σ}
    (h : runSegments S rest segs args str = some (str', args')) :
    args' = args.drop ((segs.map Segment.argsTaken).sum + starsSeen rest) := by
  induction segs generalizing args str with
  | nil =>
    simp only [runSegments, stopAt] at h
    split at h
    · cases h; simp
    · contradiction
  | cons seg segs ih =>
    cases seg with
    | literal l =>
      simp only [runSegments] at h
      cases hc : S.copy str (l ++ (segmentsText segs ++ rest)) l.length with
      | none => simp [hc] at h
      | some s =>
        simp only [hc] at h
        simpa [Segment.argsTaken] using ih h
    | directive d =>
      simp only [runSegments] at h
      cases hd : d.run S args str with
      | none => simp [hd] at h
      | some x =>
        simp only [hd] at h
        rw [ih h, (directive_args hd).1, List.drop_drop]
        simp [Segment.argsTaken, Nat.add_assoc]

/-! ## Parsing -/

theorem segmentation_rest {fmt : List Byte} {segs : List Segment} {rest : List Byte}
    (h : Segmentation fmt segs rest) :
    rest = [] ∨ (rest.head? = some (chr '%') ∧ ¬ StartsDirective rest) := by
  induction h with
  | done => exact Or.inl rfl
  | stop hp hn => exact Or.inr ⟨hp, hn⟩
  | literal _ _ _ _ ih => exact ih
  | directive _ _ _ _ ih => exact ih

/-- **Format parsing.**  In every entry state `format_decode` stops within the text it was given;
the format has exactly one segmentation, and the loop ends, whatever its fuel, with what the
segmentation says, taking one argument per `*` and one per directive other than `%%`. -/
theorem vsnprintf_parses (fmt : List Byte) (h0 : 0 ∉ fmt) (hc : Counted fmt) :
    (∀ r spec, StopsWithin r (formatDecode r spec)) ∧
    ∃ segs rest, Segmentation fmt segs rest ∧
      (rest = [] ∨ (rest.head? = some (chr '%') ∧ ¬ StartsDirective rest)) ∧
      (∀ segs' rest', Segmentation fmt segs' rest' → segs' = segs ∧ rest' = rest) ∧
      ∀ {σ : Type} (S : Sink σ) (args : List Arg) (str : σ),
        Ends S ⟨fmt, .zero, args, str⟩ (runSegments S rest segs args str) ∧
        (∀ n, fmt.length < n →
          vsnprintfLoop S n ⟨fmt, .zero, args, str⟩ = runSegments S rest segs args str) ∧
        ∀ str' args', runSegments S rest segs args str = some (str', args') →
          args' = args.drop ((segs.map Segment.argsTaken).sum + starsSeen rest) := by
  refine ⟨formatDecode_within, ?_⟩
  obtain ⟨segs, rest, hseg⟩ := segmentation_exists fmt
  obtain ⟨hsegs, hrest⟩ := hc.segments hseg
  refine ⟨segs, rest, hseg, segmentation_rest hseg, fun _ _ h => segmentation_unique h hseg, ?_⟩
  intro σ S args str
  have hends := ends_runSegments S hseg hsegs hrest h0 fresh_zero args str
  exact ⟨hends, fun n hn => hends.loop hn, fun str' args' h => runSegments_args h⟩

/-- `a%0*d%q`: literal text, a `*` width and a directive that goes wrong. -/
theorem vsnprintf_parses_star :
    Segmentation ("a%0*d%q".toList.map chr)
        [.literal [chr 'a'], .directive ⟨[chr '0'], some .star, none, [], chr 'd', []⟩]
        [chr '%', chr 'q'] ∧
      Ends textSink ⟨"a%0*d%q".toList.map chr, .zero, [⟨5, []⟩, ⟨42, []⟩, ⟨1, []⟩], []⟩
        (some ("a00042".toList.map chr, [⟨1, []⟩])) := by
  obtain ⟨-, segs, rest, -, -, hunique, hrun⟩ :=
    vsnprintf_parses ("a%0*d%q".toList.map chr) (by decide) (.of_length (by decide))
  have hspan : spanDirective [chr '0', chr '*', chr 'd', chr '%', chr 'q'] =
      some (⟨[chr '0'], some .star, none, [], chr 'd', []⟩, [chr '%', chr 'q']) := by decide +kernel
  have hwrong : spanDirective [chr 'q'] = none := by decide +kernel
  obtain ⟨hwf, hmax, hp, -⟩ := spanDirective_sound hspan
  have hseg := Segmentation.literal (l := [chr 'a']) (by decide) (by decide) (Or.inr rfl)
    (.directive hwf hmax hp (.stop rfl (spanDirective_none.mp hwrong)))
  obtain ⟨rfl, rfl⟩ := hunique _ _ hseg
  have htext : runSegments textSink [chr '%', chr 'q']
      [.literal [chr 'a'], .directive ⟨[chr '0'], some .star, none, [], chr 'd', []⟩]
      [⟨5, []⟩, ⟨42, []⟩, ⟨1, []⟩] [] = some ("a00042".toList.map chr, [⟨1, []⟩]) := by
    decide +kernel
  exact ⟨hseg, htext ▸ (hrun textSink _ []).1⟩

/-- Where the first call of `format_decode` counts a negative number of characters, the loop
fails. -/
theorem loop_negative {fmt r : List Byte} {spec : PrintfSpec} (hz : deref fmt ≠ 0)
    (hd : decodeFresh fmt .zero = some (readCount fmt r, spec)) (hneg : readCount fmt r < 0)
    (S : Sink σ) (n : Nat) (args : List Arg) (str : σ) :
    vsnprintfLoop S n ⟨fmt, .zero, args, str⟩ = none := by
  cases n with
  | zero => rfl
  | succ n =>
    have hf : formatDecode fmt .zero = some (readCount fmt r, spec) := hd
    rw [vsnprintfLoop, if_neg hz, vsnprintfRound_eq, hf]
    simp only [Option.bind_some, dispatch, hneg, if_true]

/-- `2^31` characters and up to `2^31` more are a negative `int`. -/
theorem readCount_neg {fmt : List Byte} (h : 2 ^ 31 ≤ fmt.length) (h' : fmt.length < 2 ^ 32) :
    readCount fmt [] < 0 := by
  rw [readCount, List.length_nil, Nat.sub_zero, BitVec.toInt_eq_toNat_cond, BitVec.toNat_ofNat]
  split <;> omega

def longLiteral : List Byte := List.replicate (2 ^ 31) (chr 'a')

theorem percent_not_mem_replicate (n : Nat) : chr '%' ∉ List.replicate n (chr 'a') := by
  intro h
  exact absurd (List.eq_of_mem_replicate h) (by decide)

theorem deref_replicate {n : Nat} (h : 0 < n) : deref (List.replicate n (chr 'a')) ≠ 0 := by
  obtain ⟨m, rfl⟩ : ∃ m, n = m + 1 := ⟨n - 1, by omega⟩
  rw [List.replicate_succ, deref_cons]
  decide

theorem segmentation_replicate {n : Nat} (h : 0 < n) :
    Segmentation (List.replicate n (chr 'a')) [.literal (List.replicate n (chr 'a'))] [] := by
  have hne : List.replicate n (chr 'a') ≠ [] := by simp; omega
  have := Segmentation.literal hne (percent_not_mem_replicate n) (Or.inl rfl) .done
  rwa [List.append_nil] at this

/-- The text of a literal is the literal. -/
theorem runSegments_literal (l : List Byte) :
    runSegments textSink [] [.literal l] [] [] = some (l, []) := by
  simp only [runSegments, copy_textSink]
  rfl

theorem longLiteral_spec : longLiteral.length = 2 ^ 31 ∧ deref longLiteral ≠ 0 ∧
    chr '%' ∉ longLiteral ∧ 0 ∉ longLiteral ∧
    Segmentation longLiteral [.literal longLiteral] [] := by
  have h : 0 < 2 ^ 31 := by decide
  refine ⟨List.length_replicate, deref_replicate h, percent_not_mem_replicate _, ?_,
    segmentation_replicate h⟩
  intro hm
  exact absurd (List.eq_of_mem_replicate hm) (by decide)

/-- A literal of `2^31` characters is one segment, but the loop does not get past it. -/
theorem long_literal_fails :
    0 ∉ longLiteral ∧ Segmentation longLiteral [.literal longLiteral] [] ∧
      runSegments textSink [] [.literal longLiteral] [] [] = some (longLiteral, []) ∧
      ∀ n, vsnprintfLoop textSink n ⟨longLiteral, .zero, [], []⟩ = none :=
  have ⟨hl, hz, hp, h0, hseg⟩ := longLiteral_spec
  have hd := decodeFresh_literal (fun h => hz (by rw [h]; rfl)) hp (Or.inl rfl) .zero
  have hneg := readCount_neg (Nat.le_of_eq hl.symm) (by rw [hl]; decide)
  ⟨h0, hseg, runSegments_literal _,
    fun n => loop_negative hz (List.append_nil longLiteral ▸ hd) hneg textSink n [] []⟩

/-! ## Composition -/

/-- The last segment is a `%p`. -/
def EndsWithPtr (segs : List Segment) : Prop :=
  ∃ d : Directive, segs.getLast? = some (.directive d) ∧ d.conversion = chr 'p'

/-- Put a segment in front: literal text joins the literal text that follows it. -/
def Segment.join : Segment → List Segment → List Segment
  | .literal l, .literal l' :: segs => .literal (l ++ l') :: segs
  | seg, segs => seg :: segs

/-- Literal text in front of a segmentation. -/
theorem segmentation_join {l fmt : List Byte} {segs : List Segment} {rest : List Byte}
    (hne : l ≠ []) (hp : chr '%' ∉ l) (h : Segmentation fmt segs rest) :
    Segmentation (l ++ fmt) ((Segment.literal l).join segs) rest := by
  cases h with
  | done => exact .literal hne hp (Or.inl rfl) .done
  | stop hhead hn => exact .literal hne hp (Or.inr hhead) (.stop hhead hn)
  | @literal l' fmt segs _ hne' hp' hf hs =>
    rw [← List.append_assoc]
    exact .literal (by simp [hne]) (by simp [hp, hp']) hf hs
  | directive hd hm hr hs => exact .literal hne hp (Or.inr rfl) (.directive hd hm hr hs)

theorem segmentation_nil {segs : List Segment} {rest : List Byte}
    (h : Segmentation [] segs rest) : segs = [] ∧ rest = [] :=
  segmentation_unique h .done

/-- The segments of `f₁ ++ f₂` are those of `f₁` and those of `f₂`, up to a joined literal. -/
theorem segmentation_append {f₁ f₂ : List Byte} {segs₁ segs₂ : List Segment}
    {rest₁ rest₂ : List Byte} (h₁ : Segmentation f₁ segs₁ rest₁) (hrest : rest₁ = [])
    (h₂ : Segmentation f₂ segs₂ rest₂) (hptr : EndsWithPtr segs₁ → isalnum (deref f₂) = false) :
    Segmentation (f₁ ++ f₂) (segs₁.foldr Segment.join segs₂) rest₂ := by
  induction h₁ with
  | done => exact h₂
  | stop hp =>
    rw [hrest] at hp
    contradiction
  | @literal l r segs rest hne hp hr hs ih =>
    rw [List.append_assoc]
    refine segmentation_join hne hp (ih hrest fun h => hptr ?_)
    obtain ⟨d, hd, hc⟩ := h
    exact ⟨d, by rw [List.getLast?_cons, hd]; rfl, hc⟩
  | @directive d r segs rest hd hm hr hs ih =>
    have hr' : d.conversion = chr 'p' → isalnum (deref (r ++ f₂)) = false := by
      intro hc
      by_cases hnil : r = []
      · subst hnil
        obtain ⟨rfl, -⟩ := segmentation_nil hs
        exact hptr ⟨d, rfl, hc⟩
      · rw [deref_append hnil]
        exact hr hc
    rw [List.append_assoc]
    refine .directive hd hm hr' (ih hrest fun h => hptr ?_)
    obtain ⟨d', hd', hc⟩ := h
    exact ⟨d', by rw [List.getLast?_cons, hd']; rfl, hc⟩

theorem runSegments_join (rest l : List Byte) (segs : List Segment) (args : List Arg)
    (t : List Byte) : runSegments textSink rest ((Segment.literal l).join segs) args t =
      runSegments textSink rest segs args (t ++ l) := by
  rcases segs with _ | ⟨⟨l'⟩ | d, segs⟩
  · simp only [Segment.join, runSegments, copy_textSink]
  · simp only [Segment.join, runSegments]
    rw [copy_textSink, copy_textSink, List.append_assoc]
  · simp only [Segment.join, runSegments, copy_textSink]

/-- The segments of `f₁`, then those of `f₂` on the arguments that are left. -/
theorem runSegments_foldr_join {segs₁ segs₂ : List Segment} {rest : List Byte}
    {a₁ a₂ : List Arg} {t t' : List Byte}
    (h : runSegments textSink [] segs₁ a₁ t = some (t', [])) :
    runSegments textSink rest (segs₁.foldr Segment.join segs₂) (a₁ ++ a₂) t =
      runSegments textSink rest segs₂ a₂ t' := by
  induction segs₁ generalizing a₁ t with
  | nil =>
    have hstars : starsSeen [] = 0 := by decide
    simp only [runSegments, stopAt, hstars, Nat.zero_le, if_true, List.drop_zero] at h
    obtain ⟨rfl, rfl⟩ := Prod.mk.inj (Option.some.inj h)
    rfl
  | cons seg segs₁ ih =>
    cases seg with
    | literal l =>
      simp only [runSegments, copy_textSink] at h
      rw [List.foldr_cons, runSegments_join]
      exact ih h
    | directive d =>
      simp only [runSegments] at h
      cases hd : d.run textSink a₁ t with
      | none => simp [hd] at h
      | some x =>
        simp only [hd] at h
        simp only [List.foldr_cons, Segment.join, runSegments, (directive_args hd).2]
        exact ih h

/-- A joined literal counts at least what its parts count. -/
theorem counts_join {seg : Segment} {segs : List Segment} {b : Nat}
    (h : ∀ s ∈ seg.join segs, ∀ n ∈ s.counts, n < b) :
    (∀ n ∈ seg.counts, n < b) ∧ ∀ s ∈ segs, ∀ n ∈ s.counts, n < b := by
  rcases seg with l | d
  · rcases segs with _ | ⟨⟨l'⟩ | d, segs⟩
    · simpa [Segment.join] using h
    · simp only [Segment.join, List.forall_mem_cons, Segment.counts, List.length_append,
        List.not_mem_nil, false_imp_iff, implies_true, and_true] at h ⊢
      exact ⟨by omega, by omega, h.2⟩
    · simpa [Segment.join] using h
  · simpa [Segment.join] using h

theorem counts_foldr_join {segs₁ segs₂ : List Segment} {b : Nat}
    (h : ∀ s ∈ segs₁.foldr Segment.join segs₂, ∀ n ∈ s.counts, n < b) :
    (∀ s ∈ segs₁, ∀ n ∈ s.counts, n < b) ∧ ∀ s ∈ segs₂, ∀ n ∈ s.counts, n < b := by
  induction segs₁ with
  | nil => exact ⟨fun _ hs => absurd hs List.not_mem_nil, h⟩
  | cons seg segs₁ ih =>
    obtain ⟨hseg, htail⟩ := counts_join h
    obtain ⟨h₁, h₂⟩ := ih htail
    exact ⟨List.forall_mem_cons.mpr ⟨hseg, h₁⟩, h₂⟩

/-- **Formatting is compositional.** -/
theorem textRun_append {f₁ f₂ : List Byte} {a₁ a₂ : List Arg} {segs : List Segment}
    {t₁ : List Byte} (h0 : 0 ∉ f₁ ++ f₂) (hc : Counted (f₁ ++ f₂))
    (hseg : Segmentation f₁ segs []) (hrun : textRun f₁ a₁ = some (t₁, []))
    (hptr : EndsWithPtr segs → isalnum (deref f₂) = false) :
    textRun (f₁ ++ f₂) (a₁ ++ a₂) = (textRun f₂ a₂).map fun x => (t₁ ++ x.1, x.2) := by
  have h0₁ : 0 ∉ f₁ := fun h => h0 (List.mem_append_left _ h)
  have h0₂ : 0 ∉ f₂ := fun h => h0 (List.mem_append_right _ h)
  obtain ⟨segs₂, rest₂, hseg₂⟩ := segmentation_exists f₂
  have happ := segmentation_append hseg rfl hseg₂ hptr
  obtain ⟨hjoined, hrest₂⟩ := hc.segments happ
  obtain ⟨hsegs, hsegs₂⟩ := counts_foldr_join hjoined
  have hc₁ : Counted f₁ := ⟨segs, [], hseg, hsegs, by decide⟩
  have hc₂ : Counted f₂ := ⟨segs₂, rest₂, hseg₂, hsegs₂, hrest₂⟩
  rw [textRun_eq hseg hc₁ h0₁] at hrun
  rw [textRun_eq happ hc h0, runSegments_foldr_join hrun, runSegments_text_append,
    textRun_eq hseg₂ hc₂ h0₂]

/-- `%d` and then `-%c`, with one argument each. -/
theorem textRun_append_d_c :
    textRun ([chr '%', chr 'd'] ++ [chr '-', chr '%', chr 'c']) ([⟨7, []⟩] ++ [⟨0x41, []⟩]) =
      (textRun [chr '-', chr '%', chr 'c'] [⟨0x41, []⟩]).map
        fun x => ([chr '7'] ++ x.1, x.2) := by
  have hd : spanDirective [chr 'd'] = some (⟨[], none, none, [], chr 'd', []⟩, []) := by
    decide +kernel
  obtain ⟨hwf, hmax, hp, -⟩ := spanDirective_sound hd
  refine textRun_append (by decide) (.of_length (by decide)) (.directive hwf hmax hp .done)
    (by decide +kernel) ?_
  rintro ⟨d, hl, hc⟩
  cases hl
  exact absurd hc (by decide)

/-- The text of a literal, whatever the fuel. -/
theorem textRun_literal {n : Nat} (h : 0 < n) (hn : n < 2 ^ 31) :
    textRun (List.replicate n (chr 'a')) [] = some (List.replicate n (chr 'a'), []) := by
  have h0 : 0 ∉ List.replicate n (chr 'a') := by
    intro hm
    exact absurd (List.eq_of_mem_replicate hm) (by decide)
  rw [textRun_eq (segmentation_replicate h) (.of_length (by rwa [List.length_replicate])) h0]
  exact runSegments_literal _

/-- Two literals with a text each, but none together: their `2^31` characters are one literal. -/
theorem append_too_long_fails :
    Segmentation [chr 'a'] [.literal [chr 'a']] [] ∧ ¬ EndsWithPtr [.literal [chr 'a']] ∧
      textRun [chr 'a'] [] = some ([chr 'a'], []) ∧
      textRun (List.replicate (2 ^ 31 - 1) (chr 'a')) [] =
        some (List.replicate (2 ^ 31 - 1) (chr 'a'), []) ∧
      textRun ([chr 'a'] ++ List.replicate (2 ^ 31 - 1) (chr 'a')) ([] ++ []) = none := by
  refine ⟨segmentation_replicate (n := 1) (by decide), ?_, textRun_literal (n := 1) (by decide)
    (by decide), textRun_literal (by decide) (by decide), ?_⟩
  · rintro ⟨d, hl, -⟩
    simp at hl
  · have hlong : [chr 'a'] ++ List.replicate (2 ^ 31 - 1) (chr 'a') = longLiteral :=
      congrArg (List.replicate · (chr 'a')) (by decide : 2 ^ 31 - 1 + 1 = 2 ^ 31)
    rw [hlong]
    obtain ⟨hl, hz, hp, -, -⟩ := longLiteral_spec
    have hd := decodeFresh_literal (fun h => hz (by rw [h]; rfl)) hp (Or.inl rfl) .zero
    have hneg := readCount_neg (Nat.le_of_eq hl.symm) (by rw [hl]; decide)
    exact loop_negative hz (List.append_nil longLiteral ▸ hd) hneg textSink _ _ _

end Eeos.Printk
