import Eeos.Kernel.Compose

/-!
# The truncation law of `vsnprintf`

`bufState m buf size t` is what the buffer sink should be after the text `t`: the first `size`
characters of `t` laid down at `buf`, and the cursor at `buf + |t|`, beyond the end or not.

* `put_bufState`, `copy_bufState`, `shift_bufState` — the three operations keep it; the last is
  `move_right`, whose cases are where the end of the buffer falls in the shifted field.
* `bufSink_simulates` — hence the buffer simulates the text.

Principal result: `vsnprintf_truncates` — whatever the size and the memory, `vsnprintf` returns the
length of the text, stores as much of it as the size admits and a NUL, and writes nothing else.
-/

namespace Eeos.Printk

open ByteMem Ctype Str

/-- The buffer after the text `t`. -/
def bufState (m : Mem) (buf : Addr) (size : Nat) (t : List Byte) : Out :=
  ⟨blit m buf (t.take size), buf + BitVec.ofNat 64 t.length⟩

theorem toNat_ofInt_natCast {k : Nat} (h : k < 2 ^ 64) : (BitVec.ofInt 64 (k : Int)).toNat = k := by
  rw [BitVec.ofInt_natCast, BitVec.toNat_ofNat, Nat.mod_eq_of_lt h]

/-- `move_right` moves up, out of the `z` bytes that are left, the characters of `u` that still fit
behind the spaces. -/
theorem memmove_room {m : Mem} {buf : Addr} {a u : List Byte} {spaces : BitVec 32} {z : Nat}
    (hl : a.length + u.length < 2 ^ 31) (hz : buf.toNat + (a.length + z) < 2 ^ 64)
    (hroom : spaces.toNat < z) :
    (if BitVec.ofNat 32 u.length ≠ 0 then
        memmove (blit m buf (a ++ u.take z)) (buf + BitVec.ofNat 64 a.length + spaces.setWidth 64)
          (buf + BitVec.ofNat 64 a.length)
          (if z - spaces.toNat < (BitVec.ofNat 32 u.length).toNat then z - spaces.toNat
            else (BitVec.ofNat 32 u.length).toNat)
      else blit m buf (a ++ u.take z)) =
      blit (blit m buf (a ++ u.take z))
        (buf + BitVec.ofNat 64 a.length + BitVec.ofNat 64 spaces.toNat)
        (u.take (z - spaces.toNat)) := by
  have hsp : spaces.setWidth 64 = BitVec.ofNat 64 spaces.toNat := by bv_omega
  have hu : (BitVec.ofNat 32 u.length).toNat = u.length := by
    rw [BitVec.toNat_ofNat, Nat.mod_eq_of_lt (by omega)]
  split
  · rw [hu, hsp]
    generalize hn : (if z - spaces.toNat < u.length then z - spaces.toNat else u.length) = n
    have hnz : n = min (z - spaces.toNat) u.length := by
      subst hn
      split <;> omega
    have hbuf : (buf + BitVec.ofNat 64 a.length).toNat = buf.toNat + a.length := by bv_omega
    rw [memmove_eq _ _ _ (by bv_omega) (by omega), bytesAt_blit _ _ (by simp; omega)
      (by simp; omega), List.drop_left, List.take_take]
    congr 1
    exact List.take_eq_take_iff.mpr (by omega)
  · rename_i h0
    have hnil : u = [] := by
      rw [ne_eq, not_not] at h0
      have := congrArg BitVec.toNat h0
      rw [hu] at this
      exact List.length_eq_zero_iff.mp this
    rw [hnil, List.take_nil, List.take_nil, blit_nil]

section Ops

variable {m : Mem} {buf : Addr} {size : BitVec 64} {t : List Byte}
  (hsize : buf.toNat + size.toNat < 2 ^ 64)

include hsize

/-- The cursor is below the end exactly when the text is shorter than the buffer. -/
theorem cursor_lt_end {k : Nat} (hk : buf.toNat + k < 2 ^ 64) :
    buf + BitVec.ofNat 64 k < buf + size ↔ k < size.toNat := by
  rw [BitVec.lt_def, BitVec.toNat_add, BitVec.toNat_add, BitVec.toNat_ofNat]
  omega

theorem put_bufState {c : Byte} (hk : buf.toNat + (t.length + 1) < 2 ^ 64) :
    (bufSink (buf + size)).put (bufState m buf size.toNat t) c =
      bufState m buf size.toNat (t ++ [c]) := by
  simp only [bufSink, bufState, cursor_lt_end hsize (show buf.toNat + t.length < 2 ^ 64 by omega)]
  congr 1
  · split
    · rename_i h
      have htake : t.take size.toNat = t := List.take_of_length_le (by omega)
      have htake' : (t ++ [c]).take size.toNat = t ++ [c] :=
        List.take_of_length_le (by simp; omega)
      rw [htake, htake', store_after_blit _ _ _ (by omega)]
    · rename_i h
      rw [List.take_append_of_le_length (by omega)]
  · rw [List.length_append, List.length_singleton, BitVec.ofNat_add, BitVec.add_assoc]
    rfl

theorem copy_bufState {l r : List Byte} (hs : size.toNat < 2 ^ 63)
    (hl : t.length + l.length < 2 ^ 31) (hk : buf.toNat + (t.length + l.length) < 2 ^ 64) :
    (bufSink (buf + size)).copy (bufState m buf size.toNat t) (l ++ r) l.length =
      some (bufState m buf size.toNat (t ++ l)) := by
  have hcur := cursor_lt_end hsize (show buf.toNat + t.length < 2 ^ 64 by omega)
  have hstr : buf + BitVec.ofNat 64 t.length + BitVec.ofInt 64 (l.length : Int) =
      buf + BitVec.ofNat 64 (t ++ l).length := by
    rw [BitVec.ofInt_natCast, addr_add_add, List.length_append]
  simp only [bufSink, bufState, hcur, hstr]
  split
  · rename_i hlt
    have htake : t.take size.toNat = t := List.take_of_length_le (by omega)
    generalize hd : buf + size - (buf + BitVec.ofNat 64 t.length) = d
    have hdn : d.toNat = size.toNat - t.length := by subst hd; bv_omega
    -- `copy`, clipped to the room that is left
    have hcount : (BitVec.ofInt 64 (if d.toInt < (l.length : Int) then (d.setWidth 32).toInt
        else (l.length : Int))).toNat = min (size.toNat - t.length) l.length := by
      rw [BitVec.toInt_eq_toNat_of_lt (by omega)]
      split
      · rename_i hclip
        have hw : (d.setWidth 32).toNat = d.toNat := by
          rw [BitVec.toNat_setWidth, Nat.mod_eq_of_lt (by omega)]
        rw [BitVec.toInt_eq_toNat_of_lt (by omega), hw, toNat_ofInt_natCast (by omega)]
        omega
      · rw [toNat_ofInt_natCast (by omega)]
        omega
    have hread : (l ++ r ++ [0]).take (min (size.toNat - t.length) l.length) =
        l.take (size.toNat - t.length) := by
      rw [List.append_assoc, List.take_append_of_le_length (Nat.min_le_right _ _)]
      exact List.take_eq_take_iff.mpr (by omega)
    rw [hcount, htake, memcpyFrom_eq _ _ (by simp) (by omega), Option.map_some, hread,
      blit_append _ _ (by simp; omega), List.take_append, htake]
  · rw [Option.map_some, List.take_append_of_le_length (by omega)]

/-- `move_right` on the end of a text `a ++ u`, wherever the end of the buffer falls. -/
theorem moveRight_eq {a u : List Byte} {spaces : BitVec 32}
    (hl : a.length + u.length < 2 ^ 31)
    (hk : buf.toNat + a.length < 2 ^ 64) :
    moveRight (blit m buf ((a ++ u).take size.toNat)) (buf + BitVec.ofNat 64 a.length)
        (buf + size) (BitVec.ofNat 32 u.length) spaces =
      blit m buf ((a ++ (List.replicate spaces.toNat (chr ' ') ++ u)).take size.toNat) := by
  have hcur := cursor_lt_end hsize hk
  unfold moveRight
  by_cases hlt : a.length < size.toNat
  · rw [if_neg (by rw [BitVec.not_le]; exact hcur.mpr hlt)]
    have hroom : (buf + size - (buf + BitVec.ofNat 64 a.length)).toNat =
        size.toNat - a.length := by bv_omega
    have htake : ∀ x : List Byte, (a ++ x).take size.toNat = a ++ x.take (size.toNat - a.length) := by
      intro x
      rw [List.take_append, List.take_of_length_le (by omega)]
    rw [hroom, htake, htake]
    generalize hz : size.toNat - a.length = z
    simp only
    split
    · -- the buffer ends within the spaces
      rename_i hle
      rw [memset_eq _ _ _ (by omega), blit_overwrite _ _ (by simp) (by simp; omega),
        List.take_append_of_le_length (by simpa using hle), List.take_replicate,
        Nat.min_eq_left hle]
    · -- the characters that still fit are moved up, then the spaces are laid down
      rename_i hgt
      rw [memmove_room hl (by omega) (by omega), memset_eq _ _ _ (by omega)]
      have hunder := blit_under (blit m buf (a ++ u.take z)) (buf + BitVec.ofNat 64 a.length)
        (x := List.replicate spaces.toNat (chr ' ')) (y := u.take (z - spaces.toNat))
        (by simp; omega)
      rw [List.length_replicate] at hunder
      rw [hunder, blit_overwrite _ _ (by simp; omega) (by simp; omega), List.take_append,
        List.length_replicate, List.take_of_length_le (l := List.replicate spaces.toNat (chr ' '))
          (by simp; omega)]
  · rw [if_pos (by rw [← BitVec.not_lt]; exact mt hcur.mp hlt),
      List.take_append_of_le_length (by omega), List.take_append_of_le_length (by omega)]

theorem shift_bufState {n : Int} {spaces : BitVec 32} (hn : n.toNat ≤ t.length) (hn0 : 0 ≤ n)
    (hl : t.length + spaces.toNat < 2 ^ 31)
    (hk : buf.toNat + (t.length + spaces.toNat) < 2 ^ 64) :
    (bufSink (buf + size)).shift (bufState m buf size.toNat t) n spaces =
      bufState m buf size.toNat (textSink.shift t n spaces) := by
  obtain ⟨k, rfl⟩ := Int.eq_ofNat_of_zero_le hn0
  have hk' : k ≤ t.length := hn
  -- the text is `a`, then the `k` characters that move
  obtain ⟨a, u, rfl, hu⟩ : ∃ a u, t = a ++ u ∧ u.length = k :=
    ⟨t.take (t.length - k), t.drop (t.length - k), (List.take_append_drop _ _).symm, by simp; omega⟩
  subst hu
  have hsub : (a ++ u).length - u.length = a.length := by simp
  have hstart : buf + BitVec.ofNat 64 (a ++ u).length - BitVec.ofNat 64 u.length =
      buf + BitVec.ofNat 64 a.length := by
    rw [List.length_append]; bv_omega
  simp only [List.length_append] at hl hk
  simp only [bufSink, bufState, textSink, BitVec.ofInt_natCast, hstart, Int.toNat_natCast, hsub,
    List.take_left, List.drop_left, List.append_assoc]
  rw [moveRight_eq hsize (by omega) (by omega)]
  congr 1
  have hsp : spaces.setWidth 64 = BitVec.ofNat 64 spaces.toNat := by bv_omega
  rw [hsp, addr_add_add]
  congr 2
  simp only [List.length_append, List.length_replicate]
  omega

end Ops

/-- **The buffer simulates the text**, as long as the cursor does not wrap. -/
theorem bufSink_simulates (m : Mem) {buf : Addr} {size : BitVec 64}
    (hsize : buf.toNat + size.toNat < 2 ^ 64) (hs : size.toNat < 2 ^ 63) :
    Simulates (bufSink (buf + size)) (bufState m buf size.toNat)
      (fun n => n < 2 ^ 31 ∧ buf.toNat + n < 2 ^ 64) where
  mono hmn hn := ⟨by omega, by omega⟩
  put t c h := put_bufState hsize h.2
  copy t l r h := copy_bufState hsize hs h.1 h.2
  shift t n spaces hn hn0 h :=
    shift_bufState hsize hn (hn0 (by omega)) h.1 h.2

/-! ## Matching arguments -/

/-- The object of a `%s` ends in time: with a NUL, or with the precision. -/
def ReadableString (s : List Byte) (precision : BitVec 16) : Prop :=
  0 ∈ s ∨ (0 ≤ precision.toInt ∧ precision.toNat ≤ s.length)

/-- There is an argument for the conversion, and a `%s` can be read. -/
def ValueMatches (spec : PrintfSpec) (args : List Arg) : Prop :=
  spec.type = .percentChar ∨
    ∃ a more, args = a :: more ∧ (spec.type = .str → ReadableString a.str spec.precision)

def SegmentsMatch (rest : List Byte) : List Segment → List Arg → Prop
  | [], args => starsSeen rest ≤ args.length
  | .literal _ :: segs, args => SegmentsMatch rest segs args
  | .directive d :: segs, args =>
    (∃ w args₁ p args₂, takeStar d.width args = some (w, args₁) ∧
      takeStar d.precision.join args₁ = some (p, args₂) ∧ ValueMatches (d.spec w p) args₂) ∧
    SegmentsMatch rest segs (args.drop d.argsTaken)

/-- The arguments match the format. -/
def ArgsMatch (fmt : List Byte) (args : List Arg) : Prop :=
  ∃ segs rest, Segmentation fmt segs rest ∧ SegmentsMatch rest segs args

theorem stringText_isSome {s : List Byte} {precision : BitVec 16}
    (h : ReadableString s precision) :
    (stringText s (precision.signExtend 32)).isSome = true := by
  have main : ∀ (s : List Byte) (lim : BitVec 32), (0 ∈ s ∨ lim.toNat ≤ s.length) →
      (stringText s lim).isSome = true := by
    intro s
    induction s with
    | nil =>
      intro lim h
      have : lim = 0 := by
        rcases h with h | h
        · exact absurd h List.not_mem_nil
        · exact BitVec.eq_of_toNat_eq (Nat.le_zero.mp h)
      rw [stringText, if_pos this]
      rfl
    | cons c s ih =>
      intro lim h
      rw [stringText]
      split
      · rfl
      · rename_i hlim
        split
        · rfl
        · rename_i hc
          rw [Option.isSome_map]
          apply ih
          rcases h with h | h
          · exact Or.inl ((List.mem_cons.mp h).resolve_left (Ne.symm hc))
          · rw [List.length_cons] at h
            exact Or.inr (by bv_omega)
  apply main
  rcases h with h | ⟨h0, h⟩
  · exact Or.inl h
  · refine Or.inr ?_
    have hn : (precision.signExtend 32).toNat = precision.toNat := by
      rw [BitVec.signExtend_eq_setWidth_of_msb_false]
      · rw [BitVec.toNat_setWidth]
        omega
      · rw [BitVec.msb_eq_false_iff_two_mul_lt]
        rw [BitVec.toInt_eq_toNat_cond] at h0
        split at h0 <;> omega
    omega

theorem takeValue_isSome {spec : PrintfSpec} {args : List Arg} (h : ValueMatches spec args)
    (t : List Byte) : (takeValue textSink spec args t).isSome = true := by
  rcases h with h | ⟨a, more, rfl, h⟩
  · rw [takeValue_percent h]
    rfl
  · by_cases hp : spec.type = .percentChar
    · rw [takeValue_percent hp]
      rfl
    · rw [takeValue_cons hp, Option.isSome_map]
      by_cases hs : spec.type = .str
      · simp only [convert, hs, Option.isSome_map, string_eq]
        exact stringText_isSome (h hs)
      · obtain ⟨l, spec', hc⟩ := convert_eq hs a
        rw [hc]
        rfl

/-- Matching arguments make a text. -/
theorem runSegments_isSome {rest : List Byte} {segs : List Segment} {args : List Arg}
    (h : SegmentsMatch rest segs args) (t : List Byte) :
    (runSegments textSink rest segs args t).isSome = true := by
  induction segs generalizing args t with
  | nil =>
    rw [runSegments, stopAt, if_pos (show starsSeen rest ≤ args.length from h)]
    rfl
  | cons seg segs ih =>
    cases seg with
    | literal l =>
      simp only [runSegments, copy_textSink]
      exact ih h _
    | directive d =>
      obtain ⟨⟨w, args₁, p, args₂, hw, hp, hv⟩, hrest⟩ := h
      have hrun : d.run textSink args t = takeValue textSink (d.spec w p) args₂ t := by
        simp only [Directive.run, hw, hp]
      obtain ⟨x, hx⟩ := Option.isSome_iff_exists.mp (takeValue_isSome hv t)
      rw [hx] at hrun
      simp only [runSegments, hrun]
      rw [(directive_args hrun).1]
      exact ih hrest x.1

theorem fullText_isSome {fmt : List Byte} {args : List Arg} (h0 : 0 ∉ fmt) (hc : Counted fmt)
    (h : ArgsMatch fmt args) : ∃ T, fullText fmt args = some T := by
  obtain ⟨segs, rest, hseg, hm⟩ := h
  obtain ⟨x, hx⟩ := Option.isSome_iff_exists.mp (runSegments_isSome hm [])
  exact ⟨x.1, by rw [fullText, textRun_eq hseg hc h0, hx]; rfl⟩

/-! ## The law -/

/-- `vsnprintf` behind its loop: the text is cut to the buffer and terminated. -/
theorem vsnprintf_of_loop {fmt T : List Byte} {args left : List Arg} (hlen : T.length < 2 ^ 31)
    (m : Mem) (buf : Addr) (size : BitVec 64) (hsize : buf.toNat + size.toNat < 2 ^ 64)
    (hcur : buf.toNat + T.length < 2 ^ 64)
    (hloop : vsnprintfLoop (bufSink (buf + size)) (fmt.length + 1) ⟨fmt, .zero, args, ⟨m, buf⟩⟩ =
      some (bufState m buf size.toNat T, left)) :
    vsnprintf m buf size fmt args =
      some ((T.length : Int),
        if size = 0 then m else blit m buf (T.take (size.toNat - 1) ++ [0])) := by
  have hnw : ¬ buf + size < buf := by
    rw [BitVec.lt_def, BitVec.toNat_add]
    omega
  have hret : ((buf + BitVec.ofNat 64 T.length - buf).setWidth 32).toInt = (T.length : Int) := by
    rw [BitVec.toInt_eq_toNat_of_lt] <;> bv_omega
  have hpos : 0 < size ↔ ¬ size = 0 := by bv_omega
  simp only [vsnprintf, hnw, if_false, hloop, bufState, hret, cursor_lt_end hsize hcur, hpos]
  by_cases hz : size = 0
  · simp [hz]
  · have hz' : size.toNat ≠ 0 := fun h => hz (BitVec.eq_of_toNat_eq h)
    rw [if_pos hz, if_neg hz]
    congr 2
    split
    · rename_i hlt
      rw [List.take_of_length_le (by omega), List.take_of_length_le (by omega),
        store_after_blit _ _ _ (by omega)]
    · rename_i hge
      -- the NUL goes over the last character that was stored
      have hlast : buf + size - 1 = buf + BitVec.ofNat 64 (T.take (size.toNat - 1)).length := by
        rw [List.length_take, Nat.min_eq_left (by omega)]
        bv_omega
      have hsplit : T.take size.toNat = T.take (size.toNat - 1) ++
          (T.drop (size.toNat - 1)).take 1 := by
        rw [← List.take_add]
        congr 1
        omega
      rw [hlast, store_eq_blit, hsplit, blit_overwrite _ _ (by simp) (by simp; omega)]

/-- `vsnprintf` as one `blit`: the text, cut to the buffer and terminated. -/
theorem vsnprintf_eq {fmt T : List Byte} {args : List Arg} (h0 : 0 ∉ fmt)
    (hc : Counted fmt) (hT : fullText fmt args = some T) (hlen : T.length < 2 ^ 31)
    (m : Mem) (buf : Addr) (size : BitVec 64) (hsize : buf.toNat + size.toNat < 2 ^ 64)
    (hs : size.toNat < 2 ^ 63) (hcur : buf.toNat + T.length < 2 ^ 64) :
    vsnprintf m buf size fmt args =
      some ((T.length : Int),
        if size = 0 then m else blit m buf (T.take (size.toNat - 1) ++ [0])) := by
  obtain ⟨segs, rest, hseg⟩ := segmentation_exists fmt
  rw [fullText, textRun_eq hseg hc h0] at hT
  obtain ⟨⟨T', left⟩, hrun, rfl⟩ := Option.map_eq_some_iff.mp hT
  have hstart : (⟨m, buf⟩ : Out) = bufState m buf size.toNat [] := by simp [bufState]
  have hloop := (loop_eq_runSegments _ hseg hc h0 args _ (Nat.lt_succ_self _)).trans
    (runSegments_sim (bufSink_simulates m hsize hs) hrun ⟨hlen, hcur⟩)
  rw [← hstart] at hloop
  exact vsnprintf_of_loop hlen m buf size hsize hcur hloop

/-- `m'` is `m` with the start of `T` and a NUL in the buffer. -/
structure Truncated (T : List Byte) (buf : Addr) (size : BitVec 64) (m m' : Mem) : Prop where
  text : ∀ i (hi : i < T.length), i + 1 < size.toNat → m' (buf + BitVec.ofNat 64 i) = T[i]
  nul : size ≠ 0 → m' (buf + BitVec.ofNat 64 (min T.length (size.toNat - 1))) = 0
  frame : ∀ a, size = 0 ∨ min T.length (size.toNat - 1) < offset buf a → m' a = m a

theorem truncated_blit {T : List Byte} {buf : Addr} {size : BitVec 64} (hs : size.toNat < 2 ^ 63)
    (m : Mem) :
    Truncated T buf size m
      (if size = 0 then m else blit m buf (T.take (size.toNat - 1) ++ [0])) := by
  have hlen : (T.take (size.toNat - 1) ++ [0]).length = min (size.toNat - 1) T.length + 1 := by
    simp
  constructor
  · intro i hi hi'
    rw [if_neg (fun h => by rw [h] at hi'; simp at hi'), blit_at _ _ (by omega) (by omega),
      List.getElem_append_left (by simp; omega), List.getElem_take]
  · intro hz
    rw [if_neg hz, blit_at _ _ (by omega) (by omega), List.getElem_append_right (by simp)]
    simp
  · rintro a (hz | ha)
    · rw [if_pos hz]
    · split
      · rfl
      · exact blit_off _ (by omega)

/-- **The truncation law.**  Matching arguments make a text `T`, and whatever the buffer and its
size, `vsnprintf` returns `|T|`, stores the first `min |T| (size - 1)` characters and a NUL, and
leaves every other byte alone. -/
theorem vsnprintf_truncates {fmt : List Byte} {args : List Arg} (h0 : 0 ∉ fmt)
    (hc : Counted fmt) (hm : ArgsMatch fmt args) :
    ∃ T, fullText fmt args = some T ∧ (T.length < 2 ^ 31 →
      ∀ (m : Mem) (buf : Addr) (size : BitVec 64), buf.toNat + size.toNat < 2 ^ 64 →
        size.toNat < 2 ^ 63 → buf.toNat + T.length < 2 ^ 64 →
        ∃ m', vsnprintf m buf size fmt args = some ((T.length : Int), m') ∧
          Truncated T buf size m m') := by
  obtain ⟨T, hT⟩ := fullText_isSome h0 hc hm
  exact ⟨T, hT, fun hlen m buf size hsize hs hcur =>
    ⟨_, vsnprintf_eq h0 hc hT hlen m buf size hsize hs hcur, truncated_blit hs m⟩⟩

/-- A right-justified `%3s`, the case of `move_right`. -/
theorem vsnprintf_truncates_percent_3s :
    ∃ T, fullText [chr '%', chr '3', chr 's'] [⟨0, [chr 'x', 0]⟩] = some T ∧ (T.length < 2 ^ 31 →
      ∀ (m : Mem) (buf : Addr) (size : BitVec 64), buf.toNat + size.toNat < 2 ^ 64 →
        size.toNat < 2 ^ 63 → buf.toNat + T.length < 2 ^ 64 →
        ∃ m', vsnprintf m buf size [chr '%', chr '3', chr 's'] [⟨0, [chr 'x', 0]⟩] =
            some ((T.length : Int), m') ∧ Truncated T buf size m m') := by
  have hd : spanDirective [chr '3', chr 's'] =
      some (⟨[], some (.digits [chr '3']), none, [], chr 's', []⟩, []) := by decide +kernel
  obtain ⟨hwf, hmax, hp, -⟩ := spanDirective_sound hd
  exact vsnprintf_truncates (by decide) (.of_length (by decide))
    ⟨_, [], .directive hwf hmax hp .done, ⟨0, [⟨0, [chr 'x', 0]⟩], 0, [⟨0, [chr 'x', 0]⟩], rfl, rfl,
      Or.inr ⟨_, [], rfl, fun _ => Or.inl (by decide)⟩⟩, Nat.zero_le _⟩

/-- `%--…-%` with `2^31` flags: a single directive that `format_decode` cannot count. -/
def longDirective : List Byte := chr '%' :: (List.replicate (2 ^ 31) (chr '-') ++ [chr '%'])

/-- `%--…-%` with `n` flags is well formed, takes no argument and prints a `%`. -/
theorem argsMatch_flags (n : Nat) :
    ArgsMatch (chr '%' :: (List.replicate n (chr '-') ++ [chr '%'])) [] := by
  have hwf : (⟨List.replicate n (chr '-'), none, none, [], chr '%', []⟩ : Directive).WellFormed := by
    refine ⟨?_, by simp, by simp, Or.inl rfl, (by decide : isConversion (chr '%') = true), by simp,
      by simp⟩
    intro c hc
    rw [List.eq_of_mem_replicate hc]
    decide
  have hseg := Segmentation.directive hwf (by simp [Directive.FlagsMaximal]) (by simp) .done
  rw [List.append_nil] at hseg
  exact ⟨_, [], hseg, ⟨0, [], 0, [], rfl, rfl, Or.inl (by simp [Directive.spec, typeOf])⟩,
    Nat.zero_le _⟩

theorem decode_flags (n : Nat) (spec : PrintfSpec) :
    ∃ spec', decodeFresh (chr '%' :: (List.replicate n (chr '-') ++ [chr '%'])) spec =
      some (readCount (chr '%' :: (List.replicate n (chr '-') ++ [chr '%'])) [], spec') := by
  have hflags : ∀ c ∈ List.replicate n (chr '-'), isFlag c = true := by
    intro c hc
    rw [List.eq_of_mem_replicate hc]
    decide
  have hstop : isFlag (deref [chr '%']) = false := by decide
  have hnum : spanNum [chr '%'] = (none, [chr '%']) := by decide
  have hprec : spanPrecision [chr '%'] = (none, [chr '%']) := by decide
  have hqual : spanQualifier [chr '%'] = ([], [chr '%']) := by decide
  have hconv : isConversion (deref [chr '%']) = true := by decide
  obtain ⟨-, hdrop⟩ := span_append hflags hstop
  rw [decodeFresh_percent, hdrop, hnum, if_neg (by simp), decodePrecision_eq, hprec,
    if_neg (by simp), decodeQualifier_eq _ _ (flagBits_sign _), hqual, if_pos hconv]
  exact ⟨_, rfl⟩

theorem vsnprintf_flags {n : Nat} (h : 2 ^ 31 ≤ n + 2) (h' : n + 2 < 2 ^ 32) (m : Mem) (buf : Addr)
    (size : BitVec 64) :
    vsnprintf m buf size (chr '%' :: (List.replicate n (chr '-') ++ [chr '%'])) [] = none := by
  obtain ⟨spec', hd⟩ := decode_flags n .zero
  have hlen : (chr '%' :: (List.replicate n (chr '-') ++ [chr '%'])).length = n + 2 := by simp
  have hneg := readCount_neg (hlen ▸ h) (hlen ▸ h')
  have hz : deref (chr '%' :: (List.replicate n (chr '-') ++ [chr '%'])) ≠ 0 := by
    rw [deref_cons]
    decide
  simp only [vsnprintf, loop_negative hz hd hneg]

/-- The law needs its bounds: with a size beyond `2^63` the literal copy takes `end - str` for
negative; a cursor that wraps comes back below the end; and a directive can be too long. -/
theorem vsnprintf_bounds_needed :
    (fullText [chr 'a', chr 'b'] [] = some [chr 'a', chr 'b'] ∧
      (vsnprintf (fun _ => 0xff) 0x1000 0x8000000000000001 [chr 'a', chr 'b'] []).map
        (fun r => (r.1, r.2 0x1000, r.2 0x1001)) = some (2, chr 'a', 0xff)) ∧
    (fullText [chr 'a', chr 'b', chr 'c', chr 'd'] [] =
        some [chr 'a', chr 'b', chr 'c', chr 'd'] ∧
      (vsnprintf (fun _ => 0xff) 0xfffffffffffffffc 2 [chr 'a', chr 'b', chr 'c', chr 'd'] []).map
        (fun r => (r.1, r.2 0)) = some (4, 0)) ∧
    (ArgsMatch longDirective [] ∧ ∀ m buf size, vsnprintf m buf size longDirective [] = none) := by
  refine ⟨⟨by decide +kernel, by decide +kernel⟩, ⟨by decide +kernel, by decide +kernel⟩,
    argsMatch_flags (2 ^ 31), fun m buf size => vsnprintf_flags (by decide) (by decide) m buf size⟩

end Eeos.Printk
