import I860.Proofs.DirectedRounding

/-!
# Narrowing in a mode

A number of 64 bits is narrowed to the nearest one of 32 bits, and widening that
again shows on which side of the number it is (`widen_spec`). So the neighbour is
taken where it has to be, and the result is the closest number or infinity that the
mode allows.

What this cannot repair is a nearest number that has overflowed. It stays infinite
in all modes, also where the mode allows finite numbers only, and
`narrow_closest_iff` says that nothing else goes wrong.
-/

namespace I860

open FloatFormat

instance : NeZero binary32.exponent := ⟨by decide⟩

instance : NeZero binary64.exponent := ⟨by decide⟩

/-- Widening changes no number. -/
theorem widen_spec {x : Word} (hx : binary32.isFinite x = true) :
    binary64.isFinite (widen x) = true ∧ binary64.toRat (widen x) = binary32.toRat x := by
  have hfraction : 0 < binary64.fraction := by decide
  have hround : binary64.RoundsTo (binary32.toRat x) (widen x) :=
    encode_roundsTo hfraction (decode_isFinite hx)
  have hsmall : |binary32.toRat x| < binary64.overflow := by
    refine (abs_toRat_lt hx).trans_le (le_trans ?_ two_zpow_le_overflow)
    exact zpow_le_zpow_right₀ one_le_two (by decide)
  have hfinite := (hround.isFinite_iff hfraction).2 hsmall
  obtain ⟨n, hn⟩ : binary64.IsNumber (binary32.toRat x) :=
    (IsNumber.ofToRat hx).of_format (by decide) (by decide)
  exact ⟨hfinite, hround.toRat_eq hfinite hn⟩

theorem narrowNearest_roundsTo {v : Double} (hv : binary64.isFinite v = true) :
    binary32.RoundsTo (binary64.toRat v) (narrowNearest v) :=
  encode_roundsTo (by decide) (decode_isFinite hv)

/-- If the nearest number is finite, narrowing moves it off the wrong side. -/
theorem narrow_spec {v : Double} (hv : binary64.isFinite v = true)
    (hn : binary32.isFinite (narrowNearest v) = true) (mode : RoundingMode) :
    binary32.isNan (narrow v mode) = false ∧
      binary32.key (narrow v mode) =
        binary32.correctedKey mode (binary64.toRat v) (binary32.key (narrowNearest v)) := by
  obtain ⟨hback, hvalue⟩ := widen_spec hn
  have hnan := binary32.isNan_of_isFinite hn
  rw [binary32.toRat_eq_ofKey hn] at hvalue
  have hkept : (!binary32.isFinite (narrowNearest v) || binary64.isNan v) = false := by
    rw [hn, binary64.isNan_of_isFinite hv]
    rfl
  unfold narrow correctedKey
  dsimp only
  rw [hkept, if_neg Bool.false_ne_true]
  cases mode with
  | nearest => exact ⟨hnan, rfl⟩
  | down =>
      dsimp only
      rw [← hvalue]
      by_cases hside : binary64.toRat v < binary64.toRat (widen (narrowNearest v))
      · rw [if_pos ((lt_iff hv hback).2 hside), if_pos hside]
        exact isNan_nextDown hn
      · rw [if_neg (fun h => hside ((lt_iff hv hback).1 h)), if_neg hside]
        exact ⟨hnan, rfl⟩
  | up =>
      dsimp only
      rw [← hvalue]
      by_cases hside : binary64.toRat (widen (narrowNearest v)) < binary64.toRat v
      · rw [if_pos ((lt_iff hback hv).2 hside), if_pos hside]
        exact isNan_nextUp hn
      · rw [if_neg (fun h => hside ((lt_iff hback hv).1 h)), if_neg hside]
        exact ⟨hnan, rfl⟩
  | zero =>
      dsimp only
      have htest : binary64.lt (binary64.absolute v)
          (binary64.absolute (widen (narrowNearest v))) = true ↔
          |binary64.toRat v| < |binary64.toRat (widen (narrowNearest v))| := by
        rw [lt_iff (isFinite_absolute hv) (isFinite_absolute hback), toRat_absolute hv,
          toRat_absolute hback]
      rw [← hvalue]
      by_cases hside : |binary64.toRat v| < |binary64.toRat (widen (narrowNearest v))|
      · rw [if_pos (htest.2 hside), if_pos hside]
        by_cases hpos : 0 < binary32.key (narrowNearest v)
        · rw [if_pos ((isPositive_iff hnan).2 hpos), if_pos hpos]
          exact isNan_nextDown hn
        · rw [if_neg (fun h => hpos ((isPositive_iff hnan).1 h)), if_neg hpos]
          exact isNan_nextUp hn
      · rw [if_neg (fun h => hside (htest.1 h)), if_neg hside]
        exact ⟨hnan, rfl⟩

/-- A nearest number that has overflowed stays infinite in all modes. -/
theorem narrow_of_overflow {v : Double} (hn : binary32.isFinite (narrowNearest v) = false)
    (mode : RoundingMode) : narrow v mode = narrowNearest v := by
  unfold narrow
  dsimp only
  rw [hn, Bool.not_false, Bool.true_or, if_pos rfl]

/-- Where narrowing overflows, the result is the infinity of the sign of the number,
and no finite number is as large. -/
theorem value?_of_overflow {v : Double} (hv : binary64.isFinite v = true)
    (hn : binary32.isFinite (narrowNearest v) = false) :
    (0 < binary64.toRat v ∧ binary32.value? (narrowNearest v) = some ⊤ ∧
        ∀ j : Int, |j| < binary32.infinityBits → binary32.ofKey j < binary64.toRat v) ∨
      (binary64.toRat v < 0 ∧ binary32.value? (narrowNearest v) = some ⊥ ∧
        ∀ j : Int, |j| < binary32.infinityBits → binary64.toRat v < binary32.ofKey j) := by
  have hpos := binary32.infinityBits_pos
  obtain ⟨hnan, n, hnear, hkey⟩ := narrowNearest_roundsTo hv
  have hlarge : ¬|binary32.clamp n| < binary32.infinityBits := by
    rw [← hkey, ← binary32.isFinite_iff, hn]
    exact Bool.false_ne_true
  rw [abs_lt, clamp] at hlarge
  rcases le_or_gt (binary32.infinityBits : Int) n with hn | hn
  · left
    have hbeyond : ∀ j : Int, |j| < binary32.infinityBits →
        binary32.ofKey j < binary64.toRat v := fun j hj => by
      by_contra hle
      have := hnear.ge_of_ge (not_lt.1 hle)
      have := (abs_lt.1 hj).2
      omega
    have hclamp : binary32.clamp n = binary32.infinityBits := by
      rw [clamp]
      omega
    refine ⟨?_, ?_, hbeyond⟩
    · rw [← binary32.ofKey_zero]
      exact hbeyond 0 (by simpa using hpos)
    · rw [binary32.value?_eq hnan, hkey, hclamp, extOfKey_infinityBits]
  · right
    have hbeyond : ∀ j : Int, |j| < binary32.infinityBits →
        binary64.toRat v < binary32.ofKey j := fun j hj => by
      by_contra hle
      have := hnear.le_of_le (not_lt.1 hle)
      have := (abs_lt.1 hj).1
      omega
    have hclamp : binary32.clamp n = -binary32.infinityBits := by
      rw [clamp]
      omega
    refine ⟨?_, ?_, hbeyond⟩
    · rw [← binary32.ofKey_zero]
      exact hbeyond 0 (by simpa using hpos)
    · rw [binary32.value?_eq hnan, hkey, hclamp, extOfKey_neg_infinityBits]

theorem zero_mem_values : ((0 : ℚ) : ExtRat) ∈ binary32.values := by
  have hpos := binary32.infinityBits_pos
  refine ⟨0#32, ?_⟩
  rw [binary32.value?_eq isNan_zero, key_zero, binary32.extOfKey_of_lt (by simpa using hpos),
    ofKey_zero]

/-- Where any number is allowed, an infinity is not the closest. -/
theorem not_isClosest_of_infinite {q : ℚ} {a : ExtRat} (ha : a.distance q = ⊤) :
    ¬IsClosest {b | b ∈ binary32.values ∧ RoundingMode.nearest.Admits q b} q a := by
  intro h
  have hle := h.2 _ ⟨zero_mem_values, trivial⟩
  rw [ha, top_le_iff] at hle
  exact WithTop.coe_ne_top hle

/-- Where no finite number is allowed, an infinity that is allowed is the closest. -/
theorem isClosest_of_infinite {q : ℚ} {a : ExtRat} {mode : RoundingMode}
    (ha : a ∈ binary32.values) (hside : mode.Admits q a)
    (hnone : ∀ j : Int, |j| < binary32.infinityBits → ¬mode.Admits q (binary32.ofKey j)) :
    IsClosest {b | b ∈ binary32.values ∧ mode.Admits q b} q a := by
  refine ⟨⟨ha, hside⟩, ?_⟩
  rintro b ⟨⟨y, hy⟩, hb⟩
  obtain ⟨j, hj, rfl⟩ := binary32.exists_key_of_value? hy
  rcases lt_or_eq_of_le hj with hlt | htop
  · rw [binary32.extOfKey_of_lt hlt] at hb
    exact absurd hb (hnone j hlt)
  · rw [distance_of_infinite htop]
    exact le_top

/-- Where the finite numbers that a mode allows are none, an infinite result is the closest
if and only if it is on the side that the mode asks for. -/
theorem infinite_closest_iff {q : ℚ} {x : Word} {a : ExtRat} {mode : RoundingMode}
    (hvalue : binary32.value? x = some a) (hinfinite : a.distance q = ⊤)
    (hnone : mode ≠ .nearest ∧ mode.Admits q a → ∀ j : Int, |j| < binary32.infinityBits →
      ¬mode.Admits q (binary32.ofKey j)) :
    (∃ b, binary32.value? x = some b ∧
        IsClosest {b | b ∈ binary32.values ∧ mode.Admits q b} q b) ↔
      mode ≠ .nearest ∧ mode.Admits q a := by
  constructor
  · rintro ⟨b, hb, h⟩
    obtain rfl : a = b := Option.some.inj (hvalue.symm.trans hb)
    refine ⟨?_, h.1.2⟩
    rintro rfl
    exact not_isClosest_of_infinite hinfinite h
  · intro hside
    exact ⟨a, hvalue, isClosest_of_infinite ⟨x, hvalue⟩ hside.2 (hnone hside)⟩

theorem admits_top_iff {q : ℚ} (mode : RoundingMode) :
    mode ≠ .nearest ∧ mode.Admits q ⊤ ↔ mode = .up := by
  cases mode with
  | nearest => exact iff_of_false (fun h => h.1 rfl) (by decide)
  | down => exact iff_of_false (fun h => not_top_le_coe h.2) (by decide)
  | up => exact iff_of_true ⟨by decide, le_top⟩ rfl
  | zero => exact iff_of_false (fun h => not_top_le_coe h.2.2) (by decide)

theorem admits_bot_iff {q : ℚ} (mode : RoundingMode) :
    mode ≠ .nearest ∧ mode.Admits q ⊥ ↔ mode = .down := by
  cases mode with
  | nearest => exact iff_of_false (fun h => h.1 rfl) (by decide)
  | down => exact iff_of_true ⟨by decide, bot_le⟩ rfl
  | up => exact iff_of_false (fun h => not_coe_le_bot h.2) (by decide)
  | zero => exact iff_of_false (fun h => not_coe_le_bot h.2.1) (by decide)

/-- Narrowing gives the closest number or infinity that the mode allows, if and only
if the nearest number does not overflow, or overflows to the side that the mode
asks for. -/
theorem narrow_closest_iff {v : Double} (hv : binary64.isFinite v = true) (mode : RoundingMode) :
    (∃ a, binary32.value? (narrow v mode) = some a ∧
        IsClosest {b | b ∈ binary32.values ∧ mode.Admits (binary64.toRat v) b}
          (binary64.toRat v) a) ↔
      binary32.isFinite (narrowNearest v) = true ∨
        (mode = .up ∧ 0 < binary64.toRat v) ∨ (mode = .down ∧ binary64.toRat v < 0) := by
  cases hn : binary32.isFinite (narrowNearest v) with
  | true =>
      refine iff_of_true ?_ (.inl rfl)
      have hnear := (narrowNearest_roundsTo hv).isNearestKey hn
      exact hnear.closest_corrected ((binary32.isFinite_iff _).1 hn) (narrow_spec hv hn mode)
  | false =>
      rw [narrow_of_overflow hn]
      rcases value?_of_overflow hv hn with ⟨hsign, hvalue, hbeyond⟩ | ⟨hsign, hvalue, hbeyond⟩
      · -- Above all finite numbers, plus infinity is right for the mode up only.
        have hnone : mode ≠ .nearest ∧ mode.Admits (binary64.toRat v) ⊤ → ∀ j : Int,
            |j| < binary32.infinityBits →
            ¬mode.Admits (binary64.toRat v) (binary32.ofKey j) := by
          intro hside j hj hle
          obtain rfl := (admits_top_iff mode).1 hside
          exact absurd (WithBotTop.coe_le_coe.1 hle) (not_le.2 (hbeyond j hj))
        rw [infinite_closest_iff hvalue rfl hnone, admits_top_iff]
        simp [hsign, hsign.le]
      · have hnone : mode ≠ .nearest ∧ mode.Admits (binary64.toRat v) ⊥ → ∀ j : Int,
            |j| < binary32.infinityBits →
            ¬mode.Admits (binary64.toRat v) (binary32.ofKey j) := by
          intro hside j hj hle
          obtain rfl := (admits_bot_iff mode).1 hside
          exact absurd (WithBotTop.coe_le_coe.1 hle) (not_le.2 (hbeyond j hj))
        rw [infinite_closest_iff hvalue rfl hnone, admits_bot_iff]
        simp [hsign, hsign.le]

/-- One tenth, cut off to 32 bits. -/
theorem narrow_closest_iff_of_tenth :
    binary64.isFinite 0x3fb999999999999a#64 = true ∧
      narrow 0x3fb999999999999a#64 .zero = 0x3dcccccc#32 ∧
      ∃ a, binary32.value? 0x3dcccccc#32 = some a ∧
        IsClosest
          {b | b ∈ binary32.values ∧
            RoundingMode.zero.Admits (binary64.toRat 0x3fb999999999999a#64) b}
          (binary64.toRat 0x3fb999999999999a#64) a := by
  have hfinite : binary64.isFinite 0x3fb999999999999a#64 = true := by decide
  have hresult : narrow 0x3fb999999999999a#64 .zero = 0x3dcccccc#32 := by decide +kernel
  have hclosest := (narrow_closest_iff hfinite .zero).2 (.inl (by decide +kernel))
  rw [hresult] at hclosest
  exact ⟨hfinite, hresult, hclosest⟩

/-- The first power of two beyond all numbers of 32 bits is rounded to infinity, also
towards zero. -/
theorem chopped_overflow_is_infinite :
    binary64.isFinite 0x47f0000000000000#64 = true ∧
      narrow 0x47f0000000000000#64 .zero = 0x7f800000#32 ∧
      binary32.value? 0x7f800000#32 = some ⊤ ∧
      ¬RoundingMode.zero.Admits (binary64.toRat 0x47f0000000000000#64) ⊤ := by
  refine ⟨by decide, by decide +kernel, rfl, ?_⟩
  rintro ⟨-, hle⟩
  exact not_top_le_coe hle

end I860
