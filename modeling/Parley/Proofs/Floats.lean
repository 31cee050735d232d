import Mathlib.Algebra.Order.Field.Power
import Mathlib.Data.Rat.Cast.Order
import Mathlib.Tactic.FieldSimp
import Mathlib.Tactic.Linarith
import Mathlib.Tactic.Positivity
import Mathlib.Tactic.Ring
import Parley.Decimal.Binary

/-!
# Floating-point numbers without rounding

A number that a format holds is rounded to itself, so a number that goes to a wider format comes
back as it was.

* `Canonical`, `pack` : mantissa and exponent as bits say them, and the bits.
* `decode_pack`, `exists_pack` : bits of finite numbers and their parts, one for the other.
* `two_zpow_leadingExponent` : the leading exponent of a quotient.
* `roundMagnitude_eq` : the rounding of a quotient that a format holds.
* `convert_convert` : to another format that holds the number and back.
-/

namespace Parley.Binary

/-! ## Bits and their parts -/

/-- The half of the mantissas that have no hidden bit. -/
abbrev Format.hidden (f : Format) : Nat :=
  twoPow (f.precision - 1)

/-- The mantissa and the exponent are those of a finite number of the format: the mantissa has its
hidden bit, unless the exponent is the least. -/
structure Canonical (f : Format) (m : Nat) (e : Int) : Prop where
  mantissa : m < 2 * f.hidden
  exponent : f.minExponent ≤ e
  leading : e = f.minExponent ∨ f.hidden ≤ m

/-- The bits of a finite number, sign left out. -/
def packMagnitude (f : Format) (m : Nat) (e : Int) : Nat :=
  (e - f.minExponent).toNat * f.hidden + m

/-- The bits of a finite number. -/
def pack (f : Format) (negative : Bool) (m : Nat) (e : Int) : Nat :=
  (if negative then f.signBit else 0) + packMagnitude f m e

variable {f : Format} {m : Nat} {e : Int} {negative : Bool}

theorem hidden_pos (f : Format) : 0 < f.hidden :=
  Nat.two_pow_pos _

theorem signBit_eq (f : Format) : f.signBit = f.hidden * twoPow f.exponentBits :=
  Nat.pow_add 2 _ _

theorem infinity_lt_signBit (f : Format) : f.infinity < f.signBit := by
  have hw : 0 < twoPow f.exponentBits := Nat.two_pow_pos _
  rw [signBit_eq, Nat.mul_comm]
  exact Nat.mul_lt_mul_of_pos_right (Nat.sub_lt hw Nat.one_pos) (hidden_pos f)

theorem fields_of_add {x : Nat} (hx : x < f.signBit) (negative : Bool) :
    let bits := (if negative then f.signBit else 0) + x
    (bits / f.signBit % 2 = 1 ↔ negative = true) ∧
      bits / f.hidden % twoPow f.exponentBits = x / f.hidden ∧ bits % f.hidden = x % f.hidden := by
  have hp := hidden_pos f
  have hs : 0 < f.signBit := Nat.lt_of_le_of_lt (Nat.zero_le _) hx
  have hfield : x / f.hidden < twoPow f.exponentBits :=
    Nat.div_lt_of_lt_mul (signBit_eq f ▸ hx)
  cases negative with
  | false =>
    simp only [Bool.false_eq_true, if_false, Nat.zero_add, iff_false]
    exact ⟨by rw [Nat.div_eq_of_lt hx]; decide, Nat.mod_eq_of_lt hfield, trivial⟩
  | true =>
    simp only [if_true, iff_true]
    refine ⟨?_, ?_, ?_⟩
    · rw [Nat.add_div_left _ hs, Nat.div_eq_of_lt hx]
    · rw [signBit_eq, Nat.mul_add_div hp, Nat.add_mod_left, Nat.mod_eq_of_lt hfield]
    · rw [signBit_eq, Nat.mul_add_mod]

theorem decode_pack (h : Canonical f m e) (hfinite : packMagnitude f m e < f.infinity) :
    decode f (pack f negative m e) = .finite negative m e := by
  have hp := hidden_pos f
  obtain ⟨hsign, hfield, hfraction⟩ :=
    fields_of_add (hfinite.trans (infinity_lt_signBit f)) negative
  have hspecial : packMagnitude f m e / f.hidden < f.specialField :=
    Nat.div_lt_of_lt_mul (Nat.mul_comm _ _ ▸ hfinite)
  have hneg : decide (pack f negative m e / f.signBit % 2 = 1) = negative := by
    cases negative <;> simp_all [pack]
  unfold decode
  simp only [hneg]
  rw [show pack f negative m e / twoPow (f.precision - 1) % twoPow f.exponentBits =
      packMagnitude f m e / f.hidden from hfield, if_neg (Nat.ne_of_lt hspecial),
    show pack f negative m e % twoPow (f.precision - 1) = packMagnitude f m e % f.hidden from
      hfraction]
  by_cases hm : m < f.hidden
  · -- without its hidden bit the mantissa belongs to the least exponent
    obtain rfl : e = f.minExponent := h.leading.resolve_right (Nat.not_le.2 hm)
    have hx : packMagnitude f m f.minExponent = m := by simp [packMagnitude]
    rw [hx, if_pos (Nat.div_eq_of_lt hm), Nat.mod_eq_of_lt hm]
  · have hge : f.hidden ≤ m := Nat.not_lt.1 hm
    have hlt : m - f.hidden < f.hidden := by
      have := h.mantissa
      omega
    have hx : packMagnitude f m e =
        f.hidden * ((e - f.minExponent).toNat + 1) + (m - f.hidden) := by
      rw [packMagnitude, Nat.mul_add, Nat.mul_comm f.hidden]
      omega
    have hdiv : packMagnitude f m e / f.hidden = (e - f.minExponent).toNat + 1 := by
      rw [hx, Nat.mul_add_div hp, Nat.div_eq_of_lt hlt, Nat.add_zero]
    have hmod : packMagnitude f m e % f.hidden = m - f.hidden := by
      rw [hx, Nat.mul_add_mod, Nat.mod_eq_of_lt hlt]
    rw [hdiv, hmod, if_neg (Nat.succ_ne_zero _), Datum.finite.injEq]
    refine ⟨rfl, Nat.add_sub_cancel' hge, ?_⟩
    have := h.exponent
    omega

theorem exists_pack {bits : Nat} (hb : bits < 2 * f.signBit)
    (h : decode f bits = .finite negative m e) :
    Canonical f m e ∧ packMagnitude f m e < f.infinity ∧ bits = pack f negative m e := by
  have hp := hidden_pos f
  have hs : 0 < f.signBit := Nat.lt_of_le_of_lt (Nat.zero_le _) (infinity_lt_signBit f)
  -- the sign comes off, and the field and the fraction are those of what is left
  obtain ⟨s, x, hx, rfl⟩ : ∃ (s : Bool) (x : Nat), x < f.signBit ∧
      bits = (if s then f.signBit else 0) + x := by
    by_cases hlt : bits < f.signBit
    · exact ⟨false, bits, hlt, by simp⟩
    · exact ⟨true, bits - f.signBit, by omega, by simp only [if_true]; omega⟩
  obtain ⟨hsign, hfield, hfraction⟩ := fields_of_add hx s
  have hneg : decide (((if s then f.signBit else 0) + x) / f.signBit % 2 = 1) = s := by
    cases s <;> simp_all
  have hxdiv : f.hidden * (x / f.hidden) + x % f.hidden = x := Nat.div_add_mod x f.hidden
  have hmod := Nat.mod_lt x hp
  have hle : x / f.hidden ≤ f.specialField := by
    have : x / f.hidden < twoPow f.exponentBits := Nat.div_lt_of_lt_mul (signBit_eq f ▸ hx)
    exact Nat.le_sub_one_of_lt this
  unfold decode at h
  simp only [hneg, show ((if s then f.signBit else 0) + x) / twoPow (f.precision - 1) %
      twoPow f.exponentBits = x / f.hidden from hfield,
    show ((if s then f.signBit else 0) + x) % twoPow (f.precision - 1) = x % f.hidden from
      hfraction] at h
  by_cases hspecial : x / f.hidden = f.specialField
  · rw [if_pos hspecial] at h
    split at h <;> cases h
  · rw [if_neg hspecial, show twoPow (f.precision - 1) = f.hidden from rfl] at h
    have hfinite : x < f.infinity := by
      have hlt : x / f.hidden < f.specialField := Nat.lt_of_le_of_ne hle hspecial
      exact (Nat.div_lt_iff_lt_mul hp).1 hlt
    by_cases hzero : x / f.hidden = 0
    · rw [if_pos hzero] at h
      cases h
      rw [hzero, Nat.mul_zero, Nat.zero_add] at hxdiv
      have hpack : packMagnitude f (x % f.hidden) f.minExponent = x := by
        rw [packMagnitude, Int.sub_self, Int.toNat_zero, Nat.zero_mul, Nat.zero_add, hxdiv]
      exact ⟨⟨by omega, Int.le_refl _, Or.inl rfl⟩, hpack.symm ▸ hfinite,
        congrArg (_ + ·) hpack.symm⟩
    · rw [if_neg hzero] at h
      cases h
      have hpack : packMagnitude f (f.hidden + x % f.hidden)
          (f.minExponent + (x / f.hidden - 1 : Nat)) = x := by
        have : (f.minExponent + ((x / f.hidden - 1 : Nat) : Int) - f.minExponent).toNat =
            x / f.hidden - 1 := by omega
        rw [packMagnitude, this, Nat.sub_mul, Nat.one_mul, Nat.mul_comm]
        have := Nat.le_mul_of_pos_right f.hidden (Nat.pos_of_ne_zero hzero)
        omega
      exact ⟨⟨by omega, by omega, Or.inr (Nat.le_add_right _ _)⟩, hpack.symm ▸ hfinite,
        congrArg (_ + ·) hpack.symm⟩

/-! ## Rounding -/

theorem two_zpow_eq (e : Int) : (2 : ℚ) ^ e = 2 ^ e.toNat / 2 ^ (-e).toNat := by
  have h : ((e.toNat : Int) - ((-e).toNat : Int)) = e := by omega
  rw [← zpow_natCast, ← zpow_natCast, ← zpow_sub₀ two_ne_zero, h]

/-- A quotient is below a power of two if it is after the power is multiplied out. -/
theorem div_lt_two_zpow {num den : Nat} (hd : 0 < den) (e : Int) :
    (num / den : ℚ) < 2 ^ e ↔ num * twoPow (-e).toNat < den * twoPow e.toNat := by
  have hd' : (0 : ℚ) < den := Nat.cast_pos.2 hd
  have hp : (0 : ℚ) < 2 ^ (-e).toNat := by positivity
  rw [two_zpow_eq, div_lt_div_iff₀ hd' hp, mul_comm ((2 : ℚ) ^ e.toNat)]
  exact_mod_cast Iff.rfl

theorem two_zpow_le_of_log2 {n : Nat} (hn : n ≠ 0) :
    (2 : ℚ) ^ (n.log2 : Int) ≤ n ∧ (n : ℚ) < 2 ^ ((n.log2 : Int) + 1) := by
  constructor
  · rw [zpow_natCast]
    exact_mod_cast Nat.log2_self_le hn
  · rw [show ((n.log2 : Int) + 1) = ((n.log2 + 1 : Nat) : Int) from rfl, zpow_natCast]
    exact_mod_cast Nat.lt_log2_self

theorem two_zpow_leadingExponent {num den : Nat} (hn : num ≠ 0) (hd : den ≠ 0) :
    (2 : ℚ) ^ leadingExponent num den ≤ num / den ∧
      (num / den : ℚ) < 2 ^ (leadingExponent num den + 1) := by
  have hd' : (0 : ℚ) < den := Nat.cast_pos.2 (Nat.pos_of_ne_zero hd)
  obtain ⟨hnl, hnu⟩ := two_zpow_le_of_log2 hn
  obtain ⟨hdl, hdu⟩ := two_zpow_le_of_log2 hd
  unfold leadingExponent
  by_cases h : num * twoPow (-((num.log2 : Int) - den.log2)).toNat <
      den * twoPow ((num.log2 : Int) - den.log2).toNat
  · simp only [if_pos h]
    refine ⟨?_, ?_⟩
    · rw [le_div_iff₀ hd']
      calc (2 : ℚ) ^ ((num.log2 : Int) - den.log2 - 1) * den
          ≤ 2 ^ ((num.log2 : Int) - den.log2 - 1) * 2 ^ ((den.log2 : Int) + 1) := by
            gcongr
        _ = 2 ^ (num.log2 : Int) := by
            rw [← zpow_add₀ two_ne_zero]
            congr 1
            ring
        _ ≤ num := hnl
    · rw [Int.sub_add_cancel]
      exact (div_lt_two_zpow (Nat.pos_of_ne_zero hd) _).2 h
  · simp only [if_neg h]
    refine ⟨not_lt.1 fun hlt => h ((div_lt_two_zpow (Nat.pos_of_ne_zero hd) _).1 hlt), ?_⟩
    rw [div_lt_iff₀ hd']
    calc (num : ℚ) < 2 ^ ((num.log2 : Int) + 1) := hnu
      _ = 2 ^ ((num.log2 : Int) - den.log2 + 1) * 2 ^ (den.log2 : Int) := by
          rw [← zpow_add₀ two_ne_zero]
          congr 1
          ring
      _ ≤ 2 ^ ((num.log2 : Int) - den.log2 + 1) * den := by
          gcongr

/-- Only one power of two is the leading one. -/
theorem leadingExponent_eq {num den : Nat} (hn : num ≠ 0) (hd : den ≠ 0) {k : Int}
    (hl : (2 : ℚ) ^ k ≤ num / den) (hu : (num / den : ℚ) < 2 ^ (k + 1)) :
    leadingExponent num den = k := by
  obtain ⟨hl', hu'⟩ := two_zpow_leadingExponent hn hd
  have h₁ : k < leadingExponent num den + 1 :=
    (zpow_lt_zpow_iff_right₀ one_lt_two).1 (hl.trans_lt hu')
  have h₂ : leadingExponent num den < k + 1 :=
    (zpow_lt_zpow_iff_right₀ one_lt_two).1 (hl'.trans_lt hu)
  omega

theorem nearest_mul (m : Nat) {den : Nat} (hd : 0 < den) : nearest (m * den) den = m := by
  unfold nearest
  rw [Nat.mul_div_cancel _ hd, Nat.mul_mod_left]
  simp only [Nat.mul_zero, hd, if_true]

theorem roundMagnitude_eq {num den : Nat} (hp : 0 < f.precision) (h : Canonical f m e)
    (hm : m ≠ 0) (hd : den ≠ 0)
    (hq : (num / den : ℚ) = m * 2 ^ e) (hfinite : packMagnitude f m e < f.infinity) :
    roundMagnitude f num den = packMagnitude f m e := by
  have hd' : (den : ℚ) ≠ 0 := Nat.cast_ne_zero.2 hd
  have hn : num ≠ 0 := by
    rintro rfl
    rw [Nat.cast_zero, zero_div] at hq
    have : (m : ℚ) * 2 ^ e ≠ 0 := mul_ne_zero (Nat.cast_ne_zero.2 hm) (by positivity)
    exact this hq.symm
  obtain ⟨hml, hmu⟩ := two_zpow_le_of_log2 hm
  have hlead : leadingExponent num den = (m.log2 : Int) + e := by
    refine leadingExponent_eq hn hd ?_ ?_
    · rw [hq, zpow_add₀ two_ne_zero]
      gcongr
    · rw [hq, add_right_comm, zpow_add₀ two_ne_zero]
      gcongr
  -- the unit in the last place is the exponent that was given
  have hexp : max (leadingExponent num den - ((f.precision : Int) - 1)) f.minExponent = e := by
    have hlog : m.log2 < f.precision - 1 + 1 :=
      (Nat.log2_lt hm).2 (Nat.pow_succ' ▸ h.mantissa)
    have hmin := h.exponent
    rw [hlead]
    rcases h.leading with he | hl
    · omega
    · have : f.precision - 1 ≤ m.log2 := (Nat.le_log2 hm).2 hl
      omega
  have hmantissa : num * twoPow (-e).toNat = m * (den * twoPow e.toNat) := by
    have hp : (2 : ℚ) ^ (-e).toNat ≠ 0 := by positivity
    rw [two_zpow_eq, ← mul_div_assoc, div_eq_div_iff hd' hp] at hq
    have : (num : ℚ) * 2 ^ (-e).toNat = m * (den * 2 ^ e.toNat) := by
      rw [hq]
      ring
    exact_mod_cast this
  unfold roundMagnitude
  rw [if_neg hn]
  simp only [hexp, hmantissa]
  have hunit : 0 < den * twoPow e.toNat :=
    Nat.mul_pos (Nat.pos_of_ne_zero hd) (Nat.two_pow_pos _)
  rw [nearest_mul m hunit]
  exact Nat.min_eq_left (Nat.le_of_lt hfinite)

/-- A number that the format holds is rounded to itself. -/
theorem ofScaled_eq {m' : Nat} {e' : Int} (hp : 0 < f.precision) (h : Canonical f m e)
    (hm : m ≠ 0) (hv : (m' : ℚ) * 2 ^ e' = m * 2 ^ e) (hfinite : packMagnitude f m e < f.infinity) :
    ofScaled f negative m' e' = pack f negative m e := by
  have hd : twoPow (-e').toNat ≠ 0 := Nat.ne_of_gt (Nat.two_pow_pos _)
  have hq : ((m' * twoPow e'.toNat : Nat) / (twoPow (-e').toNat : Nat) : ℚ) = m * 2 ^ e := by
    rw [← hv, two_zpow_eq e']
    push_cast [Nat.pow_eq]
    ring
  rw [ofScaled, round, roundMagnitude_eq hp h hm hd hq hfinite, pack]

/-! ## There and back -/

theorem ofScaled_zero (e : Int) :
    ofScaled f negative 0 e = pack f negative 0 f.minExponent := by
  unfold ofScaled round roundMagnitude pack packMagnitude
  rw [Nat.zero_mul, if_pos rfl, Int.sub_self, Int.toNat_zero, Nat.zero_mul]

/-- A number of four bytes in the wider format: its mantissa is shifted to have its hidden bit. -/
theorem Canonical.widen (h : Canonical binary32 m e)
    (hfinite : packMagnitude binary32 m e < binary32.infinity) (hm : m ≠ 0) :
    Canonical binary64 (m * 2 ^ (52 - m.log2)) (e - (52 - m.log2 : Nat)) ∧
      packMagnitude binary64 (m * 2 ^ (52 - m.log2)) (e - (52 - m.log2 : Nat)) <
        binary64.infinity := by
  have hsum {k y : Nat} (hk : k ≤ 1178) (hy : y < 2 ^ 53) : k * 2 ^ 52 + y < 2047 * 2 ^ 52 := by
    omega
  have hmin : binary64.minExponent = -1074 := rfl
  have hhidden : binary64.hidden = 2 ^ 52 := rfl
  have hlow : (-149 : Int) ≤ e := h.exponent
  have hlog : m.log2 < 24 := (Nat.log2_lt hm).2 h.mantissa
  have hhigh : (e - (-149)).toNat * 2 ^ 23 + m < 255 * 2 ^ 23 := hfinite
  have hexp : (e - (52 - m.log2 : Nat) - -1074).toNat ≤ 1178 := by omega
  have hge : 2 ^ 52 ≤ m * 2 ^ (52 - m.log2) := by
    calc 2 ^ 52 = 2 ^ m.log2 * 2 ^ (52 - m.log2) := by rw [← Nat.pow_add]; congr 1; omega
      _ ≤ m * 2 ^ (52 - m.log2) := Nat.mul_le_mul_right _ (Nat.log2_self_le hm)
  have hlt : m * 2 ^ (52 - m.log2) < 2 ^ 53 := by
    calc m * 2 ^ (52 - m.log2) < 2 ^ (m.log2 + 1) * 2 ^ (52 - m.log2) :=
          Nat.mul_lt_mul_of_pos_right Nat.lt_log2_self (Nat.two_pow_pos _)
      _ = 2 ^ 53 := by rw [← Nat.pow_add]; congr 1; omega
  refine ⟨⟨?_, ?_, Or.inr ?_⟩, ?_⟩
  · rw [hhidden]
    omega
  · rw [hmin]
    omega
  · rw [hhidden]
    exact hge
  · exact hsum hexp hlt

/-- A finite number of four bytes widened to eight is finite and comes back as it was. -/
theorem convert_convert {bits : Nat} (hb : bits < 2 ^ 32) (hf : isFinite binary32 bits = true) :
    let wide := convert binary32 binary64 bits
    isFinite binary64 wide = true ∧ wide < 2 ^ 64 ∧ convert binary64 binary32 wide = bits := by
  unfold isFinite at hf
  cases hd : decode binary32 bits with
  | nan => rw [hd] at hf; cases hf
  | infinite negative => rw [hd] at hf; cases hf
  | finite negative m e =>
    obtain ⟨hc, hfinite, rfl⟩ := exists_pack (f := binary32) hb hd
    -- the number in the wider format, and its bits read back
    obtain ⟨m', e', hwide, hc', hfinite', hback⟩ : ∃ m' e',
        ofScaled binary64 negative m e = pack binary64 negative m' e' ∧
          Canonical binary64 m' e' ∧ packMagnitude binary64 m' e' < binary64.infinity ∧
          ofScaled binary32 negative m' e' = pack binary32 negative m e := by
      by_cases hm : m = 0
      · subst hm
        -- zero has the least exponent
        have he : e = binary32.minExponent :=
          hc.leading.resolve_right fun h => absurd h (by decide)
        exact ⟨0, binary64.minExponent, ofScaled_zero e,
          ⟨by decide, Int.le_refl _, Or.inl rfl⟩, by decide, he ▸ ofScaled_zero _⟩
      · obtain ⟨hc', hfinite'⟩ := hc.widen hfinite hm
        have hv : (m : ℚ) * 2 ^ e =
            (m * 2 ^ (52 - m.log2) : Nat) * 2 ^ (e - (52 - m.log2 : Nat)) := by
          rw [zpow_sub₀ two_ne_zero, zpow_natCast, Nat.cast_mul, Nat.cast_pow, Nat.cast_ofNat]
          field_simp
        have hm' : m * 2 ^ (52 - m.log2) ≠ 0 :=
          Nat.mul_ne_zero hm (Nat.ne_of_gt (Nat.two_pow_pos _))
        exact ⟨_, _, ofScaled_eq (by decide) hc' hm' hv hfinite', hc', hfinite',
          ofScaled_eq (by decide) hc hm hv.symm hfinite⟩
    have hdecode : decode binary64 (pack binary64 negative m' e') = .finite negative m' e' :=
      decode_pack hc' hfinite'
    intro wide
    have hw : wide = pack binary64 negative m' e' := by
      show convert _ _ _ = _
      rw [convert, hd]
      exact hwide
    rw [hw]
    refine ⟨by rw [isFinite, hdecode], ?_, ?_⟩
    · have hinf : binary64.infinity = 2047 * 2 ^ 52 := rfl
      have hsign : (if negative then binary64.signBit else 0) ≤ 2 ^ 63 := by
        cases negative <;> decide
      rw [pack]
      omega
    · rw [convert, hdecode]
      exact hback

end Parley.Binary
