import Parley.Proofs.Scalars

/-!
# Units without partners

Reading units is lossy: a surrogate without its partner becomes the replacement character. What is
lost is lost at once, and no unit is added or dropped.

* `WellFormed` : units whose surrogates come in pairs.
* `encode_decode_eq_iff` : these are the units that are read without loss.
* `length_encode_decode` : the text that is read has as many units as were read.
* `zero_not_mem_decode` : a text that was read from units other than zero has no zero unit.
-/

namespace Parley.Utf16

/-- Every surrogate among the units is part of a pair. -/
inductive WellFormed : List UInt16 → Prop
  | nil : WellFormed []
  | single {u : UInt16} {us : List UInt16} (hu : isHigh u = false) (hl : isLow u = false)
      (h : WellFormed us) : WellFormed (u :: us)
  | pair {high low : UInt16} {us : List UInt16} (hh : isHigh high = true) (hl : isLow low = true)
      (h : WellFormed us) : WellFormed (high :: low :: us)

theorem exists_units_single (u : UInt16) :
    ∃ v, units (single u) = [v] ∧ (v = u ↔ isHigh u = false ∧ isLow u = false) ∧
      (u ≠ 0 → single u ≠ '\x00') := by
  by_cases hs : (isHigh u || isLow u) = true
  · refine ⟨0xFFFD, ?_, ?_, fun _ => ?_⟩
    · rw [single, if_pos hs]
      rfl
    · constructor
      · rintro rfl
        exact absurd hs (by decide)
      · rintro ⟨hh, hl⟩
        rw [hh, hl] at hs
        cases hs
    · rw [single, if_pos hs]
      decide
  · have hchar : single u = Char.ofNat u.toNat := if_neg hs
    have hlt : u.toNat < 0x10000 := u.toNat_lt
    have hvalid : u.toNat.isValidChar := by
      simp only [isHigh, isLow, Bool.or_eq_true, Bool.and_eq_true, decide_eq_true_eq, not_or,
        not_and, Nat.not_lt] at hs
      unfold Nat.isValidChar
      omega
    have hn : (Char.ofNat u.toNat).toNat = u.toNat := by
      rw [Char.ofNat, dif_pos hvalid]
      rfl
    rw [Bool.or_eq_true, not_or, Bool.not_eq_true, Bool.not_eq_true] at hs
    refine ⟨u, ?_, ⟨fun _ => hs, fun _ => rfl⟩, fun hne hz => hne ?_⟩
    · rw [hchar, units, hn, if_pos hlt, UInt16.ofNat_toNat]
    · rw [hchar] at hz
      rw [hz] at hn
      exact UInt16.toNat_inj.1 hn.symm

/-- The units of the character of a pair are the pair. -/
theorem units_pair {high low : UInt16} (hh : isHigh high = true) (hl : isLow low = true) :
    units (pair high low) = [high, low] ∧ pair high low ≠ '\x00' := by
  simp only [isHigh, isLow, Bool.and_eq_true, decide_eq_true_eq] at hh hl
  have hvalid : (0x10000 + (high.toNat - 0xD800) * 0x400 + (low.toNat - 0xDC00)).isValidChar := by
    unfold Nat.isValidChar
    omega
  have hn : (pair high low).toNat =
      0x10000 + (high.toNat - 0xD800) * 0x400 + (low.toNat - 0xDC00) := by
    rw [pair, Char.ofNat, dif_pos hvalid]
    rfl
  constructor
  · have hhigh : 0xD800 + ((pair high low).toNat - 0x10000) / 0x400 = high.toNat := by omega
    have hlow : 0xDC00 + ((pair high low).toNat - 0x10000) % 0x400 = low.toNat := by omega
    rw [units, if_neg (by omega), hhigh, hlow, UInt16.ofNat_toNat, UInt16.ofNat_toNat]
  · intro hz
    rw [hz] at hn
    have : (0 : Nat) = _ := hn
    omega

theorem wellFormed_pair_iff {high low : UInt16} {us : List UInt16} (hh : isHigh high = true)
    (hl : isLow low = true) : WellFormed (high :: low :: us) ↔ WellFormed us := by
  constructor
  · intro h
    cases h with
    | single hu _ _ =>
      rw [hh] at hu
      cases hu
    | pair _ _ h => exact h
  · exact .pair hh hl

theorem wellFormed_single_iff {u : UInt16} {us : List UInt16}
    (hp : ∀ v rest, us = v :: rest → (isHigh u && isLow v) = false) :
    WellFormed (u :: us) ↔ (isHigh u = false ∧ isLow u = false) ∧ WellFormed us := by
  constructor
  · intro h
    cases h with
    | single hu hl h => exact ⟨⟨hu, hl⟩, h⟩
    | @pair _ low rest hh hl h =>
      have := hp low rest rfl
      rw [hh, hl] at this
      cases this
  · rintro ⟨⟨hu, hl⟩, h⟩
    exact .single hu hl h

/-- The text of units has as many units as there are, the very units if they are well formed. -/
theorem units_decodeChars (us : List UInt16) :
    ((decodeChars us).flatMap units).length = us.length ∧
      ((decodeChars us).flatMap units = us ↔ WellFormed us) ∧
      ((0 : UInt16) ∉ us → '\x00' ∉ decodeChars us) := by
  have hsingle (u : UInt16) (us : List UInt16)
      (hp : ∀ v rest, us = v :: rest → (isHigh u && isLow v) = false)
      (ih : ((decodeChars us).flatMap units).length = us.length ∧
        ((decodeChars us).flatMap units = us ↔ WellFormed us) ∧
        ((0 : UInt16) ∉ us → '\x00' ∉ decodeChars us)) :
      ((single u :: decodeChars us).flatMap units).length = (u :: us).length ∧
        ((single u :: decodeChars us).flatMap units = u :: us ↔ WellFormed (u :: us)) ∧
        ((0 : UInt16) ∉ u :: us → '\x00' ∉ single u :: decodeChars us) := by
    obtain ⟨v, hv, hiff, hzero⟩ := exists_units_single u
    rw [List.flatMap_cons, hv, List.singleton_append, List.length_cons, List.length_cons, ih.1,
      List.cons.injEq, hiff, ih.2.1, wellFormed_single_iff hp, List.mem_cons, List.mem_cons, not_or,
      not_or]
    exact ⟨rfl, Iff.rfl, fun h => ⟨fun he => hzero (Ne.symm h.1) he.symm, ih.2.2 h.2⟩⟩
  fun_induction decodeChars us with
  | case1 => exact ⟨rfl, ⟨fun _ => .nil, fun _ => rfl⟩, fun _ => List.not_mem_nil⟩
  | case2 u =>
    exact hsingle u [] (fun _ _ h => nomatch h)
      ⟨rfl, ⟨fun _ => .nil, fun _ => rfl⟩, fun _ => List.not_mem_nil⟩
  | case3 u v rest h ih =>
    rw [Bool.and_eq_true] at h
    obtain ⟨hunits, hne⟩ := units_pair h.1 h.2
    rw [List.flatMap_cons, hunits, List.cons_append, List.singleton_append, List.length_cons,
      List.length_cons, ih.1, List.cons.injEq, List.cons.injEq, ih.2.1, wellFormed_pair_iff h.1 h.2,
      List.mem_cons, List.mem_cons, List.mem_cons, not_or, not_or, not_or]
    exact ⟨rfl, by simp, fun hz => ⟨fun he => hne he.symm, ih.2.2 hz.2.2⟩⟩
  | case4 u v rest h ih =>
    refine hsingle u (v :: rest) ?_ ih
    rintro _ _ ⟨⟩
    exact Bool.eq_false_iff.2 h

theorem length_encode_decode (us : List UInt16) : (encode (decode us)).length = us.length := by
  rw [encode, decode, String.toList_ofList]
  exact (units_decodeChars us).1

/-- Just the units whose surrogates come in pairs are read without loss. -/
theorem encode_decode_eq_iff {us : List UInt16} : encode (decode us) = us ↔ WellFormed us := by
  rw [encode, decode, String.toList_ofList]
  exact (units_decodeChars us).2.1

theorem zero_not_mem_decode {us : List UInt16} (h : (0 : UInt16) ∉ us) :
    '\x00' ∉ (decode us).toList := by
  rw [decode, String.toList_ofList]
  exact (units_decodeChars us).2.2 h

theorem wellFormed_encode (s : String) : WellFormed (encode s) := by
  rw [← encode_decode_eq_iff, decode_encode]

end Parley.Utf16
