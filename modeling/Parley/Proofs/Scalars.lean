import Mathlib.Algebra.Group.Nat.Defs
import Parley.Proofs.Outcome
import Parley.Proofs.Typing
import Parley.Wire.Decode
import Parley.Wire.Encode

/-!
# Scalars on the wire

What is written for a scalar is read back, whatever bytes come after it.

* `ofLittleEndian_littleEndian`, `Integer.ofBits_toBits`, `Integer.toBits_ofBits` : numbers.
* `Utf16.decode_encode` : texts; `splitUnits_zeroTerminated` : the zero unit that closes one is
  found where it was put; `eq_append_of_splitUnits` : what is found was put there.
* `Reader.run_take`, `Reader.of_run_take` : taking what was put in front.
* `run_decodeScalar` : every scalar of the wire.
-/

namespace Parley

/-! ## Numbers -/

theorem ofLittleEndian_littleEndian {count n : Nat} (h : n < 256 ^ count) :
    ofLittleEndian (littleEndian count n) = n := by
  induction count generalizing n with
  | zero =>
    have : n = 0 := by simpa using h
    rw [this]
    rfl
  | succ count ih =>
    have hdiv : n / 256 < 256 ^ count := by
      rw [Nat.pow_succ] at h
      omega
    have hbyte : (UInt8.ofNat (n % 256)).toNat = n % 256 :=
      UInt8.toNat_ofNat_of_lt' (Nat.mod_lt n (by decide))
    rw [littleEndian, ofLittleEndian, ih hdiv, hbyte]
    omega

theorem ofLittleEndian_lt (bytes : List UInt8) : ofLittleEndian bytes < 256 ^ bytes.length := by
  induction bytes with
  | nil => decide
  | cons b rest ih =>
    have hb := b.toNat_lt
    rw [ofLittleEndian, List.length_cons, Nat.pow_succ]
    omega

theorem IntKind.modulus_eq (k : IntKind) : k.modulus = 256 ^ k.bytes := by
  cases k <;> rfl

theorem Integer.toBits_lt (n : Integer) : n.toBits < n.kind.modulus := by
  have hpos : (0 : Int) < n.kind.modulus := by cases n.kind <;> decide
  have h := Int.emod_lt_of_pos n.val hpos
  have h0 := Int.emod_nonneg n.val (by omega : (n.kind.modulus : Int) ≠ 0)
  rw [toBits]
  omega

/-- Two's complement gives back the value. -/
theorem Integer.valueOfBits_emod {k : IntKind} {n : Int} (h : k.Holds n) :
    Integer.valueOfBits k (n % (k.modulus : Int)).toNat = n := by
  cases k <;> simp only [IntKind.Holds, IntKind.min, IntKind.max, IntKind.signed, IntKind.modulus,
    Integer.valueOfBits] at h ⊢
  case u8 | u16 | u32 | u64 => simp at h ⊢; omega
  all_goals
    simp only [if_true, true_and] at h ⊢
    split <;> omega

theorem Integer.ofBits_toBits (n : Integer) : Integer.ofBits n.kind n.toBits = n := by
  obtain ⟨k, v, hv⟩ := n
  simp only [Integer.ofBits, Integer.toBits, Integer.valueOfBits_emod hv]

theorem Integer.toBits_ofBits {k : IntKind} {bits : Nat} (h : bits < k.modulus) :
    (Integer.ofBits k bits).toBits = bits := by
  show (Integer.valueOfBits k bits % (k.modulus : Int)).toNat = bits
  cases k <;> simp only [IntKind.modulus, IntKind.signed, Integer.valueOfBits] at h ⊢
  case u8 | u16 | u32 | u64 => simp; omega
  all_goals
    simp only [true_and]
    split <;> omega

theorem Integer.ofInt?_val (n : Integer) : Integer.ofInt? n.kind n.val = some n :=
  dif_pos n.inRange

theorem Integer.ofInt?_eq_some {k : IntKind} {n : Int} {i : Integer}
    (h : Integer.ofInt? k n = some i) : i.kind = k ∧ i.val = n := by
  unfold Integer.ofInt? at h
  split at h
  · cases h
    exact ⟨rfl, rfl⟩
  · cases h

/-! ## Texts -/

namespace Utf16

theorem toNat_char_lt (c : Char) : c.toNat < 0xD800 ∨ 0xDFFF < c.toNat ∧ c.toNat < 0x110000 :=
  c.valid

theorem ofNat_toNat_char (c : Char) : Char.ofNat c.toNat = c :=
  Char.ofNat_toNat c

/-- A unit that leads no pair is read on its own. -/
theorem decodeChars_cons {u : UInt16} (h : isHigh u = false) (rest : List UInt16) :
    decodeChars (u :: rest) = single u :: decodeChars rest := by
  cases rest with
  | nil => rfl
  | cons v rest => rw [decodeChars, h, Bool.false_and, if_neg Bool.false_ne_true]

theorem decodeChars_units (c : Char) (rest : List UInt16) :
    decodeChars (units c ++ rest) = c :: decodeChars rest := by
  have hc := toNat_char_lt c
  unfold units
  by_cases h : c.toNat < 0x10000
  · have hn : (UInt16.ofNat c.toNat).toNat = c.toNat := UInt16.toNat_ofNat_of_lt' h
    have hh : isHigh (UInt16.ofNat c.toNat) = false := by
      rw [isHigh, hn, Bool.and_eq_false_iff, decide_eq_false_iff_not, decide_eq_false_iff_not]
      omega
    have hl : isLow (UInt16.ofNat c.toNat) = false := by
      rw [isLow, hn, Bool.and_eq_false_iff, decide_eq_false_iff_not, decide_eq_false_iff_not]
      omega
    rw [if_pos h, List.singleton_append, decodeChars_cons hh, single, hh, hl, hn, ofNat_toNat_char]
    rfl
  · have hhi : (UInt16.ofNat (0xD800 + (c.toNat - 0x10000) / 0x400)).toNat =
        0xD800 + (c.toNat - 0x10000) / 0x400 := UInt16.toNat_ofNat_of_lt' (by show _ < 65536; omega)
    have hlo : (UInt16.ofNat (0xDC00 + (c.toNat - 0x10000) % 0x400)).toNat =
        0xDC00 + (c.toNat - 0x10000) % 0x400 := UInt16.toNat_ofNat_of_lt' (by show _ < 65536; omega)
    rw [if_neg h, List.cons_append, List.singleton_append, decodeChars, isHigh, isLow, pair, hhi,
      hlo]
    have hcond : (decide (0xD800 ≤ 0xD800 + (c.toNat - 0x10000) / 0x400) &&
        decide (0xD800 + (c.toNat - 0x10000) / 0x400 < 0xDC00) &&
        (decide (0xDC00 ≤ 0xDC00 + (c.toNat - 0x10000) % 0x400) &&
        decide (0xDC00 + (c.toNat - 0x10000) % 0x400 < 0xE000))) = true := by
      simp only [Bool.and_eq_true, decide_eq_true_eq]
      omega
    have hsum : 0x10000 + (0xD800 + (c.toNat - 0x10000) / 0x400 - 0xD800) * 0x400 +
        (0xDC00 + (c.toNat - 0x10000) % 0x400 - 0xDC00) = c.toNat := by omega
    rw [if_pos hcond, hsum, ofNat_toNat_char]

theorem decodeChars_flatMap_units (cs : List Char) : decodeChars (cs.flatMap units) = cs := by
  induction cs with
  | nil => rfl
  | cons c cs ih => rw [List.flatMap_cons, decodeChars_units, ih]

theorem decode_encode (s : String) : decode (encode s) = s := by
  rw [decode, encode, decodeChars_flatMap_units, String.ofList_toList]

theorem zero_not_mem_units {c : Char} (h : c ≠ '\x00') : (0 : UInt16) ∉ units c := by
  have hc := toNat_char_lt c
  have hn : c.toNat ≠ 0 := by
    intro h0
    apply h
    rw [← ofNat_toNat_char c, h0]
  have hzero {n : Nat} (hl : n < 0x10000) (h0 : n ≠ 0) : (0 : UInt16) ≠ UInt16.ofNat n := by
    intro he
    have := congrArg UInt16.toNat he
    rw [UInt16.toNat_ofNat_of_lt' hl] at this
    exact h0 this.symm
  unfold units
  by_cases hl : c.toNat < 0x10000
  · rw [if_pos hl, List.mem_singleton]
    exact hzero hl hn
  · rw [if_neg hl, List.mem_cons, List.mem_singleton, not_or]
    exact ⟨hzero (by omega) (by omega), hzero (by omega) (by omega)⟩

theorem zero_not_mem_encode {s : String} (h : '\x00' ∉ s.toList) : (0 : UInt16) ∉ encode s := by
  rw [encode, List.mem_flatMap]
  rintro ⟨c, hc, hz⟩
  exact zero_not_mem_units (fun he => h (he ▸ hc)) hz

end Utf16

/-- Units without a zero among them are read up to the zero unit after them. -/
theorem splitUnits_append {units : List UInt16} (h : (0 : UInt16) ∉ units) (rest : List UInt8) :
    splitUnits (units.flatMap (fun u => littleEndian 2 u.toNat) ++ ([0, 0] ++ rest)) =
      some (units, rest) := by
  induction units with
  | nil => rfl
  | cons u units ih =>
    rw [List.mem_cons, not_or] at h
    have hu : ofLittleEndian (littleEndian 2 u.toNat) = u.toNat :=
      ofLittleEndian_littleEndian u.toNat_lt
    have hne : u.toNat ≠ 0 := fun h0 => h.1 (UInt16.toNat_inj.1 h0).symm
    rw [List.flatMap_cons, List.append_assoc, littleEndian, littleEndian, littleEndian]
    rw [littleEndian, littleEndian, littleEndian] at hu
    rw [List.cons_append, List.cons_append, List.nil_append, splitUnits, hu, if_neg hne, ih h.2,
      UInt16.ofNat_toNat]
    rfl

theorem eq_append_of_splitUnits : ∀ {bytes rest : List UInt8} {units : List UInt16},
    splitUnits bytes = some (units, rest) → (0 : UInt16) ∉ units ∧
      bytes = units.flatMap (fun u => littleEndian 2 u.toNat) ++ ([0, 0] ++ rest)
  | [], _, _, h => by cases h
  | [_], _, _, h => by cases h
  | low :: high :: bytes, rest, units, h => by
    have hback : littleEndian 2 (ofLittleEndian [low, high]) = [low, high] :=
      littleEndian_ofLittleEndian [low, high]
    have hlt : ofLittleEndian [low, high] < 65536 := by
      simpa using ofLittleEndian_lt [low, high]
    rw [splitUnits] at h
    by_cases hz : ofLittleEndian [low, high] = 0
    · rw [if_pos hz] at h
      cases h
      rw [hz] at hback
      refine ⟨List.not_mem_nil, ?_⟩
      show [low, high] ++ bytes = littleEndian 2 0 ++ bytes
      rw [hback]
    · rw [if_neg hz] at h
      obtain ⟨⟨tail, left⟩, htail, he⟩ := Option.map_eq_some_iff.1 h
      cases he
      obtain ⟨hne, hbytes⟩ := eq_append_of_splitUnits htail
      have hunit : (UInt16.ofNat (ofLittleEndian [low, high])).toNat =
          ofLittleEndian [low, high] := UInt16.toNat_ofNat_of_lt' hlt
      constructor
      · rw [List.mem_cons, not_or]
        refine ⟨fun h0 => hz ?_, hne⟩
        rw [← hunit, ← h0]
        rfl
      · rw [List.flatMap_cons, hunit, hback, List.append_assoc, ← hbytes]
        rfl

theorem length_flatMap_littleEndian (units : List UInt16) :
    (units.flatMap fun u => littleEndian 2 u.toNat).length = 2 * units.length := by
  induction units with
  | nil => rfl
  | cons u units ih =>
    rw [List.flatMap_cons, List.length_append, length_littleEndian, ih, List.length_cons]
    omega

theorem length_zeroTerminated (s : String) :
    (zeroTerminated s).length = 2 * (Utf16.encode s).length + 2 := by
  rw [zeroTerminated, List.length_append, length_flatMap_littleEndian]
  rfl

theorem splitUnits_zeroTerminated {s : String} (h : '\x00' ∉ s.toList) (rest : List UInt8) :
    splitUnits (zeroTerminated s ++ rest) = some (Utf16.encode s, rest) := by
  rw [zeroTerminated, List.append_assoc]
  exact splitUnits_append (Utf16.zero_not_mem_encode h) rest

/-! ## Readers -/

namespace Reader

theorem run_take (bytes rest : List UInt8) (o : Nat) :
    (take bytes.length).run ⟨o, bytes ++ rest⟩ = (.ok bytes, ⟨o + bytes.length, rest⟩) := by
  show take bytes.length ⟨o, bytes ++ rest⟩ = _
  rw [take]
  simp only [splitBytes_append]

theorem of_run_take {n : Nat} {c c' : Cursor} {bytes : List UInt8}
    (h : (take n).run c = (.ok bytes, c')) :
    bytes.length = n ∧ c.rest = bytes ++ c'.rest ∧ c'.offset = c.offset + n := by
  have h : take n c = (.ok bytes, c') := h
  rw [take] at h
  cases hs : splitBytes n c.rest with
  | none =>
    simp only [hs] at h
    cases h
  | some p =>
    simp only [hs] at h
    cases h
    obtain ⟨hl, hb⟩ := splitBytes_eq_some hs
    exact ⟨hl, hb, rfl⟩

theorem run_littleEndian {count n : Nat} (h : n < 256 ^ count) (rest : List UInt8) (o : Nat)
    {α : Type} (f : Nat → α) :
    Reader.run (do return f (ofLittleEndian (← take count))) ⟨o, littleEndian count n ++ rest⟩ =
      (.ok (f n), ⟨o + count, rest⟩) := by
  have ht := run_take (littleEndian count n) rest o
  rw [length_littleEndian] at ht
  rw [run_bind ht, ofLittleEndian_littleEndian h, run_pure]

theorem run_word {n : Nat} (h : n < IntKind.u32.modulus) (rest : List UInt8) (o : Nat) :
    word.run ⟨o, littleEndian 4 n ++ rest⟩ = (.ok n, ⟨o + 4, rest⟩) :=
  run_littleEndian h rest o id

theorem run_integer (n : Integer) (rest : List UInt8) (o : Nat) :
    (integer n.kind).run ⟨o, n.toBytes ++ rest⟩ = (.ok n, ⟨o + n.toBytes.length, rest⟩) := by
  have h := run_littleEndian (n.kind.modulus_eq ▸ n.toBits_lt) rest o (Integer.ofBits n.kind)
  rw [Integer.ofBits_toBits] at h
  rw [Integer.toBytes, length_littleEndian]
  exact h

theorem run_zcstring {s : String} (h : '\x00' ∉ s.toList) (rest : List UInt8) (o : Nat) :
    zcstring.run ⟨o, zeroTerminated s ++ rest⟩ =
      (.ok s, ⟨o + (zeroTerminated s).length, rest⟩) := by
  show zcstring ⟨o, zeroTerminated s ++ rest⟩ = _
  rw [zcstring]
  simp only [splitUnits_zeroTerminated h, Utf16.decode_encode, length_zeroTerminated]
  rfl

end Reader

/-! ## Scalars -/

theorem scalarBytes_eq_ok {s : Scalar} {b : List UInt8} (h : scalarBytes s = .ok b) :
    b = s.toBytes ∧ ∀ text, s = .string text → '\x00' ∉ text.toList := by
  cases s with
  | string text =>
    rw [scalarBytes] at h
    by_cases hz : text.toList.contains '\x00'
    · rw [if_pos hz] at h
      cases h
    · rw [if_neg hz] at h
      cases h
      refine ⟨rfl, fun t ht hm => hz ?_⟩
      cases ht
      exact List.contains_iff_mem.2 hm
  | nil | bool | int | float | double =>
    cases h
    exact ⟨rfl, fun _ ht => nomatch ht⟩

/-- A scalar of the wire reads back from its bytes, and nothing after them is touched. -/
theorem run_decodeScalar {kind : BaseKind} {s : Scalar} {b : List UInt8}
    (ht : s.type = kind.scalarTy) (hb : scalarBytes s = .ok b) (rest : List UInt8) (o : Nat) :
    (decodeScalar kind).run ⟨o, b ++ rest⟩ = (.ok s, ⟨o + b.length, rest⟩) := by
  obtain ⟨rfl, hz⟩ := scalarBytes_eq_ok hb
  cases kind with
  | zcstring =>
    obtain ⟨text, rfl⟩ := Scalar.exists_string ht
    exact (Reader.run_bind (Reader.run_zcstring (hz text rfl) rest o) _).trans rfl
  | int k hk =>
    obtain ⟨n, rfl, rfl⟩ := Scalar.exists_int ht
    exact (Reader.run_bind (Reader.run_integer n rest o) _).trans rfl
  | float =>
    obtain ⟨bits, rfl⟩ := Scalar.exists_float ht
    have hlt : bits.toNat < 256 ^ 4 := bits.toNat_lt
    have h := Reader.run_littleEndian hlt rest o UInt32.ofNat
    rw [UInt32.ofNat_toNat] at h
    exact (Reader.run_bind h _).trans rfl
  | double =>
    obtain ⟨bits, rfl⟩ := Scalar.exists_double ht
    have hlt : bits.toNat < 256 ^ 8 := bits.toNat_lt
    have h := Reader.run_littleEndian hlt rest o UInt64.ofNat
    rw [UInt64.ofNat_toNat] at h
    exact (Reader.run_bind h _).trans rfl
  | boolean =>
    obtain ⟨flag, rfl⟩ := Scalar.exists_bool ht
    cases flag with
    | false => exact (Reader.run_bind (Reader.run_bind (Reader.run_take [0] rest o) _) _).trans rfl
    | true => exact (Reader.run_bind (Reader.run_bind (Reader.run_take [1] rest o) _) _).trans rfl

theorem length_toBytes_pos {kind : BaseKind} {s : Scalar} (h : s.type = kind.scalarTy) :
    0 < s.toBytes.length := by
  cases s with
  | nil => cases kind <;> cases h
  | bool b => exact Nat.succ_pos _
  | int n =>
    rw [Scalar.toBytes, Integer.toBytes, length_littleEndian]
    cases n.kind <;> decide
  | float bits => rw [Scalar.toBytes, length_littleEndian]; decide
  | double bits => rw [Scalar.toBytes, length_littleEndian]; decide
  | string s => rw [Scalar.toBytes, length_zeroTerminated]; omega

end Parley
