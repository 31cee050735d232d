import Parley.Proofs.Surrogates

/-!
# Scalars in sequence

Scalars that are written one after the other are read back one after the other. The other way round
a text is written with as many bytes as it was read from; where these differ, a surrogate stood
alone.

* `Utf16.Unpaired`, `Utf16.mended` : surrogates without a partner, and units with the replacement
  character in their place.
* `Utf16.encode_decode` : what reading does to units; `Utf16.wellFormed_iff` : it does nothing to
  well-formed ones.
* `Primitive`, `writeSequence`, `readSequence` : scalars that the wire can carry, and sequences of
  them; `run_readSequence` : they are read back.
* `Reader.run_zcstring_eq_ok` : what a text is read from.
* `sequence_read_back` : both ways.
-/

namespace Parley

/-! ## Surrogates without a partner -/

namespace Utf16

/-- A leading surrogate stands at the position. -/
def HighAt (us : List UInt16) (i : Nat) : Prop :=
  us[i]?.any isHigh = true

/-- A trailing surrogate stands at the position. -/
def LowAt (us : List UInt16) (i : Nat) : Prop :=
  us[i]?.any isLow = true

/-- A surrogate stands at the position without its partner: a leading one without a trailing one
after it, or a trailing one without a leading one before it. -/
def Unpaired (us : List UInt16) (i : Nat) : Prop :=
  HighAt us i ∧ ¬ LowAt us (i + 1) ∨ LowAt us i ∧ (i = 0 ∨ ¬ HighAt us (i - 1))

instance (us : List UInt16) (i : Nat) : Decidable (HighAt us i) :=
  inferInstanceAs (Decidable (_ = true))

instance (us : List UInt16) (i : Nat) : Decidable (LowAt us i) :=
  inferInstanceAs (Decidable (_ = true))

instance (us : List UInt16) (i : Nat) : Decidable (Unpaired us i) :=
  inferInstanceAs (Decidable (_ ∧ _ ∨ _ ∧ _))

/-- The units with the replacement character for every surrogate without a partner. -/
def mended (us : List UInt16) : List UInt16 :=
  us.mapIdx fun i u => if Unpaired us i then 0xFFFD else u

theorem length_mended (us : List UInt16) : (mended us).length = us.length :=
  List.length_mapIdx

variable {u v : UInt16} {us : List UInt16} {i : Nat}

theorem not_isLow_of_isHigh (h : isHigh u = true) : isLow u = false := by
  simp only [isHigh, isLow, Bool.and_eq_true, decide_eq_true_eq, Bool.and_eq_false_iff,
    decide_eq_false_iff_not] at h ⊢
  omega

theorem unpaired_zero :
    Unpaired (u :: us) 0 ↔ isHigh u = true ∧ ¬ LowAt us 0 ∨ isLow u = true := by
  simp [Unpaired, HighAt, LowAt]

/-- Whether a surrogate has its partner depends on the units next to it alone. -/
theorem unpaired_succ (h : i = 0 → ¬ (isHigh u = true ∧ LowAt us 0)) :
    Unpaired (u :: us) (i + 1) ↔ Unpaired us i := by
  cases i with
  | zero =>
    refine or_congr Iff.rfl (and_congr_right fun hl => ?_)
    exact iff_of_true (Or.inr fun hh => h rfl ⟨hh, hl⟩) (Or.inl rfl)
  | succ i => simp [Unpaired, HighAt, LowAt]

theorem mended_cons (h : ¬ (isHigh u = true ∧ LowAt us 0)) :
    mended (u :: us) = (if isHigh u || isLow u then 0xFFFD else u) :: mended us := by
  have hhead : Unpaired (u :: us) 0 ↔ (isHigh u || isLow u) = true := by
    rw [unpaired_zero, Bool.or_eq_true]
    tauto
  rw [mended, List.mapIdx_cons, mended]
  simp only [hhead, unpaired_succ fun _ => h]

theorem mended_pair (hu : isHigh u = true) (hv : isLow v = true) :
    mended (u :: v :: us) = u :: v :: mended us := by
  have hv' : isHigh v = false := by
    rw [Bool.eq_false_iff]
    exact fun h => Bool.false_ne_true ((not_isLow_of_isHigh h).symm.trans hv)
  have h0 : ¬ Unpaired (u :: v :: us) 0 := by
    simp [unpaired_zero, LowAt, hv, not_isLow_of_isHigh hu]
  have h1 : ¬ Unpaired (u :: v :: us) 1 := by simp [Unpaired, HighAt, LowAt, hu, hv']
  have hrest (i : Nat) : Unpaired (u :: v :: us) (i + 1 + 1) ↔ Unpaired us i :=
    (unpaired_succ fun h => absurd h (Nat.succ_ne_zero i)).trans
      (unpaired_succ fun _ h => by rw [hv'] at h; exact Bool.false_ne_true h.1)
  rw [mended, List.mapIdx_cons, List.mapIdx_cons, if_neg h0, if_neg h1, mended]
  simp only [hrest]

theorem units_single (u : UInt16) :
    units (single u) = [if isHigh u || isLow u then 0xFFFD else u] := by
  by_cases hs : (isHigh u || isLow u) = true
  · rw [single, if_pos hs, if_pos hs]
    rfl
  · obtain ⟨v, hv, hiff, -⟩ := exists_units_single u
    rw [if_neg hs, hv, hiff.2]
    rwa [Bool.or_eq_true, not_or, Bool.not_eq_true, Bool.not_eq_true] at hs

theorem flatMap_units_decodeChars (us : List UInt16) :
    (decodeChars us).flatMap units = mended us := by
  fun_induction decodeChars us with
  | case1 => rfl
  | case2 u =>
    rw [mended_cons fun h => by simp [LowAt] at h, List.flatMap_singleton, units_single]
    rfl
  | case3 u v rest h ih =>
    rw [Bool.and_eq_true] at h
    rw [List.flatMap_cons, (units_pair h.1 h.2).1, ih, mended_pair h.1 h.2]
    rfl
  | case4 u v rest h ih =>
    rw [Bool.and_eq_true] at h
    have hpair : ¬ (isHigh u = true ∧ LowAt (v :: rest) 0) := h
    rw [List.flatMap_cons, units_single, ih, mended_cons hpair]
    rfl

/-- Reading units and writing them again replaces the surrogates without a partner. -/
theorem encode_decode (us : List UInt16) : encode (decode us) = mended us := by
  rw [encode, decode, String.toList_ofList, flatMap_units_decodeChars]

theorem wellFormed_iff : WellFormed us ↔ ∀ i, ¬ Unpaired us i := by
  rw [← encode_decode_eq_iff, encode_decode, mended, List.mapIdx_eq_iff]
  have hfffd : isHigh 0xFFFD = false ∧ isLow 0xFFFD = false := by decide
  constructor
  · intro h i hi
    have hget := h i
    cases hu : us[i]? with
    | none => simp [Unpaired, HighAt, LowAt, hu] at hi
    | some u =>
      rw [hu, Option.map_some, if_pos hi, Option.some.injEq] at hget
      rw [hget] at hu
      simp [Unpaired, HighAt, LowAt, hu, hfffd] at hi
  · intro h i
    simp only [if_neg (h i)]
    cases us[i]? <;> rfl

end Utf16

/-! ## Texts -/

/-- The bytes of units, closed by a zero unit. -/
def closedBytes (us : List UInt16) : List UInt8 :=
  us.flatMap (fun u => littleEndian 2 u.toNat) ++ [0, 0]

theorem zeroTerminated_eq_closedBytes (s : String) :
    zeroTerminated s = closedBytes (Utf16.encode s) := rfl

theorem length_closedBytes (us : List UInt16) : (closedBytes us).length = 2 * us.length + 2 := by
  rw [closedBytes, List.length_append, length_flatMap_littleEndian]
  rfl

theorem splitUnits_eq_some {bytes rest : List UInt8} {us : List UInt16} :
    splitUnits bytes = some (us, rest) ↔ (0 : UInt16) ∉ us ∧ bytes = closedBytes us ++ rest := by
  rw [closedBytes, List.append_assoc]
  constructor
  · exact eq_append_of_splitUnits
  · rintro ⟨hz, rfl⟩
    exact splitUnits_append hz rest

theorem littleEndian_unit_inj {u v : UInt16} :
    littleEndian 2 u.toNat = littleEndian 2 v.toNat ↔ u = v := by
  have hback (w : UInt16) : ofLittleEndian (littleEndian 2 w.toNat) = w.toNat :=
    ofLittleEndian_littleEndian w.toNat_lt
  refine ⟨fun h => UInt16.toNat_inj.1 ?_, fun h => h ▸ rfl⟩
  rw [← hback u, h, hback v]

theorem closedBytes_inj {us vs : List UInt16} : closedBytes us = closedBytes vs ↔ us = vs := by
  rw [closedBytes, closedBytes, List.append_cancel_right_eq]
  refine ⟨fun h => ?_, fun h => h ▸ rfl⟩
  induction us generalizing vs with
  | nil =>
    have hlen := congrArg List.length h
    rw [length_flatMap_littleEndian, length_flatMap_littleEndian, List.length_nil] at hlen
    exact (List.length_eq_zero_iff.1 (by omega)).symm
  | cons u us ih =>
    cases vs with
    | nil => simp [littleEndian] at h
    | cons v vs =>
      rw [List.flatMap_cons, List.flatMap_cons] at h
      obtain ⟨hhead, htail⟩ := List.append_inj h (by rw [length_littleEndian, length_littleEndian])
      rw [littleEndian_unit_inj.1 hhead, ih htail]

/-- A text is read from units that are closed by a zero unit, and the cursor moves past it. -/
theorem Reader.run_zcstring_eq_ok {c c' : Cursor} {s : String} :
    zcstring.run c = (.ok s, c') ↔
      ∃ us, (0 : UInt16) ∉ us ∧ c.rest = closedBytes us ++ c'.rest ∧
        c'.offset = c.offset + (closedBytes us).length ∧ s = Utf16.decode us := by
  have hrun : zcstring.run c = zcstring c := rfl
  rw [hrun, zcstring]
  constructor
  · intro h
    split at h
    · rename_i us rest hs
      cases h
      obtain ⟨hz, hrest⟩ := splitUnits_eq_some.1 hs
      exact ⟨us, hz, hrest, by rw [length_closedBytes, Nat.add_assoc], rfl⟩
    · cases h
  · rintro ⟨us, hz, hrest, ho, rfl⟩
    rw [splitUnits_eq_some.2 ⟨hz, hrest⟩]
    rw [length_closedBytes, ← Nat.add_assoc] at ho
    simp only [← ho]

/-! ## Sequences -/

/-- A scalar that the wire can carry as its kind; a text holds no character of the unit that closes
it. -/
structure Primitive where
  kind : BaseKind
  value : Scalar
  isOfKind : value.type = kind.scalarTy
  isClosed : ∀ text, value = .string text → '\x00' ∉ text.toList

/-- The bytes of scalars that are written one after the other. -/
def writeSequence (scalars : List Scalar) : List UInt8 :=
  scalars.flatMap Scalar.toBytes

theorem writeSequence_cons (s : Scalar) (scalars : List Scalar) :
    writeSequence (s :: scalars) = s.toBytes ++ writeSequence scalars :=
  List.flatMap_cons

/-- Reads scalars one after the other. -/
def readSequence (kinds : List BaseKind) : Reader (List Scalar) :=
  kinds.mapM decodeScalar

theorem Primitive.scalarBytes_value (p : Primitive) :
    scalarBytes p.value = .ok p.value.toBytes := by
  obtain ⟨kind, value, -, hclosed⟩ := p
  cases value with
  | string text =>
    exact if_neg fun hz => hclosed text rfl (List.contains_iff_mem.1 hz)
  | nil | bool | int | float | double => rfl

theorem run_readSequence (ps : List Primitive) (rest : List UInt8) (o : Nat) :
    (readSequence (ps.map Primitive.kind)).run
        ⟨o, writeSequence (ps.map Primitive.value) ++ rest⟩ =
      (.ok (ps.map Primitive.value),
        ⟨o + (writeSequence (ps.map Primitive.value)).length, rest⟩) := by
  induction ps generalizing o with
  | nil => rfl
  | cons p ps ih =>
    have hfirst := run_decodeScalar p.isOfKind p.scalarBytes_value
      (writeSequence (ps.map Primitive.value) ++ rest) o
    have hrest := ih (o + p.value.toBytes.length)
    rw [List.map_cons, List.map_cons, writeSequence_cons, List.append_assoc, List.length_append,
      ← Nat.add_assoc]
    exact Reader.run_mapM_cons hfirst hrest

/-- Scalars that are written in sequence are read back in sequence. A text is written as it was
read, with the replacement character for each surrogate without a partner. -/
theorem sequence_read_back :
    (∀ (ps : List Primitive) (rest : List UInt8) (o : Nat),
      (readSequence (ps.map Primitive.kind)).run
          ⟨o, writeSequence (ps.map Primitive.value) ++ rest⟩ =
        (.ok (ps.map Primitive.value),
          ⟨o + (writeSequence (ps.map Primitive.value)).length, rest⟩)) ∧
    ∀ (c c' : Cursor) (s : String), Reader.zcstring.run c = (.ok s, c') →
      ∃ us, (0 : UInt16) ∉ us ∧ c.rest = closedBytes us ++ c'.rest ∧
        c'.offset = c.offset + (closedBytes us).length ∧
        writeSequence [.string s] = closedBytes (Utf16.mended us) ∧
        (writeSequence [.string s]).length = (closedBytes us).length ∧
        (writeSequence [.string s] = closedBytes us ↔ Utf16.WellFormed us) ∧
        (Utf16.WellFormed us ↔ ∀ i, ¬ Utf16.Unpaired us i) := by
  refine ⟨run_readSequence, fun c c' s h => ?_⟩
  obtain ⟨us, hz, hrest, ho, rfl⟩ := Reader.run_zcstring_eq_ok.1 h
  have hback : writeSequence [.string (Utf16.decode us)] = closedBytes (Utf16.mended us) := by
    rw [writeSequence, List.flatMap_singleton, Scalar.toBytes, zeroTerminated_eq_closedBytes,
      Utf16.encode_decode]
  refine ⟨us, hz, hrest, ho, hback, ?_, ?_, Utf16.wellFormed_iff⟩
  · rw [hback, length_closedBytes, length_closedBytes, Utf16.length_mended]
  · rw [hback, closedBytes_inj, ← Utf16.encode_decode, Utf16.encode_decode_eq_iff]

/-- Scalars of every kind, and a text of a leading surrogate, a pair and a trailing surrogate. -/
theorem sequence_read_back_lone :
    let ps : List Primitive := [⟨.u8, .int ⟨.u8, 255, by decide⟩, rfl, nofun⟩,
      ⟨.i8, .int ⟨.i8, -128, by decide⟩, rfl, nofun⟩,
      ⟨.u16, .int ⟨.u16, 65535, by decide⟩, rfl, nofun⟩,
      ⟨.i16, .int ⟨.i16, -2, by decide⟩, rfl, nofun⟩,
      ⟨.u32, .int ⟨.u32, 4294967295, by decide⟩, rfl, nofun⟩,
      ⟨.i32, .int ⟨.i32, -2147483648, by decide⟩, rfl, nofun⟩,
      ⟨.float, .float 0x7FC00000, rfl, nofun⟩,
      ⟨.double, .double 0xBFF0000000000000, rfl, nofun⟩,
      ⟨.boolean, .bool true, rfl, nofun⟩,
      ⟨.zcstring, .string "a𝄞", rfl, by rintro _ ⟨⟩; decide⟩]
    let bytes : List UInt8 := [0x34, 0xD8, 0x34, 0xD8, 0x1E, 0xDD, 0x1E, 0xDD, 0, 0]
    (readSequence (ps.map Primitive.kind)).run ⟨3, writeSequence (ps.map Primitive.value) ++ [9]⟩ =
        (.ok (ps.map Primitive.value), ⟨38, [9]⟩) ∧
      Reader.zcstring.run ⟨1, bytes ++ [9]⟩ = (.ok "\uFFFD𝄞\uFFFD", ⟨11, [9]⟩) ∧
      ∃ us, bytes = closedBytes us ∧ ¬ Utf16.WellFormed us ∧
        writeSequence [.string "\uFFFD𝄞\uFFFD"] = closedBytes (Utf16.mended us) ∧
        writeSequence [.string "\uFFFD𝄞\uFFFD"] =
          [0xFD, 0xFF, 0x34, 0xD8, 0x1E, 0xDD, 0xFD, 0xFF, 0, 0] := by
  intro ps bytes
  have hread : Reader.zcstring.run ⟨1, bytes ++ [9]⟩ = (.ok "\uFFFD𝄞\uFFFD", ⟨11, [9]⟩) := rfl
  obtain ⟨us, -, hrest, -, hback, -, hsame, -⟩ := sequence_read_back.2 _ _ _ hread
  have hbytes : bytes = closedBytes us := List.append_cancel_right hrest
  refine ⟨sequence_read_back.1 ps [9] 3, hread, us, hbytes, fun hw => ?_, hback, rfl⟩
  rw [← hsame, ← hbytes] at hw
  exact absurd hw (by decide)

end Parley
