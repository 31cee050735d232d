import Parley.Json.Convert
import Parley.Native.Records
import Parley.Proofs.Fitting
import Parley.Proofs.Floats

/-!
# Values through JSON

JSON says less than values do: it knows neither the kinds of integers and records nor the narrow
floats. A value of a type loses nothing all the same, since the cast to its type restores what JSON
left out.

* `Value.Finite` : no float of the value is a NaN or an infinity.
* `Value.untyped` : a value that went through JSON.
* `cast_untyped` : cast to its type it is what it was.
* `Json.toJson_ofJson` : JSON that is read without a type is written as it was.
* `json_lossless` : the two together.
* `Ty.conform_of_has` : read as native data and written again, a value of a type is what it was.
-/

namespace Parley

/-! ## Through JSON -/

/-- A float is a number. -/
def Scalar.Finite : Scalar → Prop
  | .float bits => Binary.isFinite Binary.binary32 bits.toNat = true
  | .double bits => IsFiniteDouble bits
  | _ => True

instance (s : Scalar) : Decidable s.Finite :=
  match s with
  | .float bits => inferInstanceAs (Decidable (Binary.isFinite Binary.binary32 bits.toNat = true))
  | .double bits => inferInstanceAs (Decidable (IsFiniteDouble bits))
  | .nil | .bool _ | .int _ | .string _ => inferInstanceAs (Decidable True)

/-- All floats in a value are numbers. -/
inductive Value.Finite : Value → Prop
  | scalar {s : Scalar} (h : s.Finite) : Finite (.scalar s)
  | array {items : List Value} (h : ∀ item ∈ items, item.Finite) : Finite (.array items)
  | record {kind : RecordKind} {fields : Fields} (h : ∀ e ∈ fields, e.2.Finite) :
      Finite (.record kind fields)

namespace Value

/-- A value that went through JSON. -/
def untyped (v : Value) : Value :=
  ofJson v.toJson

theorem untyped_array (items : List Value) :
    untyped (.array items) = .array (items.map untyped) := by
  have h : ∀ items : List Value, ofJsonItems (toJsonItems items) = items.map untyped := by
    intro items
    induction items with
    | nil => rfl
    | cons v rest ih => rw [toJsonItems, ofJsonItems, ih, List.map_cons, untyped]
  rw [untyped, toJson, ofJson, h]

theorem untyped_record (kind : RecordKind) (fields : Fields) :
    untyped (.record kind fields) = .record .value (fields.map fun e => (e.1, untyped e.2)) := by
  have h : ∀ fields : Fields,
      ofJsonMembers (toJsonMembers fields) = fields.map fun e => (e.1, untyped e.2) := by
    intro fields
    induction fields with
    | nil => rfl
    | cons e rest ih => rw [toJsonMembers, ofJsonMembers, ih, List.map_cons, untyped]
  rw [untyped, toJson, ofJson, h]

end Value

theorem cast_untyped_scalar {s : Scalar} (hf : s.Finite) :
    cast (.scalar s.type) (Value.untyped (.scalar s)) = .ok (.scalar s) := by
  cases s with
  | int n =>
    show cast (.int n.kind) (Value.ofWhole n.val (IntKind.isWhole_of_holds n.inRange)) = _
    unfold Value.ofWhole
    split
    · exact cast_scalar_of_cast? (congrArg (Option.map Scalar.int) (Integer.ofInt?_val n))
    · exact cast_scalar_of_cast? (congrArg (Option.map Scalar.int) (Integer.ofInt?_val n))
  | float bits =>
    -- JSON has wide floats only; the narrow one is widened, and narrowed again without loss
    obtain ⟨hfinite, hlt, hback⟩ := Binary.convert_convert bits.toNat_lt hf
    have hwide : (UInt64.ofNat (Binary.convert Binary.binary32 Binary.binary64 bits.toNat)).toNat =
        Binary.convert Binary.binary32 Binary.binary64 bits.toNat :=
      UInt64.toNat_ofNat_of_lt hlt
    have hu : Value.untyped (.scalar (.float bits)) = .scalar
        (.double (UInt64.ofNat (Binary.convert Binary.binary32 Binary.binary64 bits.toNat))) := by
      unfold Value.untyped
      rw [Value.toJson, Scalar.toJson, Json.ofDouble,
        dif_pos (by rw [IsFiniteDouble, hwide]; exact hfinite), Value.ofJson]
    rw [hu]
    refine cast_scalar_of_cast? ?_
    show some (Scalar.float (UInt32.ofNat _)) = _
    rw [hwide, hback, UInt32.ofNat_toNat]
  | double bits =>
    have hu : Value.untyped (.scalar (.double bits)) = .scalar (.double bits) := by
      unfold Value.untyped
      rw [Value.toJson, Scalar.toJson, Json.ofDouble, dif_pos (show IsFiniteDouble bits from hf),
        Value.ofJson]
    rw [hu]
    exact cast_scalar_of_cast? (Scalar.cast?_self _)
  | _ => exact cast_scalar_of_cast? (Scalar.cast?_self _)

/-- Fields that are cast one by one to those of a record of the type: nothing is left, and the
fields are the record's. -/
theorem castFields_eq {table : List (String × Ty)} (given fields : Fields)
    (hn : (Table.keys table).Nodup)
    (h : ∀ n t, Table.find? n table = some t → ∃ x v, Table.find? n given = some x ∧
      Table.find? n fields = some v ∧ cast t x = .ok v) :
    ∃ done rest, castFields table given = .ok (done, rest) ∧ Table.keys done = Table.keys table ∧
      (∀ n ∈ Table.keys table, Table.find? n done = Table.find? n fields) ∧
      ∀ n ∈ Table.keys rest, n ∈ Table.keys given ∧ n ∉ Table.keys table := by
  induction table generalizing given with
  | nil =>
    exact ⟨[], given, by rw [castFields], rfl, fun _ hn => absurd hn List.not_mem_nil,
      fun _ hn => ⟨hn, List.not_mem_nil⟩⟩
  | cons entry table ih =>
    obtain ⟨m, t⟩ := entry
    obtain ⟨hm, hn⟩ := List.nodup_cons.1 hn
    obtain ⟨x, v, hx, hv, hc⟩ := h m t (if_pos rfl)
    obtain ⟨done, rest, hd, hk, hf, hr⟩ := ih (Table.erase m given) hn fun n u hu => by
      have hne : m ≠ n := by
        rintro rfl
        exact hm (Table.mem_keys_of_find? hu)
      rw [Table.find?_erase, if_neg hne]
      exact h n u ((if_neg hne).trans hu)
    refine ⟨(m, v) :: done, rest, ?_, congrArg (m :: ·) hk, ?_, ?_⟩
    · rw [castFields, hx]
      simp only [bind_of_ok hc, bind_of_ok hd]
      rfl
    · intro n hn
      by_cases he : m = n
      · exact (if_pos he).trans (he ▸ hv.symm)
      · exact (if_neg he).trans (hf n ((List.mem_cons.1 hn).resolve_left (Ne.symm he)))
    · intro n hn
      obtain ⟨hg, ht⟩ := hr n hn
      obtain ⟨hne, hg⟩ := Table.mem_keys_erase.1 hg
      exact ⟨hg, fun hc => (List.mem_cons.1 hc).elim hne ht⟩

theorem cast_record_eq {kind kind' : RecordKind} {name : String} {table : List (String × Ty)}
    {given fields : Fields} (hd : (Ty.record kind name table).Distinct)
    (hv : (Ty.record kind name table).Has (.record kind fields))
    (hg : Table.keys given = Table.keys fields)
    (h : ∀ n t, Table.find? n table = some t → ∃ x v, Table.find? n given = some x ∧
      Table.find? n fields = some v ∧ cast t x = .ok v) :
    cast (.record kind name table) (.record kind' given) = .ok (.record kind fields) := by
  obtain ⟨-, hsorted, hkeys, -⟩ := hv
  obtain ⟨done, rest, hc, hk, hf, hr⟩ := castFields_eq _ _ hd.1 h
  have hrest : rest = [] := by
    cases rest with
    | nil => rfl
    | cons e rest =>
      obtain ⟨hgiven, hnot⟩ := hr e.1 List.mem_cons_self
      exact absurd (hkeys e.1 (hg ▸ hgiven)) hnot
  have hdone : Table.ofList done = fields := by
    refine Table.ofList_eq (hk ▸ hd.1) hsorted fun n => ?_
    by_cases hn : n ∈ Table.keys table
    · exact hf n hn
    · rw [Table.find?_eq_none_iff.2 (hk ▸ hn), Table.find?_eq_none_iff.2 (mt (hkeys n) hn)]
  rw [cast, bind_of_ok hc, hrest]
  simp only [List.isEmpty_nil, if_true, hdone]
  rfl

mutual

/-- A value of a type that went through JSON is cast back to what it was. -/
theorem cast_untyped : ∀ {t : Ty} {v : Value}, t.Distinct → t.Has v → v.Finite →
    cast t v.untyped = .ok v
  | .scalar s, v, _, hv, hf => by
    obtain ⟨leaf, rfl, rfl⟩ := Ty.has_scalar.1 hv
    cases hf with
    | scalar hf => exact cast_untyped_scalar hf
  | .array u, v, hd, hv, hf => by
    obtain ⟨items, rfl, hi⟩ := Ty.has_array.1 hv
    cases hf with
    | array hf =>
      have hitems : (items.map Value.untyped).mapM (cast u) = .ok items :=
        mapM_map_eq_ok fun item hm => cast_untyped hd.element (hi item hm) (hf item hm)
      rw [Value.untyped_array, cast, bind_of_ok hitems]
      rfl
  | .record kind name table, v, hd, hv, hf => by
    obtain ⟨fields, rfl, hs, hk, hh⟩ := Ty.has_record.1 hv
    cases hf with
    | record hf =>
      rw [Value.untyped_record]
      refine cast_record_eq hd hv (by rw [Table.keys, List.map_map]; rfl) fun n t ht => ?_
      obtain ⟨x, hx, htx⟩ := hh.of_find? ht
      refine ⟨x.untyped, x, ?_, hx, ?_⟩
      · rw [Table.find?_map_snd, hx]
        rfl
      · exact cast_untyped_fields hd.2 n t x ht htx (hf (n, x) (Table.mem_of_find? hx))

theorem cast_untyped_fields : ∀ {table : List (String × Ty)}, Ty.DistinctFields table →
    ∀ n t v, Table.find? n table = some t → t.Has v → v.Finite → cast t v.untyped = .ok v
  | [], _, _, _, _, hn, _, _ => nomatch hn
  | (m, u) :: table, hd, n, t, v, hn, hv, hf => by
    rw [Table.find?] at hn
    by_cases hm : m = n
    · rw [if_pos hm] at hn
      cases hn
      exact cast_untyped hd.1 hv hf
    · rw [if_neg hm] at hn
      exact cast_untyped_fields hd.2 n t v hn hv hf

end

namespace Json

/-- A whole number is written as it was, whichever kind of integer it was read as. -/
theorem toJson_ofWhole (n : Int) (h : IsWhole n) : (Value.ofWhole n h).toJson = .whole n h := by
  unfold Value.ofWhole
  split
  · rw [Value.toJson, Scalar.toJson]
  · rw [Value.toJson, Scalar.toJson]

mutual

/-- JSON that is read without a type is written as it was. -/
theorem toJson_ofJson : ∀ j : Json, (Value.ofJson j).toJson = j
  | .null => by rw [Value.ofJson, Value.toJson, Scalar.toJson]
  | .bool b => by rw [Value.ofJson, Value.toJson, Scalar.toJson]
  | .whole n h => by rw [Value.ofJson, toJson_ofWhole]
  | .float bits h => by rw [Value.ofJson, Value.toJson, Scalar.toJson, ofDouble, dif_pos h]
  | .string s => by rw [Value.ofJson, Value.toJson, Scalar.toJson]
  | .array items => by rw [Value.ofJson, Value.toJson, toJsonItems_ofJsonItems items]
  | .object members => by rw [Value.ofJson, Value.toJson, toJsonMembers_ofJsonMembers members]

theorem toJsonItems_ofJsonItems : ∀ items : List Json,
    Value.toJsonItems (Value.ofJsonItems items) = items
  | [] => rfl
  | j :: rest => by
    rw [Value.ofJsonItems, Value.toJsonItems, toJson_ofJson j, toJsonItems_ofJsonItems rest]

theorem toJsonMembers_ofJsonMembers : ∀ members : List (String × Json),
    Value.toJsonMembers (Value.ofJsonMembers members) = members
  | [] => rfl
  | (n, j) :: rest => by
    rw [Value.ofJsonMembers, Value.toJsonMembers, toJson_ofJson j,
      toJsonMembers_ofJsonMembers rest]

end

end Json

/-- JSON loses nothing: values whose floats are finite are read back as the type says, and what is
read without a type is written as it was. -/
theorem json_lossless :
    (∀ (t : Ty) (v : Value), t.Distinct → t.Has v → v.Finite →
      Value.ofJsonAs t v.toJson = .ok v) ∧
    ∀ j : Json, (Value.ofJson j).toJson = j := by
  refine ⟨fun t v hd hv hf => ?_, Json.toJson_ofJson⟩
  exact cast_untyped hd hv hf

/-- A shared record with numbers that JSON says less about: one that no signed integer holds, a
narrow one, doubles that are whole, a narrow float. -/
def meterTy : Ty :=
  .record .reference "Meter" [("total", .int .u64), ("port", .int .u16),
    ("ratio", .scalar .float), ("marks", .array (.scalar .double)),
    ("site", .record .value "Site" [("name", .string), ("owner", .nil)])]

def meterValue : Value :=
  .record .reference [("marks", .array [.scalar (.double 0x4000000000000000), .scalar (.double 0)]),
    ("port", .int ⟨.u16, 8080, by decide⟩), ("ratio", .scalar (.float 0x3F000000)),
    ("site", .record .value [("name", .string "north"), ("owner", .nil)]),
    ("total", .int ⟨.u64, 18446744073709551615, by decide⟩)]

theorem finite_meterValue : meterValue.Finite := by
  have hmarks : (Value.array [.scalar (.double 0x4000000000000000), .scalar (.double 0)]).Finite :=
    .array fun v hv => by
      rcases List.mem_pair.1 hv with rfl | rfl
      · exact .scalar (by decide)
      · exact .scalar (by decide)
  have hsite : (Value.record .value [("name", .string "north"), ("owner", .nil)]).Finite :=
    .record fun e he => by
      rcases List.mem_pair.1 he with rfl | rfl
      · exact .scalar trivial
      · exact .scalar trivial
  refine .record fun e he => ?_
  simp only [List.mem_cons, List.not_mem_nil, or_false] at he
  rcases he with rfl | rfl | rfl | rfl | rfl
  · exact hmarks
  · exact .scalar trivial
  · exact .scalar (by decide)
  · exact hsite
  · exact .scalar trivial

/-- The record is read back as it was; so is what was read of an object. -/
theorem json_lossless_meter :
    meterTy.Distinct ∧ meterTy.Has meterValue ∧ meterValue.Finite ∧
      Value.ofJsonAs meterTy meterValue.toJson = .ok meterValue ∧
      (Value.ofJson meterValue.toJson).toJson = meterValue.toJson :=
  have hd : meterTy.Distinct := by decide
  have hv : meterTy.Has meterValue := by decide
  ⟨hd, hv, finite_meterValue, json_lossless.1 _ _ hd hv finite_meterValue,
    json_lossless.2 _⟩

/-! ## Through native data -/

namespace Ty

theorem data?_self (s : Scalar) : ∃ x, s.type.data? s = some x ∧ s.type.encode x = s := by
  cases s with
  | int n =>
    refine ⟨⟨n.val, n.inRange⟩, ?_, rfl⟩
    exact dif_pos rfl
  | _ => exact ⟨_, rfl, rfl⟩

theorem decodeRow_eq {table : List (String × Ty)} (given fields : Fields)
    (hn : (Table.keys table).Nodup)
    (h : ∀ n t, Table.find? n table = some t → ∃ v, Table.find? n given = some v ∧
      Table.find? n fields = some v ∧ ∃ x, t.decode v = .ok x ∧ t.encode x = v) :
    ∃ row, decodeRow table given = .ok row ∧
      Table.keys (encodeRow table row) = Table.keys table ∧
      ∀ n ∈ Table.keys table, Table.find? n (encodeRow table row) = Table.find? n fields := by
  induction table generalizing given with
  | nil => exact ⟨(), by rw [decodeRow], rfl, fun _ hn => absurd hn List.not_mem_nil⟩
  | cons entry table ih =>
    obtain ⟨m, t⟩ := entry
    obtain ⟨hm, hn⟩ := List.nodup_cons.1 hn
    obtain ⟨v, hv, hv', x, hx, he⟩ := h m t (if_pos rfl)
    obtain ⟨row, hr, hk, hf⟩ := ih (Table.erase m given) hn fun n u hu => by
      have hne : m ≠ n := by
        rintro rfl
        exact hm (Table.mem_keys_of_find? hu)
      rw [Table.find?_erase, if_neg hne]
      exact h n u ((if_neg hne).trans hu)
    refine ⟨(x, row), ?_, congrArg (m :: ·) hk, ?_⟩
    · rw [decodeRow, hv, Option.getD_some]
      simp only [bind_of_ok hx, bind_of_ok hr]
      rfl
    · intro n hn
      rw [encodeRow, he]
      by_cases heq : m = n
      · exact (if_pos heq).trans (heq ▸ hv'.symm)
      · exact (if_neg heq).trans (hf n ((List.mem_cons.1 hn).resolve_left (Ne.symm heq)))

mutual

theorem exists_decode_of_has : ∀ {t : Ty} {v : Value}, t.Distinct → t.Has v →
    ∃ x, t.decode v = .ok x ∧ t.encode x = v
  | .scalar s, v, _, hv => by
    obtain ⟨leaf, rfl, rfl⟩ := has_scalar.1 hv
    obtain ⟨x, hx, he⟩ := data?_self leaf
    refine ⟨x, ?_, congrArg Value.scalar he⟩
    rw [decode, bind_of_ok (castScalar_eq_ok.2 ⟨leaf, rfl, leaf.cast?_self⟩), hx]
    rfl
  | .array u, v, hd, hv => by
    obtain ⟨items, rfl, hi⟩ := has_array.1 hv
    obtain ⟨xs, hxs, he⟩ := exists_mapM fun item hm =>
      exists_decode_of_has hd.element (hi item hm)
    refine ⟨xs, ?_, ?_⟩
    · rw [decode]
      exact hxs
    · rw [encode, he]
  | .record kind name table, v, hd, hv => by
    obtain ⟨fields, rfl, hs, hk, hh⟩ := has_record.1 hv
    obtain ⟨row, hr, hkeys, hf⟩ := decodeRow_eq fields fields hd.1
      fun n t ht => by
        obtain ⟨x, hx, htx⟩ := hh.of_find? ht
        exact ⟨x, hx, hx, exists_decode_fields hd.2 n t x ht htx⟩
    refine ⟨row, ?_, ?_⟩
    · rw [decode]
      exact hr
    · rw [encode]
      refine congrArg (Value.record kind) (Table.ofList_eq (hkeys ▸ hd.1) hs fun n => ?_)
      by_cases hn : n ∈ Table.keys table
      · exact hf n hn
      · rw [Table.find?_eq_none_iff.2 (hkeys ▸ hn), Table.find?_eq_none_iff.2 (mt (hk n) hn)]

theorem exists_decode_fields : ∀ {table : List (String × Ty)}, DistinctFields table →
    ∀ n t v, Table.find? n table = some t → t.Has v → ∃ x, t.decode v = .ok x ∧ t.encode x = v
  | [], _, _, _, _, hn, _ => nomatch hn
  | (m, u) :: table, hd, n, t, v, hn, hv => by
    rw [Table.find?] at hn
    by_cases hm : m = n
    · rw [if_pos hm] at hn
      cases hn
      exact exists_decode_of_has hd.1 hv
    · rw [if_neg hm] at hn
      exact exists_decode_fields hd.2 n t v hn hv

end

/-- A value of a type that is read as native data and written again is what it was. -/
theorem conform_of_has {t : Ty} {v : Value} (hd : t.Distinct) (hv : t.Has v) :
    t.conform v = .ok v := by
  obtain ⟨x, hx, he⟩ := exists_decode_of_has hd hv
  rw [conform, hx]
  exact congrArg Except.ok he

end Ty

/-! ## Exceptions -/

theorem distinct_exceptionTy : exceptionTy.Distinct := by
  decide

theorem has_exceptionValue (message : String) : exceptionTy.Has (exceptionValue message) :=
  ⟨rfl, List.pairwise_singleton _ _, fun _ hn => hn, rfl, trivial⟩

theorem finite_exceptionValue (message : String) : (exceptionValue message).Finite := by
  refine .record fun e he => ?_
  rw [List.mem_singleton.1 he]
  exact .scalar trivial

end Parley
