import Parley.Proofs.Fitting
import Parley.Proofs.Reading

/-!
# Enumeration numbers in integer leaves

An integer that travels as an enumeration number is written as it is, in the two's complement of
four bytes, whatever the table says. The reader does not know whether those bytes had a sign: it
takes them without one if that fits the leaf. So a negative number comes back from every leaf that
is too narrow, or has too many values below zero, for the unsigned reading; a leaf of eight bytes
with a sign has room for it, and a negative number comes back as the unsigned one with its bytes.

* `enumValue_int_of_unsigned`, `enumValue_int_of_signed` : the two readings.
* `Integer.fromEnum` : the number that comes back.
* `write_enum_int` : which integers are written, and as what.
* `enum_int_read_back` : what is read from what was written.
-/

namespace Parley

/-! ## The two readings -/

theorem cast_int_eq_ok {k : IntKind} {n m : Integer} (h : Integer.ofInt? k n.val = some m) :
    cast (.int k) (.int n) = .ok (.int m) := by
  refine cast_scalar_of_cast? ?_
  show (Integer.ofInt? k n.val).map Scalar.int = some (.int m)
  rw [h, Option.map_some]

theorem exists_cast_int_eq_error {k : IntKind} {n : Integer} (h : Integer.ofInt? k n.val = none) :
    ∃ e, cast (.int k) (.int n) = .error e := by
  have hcast : (Scalar.int n).cast? (.int k) = none := by
    show (Integer.ofInt? k n.val).map Scalar.int = none
    rw [h, Option.map_none]
  exact ⟨.unsuited (.int n) (.int k), by rw [cast, castScalar, hcast]; rfl⟩

variable {table : EnumTable} {k : IntKind} {bits : Nat} {m : Integer}

theorem enumValue_int_of_unsigned
    (h : Integer.ofInt? k (Integer.valueOfBits .u32 bits) = some m) :
    enumValue table (.int k) bits = .ok (.int m) := by
  rw [enumValue, cast_int_eq_ok (n := Integer.ofBits .u32 bits) h]
  rintro ⟨⟩

theorem enumValue_int_of_signed
    (hu : Integer.ofInt? k (Integer.valueOfBits .u32 bits) = none)
    (h : Integer.ofInt? k (Integer.valueOfBits .i32 bits) = some m) :
    enumValue table (.int k) bits = .ok (.int m) := by
  obtain ⟨e, he⟩ := exists_cast_int_eq_error (n := Integer.ofBits .u32 bits) hu
  rw [enumValue, he]
  · exact mapError_eq_ok.2 (cast_int_eq_ok (n := Integer.ofBits .i32 bits) h)
  · rintro ⟨⟩

/-! ## What comes back -/

/-- The number that an integer comes back as when it has travelled as an enumeration number: in a
leaf of eight bytes with a sign a negative one has become the unsigned one of its four bytes. -/
def Integer.fromEnum (n : Integer) : Int :=
  if n.kind = .i64 ∧ n.val < 0 then n.val + IntKind.u32.modulus else n.val

/-- The kinds that have the unsigned reading of a negative number are the signed ones of eight
bytes. -/
theorem holds_unsigned_iff {k : IntKind} {n : Int} (hk : k.Holds n) (hn : IntKind.i32.Holds n)
    (hneg : n < 0) : k.Holds (n + IntKind.u32.modulus) ↔ k = .i64 := by
  cases k <;> simp [IntKind.Holds, IntKind.min, IntKind.max, IntKind.signed, IntKind.modulus]
    at hk hn ⊢ <;> omega

theorem valueOfBits_unsigned {n : Int} (hn : IntKind.i32.Holds n) :
    Integer.valueOfBits .u32 (n % IntKind.u32.modulus).toNat =
      if n < 0 then n + IntKind.u32.modulus else n := by
  simp only [IntKind.Holds, IntKind.min, IntKind.max, IntKind.signed, IntKind.modulus,
    Integer.valueOfBits] at hn ⊢
  simp at hn ⊢
  omega

theorem enumValue_toBits (table : EnumTable) {n : Integer} (hn : IntKind.i32.Holds n.val) :
    ∃ m : Integer, enumValue table (.int n.kind) (n.val % IntKind.u32.modulus).toNat =
      .ok (.int m) ∧ m.kind = n.kind ∧ m.val = n.fromEnum := by
  have hunsigned := valueOfBits_unsigned hn
  by_cases hneg : n.val < 0
  · rw [if_pos hneg] at hunsigned
    have hsigned : Integer.valueOfBits .i32 (n.val % IntKind.u32.modulus).toNat = n.val :=
      Integer.valueOfBits_emod hn
    by_cases hk : n.kind = .i64
    · have hin := (holds_unsigned_iff n.inRange hn hneg).2 hk
      refine ⟨⟨n.kind, _, hin⟩, enumValue_int_of_unsigned ?_, rfl, (if_pos ⟨hk, hneg⟩).symm⟩
      rw [hunsigned, Integer.ofInt?, dif_pos hin]
    · have hout := mt (holds_unsigned_iff n.inRange hn hneg).1 hk
      refine ⟨n, enumValue_int_of_signed ?_ ?_, rfl, (if_neg fun h => hk h.1).symm⟩
      · rw [hunsigned, Integer.ofInt?, dif_neg hout]
      · rw [hsigned, Integer.ofInt?_val]
  · rw [if_neg hneg] at hunsigned
    refine ⟨n, enumValue_int_of_unsigned ?_, rfl, (if_neg fun h => hneg h.2).symm⟩
    rw [hunsigned, Integer.ofInt?_val]

/-! ## There and back -/

/-- The integers of four bytes are written, as their two's complement. -/
theorem write_enum_int {table : EnumTable} {p : Path} {v : Value} {n : Integer}
    (hv : v.get p = .ok (.int n)) {b : List UInt8} :
    encode [.enum p table] v = .ofBytes b ↔
      IntKind.i32.Holds n.val ∧ b = littleEndian 4 (n.val % IntKind.u32.modulus).toNat := by
  have hentry : encode [.enum p table] v = (Encoding.enum p table).write v := by
    rw [encode, encode, Emission.andThen_nothing]
  have hbytes : entryBytes table (.int n) = .ok b ↔
      IntKind.i32.Holds n.val ∧ b = littleEndian 4 (n.val % IntKind.u32.modulus).toNat := by
    have hbits (hn : IntKind.i32.Holds n.val) : scalarBytes (.int ⟨.i32, n.val, hn⟩) =
        .ok (littleEndian 4 (n.val % IntKind.u32.modulus).toNat) := rfl
    show castBytes (.int .i32) (.int n) = .ok b ↔ _
    rw [castBytes_eq_ok]
    constructor
    · rintro ⟨s, hs, hb⟩
      obtain ⟨x, hx, hcast⟩ := castScalar_eq_ok.1 hs
      cases hx
      obtain ⟨⟨k, val, hin⟩, hm, rfl⟩ := Option.map_eq_some_iff.1 hcast
      obtain ⟨rfl, rfl⟩ := Integer.ofInt?_eq_some hm
      rw [hbits hin] at hb
      exact ⟨hin, (Except.ok.inj hb).symm⟩
    · rintro ⟨hn, rfl⟩
      refine ⟨.int ⟨.i32, n.val, hn⟩, castScalar_eq_ok.2 ⟨_, rfl, ?_⟩, hbits hn⟩
      exact congrArg (Option.map Scalar.int) (dif_pos hn)
  rw [hentry, write_enum_eq_ofBytes]
  constructor
  · rintro ⟨x, hx, h⟩
    cases hv.symm.trans hx
    exact hbytes.1 h
  · intro h
    exact ⟨_, hv, hbytes.2 h⟩

/-- An integer of four bytes is written as an enumeration number and read back, as itself unless it
was negative and its leaf has room for the unsigned number. -/
theorem enum_int_read_back (table : EnumTable) {t : Ty} {p : Path} {v : Value} {n : Integer}
    (hd : t.Distinct) (hp : p.Plain) (ht : t.follow p = .ok (.int n.kind))
    (hv : v.get p = .ok (.int n)) :
    ((∃ b, encode [.enum p table] v = .ofBytes b) ↔ IntKind.i32.Holds n.val) ∧
    ∀ b, encode [.enum p table] v = .ofBytes b → b.length = 4 ∧ ∀ o rest, ∃ w m,
      (decode [.enum p table] t).run ⟨o, b ++ rest⟩ = (.ok w, ⟨o + b.length, rest⟩) ∧
        w.get p = .ok (.int m) ∧ m.kind = n.kind ∧ m.val = n.fromEnum := by
  constructor
  · constructor
    · rintro ⟨b, hb⟩
      exact ((write_enum_int hv).1 hb).1
    · intro hn
      exact ⟨_, (write_enum_int hv).2 ⟨hn, rfl⟩⟩
  · intro b hb
    obtain ⟨hn, rfl⟩ := (write_enum_int hv).1 hb
    refine ⟨length_littleEndian 4 _, fun o rest => ?_⟩
    have hresolves : ∀ e ∈ [Encoding.enum p table], e.Resolves t := fun e he =>
      List.mem_singleton.1 he ▸ ⟨hp, _, ht⟩
    obtain ⟨z, hz, -, hparts⟩ := exists_construct hd hresolves
    obtain ⟨old, hold⟩ := hparts _ List.mem_cons_self
    obtain ⟨m, hm, hkind, hval⟩ := enumValue_toBits table hn
    obtain ⟨w, hw⟩ := Value.exists_set hold (.int m)
    have hlt : (n.val % IntKind.u32.modulus).toNat < IntKind.u32.modulus :=
      Integer.toBits_lt ⟨.i32, n.val, hn⟩
    refine ⟨w, m, ?_, Value.get_set_self hw, hkind, hval⟩
    rw [length_littleEndian]
    exact run_decode_eq_ok.2 ⟨z, hz, run_fill_cons.2 ⟨w, _, Encoding.run_read_enum.2
      ⟨_, _, _, ht, Reader.run_word hlt rest o, hm, hw⟩, run_fill_nil.2 ⟨rfl, rfl⟩⟩⟩

/-- The level of a sensor, a signed byte in a record, comes back from the data with its sign. -/
theorem enum_int_read_back_level :
    let table : EnumTable := ⟨"low", 0, [("low", 0), ("high", 1)]⟩
    let t : Ty := .record .value "Sensor" [("level", .int .i8), ("name", .string)]
    let v : Value := .record .value [("level", .int ⟨.i8, -7, by decide⟩), ("name", .string "a")]
    encode [.enum [.name "level"] table] v = .ofBytes [0xf9, 0xff, 0xff, 0xff] ∧ ∃ w m,
      (decode [.enum [.name "level"] table] t).run ⟨2, [0xf9, 0xff, 0xff, 0xff, 9]⟩ =
      (.ok w, ⟨6, [9]⟩) ∧ w.get [.name "level"] = .ok (.int m) ∧ m.kind = .i8 ∧ m.val = -7 := by
  intro table t v
  have h := enum_int_read_back table (t := t) (p := [.name "level"]) (v := v)
    (n := ⟨.i8, -7, by decide⟩) (by decide) (by decide) rfl rfl
  have hb : encode [.enum [.name "level"] table] v = .ofBytes [0xf9, 0xff, 0xff, 0xff] :=
    (write_enum_int rfl).2 ⟨by decide, by decide⟩
  exact ⟨hb, (h.2 _ hb).2 2 [9]⟩

/-- In a leaf of eight bytes with a sign, -1 comes back as the greatest number of four bytes. -/
theorem enum_int_not_read_back :
    let table : EnumTable := ⟨"low", 0, [("low", 0)]⟩
    let n : Integer := ⟨.i64, -1, by decide⟩
    encode [.enum [] table] (.int n) = .ofBytes [0xff, 0xff, 0xff, 0xff] ∧
      (decode [.enum [] table] (.int .i64)).run (Cursor.start [0xff, 0xff, 0xff, 0xff]) =
        (.ok (.int ⟨.i64, 4294967295, by decide⟩), ⟨4, []⟩) ∧
      (decode [.enum [] table] (.int .i64)).run (Cursor.start [0xff, 0xff, 0xff, 0xff]) ≠
        (.ok (.int n), ⟨4, []⟩) := by
  intro table n
  have hread : (decode [.enum [] table] (.int .i64)).run (Cursor.start [0xff, 0xff, 0xff, 0xff]) =
      (.ok (.int ⟨.i64, 4294967295, by decide⟩), ⟨4, []⟩) := rfl
  refine ⟨(write_enum_int rfl).2 ⟨by decide, by decide⟩, hread, fun h => ?_⟩
  rw [hread, Prod.mk.injEq, Except.ok.injEq, Value.scalar.injEq, Scalar.int.injEq,
    Integer.mk.injEq] at h
  exact absurd h.1.2 (by decide)

end Parley
