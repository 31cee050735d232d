import Parley.Proofs.Delimiting

/-!
# The discipline of the cursor

A cursor goes through a buffer from its start to its end and never back. A read that fails leaves it
where it is, also when it has got through many units of a text before it failed.

* `Cursor.Within` : a cursor in a buffer, with the bytes before its offset passed and the others
  left.
* `run_decodeScalar_of_le`, `run_decodeScalar_of_lt` : reads of a fixed width.
* `splitUnits_spec` : a text ends with the first zero unit that is counted from the cursor.
* `Reader.zcstring_eq_rewinding` : a text is read unit by unit, and the cursor is put back when a
  unit is missing.
* `Cursor.Disciplined`, `Cursor.after`, `reads_disciplined` : any reads one after the other.
-/

namespace Parley

/-! ## Cursors in a buffer -/

/-- The cursor is in the buffer: the bytes that it has passed are there, and it has the others
left. -/
structure Cursor.Within (c : Cursor) (data : List UInt8) : Prop where
  offset_le : c.offset ≤ data.length
  rest_eq : c.rest = data.drop c.offset

namespace Cursor

variable {c c' : Cursor} {data : List UInt8}

theorem within_start (data : List UInt8) : (start data).Within data :=
  ⟨Nat.zero_le _, rfl⟩

theorem Within.offset_add_remaining (h : c.Within data) : c.offset + c.remaining = data.length := by
  rw [remaining, h.rest_eq, List.length_drop]
  exact Nat.add_sub_cancel' h.offset_le

theorem Within.pass (h : c.Within data) {x : List UInt8} (hx : c.rest = x ++ c'.rest)
    (ho : c'.offset = c.offset + x.length) : c'.Within data := by
  have hlen := congrArg List.length hx
  rw [List.length_append] at hlen
  have hall := h.offset_add_remaining
  rw [remaining] at hall
  refine ⟨by omega, ?_⟩
  rw [ho, ← List.drop_drop, ← h.rest_eq, hx, List.drop_left]

end Cursor

/-! ## Reads of a fixed width -/

/-- How many bytes a scalar of the wire takes, if they are always as many. -/
def BaseKind.width? : BaseKind → Option Nat
  | zcstring => none
  | int k _ => some k.bytes
  | float => some 4
  | double => some 8
  | boolean => some 1

namespace Reader

theorem run_take_of_le {n : Nat} {c : Cursor} (h : n ≤ c.remaining) :
    (take n).run c = (.ok (c.rest.take n), ⟨c.offset + n, c.rest.drop n⟩) := by
  have hlen : (c.rest.take n).length = n := by
    rw [List.length_take]
    exact Nat.min_eq_left h
  have hrun := run_take (c.rest.take n) (c.rest.drop n) c.offset
  rwa [List.take_append_drop, hlen] at hrun

theorem run_take_of_lt {n : Nat} {c : Cursor} (h : c.remaining < n) :
    (take n).run c = (.error (.endOfData c.offset n), c) := by
  show take n c = _
  rw [take]
  cases hs : splitBytes n c.rest with
  | none => rfl
  | some p =>
    obtain ⟨front, rest⟩ := p
    obtain ⟨hlen, hrest⟩ := splitBytes_eq_some hs
    rw [Cursor.remaining, hrest, List.length_append] at h
    omega

end Reader

/-- A scalar of a fixed width is made of the bytes that are taken for it. -/
theorem exists_decodeScalar_eq_take {kind : BaseKind} {n : Nat} (h : kind.width? = some n) :
    ∃ f : List UInt8 → Scalar, decodeScalar kind = do return f (← Reader.take n) := by
  cases kind with
  | zcstring => cases h
  | int k hk =>
    cases h
    exact ⟨fun bytes => .int (Integer.ofBits k (ofLittleEndian bytes)), by
      simp only [decodeScalar, Reader.integer, bind_assoc, pure_bind]⟩
  | float =>
    cases h
    exact ⟨fun bytes => .float (UInt32.ofNat (ofLittleEndian bytes)), by
      simp only [decodeScalar, Reader.float, bind_assoc, pure_bind]⟩
  | double =>
    cases h
    exact ⟨fun bytes => .double (UInt64.ofNat (ofLittleEndian bytes)), by
      simp only [decodeScalar, Reader.double, bind_assoc, pure_bind]⟩
  | boolean =>
    cases h
    exact ⟨fun bytes => .bool (ofLittleEndian bytes ≠ 0), by
      simp only [decodeScalar, Reader.boolean, bind_assoc, pure_bind]⟩

theorem run_decodeScalar_of_le {kind : BaseKind} {n : Nat} {c : Cursor}
    (hn : kind.width? = some n) (h : n ≤ c.remaining) :
    ∃ s, (decodeScalar kind).run c = (.ok s, ⟨c.offset + n, c.rest.drop n⟩) := by
  obtain ⟨f, hf⟩ := exists_decodeScalar_eq_take hn
  rw [hf]
  exact ⟨_, Reader.run_bind (Reader.run_take_of_le h) _⟩

theorem run_decodeScalar_of_lt {kind : BaseKind} {n : Nat} {c : Cursor}
    (hn : kind.width? = some n) (h : c.remaining < n) :
    (decodeScalar kind).run c = (.error (.endOfData c.offset n), c) := by
  obtain ⟨f, hf⟩ := exists_decodeScalar_eq_take hn
  rw [hf]
  exact Reader.run_bind_error (Reader.run_take_of_lt h) _

/-! ## Texts -/

/-- The two bytes from the position on are a zero unit. -/
def ZeroUnit (data : List UInt8) (i : Nat) : Prop :=
  data[i]? = some 0 ∧ data[i + 1]? = some 0

instance (data : List UInt8) (i : Nat) : Decidable (ZeroUnit data i) :=
  inferInstanceAs (Decidable (_ ∧ _))

theorem zeroUnit_drop {data : List UInt8} {o i : Nat} :
    ZeroUnit (data.drop o) i ↔ ZeroUnit data (o + i) := by
  rw [ZeroUnit, ZeroUnit, List.getElem?_drop, List.getElem?_drop, Nat.add_assoc]

theorem zeroUnit_zero {low high : UInt8} {bytes : List UInt8} :
    ZeroUnit (low :: high :: bytes) 0 ↔ ofLittleEndian [low, high] = 0 := by
  have hzero (b : UInt8) : b = 0 ↔ b.toNat = 0 := UInt8.toNat_inj.symm
  simp only [ZeroUnit, List.getElem?_cons_zero, List.getElem?_cons_succ, Option.some.injEq,
    ofLittleEndian, hzero]
  omega

theorem splitUnits_spec (bytes : List UInt8) :
    match splitUnits bytes with
    | some (us, rest) => ZeroUnit bytes (2 * us.length) ∧
        (∀ i < us.length, ¬ ZeroUnit bytes (2 * i)) ∧ rest = bytes.drop (2 * us.length + 2)
    | none => ∀ i, ¬ ZeroUnit bytes (2 * i) := by
  fun_induction splitUnits bytes with
  | case1 low high bytes unit h =>
    exact ⟨zeroUnit_zero.2 h, fun i hi => absurd hi (Nat.not_lt_zero i), rfl⟩
  | case2 low high bytes unit h ih =>
    have hsucc (i : Nat) : ZeroUnit (low :: high :: bytes) (2 * (i + 1)) ↔ ZeroUnit bytes (2 * i) :=
      Iff.rfl
    have hhead : ¬ ZeroUnit (low :: high :: bytes) 0 := fun hz => h (zeroUnit_zero.1 hz)
    cases hs : splitUnits bytes with
    | none =>
      rw [hs] at ih
      rintro (_ | i)
      · exact hhead
      · exact fun hz => ih i ((hsucc i).1 hz)
    | some p =>
      obtain ⟨us, rest⟩ := p
      rw [hs] at ih
      obtain ⟨hz, hbefore, hrest⟩ := ih
      refine ⟨(hsucc _).2 hz, ?_, hrest⟩
      rintro (_ | i) hi
      · exact hhead
      · exact fun hz => hbefore i (Nat.lt_of_succ_lt_succ hi) ((hsucc i).1 hz)
  | case3 bytes h =>
    rintro i ⟨-, hz⟩
    have hlt : 2 * i + 1 < bytes.length := (List.getElem?_eq_some_iff.1 hz).1
    match bytes, h with
    | [], _ => exact absurd hlt (by simp)
    | [b], _ => exact absurd hlt (by simp)
    | low :: high :: bytes, h => exact h low high bytes rfl

namespace Reader

theorem taking_integer (k : IntKind) : (integer k).Taking :=
  taking_bind (taking_take (by cases k <;> decide)) fun _ => delimited_pure _

/-- Reads units one after the other up to a zero unit; when one is missing, the cursor stays where
it has come to. -/
def unitwise (c : Cursor) : Except Error (List UInt16) × Cursor :=
  match _hrun : (integer .u16).run c with
  | (.error e, c') => (.error e, c')
  | (.ok n, c') =>
    if n.toBits = 0 then (.ok [], c')
    else ((unitwise c').1.map (UInt16.ofNat n.toBits :: ·), (unitwise c').2)
termination_by c.remaining
decreasing_by all_goals exact (taking_integer .u16).takes ‹_›

theorem unitwise_of_error {c c' : Cursor} {e : Error}
    (h : (integer .u16).run c = (.error e, c')) : unitwise c = (.error e, c') := by
  rw [unitwise]
  split
  · rename_i hrun
    cases h.symm.trans hrun
    rfl
  · rename_i hrun
    cases h.symm.trans hrun

theorem unitwise_of_ok {c c' : Cursor} {n : Integer} (h : (integer .u16).run c = (.ok n, c')) :
    unitwise c = if n.toBits = 0 then (.ok [], c')
      else ((unitwise c').1.map (UInt16.ofNat n.toBits :: ·), (unitwise c').2) := by
  rw [unitwise]
  split
  · rename_i hrun
    cases h.symm.trans hrun
  · rename_i hrun
    cases h.symm.trans hrun
    rfl

theorem unitwise_pair (o : Nat) (low high : UInt8) (bytes : List UInt8) :
    unitwise ⟨o, low :: high :: bytes⟩ =
      if ofLittleEndian [low, high] = 0 then (.ok [], ⟨o + 2, bytes⟩)
      else ((unitwise ⟨o + 2, bytes⟩).1.map (UInt16.ofNat (ofLittleEndian [low, high]) :: ·),
        (unitwise ⟨o + 2, bytes⟩).2) := by
  have hlt : ofLittleEndian [low, high] < IntKind.u16.modulus := by
    rw [IntKind.modulus_eq]
    exact ofLittleEndian_lt [low, high]
  have hrun : (integer .u16).run ⟨o, low :: high :: bytes⟩ =
      (.ok (Integer.ofBits .u16 (ofLittleEndian [low, high])), ⟨o + 2, bytes⟩) :=
    run_bind (run_take [low, high] bytes o) _
  rw [unitwise_of_ok hrun, Integer.toBits_ofBits hlt]

theorem unitwise_short {o : Nat} {bytes : List UInt8} (h : bytes.length < 2) :
    unitwise ⟨o, bytes⟩ = (.error (.endOfData o 2), ⟨o, bytes⟩) :=
  unitwise_of_error (run_bind_error (run_take_of_lt h) _)

theorem unitwise_eq_splitUnits (o : Nat) (bytes : List UInt8) :
    unitwise ⟨o, bytes⟩ =
      match splitUnits bytes with
      | some (us, rest) => (.ok us, ⟨o + 2 * us.length + 2, rest⟩)
      | none => (.error (.endOfData (o + 2 * (bytes.length / 2)) 2),
          ⟨o + 2 * (bytes.length / 2), bytes.drop (2 * (bytes.length / 2))⟩) := by
  fun_induction splitUnits bytes generalizing o with
  | case1 low high bytes unit h =>
    rw [unitwise_pair, if_pos h]
    rfl
  | case2 low high bytes unit h ih =>
    rw [unitwise_pair, if_neg h, ih]
    cases splitUnits bytes with
    | none =>
      have hlen : 2 * ((low :: high :: bytes).length / 2) = 2 * (bytes.length / 2) + 1 + 1 := by
        simp only [List.length_cons]
        omega
      have hoff : o + 2 + 2 * (bytes.length / 2) = o + (2 * (bytes.length / 2) + 1 + 1) := by omega
      simp only [hlen, hoff, List.drop_succ_cons, Option.map_none]
      rfl
    | some p =>
      have hoff : o + 2 + 2 * p.1.length + 2 = o + 2 * (p.1.length + 1) + 2 := by omega
      simp only [Option.map_some, List.length_cons, ← hoff]
      rfl
  | case3 bytes h =>
    have hlen : bytes.length < 2 := by
      match bytes, h with
      | [], _ => exact Nat.zero_lt_two
      | [b], _ => exact Nat.one_lt_two
      | low :: high :: bytes, h => exact absurd rfl (h low high bytes)
    rw [unitwise_short hlen, Nat.div_eq_of_lt hlen]
    rfl

/-- The units up to a zero unit, read one after the other. -/
def units : Reader (List UInt16) :=
  unitwise

/-- A reader that puts the cursor back when it fails. -/
def rewinding {α : Type} (r : Reader α) : Reader α := fun c =>
  match r.run c with
  | (.ok a, c') => (.ok a, c')
  | (.error e, _) => (.error e, c)

/-- A text is read unit by unit; when a unit is missing, the cursor is put back to where the text
began. -/
theorem zcstring_eq_rewinding : zcstring = rewinding (return Utf16.decode (← units)) := by
  funext c
  have hunits : units.run c = unitwise c := rfl
  rw [unitwise_eq_splitUnits c.offset c.rest] at hunits
  rw [zcstring, rewinding]
  cases hs : splitUnits c.rest with
  | none =>
    rw [hs] at hunits
    rw [run_bind_error hunits]
  | some p =>
    rw [hs] at hunits
    rw [run_bind hunits]
    rfl

end Reader

theorem run_decodeScalar_zcstring (c : Cursor) :
    (decodeScalar .zcstring).run c =
      match splitUnits c.rest with
      | some (us, rest) =>
        (.ok (.string (Utf16.decode us)), ⟨c.offset + 2 * us.length + 2, rest⟩)
      | none => (.error (.endOfData (c.offset + 2 * (c.rest.length / 2)) 2), c) := by
  have hrun : Reader.zcstring.run c = Reader.zcstring c := rfl
  rw [Reader.zcstring] at hrun
  rw [decodeScalar]
  cases hs : splitUnits c.rest with
  | none =>
    rw [hs] at hrun
    exact Reader.run_bind_error hrun _
  | some p =>
    rw [hs] at hrun
    exact Reader.run_bind hrun _

/-! ## Reads one after the other -/

/-- What a read of a scalar may do to a cursor in a buffer. -/
structure Cursor.Disciplined (c : Cursor) (data : List UInt8) (kind : BaseKind)
    (r : Except Error Scalar) (c' : Cursor) : Prop where
  /-- It stays in the buffer. -/
  within : c'.Within data
  /-- It never moves back. -/
  forward : c.offset ≤ c'.offset
  /-- It does not move when the read fails. -/
  unmoved : ∀ e, r = .error e → c' = c
  /-- A scalar of a fixed width is read if as many bytes are left, and takes them. -/
  fixed : ∀ n, kind.width? = some n → ((∃ s, r = .ok s) ↔ n ≤ c.remaining) ∧
    ∀ s, r = .ok s → c'.offset = c.offset + n
  /-- A text is read if there is a zero unit, counted in units from the cursor, and takes the bytes
  up to the end of the first one. -/
  text : kind = .zcstring → ((∃ s, r = .ok s) ↔ ∃ i, ZeroUnit data (c.offset + 2 * i)) ∧
    ∀ s, r = .ok s → ∃ i, ZeroUnit data (c.offset + 2 * i) ∧
      (∀ j < i, ¬ ZeroUnit data (c.offset + 2 * j)) ∧ c'.offset = c.offset + 2 * i + 2

/-- The cursor once some reads were tried one after the other; those that fail are passed over. -/
def Cursor.after (kinds : List BaseKind) (c : Cursor) : Cursor :=
  kinds.foldl (fun c kind => ((decodeScalar kind).run c).2) c

namespace Cursor

variable {c : Cursor} {data : List UInt8}

theorem unmoved_of_error {kind : BaseKind} {c' : Cursor} {e : Error}
    (h : (decodeScalar kind).run c = (.error e, c')) : c' = c := by
  cases hw : kind.width? with
  | some n =>
    by_cases hle : n ≤ c.remaining
    · obtain ⟨s, hs⟩ := run_decodeScalar_of_le hw hle
      cases hs.symm.trans h
    · cases (run_decodeScalar_of_lt hw (Nat.lt_of_not_le hle)).symm.trans h
      rfl
  | none =>
    obtain rfl : kind = .zcstring := by
      cases kind with
      | zcstring => rfl
      | int | float | double | boolean => cases hw
    rw [run_decodeScalar_zcstring] at h
    split at h
    · cases h
    · cases h
      rfl

theorem Within.disciplined (h : c.Within data) (kind : BaseKind) :
    c.Disciplined data kind ((decodeScalar kind).run c).1 ((decodeScalar kind).run c).2 := by
  obtain ⟨x, hx, ho⟩ := (taking_decodeScalar kind).moves c
  refine ⟨h.pass hx ho, Nat.le.intro ho.symm, fun e he => ?_, fun n hn => ?_, ?_⟩
  · exact unmoved_of_error (Prod.ext he rfl)
  · by_cases hle : n ≤ c.remaining
    · obtain ⟨s, hs⟩ := run_decodeScalar_of_le hn hle
      rw [hs]
      exact ⟨iff_of_true ⟨s, rfl⟩ hle, fun _ _ => rfl⟩
    · rw [run_decodeScalar_of_lt hn (Nat.lt_of_not_le hle)]
      exact ⟨iff_of_false (fun ⟨_, hs⟩ => nomatch hs) hle, fun _ hs => nomatch hs⟩
  · rintro rfl
    have hunits := splitUnits_spec c.rest
    simp only [h.rest_eq, zeroUnit_drop] at hunits
    rw [run_decodeScalar_zcstring, h.rest_eq]
    cases hs : splitUnits (data.drop c.offset) with
    | none =>
      rw [hs] at hunits
      exact ⟨iff_of_false (fun ⟨_, hs⟩ => nomatch hs) fun ⟨i, hi⟩ => hunits i hi,
        fun _ hs => nomatch hs⟩
    | some p =>
      rw [hs] at hunits
      obtain ⟨hz, hbefore, -⟩ := hunits
      exact ⟨iff_of_true ⟨_, rfl⟩ ⟨_, hz⟩, fun _ _ => ⟨_, hz, hbefore, rfl⟩⟩

/-- Reads that are tried one after the other keep a cursor in its buffer and never move it back. -/
theorem Within.after (h : c.Within data) (kinds : List BaseKind) :
    (c.after kinds).Within data ∧ c.offset ≤ (c.after kinds).offset := by
  induction kinds generalizing c with
  | nil => exact ⟨h, Nat.le_refl _⟩
  | cons kind kinds ih =>
    have hstep := h.disciplined kind
    obtain ⟨hwithin, hforward⟩ := ih hstep.within
    exact ⟨hwithin, Nat.le_trans hstep.forward hforward⟩

end Cursor

/-- Whatever reads were tried on a buffer, the cursor is in the buffer, more reads do not move it
back, and every read that is tried next is disciplined. -/
theorem reads_disciplined (data : List UInt8) (kinds more : List BaseKind) :
    let c := (Cursor.start data).after kinds
    (c.offset ≤ data.length ∧ c.rest = data.drop c.offset ∧
        c.offset + c.remaining = data.length) ∧
      c.offset ≤ ((Cursor.start data).after (kinds ++ more)).offset ∧
      (∀ kind,
        c.Disciplined data kind ((decodeScalar kind).run c).1 ((decodeScalar kind).run c).2) ∧
      Reader.zcstring = Reader.rewinding (return Utf16.decode (← Reader.units)) := by
  intro c
  have hc : c.Within data := ((Cursor.within_start data).after kinds).1
  refine ⟨⟨hc.offset_le, hc.rest_eq, hc.offset_add_remaining⟩, ?_, hc.disciplined,
    Reader.zcstring_eq_rewinding⟩
  rw [Cursor.after, List.foldl_append]
  exact (hc.after more).2

/-- The zero bytes belong to no zero unit that is counted from the start, but to one that is counted
from the second byte. -/
example : (Cursor.start [104, 0, 0, 105, 0]).after [.zcstring] = Cursor.start [104, 0, 0, 105, 0] ∧
    (Cursor.start [104, 0, 0, 105, 0]).after [.zcstring, .u8, .double, .zcstring] =
      ⟨3, [105, 0]⟩ := by
  decide +kernel

end Parley
