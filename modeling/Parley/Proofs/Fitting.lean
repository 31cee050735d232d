import Mathlib.Data.List.Forall2
import Mathlib.Data.List.Nodup
import Parley.Proofs.Construct
import Parley.Proofs.Scalars

/-!
# Encodings that fit a type

* `BaseKind.Matches`, `Encoding.Fits`, `Fits` : each entry leads to a part of the type that it can
  carry, and no entry leads to a part of what another one carries.
* `EnumTable.Lawful` : no key and no number twice, and no number of more than four bytes.
* `Keyed` : the enumerated parts of a value hold keys of their tables.
* `Agree` : two values that agree on all that an encoding carries; `encode_congr` : they are written
  alike.
* `write_base_eq_ofBytes`, `write_enum_eq_ofBytes`, `write_array_eq_ofBytes` : what is written.
-/

namespace Parley

/-! ## Enumerations -/

namespace EnumTable

/-- No key and no number has two entries, and the numbers have four bytes. -/
structure Lawful (t : EnumTable) : Prop where
  keys : (t.entries.map Prod.fst).Nodup
  numbers : (t.entries.map Prod.snd).Nodup
  inRange : ∀ e ∈ t.entries, IntKind.i32.Holds e.2

instance (t : EnumTable) : Decidable t.Lawful :=
  decidable_of_iff ((t.entries.map Prod.fst).Nodup ∧ (t.entries.map Prod.snd).Nodup ∧
    ∀ e ∈ t.entries, IntKind.i32.Holds e.2)
    ⟨fun ⟨hk, hn, hr⟩ => ⟨hk, hn, hr⟩, fun ⟨hk, hn, hr⟩ => ⟨hk, hn, hr⟩⟩

theorem find?_fst {entries : List (String × Int)} (h : (entries.map Prod.fst).Nodup)
    {e : String × Int} (he : e ∈ entries) :
    entries.find? (fun x => x.1 = e.1) = some e := by
  induction entries with
  | nil => cases he
  | cons x rest ih =>
    rw [List.map_cons, List.nodup_cons] at h
    rcases List.mem_cons.1 he with rfl | he
    · rw [List.find?_cons_of_pos (by simp)]
    · have hne : x.1 ≠ e.1 := fun heq => h.1 (heq ▸ List.mem_map_of_mem he)
      rw [List.find?_cons_of_neg (by simpa using hne), ih h.2 he]

theorem find?_snd {entries : List (String × Int)} (h : (entries.map Prod.snd).Nodup)
    {e : String × Int} (he : e ∈ entries) :
    entries.find? (fun x => x.2 = e.2) = some e := by
  induction entries with
  | nil => cases he
  | cons x rest ih =>
    rw [List.map_cons, List.nodup_cons] at h
    rcases List.mem_cons.1 he with rfl | he
    · rw [List.find?_cons_of_pos (by simp)]
    · have hne : x.2 ≠ e.2 := fun heq => h.1 (heq ▸ List.mem_map_of_mem he)
      rw [List.find?_cons_of_neg (by simpa using hne), ih h.2 he]

/-- A key of the table is the key of its number, which has four bytes. -/
theorem Lawful.key_number {t : EnumTable} (h : t.Lawful) {key : String}
    (hk : key ∈ t.entries.map Prod.fst) :
    IntKind.i32.Holds (t.number key) ∧ t.key (t.number key) = key := by
  obtain ⟨e, he, rfl⟩ := List.mem_map.1 hk
  have hn : t.number e.1 = e.2 := by rw [number, find?_fst h.keys he]
  rw [hn, EnumTable.key, find?_snd h.numbers he]
  exact ⟨h.inRange e he, rfl⟩

end EnumTable

/-! ## Fitting -/

/-- The scalar of the wire can carry a leaf: any integer any integer, any other its own type. -/
def BaseKind.Matches : BaseKind → ScalarTy → Prop
  | .int _ _, .int _ => True
  | kind, t => t = kind.scalarTy

instance : ∀ (kind : BaseKind) (t : ScalarTy), Decidable (kind.Matches t)
  | .int k hk, t => by
    cases t
    case int => exact isTrue trivial
    all_goals exact isFalse fun h => nomatch h
  | .zcstring, t => inferInstanceAs (Decidable (t = .string))
  | .float, t => inferInstanceAs (Decidable (t = .float))
  | .double, t => inferInstanceAs (Decidable (t = .double))
  | .boolean, t => inferInstanceAs (Decidable (t = .bool))

mutual

/-- The entry leads to a part of the type that it can carry. -/
def Encoding.Fits : Encoding → Ty → Prop
  | .base kind path, t => path.Plain ∧
    match t.follow path with
    | .ok (.scalar s) => kind.Matches s
    | _ => False
  | .array path element, t => path.Plain ∧
    match t.follow path with
    | .ok (.array u) => Fits element u
    | _ => False
  | .enum path table, t => path.Plain ∧ table.Lawful ∧
    match t.follow path with
    | .ok .string => True
    | _ => False

/-- Every entry fits, and no entry leads to a part of what another one leads to. -/
def Fits : List Encoding → Ty → Prop
  | [], _ => True
  | e :: rest, t => e.Fits t ∧ (∀ e' ∈ rest, e.path.Apart e'.path) ∧ Fits rest t

end

mutual

/-- The enumerated parts that the entry leads to hold keys of their tables. -/
def Encoding.Keyed : Encoding → Value → Prop
  | .base _ _, _ => True
  | .array path element, v =>
    match v.get path with
    | .ok (.array items) => ∀ item ∈ items, Keyed element item
    | _ => True
  | .enum path table, v =>
    match v.get path with
    | .ok (.string key) => key ∈ table.entries.map Prod.fst
    | _ => True

/-- The enumerated parts that an encoding leads to hold keys of their tables. -/
def Keyed : List Encoding → Value → Prop
  | [], _ => True
  | e :: rest, v => e.Keyed v ∧ Keyed rest v

end

mutual

/-- The values are equal at the scalar or the enumerated part that the entry carries, or have arrays
of one length there whose items agree on what the entry carries of each. -/
def Encoding.Agree : Encoding → Value → Value → Prop
  | .base _ path, v, w => ∃ x, v.get path = .ok x ∧ w.get path = .ok x
  | .array path element, v, w => ∃ xs ys, v.get path = .ok (.array xs) ∧
    w.get path = .ok (.array ys) ∧ List.Forall₂ (Agree element) xs ys
  | .enum path _, v, w => ∃ x, v.get path = .ok x ∧ w.get path = .ok x

/-- The values agree on what every entry carries. -/
def Agree : List Encoding → Value → Value → Prop
  | [], _, _ => True
  | e :: rest, v, w => e.Agree v w ∧ Agree rest v w

end

mutual

instance Encoding.decidableFits : ∀ (e : Encoding) (t : Ty), Decidable (e.Fits t)
  | .base kind path, t =>
    have : Decidable (match t.follow path with
        | .ok (.scalar s) => kind.Matches s
        | _ => False) := by
      split <;> infer_instance
    inferInstanceAs (Decidable (_ ∧ _))
  | .array path element, t =>
    have : Decidable (match t.follow path with
        | .ok (.array u) => Fits element u
        | _ => False) := by
      split
      · exact decidableFits element _
      · infer_instance
    inferInstanceAs (Decidable (_ ∧ _))
  | .enum path table, t =>
    have : Decidable (match t.follow path with
        | .ok .string => True
        | _ => False) := by
      split <;> infer_instance
    inferInstanceAs (Decidable (_ ∧ _ ∧ _))

instance decidableFits : ∀ (encoding : List Encoding) (t : Ty), Decidable (Fits encoding t)
  | [], _ => inferInstanceAs (Decidable True)
  | e :: rest, t =>
    have := Encoding.decidableFits e t
    have := decidableFits rest t
    inferInstanceAs (Decidable (_ ∧ _ ∧ _))

end

mutual

instance Encoding.decidableKeyed : ∀ (e : Encoding) (v : Value), Decidable (e.Keyed v)
  | .base _ _, _ => inferInstanceAs (Decidable True)
  | .array path element, v =>
    have := decidableKeyed element
    have : Decidable (match v.get path with
        | .ok (.array items) => ∀ item ∈ items, Keyed element item
        | _ => True) := by
      split <;> infer_instance
    this
  | .enum path table, v =>
    have : Decidable (match v.get path with
        | .ok (.string key) => key ∈ table.entries.map Prod.fst
        | _ => True) := by
      split <;> infer_instance
    this

instance decidableKeyed : ∀ (encoding : List Encoding) (v : Value), Decidable (Keyed encoding v)
  | [], _ => inferInstanceAs (Decidable True)
  | e :: rest, v =>
    have := Encoding.decidableKeyed e v
    have := decidableKeyed rest v
    inferInstanceAs (Decidable (_ ∧ _))

end

/-! ## Shapes of what fits -/

theorem fits_base {kind : BaseKind} {path : Path} {t : Ty} :
    (Encoding.base kind path).Fits t ↔
      path.Plain ∧ ∃ s, t.follow path = .ok (.scalar s) ∧ kind.Matches s := by
  rw [Encoding.Fits]
  constructor
  · rintro ⟨hp, h⟩
    split at h
    · exact ⟨hp, _, ‹_›, h⟩
    · exact h.elim
  · rintro ⟨hp, s, hs, hm⟩
    rw [hs]
    exact ⟨hp, hm⟩

theorem fits_array {path : Path} {element : List Encoding} {t : Ty} :
    (Encoding.array path element).Fits t ↔
      path.Plain ∧ ∃ u, t.follow path = .ok (.array u) ∧ Fits element u := by
  rw [Encoding.Fits]
  constructor
  · rintro ⟨hp, h⟩
    split at h
    · exact ⟨hp, _, ‹_›, h⟩
    · exact h.elim
  · rintro ⟨hp, u, hu, hf⟩
    rw [hu]
    exact ⟨hp, hf⟩

theorem fits_enum {path : Path} {table : EnumTable} {t : Ty} :
    (Encoding.enum path table).Fits t ↔
      path.Plain ∧ table.Lawful ∧ t.follow path = .ok .string := by
  rw [Encoding.Fits]
  constructor
  · rintro ⟨hp, hl, h⟩
    split at h
    · exact ⟨hp, hl, ‹_›⟩
    · exact h.elim
  · rintro ⟨hp, hl, hs⟩
    rw [hs]
    exact ⟨hp, hl, trivial⟩

theorem Encoding.Fits.resolves {e : Encoding} {t : Ty} (h : e.Fits t) : e.Resolves t := by
  cases e with
  | base kind path =>
    obtain ⟨hp, s, hs, -⟩ := fits_base.1 h
    exact ⟨hp, _, hs⟩
  | array path element =>
    obtain ⟨hp, u, hu, -⟩ := fits_array.1 h
    exact ⟨hp, _, hu⟩
  | enum path table =>
    obtain ⟨hp, -, hs⟩ := fits_enum.1 h
    exact ⟨hp, _, hs⟩

theorem Encoding.Keyed.items {path : Path} {element : List Encoding} {v : Value}
    {items : List Value} (h : (Encoding.array path element).Keyed v)
    (hv : v.get path = .ok (.array items)) : ∀ item ∈ items, Parley.Keyed element item := by
  rw [Encoding.Keyed, hv] at h
  exact h

theorem Encoding.Keyed.key {path : Path} {table : EnumTable} {v : Value} {key : String}
    (h : (Encoding.enum path table).Keyed v) (hv : v.get path = .ok (.string key)) :
    key ∈ table.entries.map Prod.fst := by
  rw [Encoding.Keyed, hv] at h
  exact h

theorem Fits.of_mem {encoding : List Encoding} {t : Ty} (h : Fits encoding t) {e : Encoding}
    (he : e ∈ encoding) : e.Fits t := by
  induction encoding with
  | nil => cases he
  | cons e' rest ih =>
    rcases List.mem_cons.1 he with rfl | he
    · exact h.1
    · exact ih h.2.2 he

/-- Whether values agree at an entry depends on nothing but the parts it leads to. -/
theorem Encoding.Agree.of_get {e : Encoding} {v w w' x : Value} (h : e.Agree v w)
    (hw : w.get e.path = .ok x) (hw' : w'.get e.path = .ok x) : e.Agree v w' := by
  cases e with
  | base kind path =>
    obtain ⟨y, hv, hy⟩ := h
    rw [show w.get path = .ok x from hw] at hy
    cases hy
    exact ⟨x, hv, hw'⟩
  | enum path table =>
    obtain ⟨y, hv, hy⟩ := h
    rw [show w.get path = .ok x from hw] at hy
    cases hy
    exact ⟨x, hv, hw'⟩
  | array path element =>
    obtain ⟨xs, ys, hv, hy, ha⟩ := h
    rw [show w.get path = .ok x from hw] at hy
    cases hy
    exact ⟨xs, ys, hv, hw', ha⟩

/-! ## What is written -/

namespace Emission

theorem ofBytes_inj {a b : List UInt8} (h : ofBytes a = ofBytes b) : a = b :=
  congrArg Emission.bytes h

theorem ofExcept_eq_ofBytes {x : Except Error Emission} {b : List UInt8} :
    ofExcept x = ofBytes b ↔ x = .ok (ofBytes b) := by
  cases x with
  | error e => simp [ofExcept, fail, ofBytes]
  | ok a => simp [ofExcept]

theorem andThen_eq_ofBytes {a b : Emission} {c : List UInt8} :
    a.andThen b = ofBytes c ↔ ∃ x y, a = ofBytes x ∧ b = ofBytes y ∧ c = x ++ y := by
  obtain ⟨x, _ | e⟩ := a
  · obtain ⟨y, _ | e⟩ := b <;> simp [andThen, ofBytes, eq_comm]
  · simp [andThen, ofBytes]

theorem foldr_eq_ofBytes {α : Type} {write : α → Emission} {items : List α} {c : List UInt8} :
    items.foldr (fun item after => (write item).andThen after) nothing = ofBytes c ↔
      ∃ chunks, List.Forall₂ (fun item b => write item = ofBytes b) items chunks ∧
        c = chunks.flatten := by
  induction items generalizing c with
  | nil =>
    constructor
    · intro h
      exact ⟨[], .nil, (ofBytes_inj h).symm⟩
    · rintro ⟨_, ⟨⟩, rfl⟩
      rfl
  | cons item items ih =>
    rw [List.foldr_cons, andThen_eq_ofBytes]
    constructor
    · rintro ⟨b, y, hb, hy, rfl⟩
      obtain ⟨chunks, hc, rfl⟩ := ih.1 hy
      exact ⟨b :: chunks, .cons hb hc, rfl⟩
    · rintro ⟨_, _ | @⟨_, b, _, chunks, hb, hc⟩, rfl⟩
      exact ⟨b, chunks.flatten, hb, ih.2 ⟨chunks, hc, rfl⟩, rfl⟩

end Emission

theorem castBytes_eq_ok {t : ScalarTy} {v : Value} {b : List UInt8} :
    castBytes t v = .ok b ↔ ∃ s, castScalar t v = .ok s ∧ scalarBytes s = .ok b := by
  unfold castBytes
  rw [bind_eq_ok]
  simp only [mapError_eq_ok]

theorem write_base_eq_ofBytes {kind : BaseKind} {path : Path} {v : Value} {b : List UInt8} :
    (Encoding.base kind path).write v = .ofBytes b ↔
      ∃ x, v.get path = .ok x ∧ castBytes kind.scalarTy x = .ok b := by
  rw [Encoding.write, Emission.ofExcept_eq_ofBytes, bind_eq_ok]
  constructor
  · rintro ⟨x, hx, h⟩
    obtain ⟨c, hc, h⟩ := bind_eq_ok.1 h
    obtain rfl := Emission.ofBytes_inj (Except.ok.inj h)
    exact ⟨x, hx, hc⟩
  · rintro ⟨x, hx, hc⟩
    exact ⟨x, hx, bind_eq_ok.2 ⟨b, hc, rfl⟩⟩

theorem write_enum_eq_ofBytes {path : Path} {table : EnumTable} {v : Value} {b : List UInt8} :
    (Encoding.enum path table).write v = .ofBytes b ↔
      ∃ x, v.get path = .ok x ∧ entryBytes table x = .ok b := by
  rw [Encoding.write, Emission.ofExcept_eq_ofBytes, bind_eq_ok]
  constructor
  · rintro ⟨x, hx, h⟩
    obtain ⟨c, hc, h⟩ := bind_eq_ok.1 h
    obtain rfl := Emission.ofBytes_inj (Except.ok.inj h)
    exact ⟨x, hx, hc⟩
  · rintro ⟨x, hx, hc⟩
    exact ⟨x, hx, bind_eq_ok.2 ⟨b, hc, rfl⟩⟩

theorem write_array_eq_ofBytes {path : Path} {element : List Encoding} {v : Value}
    {b : List UInt8} :
    (Encoding.array path element).write v = .ofBytes b ↔
      ∃ items chunks, v.get path = .ok (.array items) ∧ items.length < IntKind.u32.modulus ∧
        List.Forall₂ (fun item c => encode element item = .ofBytes c) items chunks ∧
        b = littleEndian 4 items.length ++ chunks.flatten := by
  rw [Encoding.write, Emission.ofExcept_eq_ofBytes, bind_eq_ok]
  constructor
  · rintro ⟨x, hx, h⟩
    cases x with
    | scalar s => cases h
    | record kind fields => cases h
    | array items =>
      by_cases hl : items.length < IntKind.u32.modulus
      · simp only [if_pos hl] at h
        obtain ⟨head, tail, hh, ht, rfl⟩ := Emission.andThen_eq_ofBytes.1 (Except.ok.inj h)
        obtain ⟨chunks, hc, rfl⟩ := Emission.foldr_eq_ofBytes.1 ht
        exact ⟨items, chunks, hx, hl, hc, by rw [← Emission.ofBytes_inj hh]⟩
      · simp only [if_neg hl] at h
        cases h
  · rintro ⟨items, chunks, hx, hl, hc, rfl⟩
    refine ⟨.array items, hx, ?_⟩
    simp only [if_pos hl]
    exact congrArg Except.ok (Emission.andThen_eq_ofBytes.2
      ⟨_, _, rfl, Emission.foldr_eq_ofBytes.2 ⟨chunks, hc, rfl⟩, rfl⟩)

theorem encode_cons_eq_ofBytes {e : Encoding} {rest : List Encoding} {v : Value}
    {b : List UInt8} :
    encode (e :: rest) v = .ofBytes b ↔
      ∃ x y, e.write v = .ofBytes x ∧ encode rest v = .ofBytes y ∧ b = x ++ y := by
  rw [encode]
  exact Emission.andThen_eq_ofBytes

mutual

theorem Encoding.write_congr : ∀ {e : Encoding} {v w : Value}, e.Agree v w → e.write v = e.write w
  | .base kind path, v, w, ⟨x, hv, hw⟩ => by
    rw [Encoding.write, Encoding.write, hv, hw]
  | .enum path table, v, w, ⟨x, hv, hw⟩ => by
    rw [Encoding.write, Encoding.write, hv, hw]
  | .array path element, v, w, ⟨xs, ys, hv, hw, ha⟩ => by
    have hlen : xs.length = ys.length := ha.length_eq
    have hfold : xs.foldr (fun item after => (encode element item).andThen after) .nothing =
        ys.foldr (fun item after => (encode element item).andThen after) .nothing := by
      clear hv hw hlen
      induction ha with
      | nil => rfl
      | cons hx _ ih => rw [List.foldr_cons, List.foldr_cons, encode_congr hx, ih]
    rw [Encoding.write, Encoding.write, hv, hw]
    simp only [bind_of_ok rfl, hlen, hfold]

/-- Values that agree on what an encoding carries are written alike. -/
theorem encode_congr : ∀ {encoding : List Encoding} {v w : Value}, Agree encoding v w →
    encode encoding v = encode encoding w
  | [], _, _, _ => by rw [encode, encode]
  | e :: rest, v, w, h => by
    rw [encode, encode, Encoding.write_congr h.1, encode_congr h.2]

end

/-! ## Casts of scalars -/

theorem Scalar.cast?_self (s : Scalar) : s.cast? s.type = some s := by
  cases s with
  | int n =>
    show (Integer.ofInt? n.kind n.val).map Scalar.int = _
    rw [Integer.ofInt?_val]
    rfl
  | _ => rfl

theorem Scalar.type_of_cast? {t : ScalarTy} {s s' : Scalar} (h : s.cast? t = some s') :
    s'.type = t := by
  cases t <;> cases s
  case int.int k n =>
    obtain ⟨i, hi, rfl⟩ := Option.map_eq_some_iff.1 h
    exact congrArg ScalarTy.int (Integer.ofInt?_eq_some hi).1
  all_goals cases h
  all_goals rfl

theorem castScalar_eq_ok {t : ScalarTy} {v : Value} {s' : Scalar} :
    castScalar t v = .ok s' ↔ ∃ s, v = .scalar s ∧ s.cast? t = some s' := by
  constructor
  · intro h
    cases v with
    | array items => cases h
    | record kind fields => cases h
    | scalar s =>
      rw [castScalar] at h
      cases hc : s.cast? t with
      | none => rw [hc] at h; cases h
      | some s'' =>
        rw [hc] at h
        cases h
        exact ⟨s, rfl, hc⟩
  · rintro ⟨s, rfl, hs⟩
    rw [castScalar, hs]

theorem cast_scalar_of_cast? {t : ScalarTy} {s s' : Scalar} (h : s.cast? t = some s') :
    cast (.scalar t) (.scalar s) = .ok (.scalar s') := by
  rw [cast]
  exact bind_eq_ok.2 ⟨s', castScalar_eq_ok.2 ⟨s, rfl, h⟩, rfl⟩

/-- A leaf cast to what carries it on the wire and back is the leaf. -/
theorem BaseKind.Matches.cast?_cast? {kind : BaseKind} {s s' : Scalar}
    (h : kind.Matches s.type) (hs : s.cast? kind.scalarTy = some s') :
    s'.cast? s.type = some s := by
  cases kind with
  | int k hk =>
    obtain ⟨k', hk'⟩ : ∃ k', s.type = .int k' := by
      cases ht : s.type <;> rw [ht] at h <;> first | exact ⟨_, rfl⟩ | cases h
    obtain ⟨n, rfl, rfl⟩ := Scalar.exists_int hk'
    obtain ⟨m, hm, rfl⟩ := Option.map_eq_some_iff.1 hs
    show (Integer.ofInt? n.kind m.val).map Scalar.int = _
    rw [(Integer.ofInt?_eq_some hm).2, Integer.ofInt?_val]
    rfl
  | _ =>
    rw [← show s.type = _ from h, Scalar.cast?_self] at hs
    cases hs
    exact Scalar.cast?_self s

/-! ## Every entry takes a byte or more -/

theorem Encoding.length_write_pos {e : Encoding} {v : Value} {b : List UInt8}
    (hb : e.write v = .ofBytes b) : 0 < b.length := by
  have hscalar (kind : BaseKind) {x : Value} {c : List UInt8}
      (h : castBytes kind.scalarTy x = .ok c) : 0 < c.length := by
    obtain ⟨s, hs, hc⟩ := castBytes_eq_ok.1 h
    obtain ⟨s₀, -, hcast⟩ := castScalar_eq_ok.1 hs
    rw [(scalarBytes_eq_ok hc).1]
    exact length_toBytes_pos (Scalar.type_of_cast? hcast)
  cases e with
  | base kind path =>
    obtain ⟨x, -, hx⟩ := write_base_eq_ofBytes.1 hb
    exact hscalar kind hx
  | array path element =>
    obtain ⟨items, chunks, -, -, -, rfl⟩ := write_array_eq_ofBytes.1 hb
    rw [List.length_append, length_littleEndian]
    omega
  | enum path table =>
    obtain ⟨x, -, hx⟩ := write_enum_eq_ofBytes.1 hb
    unfold entryBytes at hx
    split at hx
    · cases hx
      rw [length_littleEndian]
      decide
    · exact hscalar .i32 hx

theorem length_encode_pos {encoding : List Encoding} {v : Value} {b : List UInt8}
    (hne : encoding ≠ []) (hb : encode encoding v = .ofBytes b) : 0 < b.length := by
  cases encoding with
  | nil => exact absurd rfl hne
  | cons e rest =>
    obtain ⟨x, y, hx, -, rfl⟩ := encode_cons_eq_ofBytes.1 hb
    have := Encoding.length_write_pos hx
    rw [List.length_append]
    omega

end Parley
