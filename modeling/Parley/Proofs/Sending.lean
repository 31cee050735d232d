import Parley.Proofs.Arguments

/-!
# When a value is written

An encoding that fits a type writes each value of the type, save for three reasons: a text holds the
zero unit that would close it, an array has more items than four bytes count, or a number is out of
the range that it travels in. The first two are seen from the value alone.

* `Value.Sendable` : no text holds the zero unit, no array is too long.
* `Encoding.Named` : the entries lead through fields, so a value of the type has the parts.
* `InRange` : the numbers are in the ranges that they travel in; `Exact` : they always are, as every
  scalar travels as the type that it has.
* `exists_encode_iff` : when a value is written; `exists_encodeArguments_iff` : when a list of
  arguments is.
* `Keyless` : no entry is an enumeration, so every value is `Keyed`.
* `encode_set` : a key of an enumeration is written as any other key of its number.
-/

namespace Parley

/-! ## Values that can be sent -/

/-- The scalar is no text with a zero unit in it. -/
def Scalar.Sendable : Scalar → Prop
  | .string text => '\x00' ∉ text.toList
  | _ => True

instance : ∀ s : Scalar, Decidable s.Sendable
  | .string text => inferInstanceAs (Decidable ('\x00' ∉ text.toList))
  | .nil | .bool _ | .int _ | .float _ | .double _ => inferInstanceAs (Decidable True)

mutual

/-- No text in the value holds the zero unit, and four bytes count the items of each array. -/
def Value.Sendable : Value → Prop
  | .scalar s => s.Sendable
  | .array items => items.length < IntKind.u32.modulus ∧ Value.ItemsSendable items
  | .record _ fields => Value.FieldsSendable fields

/-- All items can be sent. -/
def Value.ItemsSendable : List Value → Prop
  | [] => True
  | v :: items => v.Sendable ∧ Value.ItemsSendable items

/-- All fields can be sent. -/
def Value.FieldsSendable : List (String × Value) → Prop
  | [] => True
  | (_, v) :: fields => v.Sendable ∧ Value.FieldsSendable fields

end

mutual

instance Value.decidableSendable : ∀ v : Value, Decidable v.Sendable
  | .scalar s => inferInstanceAs (Decidable s.Sendable)
  | .array items =>
    have := Value.decidableItemsSendable items
    inferInstanceAs (Decidable (_ ∧ _))
  | .record _ fields => Value.decidableFieldsSendable fields

instance Value.decidableItemsSendable : ∀ items, Decidable (Value.ItemsSendable items)
  | [] => inferInstanceAs (Decidable True)
  | v :: items =>
    have := Value.decidableSendable v
    have := Value.decidableItemsSendable items
    inferInstanceAs (Decidable (_ ∧ _))

instance Value.decidableFieldsSendable : ∀ fields, Decidable (Value.FieldsSendable fields)
  | [] => inferInstanceAs (Decidable True)
  | (_, v) :: fields =>
    have := Value.decidableSendable v
    have := Value.decidableFieldsSendable fields
    inferInstanceAs (Decidable (_ ∧ _))

end

theorem Scalar.Sendable.scalarBytes_eq {s : Scalar} (h : s.Sendable) :
    scalarBytes s = .ok s.toBytes := by
  cases s with
  | string text => exact if_neg fun hc => h (List.contains_iff_mem.1 hc)
  | _ => rfl

namespace Value.Sendable

variable {v x : Value}

theorem item {items : List Value} (h : ItemsSendable items) (hx : x ∈ items) : x.Sendable := by
  induction items with
  | nil => cases hx
  | cons v items ih =>
    rcases List.mem_cons.1 hx with rfl | hx
    · exact h.1
    · exact ih h.2 hx

theorem field {fields : Fields} {n : String} (h : FieldsSendable fields)
    (hx : Table.find? n fields = some x) : x.Sendable := by
  induction fields with
  | nil => cases hx
  | cons e fields ih =>
    rw [Table.find?] at hx
    by_cases hn : e.1 = n
    · rw [if_pos hn] at hx
      cases hx
      exact h.1
    · rw [if_neg hn] at hx
      exact ih h.2 hx

theorem member {s : Step} (h : v.Sendable) (hx : v.member s = .ok x) : x.Sendable := by
  cases s with
  | index i =>
    obtain ⟨items, k, rfl, -, hk⟩ := member_index_eq_ok.1 hx
    exact item h.2 (List.mem_of_getElem? hk)
  | name n =>
    obtain ⟨kind, fields, rfl, hn⟩ := member_name_eq_ok.1 hx
    exact field h hn

theorem get {p : Path} (h : v.Sendable) (hx : v.get p = .ok x) : x.Sendable := by
  induction p generalizing v with
  | nil =>
    cases hx
    exact h
  | cons s p ih =>
    obtain ⟨y, hy, hx⟩ := get_cons.1 hx
    exact ih (h.member hy) hx

end Value.Sendable

/-! ## Entries that lead through fields -/

/-- The step is one into a field. -/
def Step.IsName : Step → Prop
  | .index _ => False
  | .name _ => True

instance : ∀ s : Step, Decidable s.IsName
  | .index _ => inferInstanceAs (Decidable False)
  | .name _ => inferInstanceAs (Decidable True)

theorem Ty.Has.exists_get {p : Path} {t u : Ty} {v : Value} (h : t.Has v)
    (hp : ∀ s ∈ p, s.IsName) (hf : t.follow p = .ok u) : ∃ x, v.get p = .ok x := by
  induction p generalizing t v with
  | nil => exact ⟨v, rfl⟩
  | cons s p ih =>
    obtain ⟨hname, hnames⟩ := List.forall_mem_cons.1 hp
    obtain ⟨t', ht, hrest⟩ := follow_cons.1 hf
    cases s with
    | index i => exact hname.elim
    | name n =>
      obtain ⟨kind, name, table, rfl, hn⟩ := step_name_eq_ok.1 ht
      obtain ⟨fields, rfl, -, -, hh⟩ := has_record.1 h
      obtain ⟨y, hy, hty⟩ := hh.of_find? hn
      obtain ⟨x, hx⟩ := ih hty hnames hrest
      exact ⟨x, Value.get_cons.2 ⟨y, Value.member_name_eq_ok.2 ⟨kind, fields, rfl, hy⟩, hx⟩⟩

mutual

/-- The entry and those for the items of its array lead through fields. -/
def Encoding.Named : Encoding → Prop
  | .base _ path => ∀ s ∈ path, s.IsName
  | .array path element => (∀ s ∈ path, s.IsName) ∧ Named element
  | .enum path _ => ∀ s ∈ path, s.IsName

/-- All entries lead through fields. -/
def Named : List Encoding → Prop
  | [] => True
  | e :: rest => e.Named ∧ Named rest

end

mutual

instance Encoding.decidableNamed : ∀ e : Encoding, Decidable e.Named
  | .base _ path => inferInstanceAs (Decidable (∀ s ∈ path, s.IsName))
  | .array path element =>
    have := decidableNamed element
    inferInstanceAs (Decidable ((∀ s ∈ path, s.IsName) ∧ Named element))
  | .enum path _ => inferInstanceAs (Decidable (∀ s ∈ path, s.IsName))

instance decidableNamed : ∀ encoding : List Encoding, Decidable (Named encoding)
  | [] => inferInstanceAs (Decidable True)
  | e :: rest =>
    have := Encoding.decidableNamed e
    have := decidableNamed rest
    inferInstanceAs (Decidable (e.Named ∧ Named rest))

end

/-! ## Numbers in range -/

/-- The scalar is no number that the kind is too narrow for. -/
def BaseKind.InRange : BaseKind → Scalar → Prop
  | .int k _, .int n => k.Holds n.val
  | _, _ => True

mutual

/-- The numbers that the entry leads to are in the ranges that they travel in. -/
def Encoding.InRange : Encoding → Value → Prop
  | .base kind path, v =>
    match v.get path with
    | .ok (.scalar s) => kind.InRange s
    | _ => True
  | .array path element, v =>
    match v.get path with
    | .ok (.array items) => ∀ item ∈ items, InRange element item
    | _ => True
  | .enum _ _, _ => True

/-- The numbers that an encoding leads to are in the ranges that they travel in. -/
def InRange : List Encoding → Value → Prop
  | [], _ => True
  | e :: rest, v => e.InRange v ∧ InRange rest v

end

theorem exists_encode_cons_iff {e : Encoding} {rest : List Encoding} {v : Value} :
    (∃ b, encode (e :: rest) v = .ofBytes b) ↔
      (∃ b, e.write v = .ofBytes b) ∧ ∃ b, encode rest v = .ofBytes b := by
  simp only [encode_cons_eq_ofBytes]
  constructor
  · rintro ⟨_, x, y, hx, hy, -⟩
    exact ⟨⟨x, hx⟩, y, hy⟩
  · rintro ⟨⟨x, hx⟩, y, hy⟩
    exact ⟨x ++ y, x, y, hx, hy, rfl⟩

/-- A scalar that fits goes to the kind that it travels as, unless it is a number out of range. -/
theorem exists_castBytes_iff {kind : BaseKind} {s : Scalar} (hm : kind.Matches s.type)
    (hs : s.Sendable) :
    (∃ b, castBytes kind.scalarTy (.scalar s) = .ok b) ↔ kind.InRange s := by
  have hcast {s' : Scalar} (h : s.cast? kind.scalarTy = some s') (hs' : s'.Sendable) :
      ∃ b, castBytes kind.scalarTy (.scalar s) = .ok b :=
    ⟨_, castBytes_eq_ok.2 ⟨s', castScalar_eq_ok.2 ⟨s, rfl, h⟩, hs'.scalarBytes_eq⟩⟩
  have hself (h : s.type = kind.scalarTy) : ∃ b, castBytes kind.scalarTy (.scalar s) = .ok b :=
    hcast (h ▸ s.cast?_self) hs
  cases kind with
  | int k hk =>
    obtain ⟨k', hk'⟩ : ∃ k', s.type = .int k' := by
      cases ht : s.type <;> rw [ht] at hm <;> first | exact ⟨_, rfl⟩ | cases hm
    obtain ⟨n, rfl, rfl⟩ := Scalar.exists_int hk'
    constructor
    · rintro ⟨b, hb⟩
      obtain ⟨s', hs', -⟩ := castBytes_eq_ok.1 hb
      obtain ⟨_, ⟨⟩, h⟩ := castScalar_eq_ok.1 hs'
      obtain ⟨i, hi, -⟩ := Option.map_eq_some_iff.1 h
      obtain ⟨rfl, hval⟩ := Integer.ofInt?_eq_some hi
      show i.kind.Holds n.val
      exact hval ▸ i.inRange
    · intro h
      have hsame : (Scalar.int n).cast? (.int k) = some (.int ⟨k, n.val, h⟩) :=
        congrArg (Option.map Scalar.int) (dif_pos h)
      exact hcast hsame trivial
  | _ => exact ⟨fun _ => trivial, fun _ => hself hm⟩

mutual

theorem Encoding.exists_write_iff : ∀ {e : Encoding} {t : Ty} {v : Value}, e.Fits t → e.Named →
    t.Has v → v.Sendable → ((∃ b, e.write v = .ofBytes b) ↔ e.InRange v)
  | .base kind path, t, v, hf, hn, hv, hs => by
    obtain ⟨-, s, hfollow, hm⟩ := fits_base.1 hf
    obtain ⟨x, hx⟩ := hv.exists_get hn hfollow
    obtain ⟨leaf, rfl, rfl⟩ := Ty.has_scalar.1 (hv.get hfollow hx)
    have hleaf : leaf.Sendable := hs.get hx
    have hwrite : (∃ b, (Encoding.base kind path).write v = .ofBytes b) ↔
        ∃ b, castBytes kind.scalarTy (.scalar leaf) = .ok b := by
      simp only [write_base_eq_ofBytes, hx, Except.ok.injEq, exists_eq_left']
    rw [hwrite, exists_castBytes_iff hm hleaf, Encoding.InRange, hx]
  | .array path element, t, v, hf, hn, hv, hs => by
    obtain ⟨-, u, hfollow, helement⟩ := fits_array.1 hf
    obtain ⟨x, hx⟩ := hv.exists_get hn.1 hfollow
    obtain ⟨items, rfl, hitems⟩ := Ty.has_array.1 (hv.get hfollow hx)
    obtain ⟨hlength, hsend⟩ : (Value.array items).Sendable := hs.get hx
    have hitem {item : Value} (h : item ∈ items) :=
      exists_encode_iff helement hn.2 (hitems item h) (Value.Sendable.item hsend h)
    rw [Encoding.InRange, hx]
    constructor
    · rintro ⟨b, hb⟩ item hi
      obtain ⟨_, chunks, hy, -, hc, -⟩ := write_array_eq_ofBytes.1 hb
      cases hx.symm.trans hy
      obtain ⟨c, -, hc⟩ := exists_mem_of_forall₂ hc hi
      exact (hitem hi).1 ⟨c, hc⟩
    · intro h
      have hc : List.Forall₂ (fun item c => encode element item = .ofBytes c) items
          (items.map fun item => (encode element item).bytes) := by
        refine List.forall₂_map_right_iff.2 (List.forall₂_same.2 fun item hi => ?_)
        obtain ⟨c, hc⟩ := (hitem hi).2 (h item hi)
        rw [hc]
        rfl
      exact ⟨_, write_array_eq_ofBytes.2 ⟨items, _, hx, hlength, hc, rfl⟩⟩
  | .enum path table, t, v, hf, hn, hv, hs => by
    obtain ⟨-, -, hfollow⟩ := fits_enum.1 hf
    obtain ⟨x, hx⟩ := hv.exists_get hn hfollow
    obtain ⟨leaf, rfl, hleaf⟩ := Ty.has_scalar.1 (hv.get hfollow hx)
    obtain ⟨key, rfl⟩ := Scalar.exists_string hleaf
    exact ⟨fun _ => trivial, fun _ => ⟨_, write_enum_eq_ofBytes.2 ⟨_, hx, rfl⟩⟩⟩

/-- A value of a type that the encoding fits is written when its numbers are in range. -/
theorem exists_encode_iff : ∀ {encoding : List Encoding} {t : Ty} {v : Value}, Fits encoding t →
    Named encoding → t.Has v → v.Sendable →
      ((∃ b, encode encoding v = .ofBytes b) ↔ InRange encoding v)
  | [], _, _, _, _, _, _ => ⟨fun _ => trivial, fun _ => ⟨[], rfl⟩⟩
  | e :: rest, t, v, hf, hn, hv, hs => by
    rw [exists_encode_cons_iff, Encoding.exists_write_iff hf.1 hn.1 hv hs,
      exists_encode_iff hf.2.2 hn.2 hv hs, InRange]

end

/-! ## Scalars that travel as what they are -/

mutual

/-- Each scalar that the entry leads to travels as the type that it has. -/
def Encoding.Exact : Encoding → Ty → Prop
  | .base kind path, t =>
    match t.follow path with
    | .ok (.scalar s) => s = kind.scalarTy
    | _ => False
  | .array path element, t =>
    match t.follow path with
    | .ok (.array u) => Exact element u
    | _ => False
  | .enum _ _, _ => True

/-- Each scalar that an encoding leads to travels as the type that it has. -/
def Exact : List Encoding → Ty → Prop
  | [], _ => True
  | e :: rest, t => e.Exact t ∧ Exact rest t

end

mutual

instance Encoding.decidableExact : ∀ (e : Encoding) (t : Ty), Decidable (e.Exact t)
  | .base kind path, t =>
    have : Decidable (match t.follow path with
        | .ok (.scalar s) => s = kind.scalarTy
        | _ => False) := by
      split <;> infer_instance
    this
  | .array path element, t =>
    have : Decidable (match t.follow path with
        | .ok (.array u) => Exact element u
        | _ => False) := by
      split
      · exact decidableExact element _
      · infer_instance
    this
  | .enum _ _, _ => inferInstanceAs (Decidable True)

instance decidableExact : ∀ (encoding : List Encoding) (t : Ty), Decidable (Exact encoding t)
  | [], _ => inferInstanceAs (Decidable True)
  | e :: rest, t =>
    have := Encoding.decidableExact e t
    have := decidableExact rest t
    inferInstanceAs (Decidable (_ ∧ _))

end

theorem BaseKind.inRange_of_type {kind : BaseKind} {s : Scalar} (h : s.type = kind.scalarTy) :
    kind.InRange s := by
  cases kind with
  | int k hk =>
    obtain ⟨n, rfl, rfl⟩ := Scalar.exists_int h
    exact n.inRange
  | _ => exact trivial

mutual

theorem Encoding.Exact.inRange : ∀ {e : Encoding} {t : Ty} {v : Value}, e.Exact t → t.Has v →
    e.InRange v
  | .base kind path, t, v, h, hv => by
    rw [Encoding.Exact] at h
    split at h
    · rename_i s hs
      rw [Encoding.InRange]
      split
      · rename_i leaf hleaf
        obtain ⟨_, ⟨⟩, hty⟩ := Ty.has_scalar.1 (hv.get hs hleaf)
        exact BaseKind.inRange_of_type (hty.trans h)
      · trivial
    · exact h.elim
  | .array path element, t, v, h, hv => by
    rw [Encoding.Exact] at h
    split at h
    · rename_i u hu
      rw [Encoding.InRange]
      split
      · rename_i items hitems
        obtain ⟨_, ⟨⟩, hi⟩ := Ty.has_array.1 (hv.get hu hitems)
        exact fun item hmem => Exact.inRange h (hi item hmem)
      · trivial
    · exact h.elim
  | .enum _ _, _, _, _, _ => trivial

theorem Exact.inRange : ∀ {encoding : List Encoding} {t : Ty} {v : Value}, Exact encoding t →
    t.Has v → InRange encoding v
  | [], _, _, _, _ => trivial
  | _ :: _, _, _, h, hv => ⟨h.1.inRange hv, Exact.inRange h.2 hv⟩

end

/-! ## Argument lists -/

theorem exists_encodeArguments_iff {encoding : List Encoding} {entries : List (Nat × Encoding)}
    {args : List Value} (hs : encoding.mapM Encoding.splitParameter = .ok entries) :
    (∃ b, encodeArguments encoding args = .ofBytes b) ↔
      ∀ e ∈ entries, ∃ a, args[e.1]? = some a ∧ ∃ b, e.2.write a = .ofBytes b := by
  induction encoding generalizing entries with
  | nil =>
    cases hs
    exact ⟨fun _ _ he => absurd he List.not_mem_nil, fun _ => ⟨[], rfl⟩⟩
  | cons e encoding ih =>
    obtain ⟨⟨i, own⟩, rest, he, hrest, rfl⟩ := mapM_cons_eq_ok.1 hs
    simp only [encodeArguments_cons_eq_ofBytes he, List.forall_mem_cons, ← ih hrest]
    constructor
    · rintro ⟨_, a, x, y, ha, hx, hy, -⟩
      exact ⟨⟨a, ha, x, hx⟩, y, hy⟩
    · rintro ⟨⟨a, ha, x, hx⟩, y, hy⟩
      exact ⟨_, a, x, y, ha, hx, hy, rfl⟩

/-! ## Keys of one number -/

mutual

/-- The entry leads to no part that is enumerated. -/
def Encoding.Keyless : Encoding → Prop
  | .base _ _ => True
  | .array _ element => Keyless element
  | .enum _ _ => False

/-- No entry leads to a part that is enumerated. -/
def Keyless : List Encoding → Prop
  | [] => True
  | e :: rest => e.Keyless ∧ Keyless rest

end

mutual

instance Encoding.decidableKeyless : ∀ e : Encoding, Decidable e.Keyless
  | .base _ _ => inferInstanceAs (Decidable True)
  | .array _ element => decidableKeyless element
  | .enum _ _ => inferInstanceAs (Decidable False)

instance decidableKeyless : ∀ encoding : List Encoding, Decidable (Keyless encoding)
  | [] => inferInstanceAs (Decidable True)
  | e :: rest =>
    have := Encoding.decidableKeyless e
    have := decidableKeyless rest
    inferInstanceAs (Decidable (e.Keyless ∧ Keyless rest))

end

mutual

theorem Encoding.Keyless.keyed : ∀ {e : Encoding}, e.Keyless → ∀ v, e.Keyed v
  | .base _ _, _, _ => trivial
  | .array path element, h, v => by
    rw [Encoding.Keyed]
    split
    · exact fun item _ => Keyless.keyed h item
    · trivial

theorem Keyless.keyed : ∀ {encoding : List Encoding}, Keyless encoding → ∀ v, Keyed encoding v
  | [], _, _ => trivial
  | _ :: _, h, v => ⟨h.1.keyed v, Keyless.keyed h.2 v⟩

end

theorem inRange_iff {encoding : List Encoding} {v : Value} :
    InRange encoding v ↔ ∀ e ∈ encoding, e.InRange v := by
  induction encoding with
  | nil => exact ⟨fun _ _ he => absurd he List.not_mem_nil, fun _ => trivial⟩
  | cons e encoding ih => rw [InRange, ih, List.forall_mem_cons]

theorem keyed_iff {encoding : List Encoding} {v : Value} :
    Keyed encoding v ↔ ∀ e ∈ encoding, e.Keyed v := by
  induction encoding with
  | nil => exact ⟨fun _ _ he => absurd he List.not_mem_nil, fun _ => trivial⟩
  | cons e encoding ih => rw [Keyed, ih, List.forall_mem_cons]

theorem named_iff {encoding : List Encoding} : Named encoding ↔ ∀ e ∈ encoding, e.Named := by
  induction encoding with
  | nil => exact ⟨fun _ _ he => absurd he List.not_mem_nil, fun _ => trivial⟩
  | cons e encoding ih => rw [Named, ih, List.forall_mem_cons]

/-- Of the entries that fit a type no two lead to one part. -/
theorem Fits.eq_or_apart {encoding : List Encoding} {t : Ty} (h : Fits encoding t)
    {e e' : Encoding} (he : e ∈ encoding) (he' : e' ∈ encoding) :
    e = e' ∨ e.path.Apart e'.path := by
  induction encoding with
  | nil => cases he
  | cons first encoding ih =>
    obtain ⟨-, hapart, hrest⟩ := h
    rcases List.mem_cons.1 he with rfl | hmem
    · rcases List.mem_cons.1 he' with rfl | hmem'
      · exact Or.inl rfl
      · exact Or.inr (hapart e' hmem')
    · rcases List.mem_cons.1 he' with rfl | hmem'
      · exact Or.inr (hapart e hmem).symm
      · exact ih hrest hmem hmem'

theorem Encoding.Fits.exists_get {e : Encoding} {t : Ty} {v : Value} (h : e.Fits t)
    (hn : e.Named) (hv : t.Has v) : ∃ x, v.get e.path = .ok x := by
  obtain ⟨-, u, hu⟩ := h.resolves
  cases e with
  | base kind path => exact hv.exists_get hn hu
  | array path element => exact hv.exists_get hn.1 hu
  | enum path table => exact hv.exists_get hn hu

/-- What is written of an entry depends on nothing but the part that it leads to. -/
theorem Encoding.write_eq_of_get {e : Encoding} {v w : Value} (h : v.get e.path = w.get e.path) :
    e.write v = e.write w := by
  cases e with
  | base kind path | array path element | enum path table =>
    rw [write, write, show v.get path = w.get path from h]

theorem encode_eq_of_write {encoding : List Encoding} {v w : Value}
    (h : ∀ e ∈ encoding, e.write v = e.write w) : encode encoding v = encode encoding w := by
  induction encoding with
  | nil => rfl
  | cons e encoding ih =>
    obtain ⟨he, hrest⟩ := List.forall_mem_cons.1 h
    rw [encode, encode, he, ih hrest]

/-- A key of an enumeration is written as any other key of the same number. -/
theorem encode_set {encoding : List Encoding} {t : Ty} {path : Path} {table : EnumTable}
    {v w : Value} {key key' : String} (hf : Fits encoding t) (hn : Named encoding) (hv : t.Has v)
    (he : .enum path table ∈ encoding) (hkey : v.get path = .ok (.string key))
    (hw : v.set (.string key') path = .ok w) (hnumber : table.number key = table.number key') :
    encode encoding v = encode encoding w := by
  refine encode_eq_of_write fun e hmem => ?_
  rcases hf.eq_or_apart he hmem with rfl | hapart
  · rw [Encoding.write, Encoding.write, hkey, Value.get_set_self hw]
    simp only [bind_of_ok rfl, entryBytes, hnumber]
  · obtain ⟨x, hx⟩ := (hf.of_mem hmem).exists_get (named_iff.1 hn e hmem) hv
    exact Encoding.write_eq_of_get (hx.trans (Value.get_set_apart hw hapart hx).symm)

end Parley
