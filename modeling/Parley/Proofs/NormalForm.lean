import Parley.Proofs.Reading
import Parley.Proofs.RoundTrip
import Parley.Proofs.Surrogates

/-!
# What was read is written in normal form

Reading accepts more than writing produces: any byte but zero is true, surrogates need no partner
and an unknown enumeration number stands for the default key. A value that was read is written in as
many bytes as were read, those bytes are read as the same value, and they are the bytes that were
read just if these were in strict form.

* `BaseKind.Strict`, `Encoding.Strict`, `Strict` : bytes in strict form, entry by entry.
* `EnumTable.Closed`, `Closed` : tables that have their own default as an entry.
* `Canonical` : the bytes in strict form that stand for the bytes a reader took; `Canonical.append`.
* `exists_bytes_of_decodeScalar` : the normal form of a scalar of the wire.
* `Encoding.Renders`, `Renders` : the normal form of what entries read; one lemma for each kind of
  entry, and `renders_of_fits` by recursion over the tree of entries.
* `encode_decode_normal` : values.
-/

namespace Parley

/-! ## Strict form -/

/-- The bytes of a scalar of the wire in strict form: truth values are zero or one, the surrogates
of a text come in pairs. -/
def BaseKind.Strict : BaseKind → List UInt8 → Prop
  | .zcstring, b => ∃ units, b = units.flatMap (fun u => littleEndian 2 u.toNat) ++ [0, 0] ∧
    (0 : UInt16) ∉ units ∧ Utf16.WellFormed units
  | .int k _, b => b.length = k.bytes
  | .float, b => b.length = 4
  | .double, b => b.length = 8
  | .boolean, b => b = [0] ∨ b = [1]

mutual

/-- The bytes of an entry in strict form: scalars are, the items of an array follow their count, and
enumeration numbers are in their table. -/
def Encoding.Strict : Encoding → List UInt8 → Prop
  | .base kind _, b => kind.Strict b
  | .array _ element, b => ∃ head tail, b = head ++ tail ∧ head.length = 4 ∧
    ∃ chunks : List (List UInt8), tail = chunks.flatten ∧
      chunks.length = ofLittleEndian head ∧ ∀ chunk ∈ chunks, Strict element chunk
  | .enum _ table, b => b.length = 4 ∧
    (Integer.ofBits .i32 (ofLittleEndian b)).val ∈ table.entries.map Prod.snd

/-- The bytes of a list of entries in strict form. -/
def Strict : List Encoding → List UInt8 → Prop
  | [], b => b = []
  | e :: rest, b => ∃ x y, b = x ++ y ∧ e.Strict x ∧ Strict rest y

end

/-- The default of a table is one of its entries. -/
def EnumTable.Closed (t : EnumTable) : Prop :=
  (t.defaultKey, t.defaultNumber) ∈ t.entries

instance (t : EnumTable) : Decidable t.Closed :=
  inferInstanceAs (Decidable (_ ∈ _))

mutual

/-- The tables of an entry have their defaults as entries. -/
def Encoding.Closed : Encoding → Prop
  | .base _ _ => True
  | .array _ element => Closed element
  | .enum _ table => table.Closed

/-- The tables of all entries have their defaults as entries. -/
def Closed : List Encoding → Prop
  | [] => True
  | e :: rest => e.Closed ∧ Closed rest

end

mutual

instance Encoding.decidableClosed : ∀ e : Encoding, Decidable e.Closed
  | .base _ _ => inferInstanceAs (Decidable True)
  | .array _ element => decidableClosed element
  | .enum _ table => inferInstanceAs (Decidable table.Closed)

instance decidableClosed : ∀ encoding : List Encoding, Decidable (Closed encoding)
  | [] => inferInstanceAs (Decidable True)
  | e :: rest =>
    have := Encoding.decidableClosed e
    have := decidableClosed rest
    inferInstanceAs (Decidable (_ ∧ _))

end

/-- The number of the key that a number is read as: the number itself if it is in the table. -/
theorem EnumTable.Lawful.number_key {t : EnumTable} (h : t.Lawful) (hc : t.Closed) (n : Int) :
    t.key n ∈ t.entries.map Prod.fst ∧ t.number (t.key n) ∈ t.entries.map Prod.snd ∧
      (n ∈ t.entries.map Prod.snd → t.number (t.key n) = n) := by
  have hnumber {e : String × Int} (he : e ∈ t.entries) : t.number e.1 = e.2 := by
    rw [number, find?_fst h.keys he]
  rw [EnumTable.key]
  cases hf : t.entries.find? (fun e => e.2 = n) with
  | some e =>
    have he : e ∈ t.entries := List.mem_of_find?_eq_some hf
    have hn : e.2 = n := by simpa using List.find?_some hf
    simp only
    rw [hnumber he]
    exact ⟨List.mem_map_of_mem he, List.mem_map_of_mem he, fun _ => hn⟩
  | none =>
    simp only
    rw [hnumber hc]
    refine ⟨List.mem_map_of_mem hc, List.mem_map_of_mem hc, fun hmem => ?_⟩
    obtain ⟨e, he, rfl⟩ := List.mem_map.1 hmem
    have := List.find?_eq_none.1 hf e he
    simp at this

/-! ## Normal forms -/

/-- Between the cursors `c` and `c'` as many bytes were taken as `b` has, `b` is in the form `S`,
and bytes at `c` that are in that form are none other than `b`. -/
structure Canonical (c c' : Cursor) (S : List UInt8 → Prop) (b : List UInt8) : Prop where
  taken : ∃ x, c.rest = x ++ c'.rest ∧ c'.offset = c.offset + x.length ∧ b.length = x.length
  strict : S b
  unique : ∀ y more, c.rest = y ++ more → S y → y = b

namespace Canonical

variable {c c₁ c' : Cursor} {S S' : List UInt8 → Prop} {b b' : List UInt8}

theorem nil (c : Cursor) : Canonical c c (fun y => y = []) [] :=
  ⟨⟨[], rfl, rfl, rfl⟩, rfl, fun _ _ _ h => h⟩

/-- Forms one after the other; the second may depend on what stands in front. -/
theorem append {T : List UInt8 → List UInt8 → Prop} (h : Canonical c c₁ S b)
    (h' : Canonical c₁ c' (T b) b') :
    Canonical c c' (fun z => ∃ y y', z = y ++ y' ∧ S y ∧ T y y') (b ++ b') where
  taken := by
    obtain ⟨x, hx, ho, hl⟩ := h.taken
    obtain ⟨x', hx', ho', hl'⟩ := h'.taken
    refine ⟨x ++ x', ?_, ?_, ?_⟩
    · rw [hx, hx', List.append_assoc]
    · rw [ho', ho, List.length_append, Nat.add_assoc]
    · rw [List.length_append, List.length_append, hl, hl']
  strict := ⟨b, b', rfl, h.strict, h'.strict⟩
  unique := by
    rintro _ more hz ⟨y, y', rfl, hy, hy'⟩
    rw [List.append_assoc] at hz
    obtain rfl := h.unique y _ hz hy
    obtain ⟨x, hx, -, hl⟩ := h.taken
    rw [hx] at hz
    obtain ⟨-, hrest⟩ := List.append_inj hz hl.symm
    rw [h'.unique y' more hrest hy']

theorem congr (h : Canonical c c' S b) (hs : ∀ y, S y ↔ S' y) : Canonical c c' S' b :=
  ⟨h.taken, (hs b).1 h.strict, fun y more hy h' => h.unique y more hy ((hs y).2 h')⟩

theorem of_number {α : Type} {n : Nat} {f : Nat → α} {a : α}
    (h : Reader.run (do return f (ofLittleEndian (← Reader.take n))) c = (.ok a, c')) :
    ∃ x, a = f (ofLittleEndian x) ∧ ofLittleEndian x < 256 ^ n ∧
      littleEndian n (ofLittleEndian x) = x ∧ Canonical c c' (fun y => y.length = n) x := by
  obtain ⟨x, c₁, hx, h⟩ := Reader.of_run_bind h
  cases h
  obtain ⟨rfl, hrest, ho⟩ := Reader.of_run_take hx
  refine ⟨x, rfl, ofLittleEndian_lt x, littleEndian_ofLittleEndian x, ⟨x, hrest, ho, rfl⟩, rfl,
    fun y more hy hl => ?_⟩
  rw [hrest] at hy
  exact (List.append_inj hy hl.symm).1.symm

end Canonical

/-! ## Scalars of the wire -/

section

variable {c c' : Cursor}

/-- A text is written with the surrogates that its characters have. -/
theorem canonical_of_zcstring {text : String} (h : Reader.zcstring c = (.ok text, c')) :
    scalarBytes (.string text) = .ok (zeroTerminated text) ∧
      Canonical c c' BaseKind.zcstring.Strict (zeroTerminated text) := by
  rw [Reader.zcstring] at h
  cases hs : splitUnits c.rest with
  | none =>
    simp only [hs] at h
    cases h
  | some p =>
    obtain ⟨us, rest⟩ := p
    simp only [hs] at h
    cases h
    obtain ⟨hz, hbytes⟩ := eq_append_of_splitUnits hs
    have hnone : '\x00' ∉ (Utf16.decode us).toList := Utf16.zero_not_mem_decode hz
    have hlength : (us.flatMap fun u => littleEndian 2 u.toNat).length = 2 * us.length :=
      length_flatMap_littleEndian us
    constructor
    · rw [scalarBytes, if_neg (by simpa using hnone)]
      rfl
    refine ⟨⟨us.flatMap (fun u => littleEndian 2 u.toNat) ++ [0, 0], ?_, ?_, ?_⟩,
      ⟨Utf16.encode (Utf16.decode us), rfl, Utf16.zero_not_mem_encode hnone,
        Utf16.wellFormed_encode _⟩, ?_⟩
    · rw [hbytes, List.append_assoc]
    · rw [List.length_append, hlength]
      rfl
    · rw [length_zeroTerminated, Utf16.length_encode_decode, List.length_append, hlength]
      rfl
    · rintro y more hy ⟨us', rfl, hz', hwell⟩
      rw [List.append_assoc] at hy
      have hsame := splitUnits_append hz' more
      rw [← hy, hs] at hsame
      cases hsame
      rw [zeroTerminated, Utf16.encode_decode_eq_iff.2 hwell]

theorem exists_bytes_of_number {α : Type} {n : Nat} {f : Nat → α} {g : α → Scalar} {a : α}
    (h : Reader.run (do return f (ofLittleEndian (← Reader.take n))) c = (.ok a, c'))
    (hg : ∀ m < 256 ^ n, scalarBytes (g (f m)) = .ok (littleEndian n m)) :
    ∃ m b, a = f m ∧ scalarBytes (g a) = .ok b ∧ Canonical c c' (fun y => y.length = n) b := by
  obtain ⟨x, rfl, hlt, hback, hcanon⟩ := Canonical.of_number h
  exact ⟨_, x, rfl, (hg _ hlt).trans (congrArg Except.ok hback), hcanon⟩

theorem exists_bytes_of_boolean {v : Bool}
    (h : Reader.run (do return decide (ofLittleEndian (← Reader.take 1) ≠ 0)) c = (.ok v, c')) :
    ∃ b, scalarBytes (.bool v) = .ok b ∧ Canonical c c' BaseKind.boolean.Strict b := by
  obtain ⟨x, rfl, -, -, hcanon⟩ := Canonical.of_number (f := fun n => decide (n ≠ 0)) h
  obtain ⟨byte, rfl⟩ := List.length_eq_one_iff.1 hcanon.strict
  obtain ⟨x, hrest, ho, hl⟩ := hcanon.taken
  refine ⟨[if ofLittleEndian [byte] ≠ 0 then 1 else 0], by simp [scalarBytes, Scalar.toBytes],
    ⟨x, hrest, ho, hl⟩, ?_, ?_⟩
  · by_cases hz : ofLittleEndian [byte] ≠ 0
    · exact Or.inr (by rw [if_pos hz])
    · exact Or.inl (by rw [if_neg hz])
  · rintro _ more hy (rfl | rfl)
    · cases hcanon.unique [0] more hy rfl
      rfl
    · cases hcanon.unique [1] more hy rfl
      rfl

/-- Reading a scalar of the wire: it is of its kind and has a normal form. -/
theorem exists_bytes_of_decodeScalar {kind : BaseKind} {s : Scalar}
    (h : (decodeScalar kind).run c = (.ok s, c')) :
    s.type = kind.scalarTy ∧ ∃ b, scalarBytes s = .ok b ∧ Canonical c c' kind.Strict b := by
  cases kind with
  | zcstring =>
    obtain ⟨text, c₁, ht, h⟩ := Reader.of_run_bind h
    cases h
    exact ⟨rfl, _, canonical_of_zcstring ht⟩
  | int k hk =>
    obtain ⟨_, c₁, hn, h⟩ := Reader.of_run_bind h
    cases h
    have hbytes (m : Nat) (hm : m < 256 ^ k.bytes) :
        scalarBytes (.int (Integer.ofBits k m)) = .ok (littleEndian k.bytes m) :=
      congrArg (fun bits => Except.ok (littleEndian k.bytes bits))
        (Integer.toBits_ofBits (k.modulus_eq ▸ hm))
    obtain ⟨m, b, rfl, hb⟩ := exists_bytes_of_number hn hbytes
    exact ⟨rfl, b, hb⟩
  | float =>
    obtain ⟨_, c₁, hn, h⟩ := Reader.of_run_bind h
    cases h
    have hbytes (m : Nat) (hm : m < 256 ^ 4) :
        scalarBytes (.float (.ofNat m)) = .ok (littleEndian 4 m) :=
      congrArg (fun bits => Except.ok (littleEndian 4 bits)) (UInt32.toNat_ofNat_of_lt' hm)
    obtain ⟨m, b, -, hb⟩ := exists_bytes_of_number hn hbytes
    exact ⟨rfl, b, hb⟩
  | double =>
    obtain ⟨_, c₁, hn, h⟩ := Reader.of_run_bind h
    cases h
    have hbytes (m : Nat) (hm : m < 256 ^ 8) :
        scalarBytes (.double (.ofNat m)) = .ok (littleEndian 8 m) :=
      congrArg (fun bits => Except.ok (littleEndian 8 bits)) (UInt64.toNat_ofNat_of_lt' hm)
    obtain ⟨m, b, -, hb⟩ := exists_bytes_of_number hn hbytes
    exact ⟨rfl, b, hb⟩
  | boolean =>
    obtain ⟨_, c₁, hn, h⟩ := Reader.of_run_bind h
    cases h
    exact ⟨rfl, exists_bytes_of_boolean hn⟩

end

/-- A scalar of the wire that went to a leaf it can carry goes back to itself. -/
theorem BaseKind.Matches.cast?_back {kind : BaseKind} {t : ScalarTy} {s s' : Scalar}
    (h : kind.Matches t) (hk : s.type = kind.scalarTy) (hs : s.cast? t = some s') :
    s'.cast? kind.scalarTy = some s := by
  cases kind with
  | int k hb =>
    obtain ⟨n, rfl, rfl⟩ := Scalar.exists_int hk
    obtain ⟨k', rfl⟩ : ∃ k', t = .int k' := by
      cases t <;> first | exact ⟨_, rfl⟩ | cases h
    obtain ⟨m, hm, rfl⟩ := Option.map_eq_some_iff.1 hs
    show (Integer.ofInt? n.kind m.val).map Scalar.int = _
    rw [(Integer.ofInt?_eq_some hm).2, Integer.ofInt?_val]
    rfl
  | _ =>
    rw [show t = _ from h, ← hk, Scalar.cast?_self] at hs
    cases hs
    rw [← hk, Scalar.cast?_self]

/-! ## Single entries -/

/-- What the entry reads has a normal form: wherever the part that was read is found it is written
so, and read from that form it is the same. -/
def Encoding.Renders (e : Encoding) (t : Ty) : Prop :=
  ∀ {z w : Value} {c c' : Cursor}, (e.read t z).run c = (.ok w, c') → ∃ part b,
    z.set part e.path = .ok w ∧ Canonical c c' e.Strict b ∧
      (∀ v : Value, v.get e.path = .ok part → e.write v = .ofBytes b) ∧
      ∀ (o : Nat) (rest : List UInt8),
        (e.read t z).run ⟨o, b ++ rest⟩ = (.ok w, ⟨o + b.length, rest⟩)

/-- What the entries read has a normal form, and parts apart from all entries stay. -/
def Renders (encoding : List Encoding) (t : Ty) : Prop :=
  ∀ {z w : Value} {c c' : Cursor}, (fill encoding t z).run c = (.ok w, c') → ∃ b,
    Canonical c c' (Strict encoding) b ∧ encode encoding w = .ofBytes b ∧
      (∀ (o : Nat) (rest : List UInt8),
        (fill encoding t z).run ⟨o, b ++ rest⟩ = (.ok w, ⟨o + b.length, rest⟩)) ∧
      ∀ q x, (∀ e ∈ encoding, e.path.Apart q) → z.get q = .ok x → w.get q = .ok x

theorem renders_base {kind : BaseKind} {path : Path} {t : Ty} {s : ScalarTy}
    (hs : t.follow path = .ok (.scalar s)) (hm : kind.Matches s) :
    (Encoding.base kind path).Renders t := by
  intro z w c c' h
  obtain ⟨target, wire, x, ht, hwire, hx, hw⟩ := Encoding.run_read_base.1 h
  cases hs.symm.trans ht
  obtain ⟨hkind, b, hb, hcanon⟩ := exists_bytes_of_decodeScalar hwire
  obtain ⟨leaf, hleaf, hpart⟩ := bind_eq_ok.1 hx
  cases hpart
  obtain ⟨_, hl, hcast⟩ := castScalar_eq_ok.1 hleaf
  cases hl
  refine ⟨.scalar leaf, b, hw, hcanon, fun v hv => ?_, fun o rest => ?_⟩
  · exact write_base_eq_ofBytes.2 ⟨.scalar leaf, hv, castBytes_eq_ok.2
      ⟨wire, castScalar_eq_ok.2 ⟨leaf, rfl, hm.cast?_back hkind hcast⟩, hb⟩⟩
  · exact Encoding.run_read_base.2
      ⟨_, wire, _, hs, run_decodeScalar hkind hb rest o, hx, hw⟩

theorem renders_enum {path : Path} {table : EnumTable} {t : Ty}
    (hs : t.follow path = .ok .string) (hl : table.Lawful) (hc : table.Closed) :
    (Encoding.enum path table).Renders t := by
  intro z w c c' h
  obtain ⟨target, bits, part, ht, hbits, hpart, hw⟩ := Encoding.run_read_enum.1 h
  cases hs.symm.trans ht
  obtain ⟨x, rfl, hlt, hback, hx⟩ := Canonical.of_number (f := id) hbits
  have hkey : part = .string (table.key (Integer.ofBits .i32 (ofLittleEndian x)).val) :=
    (Except.ok.inj hpart).symm
  obtain ⟨hmem, hnumber, hsame⟩ :=
    hl.number_key hc (Integer.ofBits .i32 (ofLittleEndian x)).val
  generalize hname : table.key (Integer.ofBits .i32 (ofLittleEndian x)).val = key at *
  obtain ⟨hholds, hread⟩ := hl.key_number hmem
  have hfits : (table.number key % IntKind.u32.modulus).toNat < IntKind.u32.modulus :=
    Integer.toBits_lt ⟨.i32, table.number key, hholds⟩
  have hval : (Integer.ofBits .i32 (table.number key % IntKind.u32.modulus).toNat).val =
      table.number key := Integer.valueOfBits_emod hholds
  subst hkey
  refine ⟨.string key, littleEndian 4 (table.number key % IntKind.u32.modulus).toNat, hw, ?_,
    fun v hv => write_enum_eq_ofBytes.2 ⟨.string key, hv, rfl⟩, fun o rest => ?_⟩
  · obtain ⟨y, hy, ho, hlen⟩ := hx.taken
    refine ⟨⟨y, hy, ho, ?_⟩, ⟨length_littleEndian _ _, ?_⟩, ?_⟩
    · rw [length_littleEndian, ← hlen]
      exact hx.strict.symm
    · rw [ofLittleEndian_littleEndian hfits, hval]
      exact hnumber
    · rintro y' more hy' ⟨hlen', hin⟩
      obtain rfl := hx.unique y' more hy' hlen'
      -- the number is in the table, so its key has no other one
      rw [hsame hin]
      have hbits : (Integer.ofBits .i32 (ofLittleEndian y')).toBits = ofLittleEndian y' :=
        Integer.toBits_ofBits hlt
      exact (hback.symm.trans (congrArg (littleEndian 4) hbits.symm))
  · refine Encoding.run_read_enum.2 ⟨_, (table.number key % IntKind.u32.modulus).toNat,
      .string key, hs, ?_, ?_, hw⟩
    · rw [length_littleEndian]
      exact Reader.run_word hfits rest o
    · rw [enumValue, hval, hread]

theorem Renders.items {element : List Encoding} {u : Ty} (hr : Renders element u)
    {items ws : List Value} {c c' : Cursor}
    (h : Reader.run (items.mapM fun item => fill element u item) c = (.ok ws, c')) :
    ∃ chunks, Canonical c c' (fun y => ∃ chunks : List (List UInt8), y = chunks.flatten ∧
        chunks.length = items.length ∧ ∀ chunk ∈ chunks, Strict element chunk) chunks.flatten ∧
      ws.length = items.length ∧
      List.Forall₂ (fun w b => encode element w = .ofBytes b) ws chunks ∧
      ∀ (o : Nat) (rest : List UInt8),
        Reader.run (items.mapM fun item => fill element u item) ⟨o, chunks.flatten ++ rest⟩ =
          (.ok ws, ⟨o + chunks.flatten.length, rest⟩) := by
  induction items generalizing ws c with
  | nil =>
    cases h
    refine ⟨[], (Canonical.nil _).congr fun y => ?_, rfl, .nil, fun o rest => rfl⟩
    constructor
    · rintro rfl
      exact ⟨[], rfl, rfl, fun _ h => absurd h List.not_mem_nil⟩
    · rintro ⟨chunks, rfl, hl, -⟩
      rw [List.length_eq_zero_iff.1 hl]
      rfl
  | cons item items ih =>
    obtain ⟨w, rest, c₁, hw, hrest, rfl⟩ := Reader.run_mapM_cons_eq_ok.1 h
    obtain ⟨b, hb, hwritten, hagain, -⟩ := hr hw
    obtain ⟨chunks, hchunks, hl, hall, hagain'⟩ := ih hrest
    refine ⟨b :: chunks, ?_, congrArg Nat.succ hl, .cons hwritten hall, fun o more => ?_⟩
    · rw [List.flatten_cons]
      refine (hb.append (T := fun _ y => ∃ chunks : List (List UInt8), y = chunks.flatten ∧
        chunks.length = items.length ∧ ∀ chunk ∈ chunks, Strict element chunk) hchunks).congr ?_
      intro y
      constructor
      · rintro ⟨x, _, rfl, hx, chunks, rfl, hl, hall⟩
        refine ⟨x :: chunks, rfl, congrArg Nat.succ hl, fun chunk hc => ?_⟩
        rcases List.mem_cons.1 hc with rfl | hc
        · exact hx
        · exact hall chunk hc
      · rintro ⟨_ | ⟨x, chunks⟩, rfl, hl, hall⟩
        · cases hl
        · exact ⟨x, chunks.flatten, rfl, hall x List.mem_cons_self, chunks, rfl,
            Nat.succ.inj hl, fun chunk hc => hall chunk (List.mem_cons_of_mem _ hc)⟩
    · rw [List.flatten_cons, List.append_assoc, List.length_append, ← Nat.add_assoc]
      exact Reader.run_mapM_cons (hagain o _) (hagain' _ more)

theorem renders_array {path : Path} {element : List Encoding} {t u : Ty}
    (hs : t.follow path = .ok (.array u)) (hr : Renders element u) :
    (Encoding.array path element).Renders t := by
  intro z w c c' h
  obtain ⟨_, count, c₁, items, ws, ht, hcount, -, hitems, hws, hw⟩ := Encoding.run_read_array.1 h
  cases hs.symm.trans ht
  obtain ⟨head, rfl, hlt, hback, hhead⟩ := Canonical.of_number (f := id) hcount
  obtain ⟨chunks, hchunks, hl, hall, hagain⟩ := hr.items hws
  have hlen : items.length = ofLittleEndian head := length_of_constructItems hitems
  have hwords : ws.length = ofLittleEndian head := hl.trans hlen
  rw [hlen] at hchunks
  refine ⟨.array ws, head ++ chunks.flatten, hw, ?_, fun v hv => ?_, fun o rest => ?_⟩
  · exact hhead.append (T := fun head tail => ∃ chunks : List (List UInt8),
      tail = chunks.flatten ∧ chunks.length = ofLittleEndian head ∧
        ∀ chunk ∈ chunks, Strict element chunk) hchunks
  · refine write_array_eq_ofBytes.2 ⟨ws, chunks, hv, hwords ▸ hlt, hall, ?_⟩
    rw [hwords, hback]
  · refine Encoding.run_read_array.2 ⟨u, ofLittleEndian head, ⟨o + 4, chunks.flatten ++ rest⟩,
      items, ws, hs, ?_, fun hne => ?_, hitems, ?_, hw⟩
    · have hword := Reader.run_word hlt (chunks.flatten ++ rest) o
      rwa [hback, ← List.append_assoc] at hword
    · have hle := length_le_flatten hne hall
      simp only [Cursor.remaining, List.length_append]
      omega
    · have hagain := hagain (o + 4) rest
      have hfour : head.length = 4 := hhead.strict
      rwa [Nat.add_assoc, ← hfour, ← List.length_append, hfour] at hagain

/-! ## Lists of entries -/

theorem renders_nil (t : Ty) : Renders [] t := by
  intro z w c c' h
  obtain ⟨rfl, rfl⟩ := run_fill_nil.1 h
  exact ⟨[], Canonical.nil _, rfl, fun o rest => rfl, fun _ _ _ hx => hx⟩

theorem renders_cons {e : Encoding} {encoding : List Encoding} {t : Ty}
    (ha : ∀ e' ∈ encoding, e.path.Apart e'.path) (he : e.Renders t) (hr : Renders encoding t) :
    Renders (e :: encoding) t := by
  intro z w c c' h
  obtain ⟨z', c₁, hz', h⟩ := run_fill_cons.1 h
  obtain ⟨part, b, hset, hb, hwrite, hagain⟩ := he hz'
  obtain ⟨b', hb', hwritten, hagain', hframe⟩ := hr h
  -- the other entries are apart from this one, so its part stays as it was read
  have hpart : w.get e.path = .ok part :=
    hframe e.path part (fun e' he' => (ha e' he').symm) (Value.get_set_self hset)
  refine ⟨b ++ b', ?_, ?_, fun o rest => ?_, fun q x hq hx => ?_⟩
  · exact hb.append (T := fun _ => Strict encoding) hb'
  · exact encode_cons_eq_ofBytes.2 ⟨b, b', hwrite w hpart, hwritten, rfl⟩
  · rw [List.append_assoc, List.length_append, ← Nat.add_assoc]
    exact run_fill_cons.2 ⟨z', _, hagain o (b' ++ rest), hagain' _ rest⟩
  · exact hframe q x (fun e' he' => hq e' (List.mem_cons_of_mem _ he'))
      (Value.get_set_apart hset (hq e List.mem_cons_self) hx)

mutual

/-- What an entry that fits reads has a normal form. -/
theorem Encoding.renders_of_fits : ∀ {e : Encoding} {t : Ty}, e.Fits t → e.Closed → e.Renders t
  | .base _ _, _, h, _ => by
    obtain ⟨-, s, hs, hm⟩ := fits_base.1 h
    exact renders_base hs hm
  | .enum _ _, _, h, hc => by
    obtain ⟨-, hl, hs⟩ := fits_enum.1 h
    exact renders_enum hs hl hc
  | .array _ _, _, h, hc => by
    obtain ⟨-, u, hu, hf⟩ := fits_array.1 h
    exact renders_array hu (Parley.renders_of_fits hf hc)

theorem renders_of_fits : ∀ {encoding : List Encoding} {t : Ty}, Fits encoding t →
    Closed encoding → Renders encoding t
  | [], t, _, _ => renders_nil t
  | _ :: _, _, ⟨he, ha, hr⟩, ⟨hc, hcs⟩ =>
    renders_cons ha (Encoding.renders_of_fits he hc) (renders_of_fits hr hcs)

end

/-! ## Values -/

/-- A value that is read is written in as many bytes, which are read as the same value. They are the
bytes that were read just if these were in strict form. -/
theorem encode_decode_normal {encoding : List Encoding} {t : Ty} {w : Value} {o : Nat}
    {data : List UInt8} {c : Cursor} (hf : Fits encoding t) (hc : Closed encoding)
    (h : (decode encoding t).run ⟨o, data⟩ = (.ok w, c)) :
    ∃ x b, data = x ++ c.rest ∧ c.offset = o + x.length ∧ encode encoding w = .ofBytes b ∧
      b.length = x.length ∧
      (∀ (o' : Nat) (rest : List UInt8),
        (decode encoding t).run ⟨o', b ++ rest⟩ = (.ok w, ⟨o' + b.length, rest⟩)) ∧
      (b = x ↔ Strict encoding x) := by
  obtain ⟨z, hz, hfill⟩ := run_decode_eq_ok.1 h
  obtain ⟨b, hb, hwritten, hagain, -⟩ := renders_of_fits hf hc hfill
  obtain ⟨x, hx, ho, hl⟩ := hb.taken
  refine ⟨x, b, hx, ho, hwritten, hl, fun o' rest => ?_, ?_⟩
  · exact run_decode_eq_ok.2 ⟨z, hz, hagain o' rest⟩
  · constructor
    · rintro rfl
      exact hb.strict
    · intro hs
      exact (hb.unique x c.rest hx hs).symm

/-- A truth value of 7, half a surrogate pair and an enumeration number without a key become a one,
a replacement character and the default. -/
theorem encode_decode_normal_crew :
    let encoding : List Encoding := [.array [.name "rows"] [.base .boolean []],
      .enum [.name "post"] ⟨"cook", 3, [("cook", 3), ("mate", 4)]⟩, .base .zcstring [.name "ship"]]
    let crew : Ty := .record .value "Crew"
      [("post", .string), ("rows", .array .bool), ("ship", .string)]
    let w : Value := .record .value [("post", .string "cook"),
      ("rows", .array [.bool true, .bool false]), ("ship", .string "\uFFFDa")]
    let data : List UInt8 := [2, 0, 0, 0, 7, 0, 9, 0, 0, 0, 0, 0xD8, 97, 0, 0, 0, 5]
    (decode encoding crew).run ⟨0, data⟩ = (.ok w, ⟨16, [5]⟩) ∧
      ∃ x b, data = x ++ [5] ∧ 16 = 0 + x.length ∧ encode encoding w = .ofBytes b ∧
        b.length = x.length ∧
        (∀ (o' : Nat) (rest : List UInt8),
          (decode encoding crew).run ⟨o', b ++ rest⟩ = (.ok w, ⟨o' + b.length, rest⟩)) ∧
        (b = x ↔ Strict encoding x) := by
  intro encoding crew w data
  have hread : (decode encoding crew).run ⟨0, data⟩ = (.ok w, ⟨16, [5]⟩) := rfl
  have hfits : Fits encoding crew := by decide
  have hclosed : Closed encoding := by decide
  exact ⟨hread, encode_decode_normal hfits hclosed hread⟩

end Parley
