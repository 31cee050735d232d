import Parley.Proofs.Fitting

/-!
# What was written is read back

An encoding that fits a type carries what it covers: reading the bytes of a value yields a value
that agrees with it on every entry, leaves the bytes after them alone and is written alike.

* `Encoding.Restores` : reading an entry into a value that has its part stores what was written;
  one lemma for each kind of entry.
* `Restores` : the same for a list of entries, which leaves the parts apart from all its entries.
* `restores_of_fits` : whatever fits restores, by recursion over the tree of entries.
* `decode_encode_of_fits` : reading a value from its bytes.
-/

namespace Parley

/-- Reading the bytes an entry wrote puts a part in its place, whatever the value held there, and
the result agrees with what was written. -/
def Encoding.Restores (e : Encoding) (t : Ty) : Prop :=
  ∀ {v z old : Value} {b : List UInt8}, t.Has v → e.Keyed v → e.write v = .ofBytes b →
    t.Has z → z.get e.path = .ok old → ∀ (o : Nat) (rest : List UInt8), ∃ x w,
      (e.read t z).run ⟨o, b ++ rest⟩ = (.ok w, ⟨o + b.length, rest⟩) ∧
        z.set x e.path = .ok w ∧ t.Has w ∧ e.Agree v w

/-- Reading the bytes an encoding wrote puts parts in the places of its entries, and touches no part
apart from all of them. -/
def Restores (encoding : List Encoding) (t : Ty) : Prop :=
  ∀ {v z : Value} {b : List UInt8}, t.Has v → Keyed encoding v → encode encoding v = .ofBytes b →
    t.Has z → (∀ e ∈ encoding, ∃ x, z.get e.path = .ok x) →
      ∀ (o : Nat) (rest : List UInt8), ∃ w,
        (fill encoding t z).run ⟨o, b ++ rest⟩ = (.ok w, ⟨o + b.length, rest⟩) ∧
          t.Has w ∧ Agree encoding v w ∧
          ∀ q x, (∀ e ∈ encoding, e.path.Apart q) → z.get q = .ok x → w.get q = .ok x

/-! ## Single entries -/

theorem restores_base {kind : BaseKind} {path : Path} {t : Ty} {s : ScalarTy} (hd : t.Distinct)
    (hs : t.follow path = .ok (.scalar s)) (hm : kind.Matches s) :
    (Encoding.base kind path).Restores t := by
  intro v z old b hv _ hb hz hold o rest
  obtain ⟨y, hy, hb⟩ := write_base_eq_ofBytes.1 hb
  obtain ⟨leaf, rfl, rfl⟩ := Ty.has_scalar.1 (hv.get hs hy)
  obtain ⟨s', hs', hb⟩ := castBytes_eq_ok.1 hb
  obtain ⟨_, hl, hcast⟩ := castScalar_eq_ok.1 hs'
  cases hl
  obtain ⟨w, hw⟩ := Value.exists_set hold (.scalar leaf)
  have hback := cast_scalar_of_cast? (hm.cast?_cast? hcast)
  refine ⟨.scalar leaf, w, ?_, hw, hz.set hd hs (Ty.has_scalar.2 ⟨leaf, rfl, rfl⟩) hw, _, hy,
    Value.get_set_self hw⟩
  rw [Encoding.read, Reader.run_bind_lift hs,
    Reader.run_bind (run_decodeScalar (Scalar.type_of_cast? hcast) hb rest o),
    Reader.run_bind_lift (mapError_eq_ok.2 hback), Reader.run_lift]
  exact congrArg (·, _) hw

theorem restores_enum {path : Path} {table : EnumTable} {t : Ty} (hd : t.Distinct)
    (hs : t.follow path = .ok .string) (hl : table.Lawful) :
    (Encoding.enum path table).Restores t := by
  intro v z old b hv hk hb hz hold o rest
  obtain ⟨y, hy, hb⟩ := write_enum_eq_ofBytes.1 hb
  obtain ⟨leaf, rfl, hleaf⟩ := Ty.has_scalar.1 (hv.get hs hy)
  obtain ⟨key, rfl⟩ := Scalar.exists_string hleaf
  obtain ⟨hholds, hkey⟩ := hl.key_number (hk.key hy)
  cases hb
  obtain ⟨w, hw⟩ := Value.exists_set hold (.string key)
  have hlt : (table.number key % IntKind.u32.modulus).toNat < IntKind.u32.modulus :=
    Integer.toBits_lt ⟨.i32, table.number key, hholds⟩
  have hval : (Integer.ofBits .i32 (table.number key % IntKind.u32.modulus).toNat).val =
      table.number key := Integer.valueOfBits_emod hholds
  refine ⟨.string key, w, ?_, hw, hz.set hd hs (Ty.has_scalar.2 ⟨_, rfl, rfl⟩) hw, _, hy,
    Value.get_set_self hw⟩
  rw [Encoding.read, Reader.run_bind_lift hs, Reader.run_bind (Reader.run_word hlt rest o),
    Reader.run_bind_lift (a := .string key) (by rw [enumValue, hval, hkey]), Reader.run_lift,
    length_littleEndian]
  exact congrArg (·, _) hw

/-- Reading the items of an array, one after the other, into copies of one value. -/
theorem run_items {element : List Encoding} {u : Ty} {z : Value} (hr : Restores element u)
    (hz : u.Has z) (hp : ∀ e ∈ element, ∃ x, z.get e.path = .ok x) {items : List Value}
    {chunks : List (List UInt8)} (hi : ∀ item ∈ items, u.Has item)
    (hk : ∀ item ∈ items, Keyed element item)
    (hc : List.Forall₂ (fun item c => encode element item = .ofBytes c) items chunks)
    (o : Nat) (rest : List UInt8) :
    ∃ ws, Reader.run ((List.replicate items.length z).mapM fun item => fill element u item)
        ⟨o, chunks.flatten ++ rest⟩ = (.ok ws, ⟨o + chunks.flatten.length, rest⟩) ∧
      (∀ w ∈ ws, u.Has w) ∧ List.Forall₂ (Agree element) items ws := by
  induction hc generalizing o with
  | nil => exact ⟨[], rfl, fun _ h => absurd h List.not_mem_nil, .nil⟩
  | @cons item c items chunks hb hc ih =>
    obtain ⟨w, hw, ht, ha, -⟩ := hr (hi item List.mem_cons_self) (hk item List.mem_cons_self) hb hz
      hp o (chunks.flatten ++ rest)
    obtain ⟨ws, hws, hts, has⟩ := ih (fun x hx => hi x (List.mem_cons_of_mem _ hx))
      (fun x hx => hk x (List.mem_cons_of_mem _ hx)) (o + c.length)
    refine ⟨w :: ws, ?_, ?_, .cons ha has⟩
    · rw [List.length_cons, List.replicate_succ, List.flatten_cons, List.append_assoc,
        List.length_append, ← Nat.add_assoc]
      exact Reader.run_mapM_cons hw hws
    · intro x hx
      rcases List.mem_cons.1 hx with rfl | hx
      · exact ht
      · exact hts x hx

/-- The bytes of the items are at least as many as the items, so a count is never taken for
implausible. -/
theorem length_le_flatten {element : List Encoding} (hne : element ≠ []) {items : List Value}
    {chunks : List (List UInt8)}
    (hc : List.Forall₂ (fun item c => encode element item = .ofBytes c) items chunks) :
    items.length ≤ chunks.flatten.length := by
  induction hc with
  | nil => exact Nat.zero_le _
  | cons hb _ ih =>
    have := length_encode_pos hne hb
    rw [List.length_cons, List.flatten_cons, List.length_append]
    omega

theorem restores_array {path : Path} {element : List Encoding} {t u : Ty} (hd : t.Distinct)
    (hs : t.follow path = .ok (.array u)) (hf : Fits element u) (hr : Restores element u) :
    (Encoding.array path element).Restores t := by
  intro v z old b hv hk hb hz hold o rest
  obtain ⟨items, chunks, hy, hlt, hc, rfl⟩ := write_array_eq_ofBytes.1 hb
  obtain ⟨_, he, hitems⟩ := Ty.has_array.1 (hv.get hs hy)
  cases he
  have hdu : u.Distinct := (hd.follow hs).element
  obtain ⟨z₀, hz₀, htz, hpz⟩ := exists_constructItems hdu
    (fun e he => (hf.of_mem he).resolves) items.length
  obtain ⟨ws, hws, hts, ha⟩ := run_items hr htz hpz hitems (hk.items hy) hc (o + 4) rest
  obtain ⟨w, hw⟩ := Value.exists_set hold (.array ws)
  have hbound : (!element.isEmpty &&
      decide (Cursor.remaining ⟨o + 4, chunks.flatten ++ rest⟩ < items.length)) = false := by
    rw [Bool.and_eq_false_iff, decide_eq_false_iff_not, Cursor.remaining, List.length_append]
    by_cases hne : element = []
    · exact Or.inl (by rw [hne]; rfl)
    · have := length_le_flatten hne hc
      exact Or.inr (by omega)
  refine ⟨.array ws, w, ?_, hw, hz.set hd hs (Ty.has_array.2 ⟨ws, rfl, hts⟩) hw, items, ws, hy,
    Value.get_set_self hw, ha⟩
  rw [Encoding.read, Reader.run_bind_lift hs, List.append_assoc,
    Reader.run_bind (Reader.run_word hlt (chunks.flatten ++ rest) o),
    Reader.run_bind (Reader.run_cursor _)]
  simp only [hbound, Bool.false_eq_true, if_false]
  rw [Reader.run_bind_lift (x := (Ty.array u).element) rfl, Reader.run_bind_lift hz₀,
    Reader.run_bind hws, Reader.run_lift, List.length_append, length_littleEndian,
    ← Nat.add_assoc]
  exact congrArg (·, _) hw

/-! ## Lists of entries -/

theorem restores_nil (t : Ty) : Restores [] t := by
  intro v z b _ _ hb hz _ o rest
  obtain rfl := Emission.ofBytes_inj hb
  exact ⟨z, rfl, hz, trivial, fun _ _ _ hx => hx⟩

theorem restores_cons {e : Encoding} {encoding : List Encoding} {t : Ty}
    (ha : ∀ e' ∈ encoding, e.path.Apart e'.path) (he : e.Restores t)
    (hr : Restores encoding t) : Restores (e :: encoding) t := by
  intro v z b hv hk hb hz hp o rest
  obtain ⟨x, y, hx, hy, rfl⟩ := encode_cons_eq_ofBytes.1 hb
  obtain ⟨old, hold⟩ := hp e List.mem_cons_self
  obtain ⟨part, z', hz', hset, htz, hagree⟩ := he hv hk.1 hx hz hold o (y ++ rest)
  have hp' : ∀ e' ∈ encoding, ∃ x, z'.get e'.path = .ok x := by
    intro e' he'
    obtain ⟨x, hx⟩ := hp e' (List.mem_cons_of_mem _ he')
    exact ⟨x, Value.get_set_apart hset (ha e' he') hx⟩
  obtain ⟨w, hw, htw, hall, hframe⟩ := hr hv hk.2 hy htz hp' (o + x.length) rest
  -- the other entries are apart from this one, so its part stays as it was read
  have hpart : w.get e.path = .ok part :=
    hframe e.path part (fun e' he' => (ha e' he').symm) (Value.get_set_self hset)
  refine ⟨w, ?_, htw, ⟨hagree.of_get (Value.get_set_self hset) hpart, hall⟩, ?_⟩
  · rw [fill, List.append_assoc, Reader.run_bind hz', hw, List.length_append, Nat.add_assoc]
  · intro q a hq hqa
    exact hframe q a (fun e' he' => hq e' (List.mem_cons_of_mem _ he'))
      (Value.get_set_apart hset (hq e List.mem_cons_self) hqa)

mutual

theorem Encoding.restores_of_fits : ∀ {e : Encoding} {t : Ty}, t.Distinct → e.Fits t →
    e.Restores t
  | .base _ _, _, hd, h => by
    obtain ⟨-, s, hs, hm⟩ := fits_base.1 h
    exact restores_base hd hs hm
  | .enum _ _, _, hd, h => by
    obtain ⟨-, hl, hs⟩ := fits_enum.1 h
    exact restores_enum hd hs hl
  | .array _ _, _, hd, h => by
    obtain ⟨-, u, hu, hf⟩ := fits_array.1 h
    exact restores_array hd hu hf (Parley.restores_of_fits (hd.follow hu).element hf)

theorem restores_of_fits : ∀ {encoding : List Encoding} {t : Ty}, t.Distinct →
    Fits encoding t → Restores encoding t
  | [], t, _, _ => restores_nil t
  | _ :: _, _, hd, ⟨he, ha, hr⟩ =>
    restores_cons ha (Encoding.restores_of_fits hd he) (restores_of_fits hd hr)

end

/-! ## Values -/

/-- Reading the bytes of a value yields a value of the type that agrees with it. -/
theorem exists_decode {encoding : List Encoding} {t : Ty} {v : Value} {b : List UInt8}
    (hd : t.Distinct) (hf : Fits encoding t) (hv : t.Has v) (hk : Keyed encoding v)
    (hb : encode encoding v = .ofBytes b) (o : Nat) (rest : List UInt8) :
    ∃ w, (decode encoding t).run ⟨o, b ++ rest⟩ = (.ok w, ⟨o + b.length, rest⟩) ∧
      t.Has w ∧ Agree encoding v w := by
  obtain ⟨z, hz, htz, hp⟩ := exists_construct hd fun e he => (hf.of_mem he).resolves
  obtain ⟨w, hw, htw, ha, -⟩ := restores_of_fits hd hf hv hk hb htz hp o rest
  exact ⟨w, by rw [decode, Reader.run_bind_lift hz, hw], htw, ha⟩

/-- The bytes of a value are read, whatever follows them, as a value of the type that agrees with it
on every entry and is written to the same bytes. -/
theorem decode_encode_of_fits {encoding : List Encoding} {t : Ty} {v : Value} {b : List UInt8}
    (hd : t.Distinct) (hf : Fits encoding t) (hv : t.Has v) (hk : Keyed encoding v)
    (hb : encode encoding v = .ofBytes b) (o : Nat) (rest : List UInt8) :
    ∃ w, (decode encoding t).run ⟨o, b ++ rest⟩ = (.ok w, ⟨o + b.length, rest⟩) ∧
      t.Has w ∧ Agree encoding v w ∧ encode encoding w = .ofBytes b := by
  obtain ⟨w, hw, ht, ha⟩ := exists_decode hd hf hv hk hb o rest
  exact ⟨w, hw, ht, ha, by rw [← encode_congr ha, hb]⟩

/-- A record of an array of arrays and an enumerated text, with a byte left over. -/
theorem decode_encode_of_fits_crew :
    let encoding : List Encoding := [.array [.name "rows"] [.array [] [.base .u16 []]],
      .enum [.name "post"] ⟨"none", 0, [("cook", 3), ("mate", 4)]⟩]
    let crew : Ty := .record .value "Crew"
      [("post", .string), ("rows", .array (.array (.int .i32)))]
    let v : Value := .record .value [("post", .string "mate"),
      ("rows", .array [.array [.int ⟨.i32, 9, by decide⟩], .array []])]
    ∃ w, (decode encoding crew).run
        ⟨0, [2, 0, 0, 0, 1, 0, 0, 0, 9, 0, 0, 0, 0, 0, 4, 0, 0, 0] ++ [255]⟩ =
          (.ok w, ⟨18, [255]⟩) ∧ crew.Has w ∧ Agree encoding v w ∧
      encode encoding w = .ofBytes [2, 0, 0, 0, 1, 0, 0, 0, 9, 0, 0, 0, 0, 0, 4, 0, 0, 0] :=
  decode_encode_of_fits (by decide) (by decide) (by decide) (by decide) rfl 0 [255]

end Parley
