import Parley.Proofs.TypedCells

/-!
# Writing into typed cells

A write at a path puts a part of the type at the path in the place of another one. Outside of shared
records that keeps the cell of its type. A shared record, though, is seen from every place where it
stands, and it may be of several types; so the part has to be of the type that each of these places
has for it.

* `Ty.hasCell_congr` : only the records that a cell reaches matter to its type.
* `Ty.HasCell.put`, `Ty.HasCell.write` : a part is replaced in a copy, and in a shared record.
* `Store.LastShared` : the last shared record on the way of a path; `Store.Sets.put_or_write` :
  what a write does to it.
* `Store.Suits` : a part that suits every place where a shared record stands.
* `Store.follow_agrees_with_get` : paths in a type and paths in the cells of the type.
-/

namespace Parley

variable {s s' : Store} {t u w : Ty} {c c' d d' x y : Cell} {p q r : Path} {id : Nat} {n : String}
  {fields fields' : List (String × Cell)}

namespace Ty

/-! ## Replacing a part -/

theorem hasCell_congr (h : ∀ id, s.Reaches c id → s'.fields id = s.fields id) :
    t.HasCell s c ↔ t.HasCell s' c := by
  induction t using Ty.parts generalizing c with
  | scalar st => rw [hasCell_scalar, hasCell_scalar]
  | array element ih =>
    rw [hasCell_array, hasCell_array]
    refine exists_congr fun items => and_congr_right fun hc => forall₂_congr fun d hd => ?_
    subst hc
    obtain ⟨k, hk⟩ := Store.member_of_mem (s := s) hd
    exact ih fun id hid => h id (hid.of_member hk)
  | record kind name table ih =>
    have hf : s'.fields? c = s.fields? c := by
      cases c with
      | shared id => exact congrArg some (h id ⟨[], rfl⟩)
      | scalar v | array items | record fields => rfl
    rw [hasCell_record, hasCell_record, hf]
    refine and_congr_right fun _ => exists_congr fun fields => and_congr_right fun hfields =>
      and_congr_right fun _ => and_congr_right fun _ => forall₂_congr fun f hmem =>
        exists_congr fun d => and_congr_right fun hd => ?_
    have hm : s.member c (.name f.1) = .ok d := Store.member_name_eq_ok.2 ⟨fields, hfields, hd⟩
    exact ih f hmem fun id hid => h id (hid.of_member hm)

/-- A record with another field is of its type if the field is of its own and the other fields are
still of theirs. -/
theorem hasCell_record_set? {kind : RecordKind} {name : String} {table : List (String × Ty)}
    (hn : (Table.keys table).Nodup) (h : (record kind name table).HasCell s c)
    (hf : s.fields? c = some fields) (hs : Table.set? n d' fields = some fields')
    (hf' : s'.fields? c' = some fields') (hkind : c'.kind = c.kind)
    (hu : Table.find? n table = some u) (hd' : u.HasCell s' d')
    (hothers : ∀ f ∈ table, f.1 ≠ n → ∀ e, Table.find? f.1 fields = some e → f.2.HasCell s e →
      f.2.HasCell s' e) : (record kind name table).HasCell s' c' := by
  obtain ⟨hk, _, hfields, hsorted, hkeys, hparts⟩ := hasCell_record.1 h
  cases hf.symm.trans hfields
  refine hasCell_record.2 ⟨hkind.trans hk, fields', hf', hsorted.set? hs,
    Table.keys_set? hs ▸ hkeys, fun f hmem => ?_⟩
  rw [Table.find?_set? f.1 hs]
  by_cases hfn : n = f.1
  · subst hfn
    cases hu.symm.trans (Table.find?_of_mem hn hmem)
    exact ⟨d', if_pos rfl, hd'⟩
  · rw [if_neg hfn]
    obtain ⟨e, he, hcell⟩ := hparts f hmem
    exact ⟨e, he, hothers f hmem (Ne.symm hfn) e he hcell⟩

theorem HasCell.put (hd : t.Distinct) (h : t.HasCell s c) (hput : Store.Put x c p c')
    (hp : t.follow p = .ok u) (hx : u.HasCell s x) : t.HasCell s c' := by
  induction hput generalizing t with
  | here c =>
    cases hp
    exact hx
  | @item items k c c' p hc hput ih =>
    obtain ⟨t', hs, hp⟩ := follow_cons.1 hp
    obtain rfl := step_index_eq_ok.1 hs
    obtain ⟨_, ⟨⟩, hitems⟩ := hasCell_array.1 h
    refine hasCell_array.2 ⟨_, rfl, fun e he => ?_⟩
    rcases List.mem_or_eq_of_mem_set he with he | rfl
    · exact hitems e he
    · exact ih hd (hitems c (List.mem_of_getElem? hc)) hp
  | @field fields fields' n c c' p hc hput hs ih =>
    obtain ⟨t', hstep, hrest⟩ := follow_cons.1 hp
    obtain ⟨kind, name, table, rfl, hn⟩ := step_name_eq_ok.1 hstep
    obtain ⟨_, hstep', hcell⟩ := h.member (Store.member_name_eq_ok.2 ⟨fields, rfl, hc⟩)
    cases hstep.symm.trans hstep'
    exact hasCell_record_set? hd.1 h rfl hs rfl rfl hn (ih (hd.2.of_find? hn) hcell hrest)
      fun f _ _ e _ he => he

end Ty

theorem Store.Put.exists_get (h : Store.Put x c p c') (s : Store) : ∃ y, s.get c p = .ok y := by
  induction p generalizing c c' with
  | nil => exact ⟨c, rfl⟩
  | cons step p ih =>
    obtain ⟨d, d', hd, hput, -⟩ := h.of_cons
    obtain ⟨y, hy⟩ := ih hput
    exact ⟨y, get_cons_eq_ok.2 ⟨d, hd s, hy⟩⟩

/-! ## Shared records -/

namespace Store

/-- The path goes through the shared record, `q` is the way to it and `r` the way on from it, and
there is no other one on the way on. -/
structure LastShared (s : Store) (c : Cell) (p q r : Path) (id : Nat) : Prop where
  split : p = q ++ r
  goesOn : r ≠ []
  shared : s.get c q = .ok (.shared id)
  last : ∀ u v j, r = u ++ v → u ≠ [] → v ≠ [] → s.get (.shared id) u ≠ .ok (.shared j)

/-- The cell `x` suits all places of the shared record in the cell `c` of a type, as the part at a
path from the record: the record is not inside of it, and it is of the type that each of the places
has at the path. -/
structure Suits (s : Store) (t : Ty) (c x : Cell) (r : Path) (id : Nat) : Prop where
  outside : ¬ s.Reaches x id
  typed : ∀ q w, s.get c q = .ok (.shared id) → t.follow (q ++ r) = .ok w → w.HasCell s x

theorem Suits.member {e : Cell} {step : Step} (h : s.Suits t c x r id)
    (he : s.member c step = .ok e) (hu : t.step step = .ok u) : s.Suits u e x r id where
  outside := h.outside
  typed q w hq hw := h.typed (step :: q) w (get_cons_eq_ok.2 ⟨e, he, hq⟩)
    (Ty.follow_cons.2 ⟨u, hu, hw⟩)

theorem LastShared.unique {q' r' : Path} {id' : Nat} (h : s.LastShared c p q r id)
    (h' : s.LastShared c p q' r' id') : q = q' ∧ r = r' ∧ id = id' := by
  have hle {q q' r r' : Path} {id id' : Nat} (h : s.LastShared c p q r id)
      (h' : s.LastShared c p q' r' id') (hq : ∃ u, q' = q ++ u ∧ r = u ++ r') : q' = q := by
    obtain ⟨u, rfl, hr⟩ := hq
    obtain ⟨_, hget, hu⟩ := get_append_eq_ok.1 h'.shared
    cases h.shared.symm.trans hget
    by_contra hne
    exact h.last u r' id' hr (fun hu => hne (by rw [hu, List.append_nil])) h'.goesOn hu
  obtain rfl : q = q' := by
    rcases List.append_eq_append_iff.1 (h.split.symm.trans h'.split) with hq | hq
    · exact (hle h h' hq).symm
    · exact hle h' h hq
  cases h.shared.symm.trans h'.shared
  exact ⟨rfl, List.append_cancel_left (h.split.symm.trans h'.split), rfl⟩

/-- A write is a replacement where the path goes through no shared record, and it changes the last
one where it does. -/
theorem Sets.put_or_write (h : s.Sets x c p c' s') :
    (s' = s ∧ Put x c p c' ∧ ∀ q r id, ¬ s.LastShared c p q r id) ∨
      ∃ q r id n d d' fields', s.LastShared c p q (.name n :: r) id ∧
        Table.find? n (s.fields id) = some d ∧ Put x d r d' ∧
        Table.set? n d' (s.fields id) = some fields' ∧ c' = c ∧ s' = s.write id fields' := by
  cases h with
  | inside h =>
    refine Or.inl ⟨rfl, h, fun q r id hlast => ?_⟩
    obtain ⟨rfl, hr, hq, -⟩ := hlast
    exact h.get_ne_shared hr s id hq
  | @below q r id n d d' fields' hq hd h hs =>
    refine Or.inr ⟨q, r, id, n, d, d', fields', ⟨rfl, List.cons_ne_nil _ _, hq, ?_⟩, hd, h, hs,
      rfl, rfl⟩
    intro u v j huv hu hv hget
    obtain ⟨step, u, rfl⟩ := List.exists_cons_of_ne_nil hu
    obtain ⟨rfl, rfl⟩ := List.cons.inj huv
    obtain ⟨e, he, hget⟩ := get_cons_eq_ok.1 hget
    cases (member_shared hd).symm.trans he
    exact h.get_ne_shared hv s j hget

theorem sets_of_on_set (h : (set x c p).on s = (.ok c', s')) : s.Sets x c p c' s' := by
  cases hp : s.get c p with
  | error e => cases (on_set_error hp x).symm.trans h
  | ok y =>
    obtain ⟨c'', s'', hsets⟩ := exists_sets hp x
    cases (on_set hsets).symm.trans h
    exact hsets

/-- The way to a record does not go through the record before, so a write to it is not seen. -/
theorem Acyclic.get_write (ha : s.Acyclic c) (hq : s.get c q = .ok (.shared id))
    (fields' : List (String × Cell)) : (s.write id fields').get c q = .ok (.shared id) := by
  refine toOption_eq_some.1 ((Store.get_write fields' fun u v huv hv hget => hv ?_).trans
    (toOption_eq_some.2 hq))
  rw [huv] at hq
  obtain ⟨_, hget', hself⟩ := get_append_eq_ok.1 hq
  cases hget.symm.trans hget'
  exact ha id v ⟨u, hget⟩ hself

end Store

theorem Ty.hasCell_write (h : ¬ s.Reaches x id) (fields' : List (String × Cell)) :
    w.HasCell (s.write id fields') x ↔ w.HasCell s x := by
  refine (hasCell_congr fun j hj => Store.fields_write_ne ?_).symm
  rintro rfl
  exact h hj

namespace Ty

variable (hd : Table.find? n (s.fields id) = some d) (hput : Store.Put x d r d')
  (hs : Table.set? n d' (s.fields id) = some fields')

include hd hput hs in
theorem HasCell.write (ht : t.Distinct) (h : t.HasCell s c)
    (hx : s.Suits t c x (.name n :: r) id) : t.HasCell (s.write id fields') c := by
  induction t using Ty.parts generalizing c with
  | scalar st =>
    obtain ⟨v, rfl, hv⟩ := hasCell_scalar.1 h
    exact hv
  | array element ih =>
    obtain ⟨items, rfl, hitems⟩ := hasCell_array.1 h
    refine hasCell_array.2 ⟨items, rfl, fun e he => ?_⟩
    obtain ⟨k, hk⟩ := Store.member_of_mem (s := s) he
    exact ih ht (hitems e he) (hx.member hk rfl)
  | record kind name table ih =>
    obtain ⟨hkind, fields, hfields, hsorted, hkeys, hparts⟩ := hasCell_record.1 h
    -- the fields that stay are still of their types, since it suits the places in them
    have hpart {f : String × Ty} (hf : f ∈ table) {e : Cell}
        (he : Table.find? f.1 fields = some e) (hcell : f.2.HasCell s e) :
        f.2.HasCell (s.write id fields') e := by
      have hfind := Table.find?_of_mem ht.1 hf
      have hstep := step_name_eq_ok.2 ⟨kind, name, table, rfl, hfind⟩
      have hmember := Store.member_name_eq_ok.2 ⟨fields, hfields, he⟩
      exact ih f hf (ht.2.of_find? hfind) hcell (hx.member hmember hstep)
    by_cases hc : c = .shared id
    · subst hc
      cases hfields
      have hdm := Store.member_shared hd
      obtain ⟨u, hu, hcell⟩ := h.member hdm
      obtain ⟨_, _, _, ⟨⟩, hn⟩ := step_name_eq_ok.1 hu
      -- the part that is put there is of the type that it should be of at this place
      obtain ⟨y, hy⟩ := hput.exists_get s
      obtain ⟨w, hw, -⟩ := hcell.get hy
      have hxw : w.HasCell (s.write id fields') x :=
        (hasCell_write hx.outside fields').2 (hx.typed [] w rfl (follow_cons.2 ⟨u, hu, hw⟩))
      have hd' : u.HasCell (s.write id fields') d' :=
        (hpart (Table.mem_of_find? hn) hd hcell).put (ht.2.of_find? hn) hput hw hxw
      have hf' : (s.write id fields').fields? (.shared id) = some fields' :=
        congrArg some (Store.fields_write_self (Store.lt_of_member hdm))
      exact hasCell_record_set? ht.1 h rfl hs hf' rfl hn hd'
        fun f hf _ e he hcell => hpart hf he hcell
    · refine hasCell_record.2 ⟨hkind, fields, (Store.fields?_write hc).trans hfields, hsorted,
        hkeys, fun f hf => ?_⟩
      obtain ⟨e, he, hcell⟩ := hparts f hf
      exact ⟨e, he, hpart hf he hcell⟩

end Ty

/-! ## What a write keeps -/

namespace Store

/-- After a write a cell is of its type just when the part suits all places of the last shared
record on the way. -/
theorem Sets.hasCell_iff (hsets : s.Sets x c p c' s') (hd : t.Distinct) (h : t.HasCell s c)
    (hp : t.follow p = .ok u) (hx : u.HasCell s x) :
    t.HasCell s' c' ↔ ∀ q r id, s.LastShared c p q r id → s.Suits t c x r id := by
  rcases hsets.put_or_write with ⟨rfl, hput, hnone⟩ |
    ⟨q, r, id, n, d, d', fields', hlast, hfind, hput, hs, rfl, rfl⟩
  · exact iff_of_true (h.put hd hput hp hx) fun q r id hlast => absurd hlast (hnone q r id)
  refine ⟨fun hafter q' r' id' hlast' => ?_,
    fun hall => h.write hfind hput hs hd (hall q _ id hlast)⟩
  obtain ⟨rfl, rfl, rfl⟩ := hlast.unique hlast'
  have hread : (s.write id fields').get (.shared id) (.name n :: r) = .ok x :=
    get_cons_eq_ok.2 ⟨d', toOption_eq_some.1 ((toOption_member_write hs _).trans (if_pos rfl)),
      hput.get _⟩
  have hway {q : Path} (hq : s.get c' q = .ok (.shared id)) :
      (s.write id fields').get c' q = .ok (.shared id) := h.acyclic.get_write hq fields'
  have houtside : ¬ s.Reaches x id := by
    rintro ⟨v, hv⟩
    -- the record would have come to hold itself
    have hself := get_append_eq_ok.2 ⟨x, hread, hx.acyclic.get_write hv fields'⟩
    exact List.cons_ne_nil _ _ (hafter.acyclic id _ ⟨q, hway hlast.shared⟩ hself)
  refine ⟨houtside, fun q' w hq' hw => ?_⟩
  obtain ⟨w', hw', hcell⟩ := hafter.get (get_append_eq_ok.2 ⟨_, hway hq', hread⟩)
  cases hw.symm.trans hw'
  exact (Ty.hasCell_write houtside fields').1 hcell

/-- Where no record is reached by two paths, a write of a part of the right type keeps the cell of
its type. -/
theorem hasCell_of_unshared (hd : t.Distinct) (h : t.HasCell s c) (hu : s.Unshared c)
    (hcx : s.Disjoint c x) (hp : t.follow p = .ok u) (hx : u.HasCell s x)
    (hset : (set x c p).on s = (.ok c', s')) : t.HasCell s' c' := by
  refine ((sets_of_on_set hset).hasCell_iff hd h hp hx).2 fun q r id hlast =>
    ⟨hcx id ⟨q, hlast.shared⟩, fun q' w hq' hw => ?_⟩
  rw [hu q' q id hq' hlast.shared, ← hlast.split] at hw
  cases hp.symm.trans hw
  exact hx

/-- Paths lead into a type as they lead into its cells, and a write of a part leaves a cell of the
type just when the part suits all places of the last shared record on the way. -/
theorem follow_agrees_with_get (hd : t.Distinct) (h : t.HasCell s c) (p : Path) :
    (∀ s' c', t.HasCell s' c' ↔ s'.Acyclic c' ∧ t.Has (s'.snapshot c')) ∧
      (∀ w, s.get c p = .ok w → ∃ u, t.follow p = .ok u ∧ u.HasCell s w) ∧
      ((∃ w, s.get c p = .ok w) ↔ (∃ u, t.follow p = .ok u) ∧ s.InBounds c p) ∧
      ∀ u x c' s', t.follow p = .ok u → u.HasCell s x → (set x c p).on s = (.ok c', s') →
        (t.HasCell s' c' ↔ ∀ q r id, s.LastShared c p q r id → s.Suits t c x r id) ∧
          (s.Unshared c → s.Disjoint c x → t.HasCell s' c') :=
  ⟨fun _ _ => Ty.hasCell_iff, fun _ hw => h.get hw, h.exists_get_iff,
    fun _ _ _ _ hp hx hset => ⟨(sets_of_on_set hset).hasCell_iff hd h hp hx,
      fun hu hcx => hasCell_of_unshared hd h hu hcx hp hx hset⟩⟩

/-- A shared record in two places. -/
def twice : Cell :=
  .record [("a", .shared 0), ("b", .shared 0)]

/-- Texts in one place and items of some type in the other. -/
def twiceType (t : Ty) : Ty :=
  .record .value "Pair" [("a", .record .reference "Tagged" [("tags", .array .string)]),
    ("b", .record .reference "Marked" [("tags", .array t)])]

theorem get_tags (p : Path) (s : Store) (v : Scalar) (id : Nat) :
    s.get (.array [.scalar v]) p ≠ .ok (.shared id) := by
  intro h
  rcases get_of_item h with ⟨-, ⟨⟩⟩ | ⟨q, rfl, h⟩
  cases get_of_scalar h

theorem get_twice {v : Scalar} (hs : s.fields 0 = [("tags", .array [.scalar v])])
    (h : s.get twice p = .ok (.shared id)) : p = [.name "a"] ∨ p = [.name "b"] := by
  have hf : s.fields? (.shared 0) = some [("tags", .array [.scalar v])] := congrArg some hs
  have hrecord {q : Path} (hq : s.get (.shared 0) q = .ok (.shared id)) : q = [] := by
    rcases get_of_field hf hq with ⟨rfl, -⟩ | ⟨r, rfl, hr⟩
    · rfl
    · exact absurd hr (get_tags r s v id)
  cases p with
  | nil => cases h
  | cons step p =>
    obtain ⟨d, hd, h⟩ := get_cons_eq_ok.1 h
    cases step with
    | index i => cases hd
    | name n =>
      obtain ⟨_, ⟨⟩, hn⟩ := member_name_eq_ok.1 hd
      rcases List.mem_pair.1 (Table.mem_of_find? hn) with ⟨⟨⟩⟩ | ⟨⟨⟩⟩
      · exact Or.inl (congrArg _ (hrecord h))
      · exact Or.inr (congrArg _ (hrecord h))

/-- A tag is replaced in the record, where both places have texts. -/
theorem follow_agrees_with_get_twice :
    let s : Store := ⟨[[("tags", .array [.scalar (.string "x")])]]⟩
    let s' : Store := ⟨[[("tags", .array [.scalar (.string "y")])]]⟩
    let p : Path := [.name "a", .name "tags", .index 0]
    (twiceType .string).Distinct ∧ (twiceType .string).HasCell s twice ∧
      s.get twice p = .ok (.scalar (.string "x")) ∧ s.InBounds twice p ∧
      (set (.scalar (.string "y")) twice p).on s = (.ok twice, s') ∧
      s.LastShared twice p [.name "a"] [.name "tags", .index 0] 0 ∧
      s.Suits (twiceType .string) twice (.scalar (.string "y")) [.name "tags", .index 0] 0 ∧
      (twiceType .string).HasCell s' twice ∧ (twiceType .string).Has (s'.snapshot twice) := by
  intro s s' p
  have hd : (twiceType .string).Distinct := by decide
  have hcell : (twiceType .string).HasCell s twice := by decide
  obtain ⟨htyped, -, hget, hset⟩ := follow_agrees_with_get hd hcell p
  have hlast : s.LastShared twice p [.name "a"] [.name "tags", .index 0] 0 := by
    refine ⟨rfl, List.cons_ne_nil _ _, rfl, fun u v j huv hu hv => ?_⟩
    obtain ⟨step, u, rfl⟩ := List.exists_cons_of_ne_nil hu
    obtain ⟨rfl, huv⟩ := List.cons.inj huv
    show s.get (.array [.scalar (.string "x")]) u ≠ _
    exact get_tags u s _ j
  have hsuits : s.Suits (twiceType .string) twice (.scalar (.string "y"))
      [.name "tags", .index 0] 0 := by
    constructor
    · rintro ⟨v, hv⟩
      cases get_of_scalar hv
    · intro q w hq hw
      rcases get_twice rfl hq with rfl | rfl <;> cases hw <;> rfl
  have hafter : (twiceType .string).HasCell s' twice := by
    refine (hset .string (.scalar (.string "y")) twice s' rfl rfl rfl).1.2 fun q r id h => ?_
    obtain ⟨rfl, rfl, rfl⟩ := hlast.unique h
    exact hsuits
  exact ⟨hd, hcell, rfl, (hget.1 ⟨_, rfl⟩).2, rfl, hlast, hsuits, hafter,
    ((htyped s' twice).1 hafter).2⟩

/-- The record has no tags before, and then it has texts where its other place has numbers. -/
theorem exists_write_of_other_type :
    ∃ (s s' : Store) (t u : Ty) (c x : Cell) (p : Path), t.Distinct ∧ t.HasCell s c ∧
      t.follow p = .ok u ∧ u.HasCell s x ∧ (set x c p).on s = (.ok c, s') ∧ ¬ t.HasCell s' c ∧
      t.Has (s.snapshot c) ∧ ¬ t.Has (s'.snapshot c) :=
  ⟨⟨[[("tags", .array [])]]⟩, ⟨[[("tags", .array [.scalar (.string "x")])]]⟩, twiceType (.int .i32),
    .array .string, twice, .array [.scalar (.string "x")], [.name "a", .name "tags"], by decide,
    by decide, rfl, by decide, rfl, by decide, by decide, by decide⟩

end Store

end Parley
