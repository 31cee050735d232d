import Parley.Proofs.Arguments
import Parley.Proofs.Reading

/-!
# What is read has its type

Reading never yields a value of another type, whatever the bytes are and whether or not the encoding
fits: the paths of the entries may lead to parts of one another and the scalars of the wire need not
match the leaves.

* `has_of_construct`, `has_of_constructItems` : what is allocated before anything is read.
* `has_of_cast`, `has_of_enumValue` : what a scalar of the wire becomes before it is stored.
* `Encoding.KeepsTyped` : reading an entry into a value of the type yields a value of the type; one
  lemma for each kind of entry and `keepsTyped` for the tree of entries.
* `has_of_decode`, `has_of_decodeArguments` : values and argument lists.
-/

namespace Parley

/-! ## Construction -/

namespace Sketch

theorem blame_eq_ok {α : Type} {full : Path} {x : Except Error α} {a : α} :
    blame full x = .ok a ↔ x = .ok a := by
  cases x with
  | error e => constructor <;> rintro ⟨⟩
  | ok b => exact Iff.rfl

theorem element_of_add {full rest : Path} {i : Int} {s s' : Sketch}
    (h : add full (.index i :: rest) s = .ok s') :
    ∃ (u : Ty) (k : Nat), s.type.element = .ok u ∧ i = k := by
  cases s with
  | record t fields => cases h
  | leaf t | array t size elements =>
    obtain ⟨_, -, h⟩ := bind_eq_ok.1 h
    obtain ⟨u, hu, h⟩ := bind_eq_ok.1 h
    obtain ⟨k, hk, -⟩ := bind_eq_ok.1 h
    exact ⟨u, k, blame_eq_ok.1 hu, position_eq_ok.1 hk⟩

theorem field_of_add {full rest : Path} {n : String} {s s' : Sketch}
    (h : add full (.name n :: rest) s = .ok s') : ∃ u, s.type.field n = .ok u := by
  cases s with
  | array t size elements => cases h
  | leaf t | record t fields =>
    obtain ⟨_, -, h⟩ := bind_eq_ok.1 h
    obtain ⟨u, hu, -⟩ := bind_eq_ok.1 h
    exact ⟨u, blame_eq_ok.1 hu⟩

/-- Only plain paths of a type merge into its sketches. -/
theorem Of.follow_of_add {full p : Path} {t : Ty} {s s' : Sketch} (h : Of t s)
    (ha : add full p s = .ok s') : p.Plain ∧ ∃ u, t.follow p = .ok u := by
  induction p generalizing t s s' with
  | nil => exact ⟨fun _ hs => absurd hs List.not_mem_nil, t, rfl⟩
  | cons step p ih =>
    cases step with
    | index i =>
      -- a position merges only where there are elements
      obtain ⟨u, k, hu, rfl⟩ := element_of_add ha
      rw [h.type_eq] at hu
      obtain rfl := Ty.step_index_eq_ok.1 (show t.step (.index k) = .ok u from hu)
      obtain ⟨size, elements, -, -, he, -, -, hadd⟩ := h.elements
      rw [hadd] at ha
      obtain ⟨child, hc, -⟩ := bind_eq_ok.1 ha
      obtain ⟨hp, w, hw⟩ := ih (of_getD (he k)) hc
      refine ⟨?_, w, Ty.follow_cons.2 ⟨u, hu, hw⟩⟩
      intro s hs
      rcases List.mem_cons.1 hs with rfl | hs
      · exact Int.natCast_nonneg k
      · exact hp s hs
    | name n =>
      -- a name merges only where there is such a field
      obtain ⟨u, hu⟩ := field_of_add ha
      rw [h.type_eq] at hu
      obtain ⟨kind, name, table, rfl, hn⟩ :=
        Ty.step_name_eq_ok.1 (show t.step (.name n) = .ok u from hu)
      obtain ⟨fields, -, ht, he, -, -, hadd⟩ := h.fields
      rw [hadd full n p u hn] at ha
      obtain ⟨child, hc, -⟩ := bind_eq_ok.1 ha
      have hold {c : Sketch} (hk : Table.find? n fields = some c) : Of u c := by
        obtain rfl : u = c.type := Option.some.inj (hn.symm.trans (ht n c hk))
        exact he n c hk
      obtain ⟨hp, w, hw⟩ := ih (of_getD fun _ => hold) hc
      refine ⟨?_, w, Ty.follow_cons.2 ⟨u, hu, hw⟩⟩
      intro s hs
      rcases List.mem_cons.1 hs with rfl | hs
      · exact trivial
      · exact hp s hs

end Sketch

/-- If the paths of an encoding merge, each of them leads somewhere in the type. -/
theorem resolves_of_addAll {encoding : List Encoding} {t : Ty} {s s' : Sketch}
    (h : Sketch.Of t s)
    (ha : encoding.foldlM (fun s e => Sketch.add e.path e.path s) s = .ok s') :
    ∀ e ∈ encoding, e.Resolves t := by
  induction encoding generalizing s with
  | nil => exact fun _ he => absurd he List.not_mem_nil
  | cons e rest ih =>
    rw [List.foldlM_cons] at ha
    obtain ⟨s₁, hs₁, hrest⟩ := bind_eq_ok.1 ha
    have he : e.Resolves t := h.follow_of_add hs₁
    obtain ⟨hp, u, hu⟩ := he
    obtain ⟨_, hs₂, h₁, -, -⟩ := Sketch.merges_of_follow e.path hp hu s h
    cases hs₁.symm.trans hs₂
    intro e' he'
    rcases List.mem_cons.1 he' with rfl | he'
    · exact ⟨hp, u, hu⟩
    · exact ih h₁ hrest e' he'

theorem has_of_construct {encoding : List Encoding} {t : Ty} {v : Value} (hd : t.Distinct)
    (h : construct encoding t = .ok v) : t.Has v := by
  obtain ⟨s, hs, -⟩ := bind_eq_ok.1 h
  obtain ⟨w, hw, ht, -⟩ := exists_construct hd (resolves_of_addAll (.leaf t) hs)
  cases h.symm.trans hw
  exact ht

theorem resolves_of_constructItems {element : List Encoding} {u : Ty} {count : Nat}
    {items : List Value} (h : constructItems (.array u) element count = .ok items) :
    ∀ e ∈ element, e.Resolves u := by
  obtain ⟨u', hu, h⟩ := bind_eq_ok.1 h
  cases hu
  obtain ⟨s, hs, -⟩ := bind_eq_ok.1 h
  exact resolves_of_addAll (.leaf u) hs

theorem has_of_constructItems {element : List Encoding} {u : Ty} {count : Nat}
    {items : List Value} (hd : u.Distinct)
    (h : constructItems (.array u) element count = .ok items) : ∀ item ∈ items, u.Has item := by
  obtain ⟨w, hw, ht, -⟩ := exists_constructItems hd (resolves_of_constructItems h) count
  cases h.symm.trans hw
  intro item hi
  rw [List.eq_of_mem_replicate hi]
  exact ht

/-! ## Casts -/

theorem exists_of_mem_mapM {ε α β : Type} {f : α → Except ε β} {as : List α} {bs : List β}
    (h : as.mapM f = .ok bs) {b : β} (hb : b ∈ bs) : ∃ a ∈ as, f a = .ok b :=
  exists_mem_of_forall₂ (mapM_eq_ok.1 h).flip hb

/-- The first field of a table is cast from the field of its name, or starts at its default. -/
theorem exists_of_castFields_cons {m : String} {u : Ty} {table : List (String × Ty)}
    {fields all left : Fields} (h : castFields ((m, u) :: table) fields = .ok (all, left)) :
    ∃ v done, (∀ x, Table.find? m fields = some x → cast u x = .ok v) ∧
      (Table.find? m fields = none → v = u.default) ∧
      castFields table (Table.erase m fields) = .ok (done, left) ∧ all = (m, v) :: done := by
  rw [castFields] at h
  cases hf : Table.find? m fields with
  | none =>
    rw [hf] at h
    obtain ⟨v, hv, h⟩ := bind_eq_ok.1 h
    obtain ⟨⟨done, rest⟩, hdone, h⟩ := bind_eq_ok.1 h
    cases hv
    cases h
    exact ⟨_, done, fun _ hx => (nomatch hx), fun _ => rfl, hdone, rfl⟩
  | some y =>
    rw [hf] at h
    obtain ⟨v, hv, h⟩ := bind_eq_ok.1 h
    obtain ⟨⟨done, rest⟩, hdone, h⟩ := bind_eq_ok.1 h
    cases h
    refine ⟨v, done, ?_, fun hn => (nomatch hn), hdone, rfl⟩
    intro x hx
    cases hx
    exact hv

mutual

/-- What a cast yields has the type. -/
theorem has_of_cast : ∀ {t : Ty} {v w : Value}, t.Distinct → cast t v = .ok w → t.Has w
  | .scalar t, v, w, _, h => by
    obtain ⟨s, hs, hw⟩ := bind_eq_ok.1 h
    cases hw
    obtain ⟨s₀, -, hcast⟩ := castScalar_eq_ok.1 hs
    exact Scalar.type_of_cast? hcast
  | .array element, .array items, w, hd, h => by
    obtain ⟨done, hdone, hw⟩ := bind_eq_ok.1 h
    cases hw
    intro item hi
    obtain ⟨x, -, hx⟩ := exists_of_mem_mapM hdone hi
    exact has_of_cast hd.element hx
  | .record kind name table, .record kind' fields, w, hd, h => by
    obtain ⟨⟨done, rest⟩, hdone, hw⟩ := bind_eq_ok.1 h
    obtain ⟨hkeys, hall⟩ := has_of_castFields hd.2 hdone
    have hn : (Table.keys done).Nodup := by
      rw [hkeys]
      exact hd.1
    by_cases he : rest.isEmpty
    · simp only [if_pos he] at hw
      cases hw
      refine Ty.has_record.2 ⟨_, rfl, Table.sorted_ofList done, ?_, ?_⟩
      · intro n hmem
        obtain ⟨v, hv⟩ := Table.exists_find?_of_mem_keys hmem
        rw [Table.find?_ofList hn] at hv
        rw [← hkeys]
        exact Table.mem_keys_of_find? hv
      · refine Ty.hasFields_of_find? hd.1 fun n t ht => ?_
        rw [Table.find?_ofList hn]
        exact hall hd.1 n t ht
    · simp only [if_neg he] at hw
      cases hw
  | .array _, .scalar _, _, _, h => by cases h
  | .array _, .record .., _, _, h => by cases h
  | .record .., .scalar _, _, _, h => by cases h
  | .record .., .array _, _, _, h => by cases h

/-- What the fields of a table are cast to: its names in its order, each with a value of its
type. -/
theorem has_of_castFields : ∀ {table : List (String × Ty)} {fields done rest : Fields},
    Ty.DistinctFields table → castFields table fields = .ok (done, rest) →
    Table.keys done = Table.keys table ∧ ((Table.keys table).Nodup → ∀ n (t : Ty),
      Table.find? n table = some t → ∃ v, Table.find? n done = some v ∧ t.Has v)
  | [], _, _, _, _, h => by
    cases h
    exact ⟨rfl, fun _ _ _ hn => nomatch hn⟩
  | (m, u) :: table, fields, _, left, hd, h => by
    obtain ⟨v, done, hgiven, hnone, hdone, rfl⟩ := exists_of_castFields_cons h
    have hu : u.Has v := by
      cases hf : Table.find? m fields with
      | none => exact hnone hf ▸ Ty.has_default hd.1
      | some x => exact has_of_cast hd.1 (hgiven x hf)
    obtain ⟨hkeys, hall⟩ := has_of_castFields hd.2 hdone
    refine ⟨?_, fun hn n t ht => ?_⟩
    · simp only [Table.keys, List.map_cons] at hkeys ⊢
      rw [hkeys]
    · rw [Table.find?] at ht ⊢
      by_cases hm : m = n
      · rw [if_pos hm] at ht ⊢
        cases ht
        exact ⟨v, rfl, hu⟩
      · rw [if_neg hm] at ht ⊢
        exact hall (List.nodup_cons.1 hn).2 n t ht

end

theorem has_of_enumValue {table : EnumTable} {t : Ty} {bits : Nat} {v : Value}
    (hd : t.Distinct) (h : enumValue table t bits = .ok v) : t.Has v := by
  unfold enumValue at h
  split at h
  · cases h
    exact Ty.has_scalar.2 ⟨_, rfl, rfl⟩
  · split at h
    · cases h
      exact has_of_cast hd ‹_›
    · exact has_of_cast hd (mapError_eq_ok.1 h)

/-! ## Reading -/

/-- Reading the entry into a value of the type yields a value of the type. -/
def Encoding.KeepsTyped (e : Encoding) (t : Ty) : Prop :=
  ∀ {v w : Value} {c c' : Cursor}, t.Has v → (e.read t v).run c = (.ok w, c') → t.Has w

/-- Reading the entries into a value of the type yields a value of the type. -/
def KeepsTyped (encoding : List Encoding) (t : Ty) : Prop :=
  ∀ {v w : Value} {c c' : Cursor}, t.Has v → (fill encoding t v).run c = (.ok w, c') → t.Has w

theorem keepsTyped_base (kind : BaseKind) (path : Path) {t : Ty} (hd : t.Distinct) :
    (Encoding.base kind path).KeepsTyped t := by
  intro v w c c' hv h
  obtain ⟨target, s, x, ht, -, hx, hw⟩ := Encoding.run_read_base.1 h
  exact hv.set hd ht (has_of_cast (hd.follow ht) hx) hw

theorem keepsTyped_enum (path : Path) (table : EnumTable) {t : Ty} (hd : t.Distinct) :
    (Encoding.enum path table).KeepsTyped t := by
  intro v w c c' hv h
  obtain ⟨target, bits, x, ht, -, hx, hw⟩ := Encoding.run_read_enum.1 h
  exact hv.set hd ht (has_of_enumValue (hd.follow ht) hx) hw

theorem KeepsTyped.items {element : List Encoding} {u : Ty} (he : KeepsTyped element u)
    {items ws : List Value} {c c' : Cursor} (hi : ∀ item ∈ items, u.Has item)
    (h : Reader.run (items.mapM fun item => fill element u item) c = (.ok ws, c')) :
    ∀ w ∈ ws, u.Has w := by
  induction items generalizing ws c with
  | nil =>
    cases h
    exact fun _ hw => absurd hw List.not_mem_nil
  | cons item items ih =>
    obtain ⟨w, rest, c₁, hw, hrest, rfl⟩ := Reader.run_mapM_cons_eq_ok.1 h
    intro x hx
    rcases List.mem_cons.1 hx with rfl | hx
    · exact he (hi item List.mem_cons_self) hw
    · exact ih (fun y hy => hi y (List.mem_cons_of_mem _ hy)) hrest x hx

theorem keepsTyped_array (path : Path) {element : List Encoding} {t : Ty} (hd : t.Distinct)
    (he : ∀ u, t.follow path = .ok (.array u) → KeepsTyped element u) :
    (Encoding.array path element).KeepsTyped t := by
  intro v w c c' hv h
  obtain ⟨u, count, c₁, items, ws, ht, -, -, hitems, hws, hw⟩ := Encoding.run_read_array.1 h
  have hdu : u.Distinct := (hd.follow ht).element
  have hall : ∀ w ∈ ws, u.Has w := KeepsTyped.items (he u ht) (has_of_constructItems hdu hitems) hws
  exact hv.set hd ht (Ty.has_array.2 ⟨ws, rfl, hall⟩) hw

mutual

theorem Encoding.keepsTyped : ∀ (e : Encoding) {t : Ty}, t.Distinct → e.KeepsTyped t
  | .base kind path, _, hd => keepsTyped_base kind path hd
  | .enum path table, _, hd => keepsTyped_enum path table hd
  | .array path element, _, hd =>
    keepsTyped_array path hd fun _ hu => Parley.keepsTyped element (hd.follow hu).element

/-- Whatever the entries are, reading them keeps values typed. -/
theorem keepsTyped : ∀ (encoding : List Encoding) {t : Ty}, t.Distinct → KeepsTyped encoding t
  | [], _, _ => fun hv h => (run_fill_nil.1 h).1 ▸ hv
  | e :: rest, _, hd => fun hv h => by
    obtain ⟨z, c₁, hz, h⟩ := run_fill_cons.1 h
    exact keepsTyped rest hd (Encoding.keepsTyped e hd hv hz) h

end

theorem has_of_decode {encoding : List Encoding} {t : Ty} {v : Value} {c c' : Cursor}
    (hd : t.Distinct) (h : (decode encoding t).run c = (.ok v, c')) : t.Has v := by
  obtain ⟨z, hz, h⟩ := run_decode_eq_ok.1 h
  exact keepsTyped encoding hd (has_of_construct hd hz) h

/-! ## Argument lists -/

theorem has_of_constructArguments {entries : List (Nat × Encoding)} {types : List Ty}
    {args : List Value} (hd : ∀ t ∈ types, t.Distinct)
    (h : constructArguments entries types = .ok args) : List.Forall₂ Ty.Has types args := by
  unfold constructArguments at h
  generalize 0 = first at h
  induction types generalizing args first with
  | nil =>
    cases h
    exact .nil
  | cons t types ih =>
    rw [List.zipIdx_cons] at h
    obtain ⟨z, rest, hz, hr, rfl⟩ := mapM_cons_eq_ok.1 h
    exact .cons (has_of_construct (hd t List.mem_cons_self) hz)
      (ih (fun u hu => hd u (List.mem_cons_of_mem _ hu)) _ hr)

theorem forall₂_set {α β : Type} {R : α → β → Prop} {as : List α} {bs : List β} {i : Nat} {a : α}
    {b : β} (h : List.Forall₂ R as bs) (ha : as[i]? = some a) (hb : R a b) :
    List.Forall₂ R as (bs.set i b) := by
  induction h generalizing i with
  | nil => exact .nil
  | cons hr hrest ih =>
    cases i with
    | zero =>
      cases ha
      exact .cons hb hrest
    | succ i => exact .cons hr (ih ha)

theorem has_of_fillArguments {entries : List (Nat × Encoding)} {types : List Ty}
    {zs args : List Value} {c c' : Cursor} (hd : ∀ t ∈ types, t.Distinct)
    (hz : List.Forall₂ Ty.Has types zs)
    (h : (fillArguments types entries zs).run c = (.ok args, c')) :
    List.Forall₂ Ty.Has types args := by
  induction entries generalizing zs c with
  | nil =>
    cases h
    exact hz
  | cons entry entries ih =>
    obtain ⟨i, e⟩ := entry
    rw [fillArguments] at h
    split at h
    · rename_i arg t harg ht
      obtain ⟨w, c₁, hw, h⟩ := Reader.of_run_bind h
      have hdt : t.Distinct := hd t (List.mem_of_getElem? ht)
      obtain ⟨a, ha, hta⟩ := getElem?_of_forall₂ hz ht
      cases harg.symm.trans ha
      exact ih (forall₂_set hz ht (keepsTyped [e] hdt hta hw)) h
    · cases h

theorem has_of_decodeArguments {encoding : List Encoding} {types : List Ty} {args : List Value}
    {c c' : Cursor} (hd : ∀ t ∈ types, t.Distinct)
    (h : (decodeArguments encoding types).run c = (.ok args, c')) :
    List.Forall₂ Ty.Has types args := by
  rw [decodeArguments] at h
  obtain ⟨entries, _, -, h⟩ := Reader.of_run_bind h
  obtain ⟨zs, _, hzs, h⟩ := Reader.of_run_bind h
  exact has_of_fillArguments hd (has_of_constructArguments hd (congrArg Prod.fst hzs)) h

/-- Reading is type sound, from any bytes and by any encoding: values and arguments that are read
have the types they are read at. -/
theorem typed_of_read (encoding : List Encoding) (c : Cursor) :
    (∀ (t : Ty) (v : Value), t.Distinct → ((decode encoding t).run c).1 = .ok v → t.Has v) ∧
      ∀ (types : List Ty) (args : List Value), (∀ t ∈ types, t.Distinct) →
        ((decodeArguments encoding types).run c).1 = .ok args → List.Forall₂ Ty.Has types args := by
  constructor
  · intro t v hd h
    exact has_of_decode hd (Prod.ext h rfl)
  · intro types args hd h
    exact has_of_decodeArguments hd (Prod.ext h rfl)

/-- Entries overlap, a text is half a surrogate pair, an enumeration number is unknown and a byte is
left over. -/
theorem typed_of_read_overlapping :
    let crew : Ty := .record .value "Crew" [("post", .string), ("rows", .array (.int .i32))]
    let encoding : List Encoding := [.base .i8 [.name "rows", .index 1],
      .enum [.name "post"] ⟨"none", 0, [("cook", 3)]⟩, .array [.name "rows"] [.base .u8 []],
      .base .i8 [.name "rows", .index 0], .base .zcstring [.name "post"]]
    let bytes : List UInt8 := [5, 77, 0, 0, 0, 2, 0, 0, 0, 7, 9, 255, 0, 0xD8, 0, 0, 1]
    let v : Value := .record .value [("post", .string "\uFFFD"),
      ("rows", .array [.int ⟨.i32, -1, by decide⟩, .int ⟨.i32, 9, by decide⟩])]
    let entries := encoding.map fun e => e.withPath (.index 1 :: e.path)
    (((decode encoding crew).run ⟨0, bytes⟩).1 = .ok v ∧ crew.Has v) ∧
      ((decodeArguments entries [.bool, crew]).run ⟨0, bytes⟩).1 = .ok [.bool false, v] ∧
      List.Forall₂ Ty.Has [.bool, crew] [.bool false, v] := by
  intro crew encoding bytes v entries
  have hv : ((decode encoding crew).run ⟨0, bytes⟩).1 = .ok v := rfl
  have hargs : ((decodeArguments entries [.bool, crew]).run ⟨0, bytes⟩).1 =
    .ok [.bool false, v] := rfl
  exact ⟨⟨hv, (typed_of_read encoding ⟨0, bytes⟩).1 crew v (by decide) hv⟩, hargs,
    (typed_of_read entries ⟨0, bytes⟩).2 _ _ (by decide) hargs⟩

end Parley
