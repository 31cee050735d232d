import Parley.Proofs.CastingCells

/-!
# Views of shared records

A shared record may be come to more than once. It is no obstacle to reading a cell as long as the
record is always asked for as one type: then it can be settled what each record is read as, and a
cell is read from that, whatever the depth of its tree.

* `Ty.asked` : the shared records that a cast comes to first; `Store.Asks` : all that it comes to.
* `Store.Unambiguous` : each of them is asked for as one type; `Tidy.unambiguous` : so it is where
  no record is come to twice.
* `View` : what the shared records are taken for, each at one type; `View.Shows` : a store whose
  records are as the view has them; `View.Covers` : a cell whose records the view knows.
* `View.Extends` : a view that knows more records; `Extends.read?` : it reads a cell as before.
* `Filled` : fields that are read as those they come from; `Shows.allocate`, `Shows.write` : a new
  record, and one that gets other fields; `Shows.deliver` : what a cast hands out.
* `Unambiguous.exists_view`, `Shows.read?_snapshot` : what is read of a tree is read in a view.
-/

namespace Parley

/-! ## What a cast asks for -/

mutual

/-- The shared records that casting a cell to the type comes to without entering one, each with the
type that it is asked for as. -/
def Ty.asked : Ty → Cell → List (Nat × Ty)
  | .array element, .array items => items.flatMap (Ty.asked element)
  | .record _ _ table, .record fields => Ty.askedFields table fields
  | .record kind name table, .shared id => [(id, .record kind name table)]
  | _, _ => []
termination_by structural t => t

/-- The same for the fields of a table. -/
def Ty.askedFields : List (String × Ty) → List (String × Cell) → List (Nat × Ty)
  | [], _ => []
  | (n, t) :: table, fields =>
    (Table.find? n fields).elim [] (Ty.asked t) ++ Ty.askedFields table fields
termination_by structural table => table

end

/-- Casting the cell to the type comes to the record as one of a type. -/
inductive Store.Asks (s : Store) (t : Ty) (c : Cell) : Nat × Ty → Prop
  | here {e : Nat × Ty} (h : e ∈ t.asked c) : Asks s t c e
  | inside {e e' : Nat × Ty} (h : Asks s t c e) (h' : e' ∈ e.2.asked (.record (s.fields e.1))) :
      Asks s t c e'

/-- The records that the cast comes to are in the store, and none is asked for as two types. -/
structure Store.Unambiguous (s : Store) (t : Ty) (c : Cell) : Prop where
  stored : ∀ e, s.Asks t c e → e.1 < s.records.length
  alike : ∀ id u u', s.Asks t c (id, u) → s.Asks t c (id, u') → u = u'

namespace Ty

variable {t u : Ty} {c : Cell} {e : Nat × Ty} {kind : RecordKind} {name : String}
  {table : List (String × Ty)} {fields : List (String × Cell)} {ws ws' : Fields}

theorem mem_askedFields :
    e ∈ askedFields table fields ↔
      ∃ f ∈ table, ∃ c, Table.find? f.1 fields = some c ∧ e ∈ f.2.asked c := by
  induction table with
  | nil => simp [askedFields]
  | cons f table ih =>
    obtain ⟨n, t⟩ := f
    rw [askedFields, List.mem_append, ih, List.exists_mem_cons_iff]
    refine or_congr_left ?_
    cases Table.find? n fields with
    | none => simp
    | some c => simp

theorem mem_asked_record :
    e ∈ (record kind name table).asked (.record fields) ↔
      ∃ f ∈ table, ∃ c, Table.find? f.1 fields = some c ∧ e ∈ f.2.asked c :=
  mem_askedFields

theorem mem_asked_array {items : List Cell} :
    e ∈ (array t).asked (.array items) ↔ ∃ c ∈ items, e ∈ t.asked c :=
  List.mem_flatMap

theorem sizeOf_le_of_asked (h : e ∈ t.asked c) : sizeOf e.2 ≤ sizeOf t := by
  induction t using Ty.parts generalizing c with
  | scalar s => cases c <;> cases h
  | array element ih =>
    cases c with
    | array items =>
      obtain ⟨c, -, h⟩ := mem_asked_array.1 h
      have := ih h
      simp only [Ty.array.sizeOf_spec]
      omega
    | scalar v => cases h
    | record fields => cases h
    | shared id => cases h
  | record kind name table ih =>
    cases c with
    | record fields =>
      obtain ⟨f, hf, c, -, h⟩ := mem_asked_record.1 h
      exact Nat.le_trans (ih f hf h) (Nat.le_of_lt (sizeOf_lt_of_mem hf))
    | shared id => exact Nat.le_of_eq (congrArg (fun e => sizeOf e.2) (List.mem_singleton.1 h))
    | scalar v => cases h
    | array items => cases h

/-- The records inside a record are asked for as types that are smaller than its own. -/
theorem sizeOf_lt_of_asked (h : e ∈ t.asked (.record fields)) : sizeOf e.2 < sizeOf t := by
  cases t with
  | scalar s => cases h
  | array element => cases h
  | record kind name table =>
    obtain ⟨f, hf, c, -, h⟩ := mem_asked_record.1 h
    exact Nat.lt_of_le_of_lt (sizeOf_le_of_asked h) (sizeOf_lt_of_mem hf)

/-! ## What is read -/

/-- What is read of a value, if it is data of the type. -/
def read? (t : Ty) (v : Value) : Option t.Carrier :=
  (t.decode v).toOption

/-- What is read of the fields of a record, if they are data of the type of the field. -/
def readField? (f : String × Ty) (ws : Fields) : Option f.2.Carrier :=
  f.2.read? ((Table.find? f.1 ws).getD f.2.default)

theorem toOption_decodeRow_cons (f : String × Ty) :
    (decodeRow (f :: table) ws).toOption = (readField? f ws).bind fun x =>
      (decodeRow table (Table.erase f.1 ws)).toOption.map fun row => (x, row) := by
  rw [decodeRow, toOption_bind]
  refine Option.bind_congr fun x _ => ?_
  rw [toOption_bind]
  cases decodeRow table (Table.erase f.1 ws) <;> rfl

theorem readField?_erase {f : String × Ty} (n : String) :
    readField? f (Table.erase n ws) =
      if n = f.1 then f.2.read? f.2.default else readField? f ws := by
  rw [readField?, Table.find?_erase]
  by_cases h : n = f.1
  · rw [if_pos h, if_pos h, Option.getD_none]
  · rw [if_neg h, if_neg h, readField?]

theorem toOption_decodeRow_congr (h : ∀ f ∈ table, readField? f ws = readField? f ws') :
    (decodeRow table ws).toOption = (decodeRow table ws').toOption := by
  induction table generalizing ws ws' with
  | nil => rfl
  | cons f table ih =>
    obtain ⟨hf, h⟩ := List.forall_mem_cons.1 h
    rw [toOption_decodeRow_cons, toOption_decodeRow_cons, hf, ih fun g hg => ?_]
    rw [readField?_erase, readField?_erase, h g hg]

theorem exists_decodeRow (hn : (Table.keys table).Nodup)
    (h : ∀ f ∈ table, ∃ x, readField? f ws = some x) :
    ∃ row, (decodeRow table ws).toOption = some row := by
  induction table generalizing ws with
  | nil => exact ⟨(), rfl⟩
  | cons f table ih =>
    obtain ⟨hnot, hn⟩ := List.nodup_cons.1 hn
    obtain ⟨⟨x, hx⟩, h⟩ := List.forall_mem_cons.1 h
    obtain ⟨row, hrow⟩ : ∃ row, (decodeRow table (Table.erase f.1 ws)).toOption = some row :=
        ih hn fun g hg => by
      have hne : f.1 ≠ g.1 := fun he => hnot (he ▸ List.mem_map_of_mem hg)
      rw [readField?_erase, if_neg hne]
      exact h g hg
    exact ⟨(x, row), by rw [toOption_decodeRow_cons, hx, hrow]; rfl⟩

/-- The kind of a record does not matter to what is read of it. -/
theorem read?_record (kind kind' : RecordKind) :
    t.read? (.record kind ws) = t.read? (.record kind' ws) := by
  cases t <;> rfl

theorem read?_array {vs : List Value} :
    (array t).read? (.array vs) = vs.mapM t.read? := by
  induction vs with
  | nil => rfl
  | cons v vs ih =>
    rw [List.mapM_cons, ← ih, read?, decode, List.mapM_cons, toOption_bind]
    refine Option.bind_congr fun x _ => ?_
    rw [toOption_bind]
    rfl

end Ty

theorem mapM_congr_left {α β : Type} {f g : α → Option β} {as : List α}
    (h : ∀ a ∈ as, f a = g a) : as.mapM f = as.mapM g := by
  induction as with
  | nil => rfl
  | cons a as ih =>
    obtain ⟨ha, h⟩ := List.forall_mem_cons.1 h
    rw [List.mapM_cons, List.mapM_cons, ha, ih h]

/-- What is read of a tree depends on what is read of the records that are asked for. -/
theorem Store.read?_tree_congr {t : Ty} {c : Cell} {f g : Nat → Value}
    (hf : ∀ id, ∃ ws, f id = .record .reference ws) (hg : ∀ id, ∃ ws, g id = .record .reference ws)
    (h : ∀ e ∈ t.asked c, e.2.read? (f e.1) = e.2.read? (g e.1)) :
    t.read? (tree f c) = t.read? (tree g c) := by
  induction t using Ty.parts generalizing c with
  | scalar s =>
    cases c with
    | shared id =>
      obtain ⟨ws, hws⟩ := hf id
      obtain ⟨ws', hws'⟩ := hg id
      rw [tree, tree, hws, hws']
      rfl
    | scalar v | array items | record fields => rfl
  | array element ih =>
    cases c with
    | array items =>
      rw [tree_array, tree_array, Ty.read?_array, Ty.read?_array, List.mapM_map, List.mapM_map]
      exact mapM_congr_left fun c hc =>
        ih fun e he => h e (Ty.mem_asked_array.2 ⟨c, hc, he⟩)
    | shared id =>
      obtain ⟨ws, hws⟩ := hf id
      obtain ⟨ws', hws'⟩ := hg id
      rw [tree, tree, hws, hws']
      rfl
    | scalar v | record fields => rfl
  | record kind name table ih =>
    cases c with
    | record fields =>
      refine Ty.toOption_decodeRow_congr fun e he => ?_
      rw [fieldTrees_eq, fieldTrees_eq, Ty.readField?, Ty.readField?, Table.find?_map_snd,
        Table.find?_map_snd]
      cases hc : Table.find? e.1 fields with
      | none => rfl
      | some c => exact ih e he fun e' he' => h e' (Ty.mem_asked_record.2 ⟨e, he, c, hc, he'⟩)
    | shared id => exact h _ (List.mem_singleton_self _)
    | scalar v | array items => rfl

/-! ## Views -/

/-- What shared records are taken for: the type that one is asked for as and the fields it has. -/
abbrev View := Nat → Option (Ty × Fields)

namespace View

variable {V W : View} {s s' : Store} {t u : Ty} {c c' d : Cell} {id : Nat} {kind : RecordKind}
  {name : String} {table : List (String × Ty)} {fields done : List (String × Cell)} {ws : Fields}

/-- The record as the view has it. -/
def record (V : View) (id : Nat) : Value :=
  .record .reference (((V id).map Prod.snd).getD [])

/-- What is read of a cell whose records are as the view has them. -/
def read? (V : View) (t : Ty) (c : Cell) : Option t.Carrier :=
  t.read? (Store.tree V.record c)

/-- What is read of the fields of a record. -/
def readField? (V : View) (f : String × Ty) (fields : List (String × Cell)) :
    Option f.2.Carrier :=
  (Table.find? f.1 fields).elim (f.2.read? f.2.default) (V.read? f.2)

/-- The view has the records that the cell asks for, as the types that it asks for. -/
def Covers (V : View) (t : Ty) (c : Cell) : Prop :=
  ∀ e ∈ t.asked c, ∃ ws, V e.1 = some (e.2, ws)

/-- The records of the store are as the view has them: they are there, their fields ask for records
that the view has, and what is read of the fields is what is read of the record. -/
structure Shows (V : View) (s : Store) : Prop where
  stored : ∀ id e, V id = some e → id < s.records.length
  covers : ∀ id u ws, V id = some (u, ws) → V.Covers u (.record (s.fields id))
  agrees : ∀ id u ws, V id = some (u, ws) →
    V.read? u (.record (s.fields id)) = u.read? (.record .reference ws)

/-- A view that has the same records, and maybe more. -/
def Extends (V W : View) : Prop :=
  ∀ id e, V id = some e → W id = some e

theorem Extends.refl (V : View) : V.Extends V :=
  fun _ _ h => h

theorem Extends.trans {X : View} (h : V.Extends W) (h' : W.Extends X) : V.Extends X :=
  fun id e he => h' id e (h id e he)

theorem record_of_eq (h : V id = some (u, ws)) : V.record id = .record .reference ws := by
  rw [record, h]
  rfl

theorem Covers.mono (h : V.Covers t c) (hx : V.Extends W) : W.Covers t c := by
  intro e he
  obtain ⟨ws, hws⟩ := h e he
  exact ⟨ws, hx _ _ hws⟩

theorem Extends.read? (hx : V.Extends W) (h : V.Covers t c) : W.read? t c = V.read? t c := by
  refine Store.read?_tree_congr (fun id => ⟨_, rfl⟩) (fun id => ⟨_, rfl⟩) fun e he => ?_
  obtain ⟨ws, hws⟩ := h e he
  rw [record_of_eq hws, record_of_eq (hx _ _ hws)]

theorem covers_array {items : List Cell} :
    V.Covers (.array t) (.array items) ↔ ∀ c ∈ items, V.Covers t c := by
  constructor
  · exact fun h c hc e he => h e (Ty.mem_asked_array.2 ⟨c, hc, he⟩)
  · intro h e he
    obtain ⟨c, hc, he⟩ := Ty.mem_asked_array.1 he
    exact h c hc e he

theorem covers_record : V.Covers (.record kind name table) (.record fields) ↔
    ∀ f ∈ table, ∀ c, Table.find? f.1 fields = some c → V.Covers f.2 c := by
  constructor
  · exact fun h f hf c hc e he => h e (Ty.mem_asked_record.2 ⟨f, hf, c, hc, he⟩)
  · intro h e he
    obtain ⟨f, hf, c, hc, he⟩ := Ty.mem_asked_record.1 he
    exact h f hf c hc e he

theorem covers_shared : V.Covers (.record kind name table) (.shared id) ↔
    ∃ ws, V id = some (.record kind name table, ws) := by
  refine ⟨fun h => h _ (List.mem_singleton_self _), fun h e he => ?_⟩
  rw [List.mem_singleton.1 he]
  exact h

theorem read?_array {items : List Cell} :
    V.read? (.array t) (.array items) = items.mapM (V.read? t) := by
  rw [read?, Store.tree_array, Ty.read?_array, List.mapM_map]
  rfl

theorem readField?_fieldTrees (V : View) (f : String × Ty) (fields : List (String × Cell)) :
    Ty.readField? f (Store.fieldTrees V.record fields) = V.readField? f fields := by
  rw [Store.fieldTrees_eq, Ty.readField?, Table.find?_map_snd, readField?]
  cases Table.find? f.1 fields <;> rfl

/-- What a computation yields that is given a store of the first view: a cell of the type in a store
of the second one, which has all that the first one has, and what is read of the cell. -/
structure Yields (V W : View) (s : Store) (t : Ty) (c : Cell) (x : t.Carrier) : Prop where
  grows : V.Extends W
  shows : W.Shows s
  covers : W.Covers t c
  reads : W.read? t c = some x

theorem Yields.of_extends {X : View} {x : t.Carrier} (h : W.Yields X s t c x) (hx : V.Extends W) :
    V.Yields X s t c x :=
  { h with grows := hx.trans h.grows }

/-- The fields of a record ask for records of the view, and they are read as the record is. -/
theorem Shows.opened (hs : V.Shows s) (hc : V.Covers (.record kind name table) c)
    (hf : s.fields? c = some fields) :
    V.Covers (.record kind name table) (.record fields) ∧
      V.read? (.record kind name table) (.record fields) =
        V.read? (.record kind name table) c := by
  rcases Store.eq_of_fields? hf with rfl | ⟨id, rfl, rfl⟩
  · exact ⟨hc, rfl⟩
  · obtain ⟨ws, hws⟩ := covers_shared.1 hc
    refine ⟨hs.covers id _ ws hws, (hs.agrees id _ ws hws).trans ?_⟩
    rw [read?, Store.tree, record_of_eq hws]

/-! ## Fields -/

/-- The fields of a table have been filled from those that were given: each is read as what was
given under its name before, or as the default. -/
def Filled (V : View) (fields : List (String × Cell)) (W : View) (table : List (String × Ty))
    (done : List (String × Cell)) : Prop :=
  ∀ f ∈ table, ∃ c x, Table.find? f.1 done = some c ∧ W.Covers f.2 c ∧ W.read? f.2 c = some x ∧
    V.readField? f fields = some x

theorem Filled.congr {done' : List (String × Cell)} (h : V.Filled fields W table done)
    (hf : ∀ n ∈ Table.keys table, Table.find? n done' = Table.find? n done) :
    V.Filled fields W table done' := by
  intro f hmem
  rw [hf f.1 (List.mem_map_of_mem hmem)]
  exact h f hmem

theorem Filled.covers (kind : RecordKind) (name : String) (h : V.Filled fields W table done) :
    W.Covers (.record kind name table) (.record done) := by
  refine covers_record.2 fun f hf c hc => ?_
  obtain ⟨d, x, hd, hcovers, -⟩ := h f hf
  cases hd.symm.trans hc
  exact hcovers

theorem Filled.exists_read (kind : RecordKind) (name : String) (hn : (Table.keys table).Nodup)
    (h : V.Filled fields W table done) :
    ∃ row, V.read? (.record kind name table) (.record fields) = some row ∧
      W.read? (.record kind name table) (.record done) = some row := by
  obtain ⟨row, hrow⟩ : ∃ row, V.read? (.record kind name table) (.record fields) = some row :=
      Ty.exists_decodeRow hn fun f hf => by
    obtain ⟨c, x, -, -, -, hx⟩ := h f hf
    exact ⟨x, (readField?_fieldTrees V f fields).trans hx⟩
  refine ⟨row, hrow, Eq.trans ?_ hrow⟩
  refine Ty.toOption_decodeRow_congr fun f hf => ?_
  obtain ⟨c, x, hc, -, hread, hx⟩ := h f hf
  rw [readField?_fieldTrees, readField?_fieldTrees, hx, readField?, hc]
  exact hread

/-! ## New records -/

/-- The view that has one more record, which is taken for what its fields are. -/
def enter (V : View) (id : Nat) (t : Ty) (fields : List (String × Cell)) : View :=
  fun j => if j = id then some (t, Store.fieldTrees V.record fields) else V j

theorem enter_self (V : View) (id : Nat) (t : Ty) (fields : List (String × Cell)) :
    V.enter id t fields id = some (t, Store.fieldTrees V.record fields) :=
  if_pos rfl

theorem extends_enter (h : V id = none) : V.Extends (V.enter id t fields) := by
  intro j e he
  have hne : j ≠ id := by
    rintro rfl
    cases h.symm.trans he
  exact (if_neg hne).trans he

theorem read?_fieldTrees (V : View) (t : Ty) (fields : List (String × Cell)) :
    t.read? (.record .reference (Store.fieldTrees V.record fields)) =
      V.read? t (.record fields) :=
  Ty.read?_record _ _

theorem Shows.allocate {x : Ty.Row table} (h : V.Shows s)
    (hc : V.Covers (.record kind name table) (.record fields))
    (hx : V.read? (.record kind name table) (.record fields) = some x) :
    ∃ W, V.Yields W (s.allocate fields).2 (.record kind name table) (.shared s.records.length)
      x := by
  have hnew : V s.records.length = none := by
    by_contra hsome
    obtain ⟨e, he⟩ := Option.ne_none_iff_exists'.1 hsome
    exact Nat.lt_irrefl _ (h.stored _ e he)
  have hgrows : V.Extends (V.enter s.records.length (.record kind name table) fields) :=
    extends_enter hnew
  have hself := V.enter_self s.records.length (.record kind name table) fields
  -- a record of the larger view is the new one or one that was there before
  have hcase {id : Nat} {e : Ty × Fields}
      (he : V.enter s.records.length (.record kind name table) fields id = some e) :
      id = s.records.length ∧ e = (.record kind name table, Store.fieldTrees V.record fields) ∨
        V id = some e ∧ (s.allocate fields).2.fields id = s.fields id := by
    by_cases hid : id = s.records.length
    · subst hid
      exact Or.inl ⟨rfl, Option.some.inj (he.symm.trans hself)⟩
    · have he' : V id = some e := (if_neg hid).symm.trans he
      exact Or.inr ⟨he', Store.fields_allocate_of_lt fields (h.stored id e he')⟩
  refine ⟨_, hgrows, ⟨fun id e he => ?_, fun id u ws he => ?_, fun id u ws he => ?_⟩,
    covers_shared.2 ⟨_, hself⟩, ?_⟩
  · rw [Store.allocate, List.length_append, List.length_singleton]
    rcases hcase he with ⟨rfl, -⟩ | ⟨he, -⟩
    · exact Nat.lt_succ_self _
    · exact Nat.lt_succ_of_lt (h.stored id e he)
  · rcases hcase he with ⟨rfl, heq⟩ | ⟨he, hsame⟩
    · cases heq
      rw [Store.fields_allocate_self]
      exact hc.mono hgrows
    · rw [hsame]
      exact (h.covers id u ws he).mono hgrows
  · rcases hcase he with ⟨rfl, heq⟩ | ⟨he, hsame⟩
    · cases heq
      rw [Store.fields_allocate_self, hgrows.read? hc, read?_fieldTrees]
    · rw [hsame, hgrows.read? (h.covers id u ws he)]
      exact h.agrees id u ws he
  · rw [read?, Store.tree, record_of_eq hself, read?_fieldTrees, hx]

theorem Shows.write (h : V.Shows s) (hid : V id = some (t, ws)) (hc : V.Covers t (.record fields))
    (hx : V.read? t (.record fields) = t.read? (.record .reference ws)) :
    V.Shows (s.write id fields) := by
  have hlt := h.stored id _ hid
  refine ⟨fun j e he => ?_, fun j u vs he => ?_, fun j u vs he => ?_⟩
  · exact Nat.lt_of_lt_of_eq (h.stored j e he) List.length_set.symm
  · by_cases hj : j = id
    · subst hj
      cases hid.symm.trans he
      rw [Store.fields_write_self hlt]
      exact hc
    · rw [Store.fields_write_ne hj]
      exact h.covers j u vs he
  · by_cases hj : j = id
    · subst hj
      cases hid.symm.trans he
      rw [Store.fields_write_self hlt]
      exact hx
    · rw [Store.fields_write_ne hj]
      exact h.agrees j u vs he

/-- The record that a cast hands out is read as its fields are, and so is the cell that was cast. -/
theorem Shows.deliver {x : Ty.Row table} (hs : V.Shows s)
    (hc : V.Covers (.record kind name table) c)
    (hread : V.read? (.record kind name table) c = some x)
    (hd : V.Covers (.record kind name table) (.record done))
    (hx : V.read? (.record kind name table) (.record done) = some x)
    (hon : (Store.deliver kind c done).on s = (.ok c', s')) :
    ∃ W, V.Yields W s' (.record kind name table) c' x := by
  cases kind with
  | value =>
    cases hon
    exact ⟨V, .refl V, hs, hd, hx⟩
  | reference =>
    cases c with
    | shared id =>
      cases hon
      obtain ⟨ws, hws⟩ := covers_shared.1 hc
      refine ⟨V, .refl V, hs.write hws hd ?_, hc, hread⟩
      rw [hx, ← hread, read?, Store.tree, record_of_eq hws]
    | scalar v | array items | record fields =>
      cases hon
      exact hs.allocate hd hx

/-! ## Trees -/

/-- The records above one that is come to are asked for as larger types, so no record is come to
inside itself and there is an end. -/
theorem Shows.recordTree (hs : V.Shows s) {t : Ty} {id n : Nat} {ws : Fields} {above : List Nat}
    (hid : V id = some (t, ws)) (hn : above.Nodup)
    (habove : ∀ j ∈ above, ∃ e, V j = some e ∧ sizeOf t < sizeOf e.1)
    (hlen : s.records.length ≤ above.length + n) :
    t.read? (s.recordTree n id) = t.read? (.record .reference ws) := by
  have hnot : id ∉ above := by
    intro hmem
    obtain ⟨e, he, hlt⟩ := habove id hmem
    cases hid.symm.trans he
    exact Nat.lt_irrefl _ hlt
  have hall : (id :: above).Nodup := List.nodup_cons.2 ⟨hnot, hn⟩
  cases n with
  | zero =>
    -- the records passed so far and this one are different, so there would be too many
    have hsub : id :: above ⊆ List.range s.records.length := by
      refine fun j hj => List.mem_range.2 ?_
      rcases List.mem_cons.1 hj with rfl | hj
      · exact hs.stored j _ hid
      · obtain ⟨e, he, -⟩ := habove j hj
        exact hs.stored j e he
    have := (List.Nodup.subperm hall hsub).length_le
    rw [List.length_range, List.length_cons] at this
    omega
  | succ n =>
    refine Eq.trans ?_ (hs.agrees id t ws hid)
    rw [Store.recordTree, Ty.read?_record .reference .value]
    refine Store.read?_tree_congr (c := .record (s.fields id)) (s.exists_recordTree n)
      (fun _ => ⟨_, rfl⟩) fun e he => ?_
    obtain ⟨ws', hws'⟩ := hs.covers id t ws hid e he
    have hlt := Ty.sizeOf_lt_of_asked he
    rw [record_of_eq hws']
    refine Shows.recordTree hs hws' hall (fun j hj => ?_) (by rw [List.length_cons]; omega)
    rcases List.mem_cons.1 hj with rfl | hj
    · exact ⟨_, hid, hlt⟩
    · obtain ⟨e', he', hlt'⟩ := habove j hj
      exact ⟨e', he', Nat.lt_trans hlt hlt'⟩
termination_by n

theorem Shows.read?_snapshot (hs : V.Shows s) (hc : V.Covers t c) :
    t.read? (s.snapshot c) = V.read? t c := by
  refine Store.read?_tree_congr (s.exists_recordTree _) (fun _ => ⟨_, rfl⟩) fun e he => ?_
  obtain ⟨ws, hws⟩ := hc e he
  rw [record_of_eq hws]
  exact hs.recordTree hws List.nodup_nil (fun _ hj => absurd hj List.not_mem_nil)
    (Nat.le_add_left _ _)

end View

namespace Store

variable {s s' : Store} {t u : Ty} {c c' : Cell} {id : Nat}

/-- A type asks for no records that are deeper than it is large, so more depth is not read. -/
theorem read?_recordTree_succ {n : Nat} (h : sizeOf u ≤ n) :
    u.read? (s.recordTree (n + 1) id) = u.read? (s.recordTree n id) := by
  induction n generalizing id u with
  | zero => cases u <;> simp at h
  | succ n ih =>
    rw [recordTree, recordTree, Ty.read?_record .reference .value,
      Ty.read?_record .reference .value]
    refine read?_tree_congr (c := .record (s.fields id)) (s.exists_recordTree _)
      (s.exists_recordTree _) fun e he => ih ?_
    exact Nat.le_of_lt_succ (Nat.lt_of_lt_of_le (Ty.sizeOf_lt_of_asked he) h)

theorem Asks.sizeOf_le {e : Nat × Ty} (h : s.Asks t c e) : sizeOf e.2 ≤ sizeOf t := by
  induction h with
  | here h => exact Ty.sizeOf_le_of_asked h
  | inside _ h ih => exact Nat.le_trans (Nat.le_of_lt (Ty.sizeOf_lt_of_asked h)) ih

/-! ## Cells that have a view -/

/-- If the records that are come to are asked for as one type each, there is a view of them. -/
theorem Unambiguous.exists_view (h : s.Unambiguous t c) :
    ∃ V : View, V.Shows s ∧ V.Covers t c := by
  have hview (id : Nat) : ∃ o : Option (Ty × Fields),
      (∀ u, s.Asks t c (id, u) → o = some (u, fieldTrees (s.recordTree (sizeOf t)) (s.fields id))) ∧
        ∀ e, o = some e → s.Asks t c (id, e.1) ∧
          e.2 = fieldTrees (s.recordTree (sizeOf t)) (s.fields id) := by
    by_cases hu : ∃ u, s.Asks t c (id, u)
    · obtain ⟨u, hu⟩ := hu
      refine ⟨some (u, fieldTrees (s.recordTree (sizeOf t)) (s.fields id)), fun u' hu' => ?_, ?_⟩
      · rw [h.alike id u u' hu hu']
      · rintro e ⟨⟩
        exact ⟨hu, rfl⟩
    · exact ⟨none, fun u h => absurd ⟨u, h⟩ hu, fun e he => nomatch he⟩
  choose V hknown hasked using hview
  refine ⟨V, ⟨fun id e he => ?_, fun id u ws he => ?_, fun id u ws he => ?_⟩, fun e he => ?_⟩
  · exact h.stored _ (hasked id e he).1
  · exact fun e' he' => ⟨_, hknown _ _ (.inside (hasked id _ he).1 he')⟩
  · obtain ⟨hu, hws⟩ := hasked id _ he
    cases hws
    rw [Ty.read?_record .reference .value]
    refine read?_tree_congr (c := .record (s.fields id)) (fun _ => ⟨_, rfl⟩) (s.exists_recordTree _)
      fun e he => ?_
    rw [View.record_of_eq (hknown _ _ (.inside hu he))]
    have hlt := Nat.lt_of_lt_of_le (Ty.sizeOf_lt_of_asked he) hu.sizeOf_le
    exact read?_recordTree_succ (Nat.le_of_lt hlt)
  · exact ⟨_, hknown _ _ (.here he)⟩

/-- What a cell asks for is asked for as the type of a path that leads there. -/
theorem exists_path_of_asked (hd : t.Distinct) {e : Nat × Ty} (h : e ∈ t.asked c) :
    ∃ p, s.get c p = .ok (.shared e.1) ∧ t.follow p = .ok e.2 := by
  induction t using Ty.parts generalizing c with
  | scalar st => cases c <;> cases h
  | array element ih =>
    cases c with
    | array items =>
      obtain ⟨d, hmem, h⟩ := Ty.mem_asked_array.1 h
      obtain ⟨k, hk⟩ := member_of_mem (s := s) hmem
      obtain ⟨p, hp, hfollow⟩ := ih hd h
      exact ⟨.index k :: p, get_cons_eq_ok.2 ⟨d, hk, hp⟩,
        Ty.follow_cons.2 ⟨element, Ty.step_index_eq_ok.2 rfl, hfollow⟩⟩
    | scalar v => cases h
    | record fields => cases h
    | shared id => cases h
  | record kind name table ih =>
    cases c with
    | record fields =>
      obtain ⟨f, hf, d, hfind, h⟩ := Ty.mem_asked_record.1 h
      have ht := Table.find?_of_mem hd.1 hf
      obtain ⟨p, hp, hfollow⟩ := ih f hf (hd.2.of_find? ht) h
      exact ⟨.name f.1 :: p, get_cons_eq_ok.2 ⟨d, member_name_eq_ok.2 ⟨fields, rfl, hfind⟩, hp⟩,
        Ty.follow_cons.2 ⟨f.2, Ty.step_name_eq_ok.2 ⟨_, _, _, rfl, ht⟩, hfollow⟩⟩
    | shared id =>
      cases List.mem_singleton.1 h
      exact ⟨[], rfl, rfl⟩
    | scalar v => cases h
    | array items => cases h

theorem Asks.exists_path (hd : t.Distinct) {e : Nat × Ty} (h : s.Asks t c e) :
    ∃ p, s.get c p = .ok (.shared e.1) ∧ t.follow p = .ok e.2 := by
  induction h with
  | here h => exact exists_path_of_asked hd h
  | inside _ h ih =>
    obtain ⟨p, hp, hfollow⟩ := ih
    obtain ⟨q, hq, hfollow'⟩ := exists_path_of_asked (s := s) (hd.follow hfollow) h
    refine ⟨p ++ q, get_append_eq_ok.2 ⟨_, hp, ?_⟩, Ty.follow_append hfollow hfollow'⟩
    -- the path goes on through a field, which the record has as the fields have it
    cases q with
    | nil => cases hq
    | cons step q =>
      obtain ⟨d, hmember, hq⟩ := get_cons_eq_ok.1 hq
      refine get_cons_eq_ok.2 ⟨d, ?_, hq⟩
      cases step with
      | index i => cases hmember
      | name n =>
        obtain ⟨_, ⟨⟩, hfind⟩ := member_name_eq_ok.1 hmember
        exact member_name_eq_ok.2 ⟨_, rfl, hfind⟩

/-- A cell that reaches no record by two paths asks for none as two types. -/
theorem Tidy.unambiguous (hd : t.Distinct) (h : s.Tidy c) : s.Unambiguous t c where
  stored := by
    intro e he
    obtain ⟨p, hp, -⟩ := he.exists_path hd
    exact h.stored e.1 ⟨p, hp⟩
  alike := by
    intro id u u' hu hu'
    obtain ⟨p, hp, hfollow⟩ := hu.exists_path hd
    obtain ⟨q, hq, hfollow'⟩ := hu'.exists_path hd
    cases h.unshared p q id hp hq
    exact Except.ok.inj (hfollow.symm.trans hfollow')

end Store

end Parley
