import Parley.Proofs.Views

/-!
# Reading shared records that are cast

What a cell is read as is not changed by a cast, also where records are shared: the cast writes
fields to a record that are read as the record was, and the records that it makes are settled as
they are made.

* `LoadsDefault` : a default is loaded as a cell that is read as it; `loadsDefault` for all types.
* `Preserves` : casting to the type keeps what is read; `preserves` for all types.
* `preserves_castFields` : the fields of a table are filled one after the other.
* `Store.decode_of_on_cast` : a cell that is cast is read before and after as its cast is.
-/

namespace Parley

namespace View

variable {V W : View} {s s' : Store} {t u : Ty} {c c' d : Cell} {kind : RecordKind}
  {name : String} {table : List (String × Ty)} {fields done : List (String × Cell)}

/-! ## Defaults -/

/-- A default is loaded as a cell that is read as it. -/
def LoadsDefault (t : Ty) : Prop :=
  ∀ (V : View) (s : Store), V.Shows s → ∃ c s' W x, (Store.load t.default).run s = (c, s') ∧
    t.read? t.default = some x ∧ V.Yields W s' t c x

theorem exists_loadFields (h : ∀ f ∈ table, LoadsDefault f.2) (hn : (Table.keys table).Nodup)
    (hs : V.Shows s) :
    ∃ fields s' W, (Store.loadFields (Ty.defaults table)).run s = (fields, s') ∧ V.Extends W ∧
      W.Shows s' ∧ V.Filled [] W table fields := by
  induction table generalizing V s with
  | nil => exact ⟨[], s, V, rfl, .refl V, hs, fun _ hf => absurd hf List.not_mem_nil⟩
  | cons f table ih =>
    obtain ⟨n, t⟩ := f
    obtain ⟨ht, h⟩ := List.forall_mem_cons.1 h
    obtain ⟨hnot, hn⟩ := List.nodup_cons.1 hn
    obtain ⟨c, s₁, V₁, x, hload, hx, hc⟩ := ht V s hs
    obtain ⟨fields, s₂, W, hfields, hgrows, hs₂, hfill⟩ := ih h hn hc.shows
    refine ⟨(n, c) :: fields, s₂, W, ?_, hc.grows.trans hgrows, hs₂,
      List.forall_mem_cons.2 ⟨⟨c, x, if_pos rfl, hc.covers.mono hgrows, ?_, hx⟩, fun g hg => ?_⟩⟩
    · rw [Ty.defaults, Store.loadFields, StateT.run_bind, hload]
      show StateT.run (Store.loadFields (Ty.defaults table) >>= _) s₁ = _
      rw [StateT.run_bind, hfields]
      rfl
    · rw [hgrows.read? hc.covers, hc.reads]
    · have hne : n ≠ g.1 := fun he => hnot (List.mem_map.2 ⟨g, hg, he.symm⟩)
      obtain ⟨d, y, hd, hrest⟩ := hfill g hg
      exact ⟨d, y, (if_neg hne).trans hd, hrest⟩

theorem defaults_ofList (hn : (Table.keys table).Nodup) :
    Table.ofList (Ty.defaults table) = Ty.defaults (Table.ofList table) := by
  refine Table.ofList_eq ?_ ?_ fun n => ?_
  · rw [Ty.keys_defaults]
    exact hn
  · rw [Table.Sorted, Ty.keys_defaults]
    exact Table.sorted_ofList table
  · rw [Ty.find?_defaults, Ty.find?_defaults, Table.find?_ofList hn]

/-- The default of a record is read as a record without fields. -/
theorem read?_default (V : View) (kind : RecordKind) (name : String)
    (hn : (Table.keys table).Nodup) :
    (Ty.record kind name table).read? (Ty.record kind name table).default =
      V.read? (.record kind name table) (.record []) := by
  refine Ty.toOption_decodeRow_congr fun f hf => ?_
  rw [Ty.readField?, Table.find?_ofList (by rw [Ty.keys_defaults]; exact hn), Ty.find?_defaults,
    Table.find?_of_mem hn hf]
  rfl

theorem loadsDefault (hd : t.Distinct) : LoadsDefault t := by
  induction t using Ty.parts with
  | scalar st =>
    intro V s hs
    obtain ⟨x, hx, -⟩ := Ty.exists_decode_of_has hd (Ty.has_default hd)
    exact ⟨_, s, V, x, rfl, toOption_eq_some.2 hx, .refl V, hs,
      fun e he => absurd he List.not_mem_nil, toOption_eq_some.2 hx⟩
  | array element ih =>
    exact fun V s hs => ⟨_, s, V, [], rfl, rfl, .refl V, hs,
      fun e he => absurd he List.not_mem_nil, rfl⟩
  | record kind name table ih =>
    intro V s hs
    have hmem {f : String × Ty} : f ∈ Table.ofList table ↔ f ∈ table := Table.mem_ofList hd.1
    obtain ⟨fields, s₁, W, hfields, hgrows, hs₁, hfill⟩ := exists_loadFields
      (fun f hf => ih f (hmem.1 hf) (hd.2.of_find? (Table.find?_of_mem hd.1 (hmem.1 hf))))
      (Table.sorted_ofList table).nodup hs
    rw [← defaults_ofList hd.1] at hfields
    replace hfill : V.Filled [] W table fields := fun f hf => hfill f (hmem.2 hf)
    obtain ⟨row, hgiven, hrow⟩ := hfill.exists_read kind name hd.1
    have hcovers := hfill.covers kind name
    have hdefault := (read?_default V kind name hd.1).trans hgiven
    cases kind with
    | value =>
      refine ⟨.record fields, s₁, W, row, ?_, hdefault, hgrows, hs₁, hcovers, hrow⟩
      rw [Ty.default, Store.load, StateT.run_bind, hfields]
      rfl
    | reference =>
      obtain ⟨X, hX⟩ := hs₁.allocate hcovers hrow
      refine ⟨_, _, X, row, ?_, hdefault, hX.of_extends hgrows⟩
      rw [Ty.default, Store.load, StateT.run_bind, hfields]
      rfl

/-! ## Casts -/

/-- Casting a cell to the type keeps what is read of it. -/
def Preserves (t : Ty) : Prop :=
  ∀ (V : View) (s s' : Store) (c c' : Cell), V.Shows s → V.Covers t c →
    (Store.cast t c).on s = (.ok c', s') →
      ∃ W x, V.read? t c = some x ∧ V.Yields W s' t c' x

theorem preserves_scalar (st : ScalarTy) : Preserves (.scalar st) := by
  intro V s s' c c' hs hc h
  cases c with
  | array items => cases h
  | record fields => cases h
  | shared id => cases h
  | scalar v =>
    rw [Store.cast] at h
    cases hv : v.cast? st with
    | none =>
      rw [hv] at h
      cases h
    | some w =>
      rw [hv] at h
      cases h
      obtain rfl : w.type = st := has_of_cast (t := .scalar st) trivial (cast_scalar_of_cast? hv)
      obtain ⟨x, hx, -⟩ := Ty.data?_self w
      have hread {u : Scalar} (hu : u.cast? w.type = some w) :
          V.read? (.scalar w.type) (.scalar u) = some x := by
        refine toOption_eq_some.2 ?_
        rw [Store.tree, Ty.decode, bind_of_ok (castScalar_eq_ok.2 ⟨u, rfl, hu⟩), hx]
        rfl
      exact ⟨V, x, hread hv, .refl V, hs, hc, hread w.cast?_self⟩

theorem preserves_items (h : Preserves t) {items items' : List Cell} (hs : V.Shows s)
    (hc : V.Covers (.array t) (.array items))
    (hon : Store.Casting.on (items.mapM (Store.cast t)) s = (.ok items', s')) :
    ∃ W xs, V.read? (.array t) (.array items) = some xs ∧
      V.Yields W s' (.array t) (.array items') xs := by
  induction items generalizing V s items' with
  | nil =>
    cases hon
    exact ⟨V, [], rfl, .refl V, hs, hc, rfl⟩
  | cons c items ih =>
    obtain ⟨hfirst, hrest⟩ := List.forall_mem_cons.1 (covers_array.1 hc)
    rw [List.mapM_cons] at hon
    obtain ⟨c', s₁, hc', hon⟩ := Store.Casting.on_bind_eq_ok hon
    obtain ⟨items', s₂, hitems, hon⟩ := Store.Casting.on_bind_eq_ok hon
    cases hon
    obtain ⟨V₁, x, hx, hyields⟩ := h V s s₁ c c' hs hfirst hc'
    have hrest' : V₁.Covers (.array t) (.array items) :=
      covers_array.2 fun d hd => (hrest d hd).mono hyields.grows
    obtain ⟨W, xs, hxs, hyields'⟩ := ih hyields.shows hrest' hitems
    rw [hyields.grows.read? (covers_array.2 hrest)] at hxs
    refine ⟨W, x :: xs, ?_, hyields.grows.trans hyields'.grows, hyields'.shows,
      covers_array.2 (List.forall_mem_cons.2 ⟨hyields.covers.mono hyields'.grows,
        covers_array.1 hyields'.covers⟩), ?_⟩
    · rw [read?_array] at hxs ⊢
      rw [List.mapM_cons, hx, hxs]
      rfl
    · have hlast := hyields'.reads
      rw [read?_array] at hlast ⊢
      rw [List.mapM_cons, hyields'.grows.read? hyields.covers, hyields.reads, hlast]
      rfl

theorem preserves_array (h : Preserves t) : Preserves (.array t) := by
  intro V s s' c c' hs hc hon
  cases c with
  | scalar v => cases hon
  | record fields => cases hon
  | shared id => cases hon
  | array items =>
    rw [Store.cast] at hon
    obtain ⟨items', s₁, hitems, hon⟩ := Store.Casting.on_bind_eq_ok hon
    cases hon
    exact preserves_items h hs hc hitems

theorem preserves_castField {f : String × Ty} (hd : f.2.Distinct) (h : Preserves f.2)
    (hs : V.Shows s) (hc : ∀ c, Table.find? f.1 fields = some c → V.Covers f.2 c)
    (hon : (Store.castField f.1 f.2 fields).on s = (.ok d, s')) :
    ∃ W x, V.readField? f fields = some x ∧ V.Yields W s' f.2 d x := by
  rw [Store.castField] at hon
  rw [readField?]
  cases hf : Table.find? f.1 fields with
  | some c =>
    rw [hf] at hon
    exact h V s s' c d hs (hc c hf) hon
  | none =>
    rw [hf] at hon
    obtain ⟨c, s₁, W, x, hload, hx, hyields⟩ := loadsDefault hd V s hs
    have hlift : (monadLift (Store.load f.2.default) : Store.Casting Cell).on s = (.ok c, s₁) :=
      congrArg (fun r => (Except.ok r.1, r.2)) hload
    cases hlift.symm.trans hon
    exact ⟨W, x, hx, hyields⟩

theorem preserves_castFields (hd : Ty.DistinctFields table) (hn : (Table.keys table).Nodup)
    (h : ∀ f ∈ table, Preserves f.2) (hs : V.Shows s)
    (hc : ∀ f ∈ table, ∀ c, Table.find? f.1 fields = some c → V.Covers f.2 c)
    {rest : List (String × Cell)}
    (hon : (Store.castFields table fields).on s = (.ok (done, rest), s')) :
    Table.keys done = Table.keys table ∧
      ∃ W, V.Extends W ∧ W.Shows s' ∧ V.Filled fields W table done := by
  induction table generalizing V s fields done with
  | nil =>
    cases hon
    exact ⟨rfl, V, .refl V, hs, fun _ hf => absurd hf List.not_mem_nil⟩
  | cons f table ih =>
    obtain ⟨n, t⟩ := f
    obtain ⟨ht, h⟩ := List.forall_mem_cons.1 h
    obtain ⟨hfirst, hc⟩ := List.forall_mem_cons.1 hc
    obtain ⟨hnot, hn⟩ := List.nodup_cons.1 hn
    rw [Store.castFields_cons] at hon
    obtain ⟨c, s₁, hcast, hon⟩ := Store.Casting.on_bind_eq_ok hon
    obtain ⟨⟨done, left⟩, s₂, hcasts, hon⟩ := Store.Casting.on_bind_eq_ok hon
    cases hon
    obtain ⟨V₁, x, hx, hyields⟩ := preserves_castField hd.1 ht hs hfirst hcast
    have hne {g : String × Ty} (hg : g ∈ table) : n ≠ g.1 := fun he =>
      hnot (List.mem_map.2 ⟨g, hg, he.symm⟩)
    have herase {g : String × Ty} (hg : g ∈ table) :
        Table.find? g.1 (Table.erase n fields) = Table.find? g.1 fields := by
      rw [Table.find?_erase, if_neg (hne hg)]
    obtain ⟨hkeys, W, hgrows, hs₂, hfill⟩ := ih hd.2 hn h hyields.shows (fun g hg d hd =>
      (hc g hg d (herase hg ▸ hd)).mono hyields.grows) hcasts
    refine ⟨congrArg (n :: ·) hkeys, W, hyields.grows.trans hgrows, hs₂,
      List.forall_mem_cons.2 ⟨⟨c, x, if_pos rfl, hyields.covers.mono hgrows, ?_, hx⟩,
        fun g hg => ?_⟩⟩
    · rw [hgrows.read? hyields.covers, hyields.reads]
    · obtain ⟨d, y, hd, hcovers, hread, hy⟩ := hfill g hg
      refine ⟨d, y, (if_neg (hne hg)).trans hd, hcovers, hread, ?_⟩
      rw [readField?, herase hg] at hy
      rw [readField?, ← hy]
      cases hf : Table.find? g.1 fields with
      | none => rfl
      | some d => exact (hyields.grows.read? (hc g hg d hf)).symm

/-- A record is filled and handed out. What it is read as is settled for a shared record already. -/
theorem preserves_record (hd : (Ty.record kind name table).Distinct)
    (h : ∀ f ∈ table, Preserves f.2) : Preserves (.record kind name table) := by
  intro V s s' c c' hs hc hon
  cases hf : s.fields? c with
  | none =>
    rw [Store.cast, Store.Casting.on_read_bind, hf] at hon
    cases hon
  | some fields =>
    obtain ⟨hcovers, hsame⟩ := hs.opened hc hf
    rw [Store.on_cast_record hf] at hon
    obtain ⟨⟨done, rest⟩, s₁, hcasts, hon⟩ := Store.Casting.on_bind_eq_ok hon
    obtain ⟨hkeys, W, hgrows, hs₁, hfill⟩ :=
      preserves_castFields hd.2 hd.1 h hs (covers_record.1 hcovers) hcasts
    replace hfill : V.Filled fields W table (Table.ofList done) :=
      hfill.congr fun n _ => Table.find?_ofList (by rw [hkeys]; exact hd.1) n
    obtain ⟨row, hgiven, hrow⟩ := hfill.exists_read kind name hd.1
    rw [hsame] at hgiven
    cases rest with
    | cons e rest => cases hon
    | nil =>
      -- in the larger view the cell is still read as it was, so it may be written or left alone
      have hread := (hgrows.read? hc).trans hgiven
      obtain ⟨X, hX⟩ := hs₁.deliver (hc.mono hgrows) hread (hfill.covers kind name) hrow hon
      exact ⟨X, row, hgiven, hX.of_extends hgrows⟩

theorem preserves (hd : t.Distinct) : Preserves t := by
  induction t using Ty.parts with
  | scalar st => exact preserves_scalar st
  | array element ih => exact preserves_array (ih hd)
  | record kind name table ih =>
    exact preserves_record hd fun f hf => ih f hf (hd.2.of_find? (Table.find?_of_mem hd.1 hf))

end View

/-- Where no shared record is asked for as two types, a cast does not change what a cell is read as.
-/
theorem Store.decode_of_on_cast {s s' : Store} {t : Ty} {c c' : Cell} (hd : t.Distinct)
    (hc : s.Unambiguous t c) (h : (Store.cast t c).on s = (.ok c', s')) :
    ∃ x, t.decode (s.snapshot c) = .ok x ∧ t.decode (s'.snapshot c') = .ok x ∧
      t.decode (s'.snapshot c) = .ok x := by
  obtain ⟨V, hs, hcovers⟩ := hc.exists_view
  obtain ⟨W, x, hx, hyields⟩ := View.preserves hd V s s' c c' hs hcovers h
  have hafter : t.read? (s'.snapshot c) = some x := by
    rw [hyields.shows.read?_snapshot (hcovers.mono hyields.grows), hyields.grows.read? hcovers, hx]
  exact ⟨x, toOption_eq_some.1 ((hs.read?_snapshot hcovers).trans hx),
    toOption_eq_some.1 ((hyields.shows.read?_snapshot hyields.covers).trans hyields.reads),
    toOption_eq_some.1 hafter⟩

end Parley
