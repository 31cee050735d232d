import Parley.Proofs.Casts
import Parley.Proofs.Holdings
import Parley.Proofs.InPlace
import Parley.Store.Cast

/-!
# Casts in a store

Where no shared record is reached twice, casting a cell is casting its tree: the one goes through
when the other does, and the cell that comes out stands for the tree that comes out. Each part is
cast in the records that it passes, so the parts cast before it and those still to be cast are left
alone.

* `Casting.Follows` : a computation in a store ends as one on trees does.
* `loads_default` : a default as a cell.
* `CastsTrees` : casting cells to a type is casting what they stand for; one lemma for each kind of
  type, `follows_castFields` for the fields of a table, and `castsTrees` for all types.
* `on_cast_of_has` : a cell that stands for a value of the type is cast to itself.
* `cast_exact` : what a cast takes, and what it makes of that.
-/

namespace Parley.Store

variable {s t : Store} {c : Cell} {v : Value} {ids : List Nat} {fields : List (String × Cell)}
  {ws : Fields} {table : List (String × Ty)}

/-! ## Running -/

/-- What a cast in a store yields, and the store it leaves. -/
def Casting.on {α : Type} (x : Casting α) (s : Store) : Except TypeMismatch α × Store :=
  (ExceptT.run x).run s

/-- In the store the computation ends as the one on trees does: what they yield and the store that
is left are related, or both fail. -/
def Casting.Follows {α β : Type} (x : Casting α) (s : Store) (r : Except TypeMismatch β)
    (P : α → Store → β → Prop) : Prop :=
  (∃ a t b, x.on s = (.ok a, t) ∧ r = .ok b ∧ P a t b) ∨
    ∃ e t e', x.on s = (.error e, t) ∧ r = .error e'

namespace Casting

variable {α β γ δ : Type} {x : Casting α} {r : Except TypeMismatch β} {a : α} {b : β}
  {P : α → Store → β → Prop}

theorem on_bind (x : Casting α) (f : α → Casting γ) (s : Store) :
    (x >>= f).on s =
      match x.on s with
      | (.ok a, t) => (f a).on t
      | (.error e, t) => (.error e, t) := by
  unfold Casting.on
  rw [ExceptT.run_bind, StateT.run_bind]
  rcases StateT.run (ExceptT.run x) s with ⟨_ | _, t⟩ <;> rfl

theorem on_read_bind (f : Store → Casting γ) (s : Store) :
    ((getThe Store : Casting Store) >>= f).on s = (f s).on s :=
  rfl

theorem on_bind_of_ok (f : α → Casting γ) (h : x.on s = (.ok a, t)) :
    (x >>= f).on s = (f a).on t := by
  rw [on_bind, h]

theorem on_bind_cases {f : α → Casting γ} {out : Except TypeMismatch γ}
    (h : (x >>= f).on s = (out, t)) : (∃ e, x.on s = (.error e, t) ∧ out = .error e) ∨
      ∃ a u, x.on s = (.ok a, u) ∧ (f a).on u = (out, t) := by
  rw [on_bind] at h
  rcases hx : x.on s with ⟨e | a, u⟩
  · rw [hx] at h
    cases h
    exact Or.inl ⟨e, rfl, rfl⟩
  · rw [hx] at h
    exact Or.inr ⟨a, u, rfl, h⟩

theorem on_bind_eq_ok {f : α → Casting γ} {d : γ} (h : (x >>= f).on s = (.ok d, t)) :
    ∃ a u, x.on s = (.ok a, u) ∧ (f a).on u = (.ok d, t) := by
  rcases on_bind_cases h with ⟨_, -, ⟨⟩⟩ | h
  exact h

theorem follows_refuse (c : Cell) (t : Ty) (e : TypeMismatch) :
    (refuse c t : Casting α).Follows s (.error e) P :=
  Or.inr ⟨_, _, _, rfl, rfl⟩

theorem Follows.of_ok (h : x.on s = (.ok a, t)) (hr : r = .ok b) (hp : P a t b) :
    x.Follows s r P :=
  Or.inl ⟨a, t, b, h, hr, hp⟩

theorem Follows.bind {f : α → Casting γ} {g : β → Except TypeMismatch δ}
    {Q : γ → Store → δ → Prop} (h : x.Follows s r P)
    (hf : ∀ a t b, P a t b → (f a).Follows t (g b) Q) : (x >>= f).Follows s (r >>= g) Q := by
  rcases h with ⟨a, t, b, hx, rfl, hp⟩ | ⟨e, t, e', hx, rfl⟩
  · unfold Follows
    rw [on_bind_of_ok f hx]
    exact hf a t b hp
  · exact Or.inr ⟨e, t, e', by rw [on_bind, hx], rfl⟩

theorem Follows.exists_iff (h : x.Follows s r P) :
    (∃ a t, x.on s = (.ok a, t)) ↔ ∃ b, r = .ok b := by
  rcases h with ⟨a, t, b, hx, hr, -⟩ | ⟨e, t, e', hx, hr⟩
  · exact ⟨fun _ => ⟨b, hr⟩, fun _ => ⟨a, t, hx⟩⟩
  · constructor
    · rintro ⟨_, _, h⟩
      cases hx.symm.trans h
    · rintro ⟨_, h⟩
      cases hr.symm.trans h

theorem Follows.exists_of_on (h : x.Follows s r P) (hx : x.on s = (.ok a, t)) :
    ∃ b, r = .ok b ∧ P a t b := by
  rcases h with ⟨_, _, b, hx', hr, hp⟩ | ⟨_, _, _, hx', -⟩
  · cases hx.symm.trans hx'
    exact ⟨b, hr, hp⟩
  · cases hx.symm.trans hx'

end Casting

/-- In the store that is left the cell stands for the value, and of the records that were there none
but the given ones have been changed or are passed. -/
def Becomes (s : Store) (ids : List Nat) (c : Cell) (t : Store) (v : Value) : Prop :=
  ∃ ids', t.Holds c v ids' ∧ s.Moves ids t ids'

/-! ## Defaults -/

/-- A value is loaded as a cell that stands for it in new records. -/
def Loads (v : Value) : Prop :=
  ∀ s : Store, ∃ c t, (load v).run s = (c, t) ∧ s.Becomes [] c t v

theorem exists_loadFields (h : ∀ e ∈ ws, Loads e.2) (hn : (Table.keys ws).Nodup) (s : Store) :
    ∃ fields t, (loadFields ws).run s = (fields, t) ∧
      s.Becomes [] (.record fields) t (.record .value ws) := by
  induction ws generalizing s with
  | nil => exact ⟨[], s, rfl, [], .bare, .refl s List.nodup_nil⟩
  | cons e ws ih =>
    obtain ⟨he, hrest⟩ := List.forall_mem_cons.1 h
    obtain ⟨hnot, hn⟩ := List.nodup_cons.1 hn
    obtain ⟨c, t, hc, ids, hholds, hmoves⟩ := he s
    obtain ⟨fields, u, hfields, more, hholds', hmoves'⟩ := ih hrest hn t
    obtain ⟨hc', hall⟩ := hmoves.andThen hmoves' List.nodup_nil
      (fun _ hid => absurd hid List.not_mem_nil) hholds
    refine ⟨(e.1, c) :: fields, u, ?_, _, .field (hholds'.keys_eq ▸ hnot) hc' hholds', hall⟩
    rw [loadFields, StateT.run_bind, hc]
    show StateT.run (loadFields ws >>= _) t = _
    rw [StateT.run_bind, hfields]
    rfl

theorem loads_record (kind : RecordKind) (h : ∀ e ∈ ws, Loads e.2) (hn : (Table.keys ws).Nodup) :
    Loads (.record kind ws) := by
  intro s
  obtain ⟨fields, t, hfields, ids, hholds, hmoves⟩ := exists_loadFields h hn s
  cases kind with
  | value =>
    refine ⟨.record fields, t, ?_, ids, hholds, hmoves⟩
    rw [load, StateT.run_bind, hfields]
    rfl
  | reference =>
    obtain ⟨hc, hall⟩ := hmoves.allocate hholds
    refine ⟨_, _, ?_, _, hc, hall⟩
    rw [load, StateT.run_bind, hfields]
    rfl

theorem loads_default {t : Ty} (hd : t.Distinct) : Loads t.default := by
  induction t using Ty.parts with
  | scalar s => exact fun st => ⟨_, st, rfl, [], .scalar _, .refl st List.nodup_nil⟩
  | array element ih => exact fun st => ⟨_, st, rfl, [], .nil, .refl st List.nodup_nil⟩
  | record kind name table ih =>
    have hn : (Table.keys (Ty.defaults table)).Nodup := by
      rw [Ty.keys_defaults]
      exact hd.1
    have hsorted := Table.sorted_ofList (Ty.defaults table)
    refine loads_record kind (fun e he => ?_) hsorted.nodup
    have hfind := Table.find?_of_mem hsorted.nodup he
    rw [Table.find?_ofList hn, Ty.find?_defaults] at hfind
    obtain ⟨t, ht, heq⟩ := Option.map_eq_some_iff.1 hfind
    exact heq ▸ ih (e.1, t) (Table.mem_of_find? ht) (hd.2.of_find? ht)

/-! ## Casting what a cell stands for -/

/-- Casting a cell to the type is casting the value that it stands for. -/
def CastsTrees (type : Ty) : Prop :=
  ∀ (s : Store) (c : Cell) (v : Value) (ids : List Nat), s.Holds c v ids → ids.Nodup →
    (cast type c).Follows s (Parley.cast type v) (s.Becomes ids)

theorem castsTrees_scalar (t : ScalarTy) : CastsTrees (.scalar t) := by
  intro s c v ids hc hn
  cases hc with
  | scalar x =>
    rw [cast, Parley.cast, castScalar]
    cases hx : x.cast? t with
    | none => exact Casting.follows_refuse _ _ _
    | some y => exact .of_ok rfl rfl ⟨[], .scalar y, .refl s List.nodup_nil⟩
  | nil | cons | bare | field | shared => exact Casting.follows_refuse _ _ _

theorem follows_items {element : Ty} (h : CastsTrees element) {items : List Cell} {vs : List Value}
    (hc : s.Holds (.array items) (.array vs) ids) (hn : ids.Nodup) :
    Casting.Follows (items.mapM (cast element)) s (vs.mapM (Parley.cast element))
      fun items' t vs' => s.Becomes ids (.array items') t (.array vs') := by
  induction items generalizing s vs ids with
  | nil =>
    cases hc
    exact .of_ok rfl rfl ⟨[], .nil, .refl s List.nodup_nil⟩
  | cons c items ih =>
    cases hc with
    | cons hv hc =>
      obtain ⟨hgiven, hmore, -⟩ := List.nodup_append.1 hn
      rw [List.mapM_cons, List.mapM_cons]
      refine (h s _ _ _ hv hgiven).bind fun c' t w hb => ?_
      obtain ⟨ids', hw, hm⟩ := hb
      refine (ih (hm.holds_rest hn hc) hmore).bind fun items' u vs' hb => ?_
      obtain ⟨more', hvs, hm'⟩ := hb
      obtain ⟨hw', hall⟩ := hm.andThen hm' hn hc.lt_of_mem hw
      exact .of_ok rfl rfl ⟨_, .cons hw' hvs, hall⟩

theorem castsTrees_array {element : Ty} (h : CastsTrees element) : CastsTrees (.array element) := by
  intro s c v ids hc hn
  have harray {items : List Cell} {vs : List Value} (hc : s.Holds (.array items) (.array vs) ids) :
      (cast (.array element) (.array items)).Follows s (Parley.cast (.array element) (.array vs))
        (s.Becomes ids) := by
    rw [cast, Parley.cast]
    exact (follows_items h hc hn).bind fun items' t vs' hb => .of_ok rfl rfl hb
  cases hc with
  | nil => exact harray .nil
  | cons hv hc => exact harray (.cons hv hc)
  | scalar | bare | field | shared => exact Casting.follows_refuse _ _ _

/-! ## The fields of a table -/

/-- What becomes of the name of a table: the field under it is cast, or the default is loaded. -/
def castField (n : String) (type : Ty) (fields : List (String × Cell)) : Casting Cell :=
  match Table.find? n fields with
  | some c => cast type c
  | none => monadLift (load type.default)

theorem castFields_cons (n : String) (type : Ty) (table : List (String × Ty))
    (fields : List (String × Cell)) :
    castFields ((n, type) :: table) fields = castField n type fields >>= fun c =>
      castFields table (Table.erase n fields) >>= fun r => pure ((n, c) :: r.1, r.2) := by
  rw [castFields, castField]
  cases Table.find? n fields <;> rfl

/-- The same on trees. -/
def treeField (n : String) (type : Ty) (ws : Fields) : Except TypeMismatch Value :=
  match Table.find? n ws with
  | some v => Parley.cast type v
  | none => .ok type.default

theorem treeFields_cons (n : String) (type : Ty) (table : List (String × Ty)) (ws : Fields) :
    Parley.castFields ((n, type) :: table) ws = treeField n type ws >>= fun v =>
      Parley.castFields table (Table.erase n ws) >>= fun r => pure ((n, v) :: r.1, r.2) := by
  rw [Parley.castFields, treeField]
  cases Table.find? n ws <;> rfl

/-- A field is cast in its own records; the other fields are left to be cast. -/
theorem follows_field {n : String} {type : Ty} (hd : type.Distinct) (h : CastsTrees type)
    (hc : s.Holds (.record fields) (.record .value ws) ids) (hn : ids.Nodup) :
    ∃ given rest, ids.Perm (given ++ rest) ∧
      s.Holds (.record (Table.erase n fields)) (.record .value (Table.erase n ws)) rest ∧
      (castField n type fields).Follows s (treeField n type ws) (s.Becomes given) := by
  rw [castField, treeField]
  cases hf : Table.find? n fields with
  | some c =>
    obtain ⟨v, given, rest, hv, hgiven, hrest, hp⟩ := hc.take hf
    rw [hv]
    have hnodup := List.nodup_append.1 (hp.nodup_iff.1 hn)
    exact ⟨given, rest, hp, hrest, h s c v given hgiven hnodup.1⟩
  | none =>
    have hnot := Table.find?_eq_none_iff.1 hf
    rw [Table.find?_eq_none_iff.2 (hc.keys_eq ▸ hnot), Table.erase_eq_self hnot,
      Table.erase_eq_self (hc.keys_eq ▸ hnot)]
    obtain ⟨c, t, hload, hb⟩ := loads_default hd s
    exact ⟨[], ids, .refl _, hc, .of_ok (congrArg (fun r => (Except.ok r.1, r.2)) hload) rfl hb⟩

theorem follows_castFields (hd : Ty.DistinctFields table) (hk : (Table.keys table).Nodup)
    (h : ∀ e ∈ table, CastsTrees e.2) (hc : s.Holds (.record fields) (.record .value ws) ids)
    (hn : ids.Nodup) :
    (castFields table fields).Follows s (Parley.castFields table ws) fun r t r' =>
      Table.keys r.1 = Table.keys table ∧ Table.keys r.2 = Table.keys r'.2 ∧
        s.Becomes ids (.record r.1) t (.record .value r'.1) := by
  induction table generalizing s fields ws ids with
  | nil =>
    refine .of_ok rfl rfl ⟨rfl, hc.keys_eq.symm, [], .bare, ?_⟩
    exact (Moves.refl s List.nodup_nil).mono (List.nil_subset _) (.refl _)
  | cons entry table ih =>
    obtain ⟨n, type⟩ := entry
    obtain ⟨hnot, hk⟩ := List.nodup_cons.1 hk
    obtain ⟨htype, h⟩ := List.forall_mem_cons.1 h
    obtain ⟨given, rest, hp, hrest, hfield⟩ := follows_field (n := n) hd.1 htype hc hn
    have hn' := hp.nodup_iff.1 hn
    -- the records are shared out: the first field is cast in some, the others in the rest
    rw [castFields_cons, treeFields_cons]
    refine hfield.bind fun c t w hb => ?_
    obtain ⟨ids', hw, hm⟩ := hb
    refine (ih hd.2 hk h (hm.holds_rest hn' hrest) (List.nodup_append.1 hn').2.1).bind
      fun r u r' hb => ?_
    obtain ⟨hkeys, hleft, more', hws, hm'⟩ := hb
    obtain ⟨hw', hall⟩ := hm.andThen hm' hn' hrest.lt_of_mem hw
    exact .of_ok rfl rfl ⟨congrArg (n :: ·) hkeys, hleft, _, .field (hkeys ▸ hnot) hw' hws,
      hall.mono hp.symm.subset (.refl _)⟩

/-! ## Records -/

/-- The record that a cast hands out once its fields are cast: the one that was given if it is
shared and should be, else a new one. -/
def deliver (kind : RecordKind) (c : Cell) (fields : List (String × Cell)) : Casting Cell :=
  match kind, c with
  | .value, _ => return .record fields
  | .reference, .shared id => do
    modifyThe Store fun s => s.write id fields
    return .shared id
  | .reference, _ => modifyGetThe Store fun s => s.allocate fields

theorem on_cast_record {kind : RecordKind} {name : String} (hf : s.fields? c = some fields) :
    (cast (.record kind name table) c).on s =
      (castFields table fields >>= fun r =>
        match r.2 with
        | [] => deliver kind c (Table.ofList r.1)
        | _ :: _ => refuse c (.record kind name table)).on s := by
  -- the casts of the fields are the same on both sides; what is left of the fields decides
  rw [cast, Casting.on_read_bind, hf, Casting.on_bind, Casting.on_bind]
  rcases (castFields table fields).on s with ⟨e | ⟨done, rest⟩, t⟩
  · rfl
  · cases rest with
    | nil => cases kind <;> cases c <;> rfl
    | cons e rest => rfl

/-- A record of either kind is cast when its fields are and nothing is left of them. -/
theorem follows_record {kind kind' : RecordKind} {name : String}
    (hd : (Ty.record kind name table).Distinct) (h : ∀ e ∈ table, CastsTrees e.2)
    (hf : s.fields? c = some fields) (hc : s.Holds (.record fields) (.record .value ws) ids)
    (hn : ids.Nodup) {P : Cell → Store → Value → Prop}
    (hdeliver : ∀ done t done' ids', t.Holds (.record done) (.record .value done') ids' →
      s.Moves ids t ids' → (deliver kind c done).Follows t (.ok (.record kind done')) P) :
    (cast (.record kind name table) c).Follows s
      (Parley.cast (.record kind name table) (.record kind' ws)) P := by
  unfold Casting.Follows
  rw [on_cast_record hf, Parley.cast]
  refine (follows_castFields hd.2 hd.1 h hc hn).bind fun r t r' hb => ?_
  obtain ⟨done, rest⟩ := r
  obtain ⟨done', rest'⟩ := r'
  obtain ⟨hkeys, hleft, ids', hws, hm⟩ := hb
  obtain ⟨all, hp, hall⟩ := hws.exists_ofList
  cases rest with
  | nil =>
    obtain rfl : rest' = [] := List.map_eq_nil_iff.1 hleft.symm
    exact hdeliver _ t _ all hall (hm.mono (List.Subset.refl _) hp.symm)
  | cons e rest =>
    cases rest' with
    | nil => cases hleft
    | cons e' rest' => exact Casting.follows_refuse _ _ _

theorem castsTrees_record {kind : RecordKind} {name : String}
    (hd : (Ty.record kind name table).Distinct) (h : ∀ e ∈ table, CastsTrees e.2) :
    CastsTrees (.record kind name table) := by
  intro s c v ids hc hn
  cases c with
  | scalar x =>
    cases hc
    exact Casting.follows_refuse _ _ _
  | array items =>
    cases hc <;> exact Casting.follows_refuse _ _ _
  | record fields =>
    obtain ⟨ws, rfl⟩ := hc.exists_record
    refine follows_record hd h rfl hc hn fun done t done' ids' hdone hm => ?_
    cases kind with
    | value => exact .of_ok rfl rfl ⟨ids', hdone, hm⟩
    | reference =>
      obtain ⟨hnew, hm'⟩ := hm.allocate hdone
      exact .of_ok rfl rfl ⟨_, hnew, hm'⟩
  | shared id =>
    cases hc with
    | shared hid hc =>
      obtain ⟨hnot, hn⟩ := List.nodup_cons.1 hn
      -- the fields pass other records than their own, which is still there to be written
      refine follows_record hd h rfl hc hn fun done t done' ids' hdone hm => ?_
      cases kind with
      | value =>
        exact .of_ok rfl rfl ⟨ids', hdone, hm.mono (List.subset_cons_self ..) (.refl _)⟩
      | reference =>
        obtain ⟨hsame, hm'⟩ := hm.write hdone hnot hid
        exact .of_ok rfl rfl ⟨_, hsame, hm'⟩

/-- Casting a cell is casting the value that it stands for. -/
theorem castsTrees {type : Ty} (hd : type.Distinct) : CastsTrees type := by
  induction type using Ty.parts with
  | scalar t => exact castsTrees_scalar t
  | array element ih => exact castsTrees_array (ih hd)
  | record kind name table ih =>
    exact castsTrees_record hd fun e he => ih e he (hd.2.of_find? (Table.find?_of_mem hd.1 he))

/-! ## What has the type already -/

theorem on_mapM_self {f : Cell → Casting Cell} {items : List Cell}
    (h : ∀ c ∈ items, (f c).on s = (.ok c, s)) :
    Casting.on (items.mapM f) s = (.ok items, s) := by
  induction items with
  | nil => rfl
  | cons c items ih =>
    obtain ⟨hc, hrest⟩ := List.forall_mem_cons.1 h
    rw [List.mapM_cons, Casting.on_bind_of_ok _ hc, Casting.on_bind_of_ok _ (ih hrest)]
    rfl

theorem on_castFields_self (hk : (Table.keys table).Nodup)
    (h : ∀ n t, Table.find? n table = some t →
      ∃ c, Table.find? n fields = some c ∧ (cast t c).on s = (.ok c, s)) :
    ∃ done rest, (castFields table fields).on s = (.ok (done, rest), s) ∧
      Table.keys done = Table.keys table ∧
      (∀ n ∈ Table.keys table, Table.find? n done = Table.find? n fields) ∧
      ∀ n ∈ Table.keys rest, n ∈ Table.keys fields ∧ n ∉ Table.keys table := by
  induction table generalizing fields with
  | nil =>
    exact ⟨[], fields, by rw [castFields]; rfl, rfl, fun _ hn => absurd hn List.not_mem_nil,
      fun _ hn => ⟨hn, List.not_mem_nil⟩⟩
  | cons entry table ih =>
    obtain ⟨m, u⟩ := entry
    obtain ⟨c, hf, hc⟩ := h m u (if_pos rfl)
    have herase : ∀ n t, Table.find? n table = some t →
        ∃ c, Table.find? n (Table.erase m fields) = some c ∧ (cast t c).on s = (.ok c, s) := by
      intro n t ht
      have hm := Table.ne_of_nodup_cons hk ht
      rw [Table.find?_erase, if_neg hm]
      exact h n t ((if_neg hm).trans ht)
    obtain ⟨done, rest, hdone, hkeys, hfind, hrest⟩ := ih (List.nodup_cons.1 hk).2 herase
    refine ⟨(m, c) :: done, rest, ?_, congrArg (m :: ·) hkeys, fun n hn => ?_, fun n hn => ?_⟩
    · have hfield : (castField m u fields).on s = (.ok c, s) := by
        rw [castField, hf]
        exact hc
      rw [castFields_cons, Casting.on_bind_of_ok _ hfield, Casting.on_bind_of_ok _ hdone]
      rfl
    · by_cases hm : m = n
      · exact (if_pos hm).trans (hm ▸ hf.symm)
      · rw [Table.find?, if_neg hm, hfind n ((List.mem_cons.1 hn).resolve_left (Ne.symm hm)),
          Table.find?_erase, if_neg hm]
    · obtain ⟨hgiven, hnot⟩ := hrest n hn
      obtain ⟨hne, hgiven⟩ := Table.mem_keys_erase.1 hgiven
      exact ⟨hgiven, fun hmem => (List.mem_cons.1 hmem).elim hne hnot⟩

theorem on_cast_record_self {kind : RecordKind} {name : String}
    (hd : (Ty.record kind name table).Distinct) (hf : s.fields? c = some fields)
    (hsorted : Table.Sorted fields) (hkeys : ∀ n ∈ Table.keys fields, n ∈ Table.keys table)
    (h : ∀ n t, Table.find? n table = some t →
      ∃ c, Table.find? n fields = some c ∧ (cast t c).on s = (.ok c, s)) :
    (cast (.record kind name table) c).on s = (deliver kind c fields).on s := by
  obtain ⟨done, rest, hdone, hkeys', hfind, hrest⟩ := on_castFields_self hd.1 h
  obtain rfl : rest = [] := List.eq_nil_iff_forall_not_mem.2 fun e he => by
    obtain ⟨hgiven, hnot⟩ := hrest e.1 (List.mem_map_of_mem he)
    exact hnot (hkeys e.1 hgiven)
  have hofList : Table.ofList done = fields := by
    refine Table.ofList_eq (hkeys' ▸ hd.1) hsorted fun n => ?_
    by_cases hn : n ∈ Table.keys table
    · exact hfind n hn
    · rw [Table.find?_eq_none_iff.2 (hkeys' ▸ hn), Table.find?_eq_none_iff.2 (mt (hkeys n) hn)]
  rw [on_cast_record hf, Casting.on_bind_of_ok _ hdone]
  exact congrArg (fun fields => (deliver kind c fields).on s) hofList

/-- A cell that stands for a value of the type is cast to itself, and nothing is changed. -/
theorem on_cast_of_has {type : Ty} (hd : type.Distinct) (hc : s.Holds c v ids)
    (hv : type.Has v) : (cast type c).on s = (.ok c, s) := by
  induction type using Ty.parts generalizing c v ids with
  | scalar t =>
    obtain ⟨leaf, rfl, rfl⟩ := Ty.has_scalar.1 hv
    cases hc
    rw [cast, leaf.cast?_self]
    rfl
  | array element ih =>
    obtain ⟨vs, rfl, hvs⟩ := Ty.has_array.1 hv
    obtain ⟨items, rfl⟩ := hc.exists_array
    have hitems : Casting.on (items.mapM (cast element)) s = (.ok items, s) :=
      on_mapM_self fun c hmem => by
        obtain ⟨v, hv, given, hgiven⟩ := hc.exists_item c hmem
        exact ih hd hgiven (hvs v hv)
    rw [cast, Casting.on_bind_of_ok _ hitems]
    rfl
  | record kind name table ih =>
    obtain ⟨ws, rfl, hsorted, hkeys, hh⟩ := Ty.has_record.1 hv
    have hself {fields : List (String × Cell)} {ids : List Nat} (hf : s.fields? c = some fields)
        (hc : s.Holds (.record fields) (.record .value ws) ids) :
        (cast (.record kind name table) c).on s = (deliver kind c fields).on s := by
      refine on_cast_record_self hd hf ?_ (hc.keys_eq ▸ hkeys) fun n t ht => ?_
      · rw [Table.Sorted, ← hc.keys_eq]
        exact hsorted
      · obtain ⟨x, hx, htx⟩ := hh.of_find? ht
        obtain ⟨d, hfind⟩ :=
          Table.exists_find?_of_mem_keys (hc.keys_eq ▸ Table.mem_keys_of_find? hx)
        obtain ⟨y, given, -, hy, hgiven, -⟩ := hc.take hfind
        cases hx.symm.trans hy
        exact ⟨d, hfind, ih (n, t) (Table.mem_of_find? ht) (hd.2.of_find? ht) hgiven htx⟩
    cases c with
    | scalar x => cases hc
    | array items => cases hc
    | record fields =>
      obtain ⟨ws', hws⟩ := hc.exists_record
      cases hws
      exact hself rfl hc
    | shared id =>
      cases hc with
      | shared hid hc =>
        -- the fields that are written back are the ones that were there
        rw [hself rfl hc]
        show (Except.ok (Cell.shared id), s.write id (s.fields id)) = _
        rw [write_fields]

/-! ## What a cast does -/

/-- Checked casts go through for exactly what is assignable to the type, and yield what the cast of
the tree is: a value of the type, which is cast to itself. -/
theorem cast_exact {type : Ty} {s : Store} {c : Cell} (hd : type.Distinct) (hc : s.Tidy c) :
    ((∃ c' t, (cast type c).on s = (.ok c', t)) ↔ (s.snapshot c).Assignable type) ∧
      (∀ c' t, (cast type c).on s = (.ok c', t) →
        Parley.cast type (s.snapshot c) = .ok (t.snapshot c') ∧ type.Has (t.snapshot c') ∧
          type.Keeps (s.snapshot c) (t.snapshot c') ∧ (cast type c').on t = (.ok c', t)) ∧
      (type.Has (s.snapshot c) → (cast type c).on s = (.ok c, s)) := by
  obtain ⟨ids, hn, hholds⟩ := hc.exists_holds
  have hfollows := castsTrees hd s c _ ids hholds hn
  refine ⟨hfollows.exists_iff.trans (exists_cast_iff hd), fun c' t hcast => ?_,
    on_cast_of_has hd hholds⟩
  obtain ⟨w, hw, ids', hholds', hm⟩ := hfollows.exists_of_on hcast
  have hhas := has_of_cast hd hw
  rw [hholds'.snapshot_eq hm.nodup]
  exact ⟨hw, hhas, keeps_of_cast hd hw, on_cast_of_has hd hholds' hhas⟩

theorem tidy_holder : shelf.Tidy holder := by
  have hshared {p : Path} {id : Nat} (h : shelf.get holder p = .ok (.shared id)) :
      p = [.name "shelf"] ∧ id = 0 := by
    rcases get_holder h with ⟨rfl, ⟨⟩⟩ | ⟨rfl, ⟨⟩⟩ | ⟨_, ⟨⟩⟩ | ⟨⟨⟩⟩ | ⟨⟨⟩⟩
    exact ⟨rfl, rfl⟩
  refine ⟨fun p q id hp hq => (hshared hp).1.trans (hshared hq).1.symm, ?_, ?_⟩
  · intro p d fields hd hf
    rcases get_holder hd with ⟨-, rfl⟩ | ⟨-, rfl⟩ | ⟨_, rfl⟩ | rfl | rfl <;> cases hf <;> decide
  · rintro id ⟨p, hp⟩
    rw [(hshared hp).2]
    decide

/-- The shared record in the holder is filled where it stands, and the holder becomes a shared
record. -/
theorem cast_exact_shelf :
    let item (type : Ty) : Ty := .array (.record .value "Item" [("x", type)])
    let rack : Ty := .record .reference "Rack"
      [("shelf", .record .reference "Shelf" [("items", item .string), ("label", .string)])]
    let plain : Ty := .record .value "Plain"
      [("shelf", .record .reference "Shelf" [("items", item .nil)])]
    let t : Store := ⟨[[("items", .array [.record [("x", .scalar (.string ""))]]),
      ("label", .scalar (.string ""))], [("shelf", .shared 0)]]⟩
    rack.Distinct ∧ shelf.Tidy holder ∧ (cast rack holder).on shelf = (.ok (.shared 1), t) ∧
      (shelf.snapshot holder).Assignable rack ∧ rack.Has (t.snapshot (.shared 1)) ∧
      rack.Keeps (shelf.snapshot holder) (t.snapshot (.shared 1)) ∧
      (cast rack (.shared 1)).on t = (.ok (.shared 1), t) ∧
      plain.Has (shelf.snapshot holder) ∧ (cast plain holder).on shelf = (.ok holder, shelf) := by
  intro item rack plain t
  have hd : rack.Distinct := by decide
  have hcast : (cast rack holder).on shelf = (.ok (.shared 1), t) := rfl
  have hplain : plain.Has (shelf.snapshot holder) := by decide
  obtain ⟨hiff, hresult, -⟩ := cast_exact hd tidy_holder
  obtain ⟨-, hhas, hkeeps, hagain⟩ := hresult _ _ hcast
  exact ⟨hd, tidy_holder, hcast, hiff.1 ⟨_, _, hcast⟩, hhas, hkeeps, hagain, hplain,
    (cast_exact (show plain.Distinct by decide) tidy_holder).2.2 hplain⟩

end Parley.Store
