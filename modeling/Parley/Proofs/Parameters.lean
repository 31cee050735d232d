import Parley.Mapping.Basic
import Parley.Proofs.Allocation
import Parley.Proofs.Bundles

/-!
# Argument lists as single values

The entries of an argument list are written and read one parameter at a time. That is the same as
to write the list as an array, and to read a record whose fields are named by the positions of the
parameters.

* `Mappings.compile_eq_ok` : when a mapping is compiled, and to what.
* `Mappings.exists_splitParameter` : every entry of a compiled argument list names a parameter.
* `encodeArguments_alike` : an argument list and the array of its arguments are written alike.
* `Encoding.byName`, `Encoding.named` : an entry about a parameter as one about a field.
* `Encoding.run_read_cons` : an entry is read into the part that its first step leads to.
* `run_fill_named` : the entries are read one by one into the same parts.
* `construct_named` : the parts before anything is read are the same.
* `arguments_as_one` : argument lists and the values that stand for them.
-/

namespace Parley

/-! ## The parameter of an entry -/

namespace Encoding

theorem path_withPath (e : Encoding) (p : Path) : (e.withPath p).path = p := by
  cases e <;> rfl

theorem withPath_withPath (e : Encoding) (p q : Path) :
    (e.withPath p).withPath q = e.withPath q := by
  cases e <;> rfl

theorem withPath_path (e : Encoding) : e.withPath e.path = e := by
  cases e <;> rfl

theorem splitParameter_eq_ok {e own : Encoding} {i : Nat} :
    e.splitParameter = .ok (i, own) ↔
      ∃ rest, e.path = .index i :: rest ∧ own = e.withPath rest := by
  unfold splitParameter
  constructor
  · intro h
    split at h
    · rename_i j rest hp
      split at h
      · cases h
        exact ⟨rest, by rw [hp, Int.toNat_of_nonneg ‹_›], rfl⟩
      · cases h
    · cases h
  · rintro ⟨rest, hp, rfl⟩
    rw [hp]
    exact if_pos (Int.natCast_nonneg i)

end Encoding

theorem MappingEntry.path_of_compile {e : MappingEntry} {e' : Encoding}
    (h : e.compile = .ok e') : e'.path = e.path := by
  cases e with
  | base kind path =>
    cases h
    rfl
  | array path element =>
    obtain ⟨_, -, h⟩ := bind_eq_ok.1 (show (_ >>= _) = _ from h)
    cases h
    rfl
  | enum path key number pairs =>
    obtain ⟨_, -, h⟩ := bind_eq_ok.1 (show (_ >>= _) = _ from h)
    cases h
    rfl

theorem path_of_compileAll {entries : List MappingEntry} {encoding : List Encoding}
    (h : compileAll entries = .ok encoding) :
    List.Forall₂ (fun e e' => e'.path = e.path) entries encoding := by
  induction entries generalizing encoding with
  | nil =>
    cases h
    exact .nil
  | cons e rest ih =>
    obtain ⟨first, hfirst, h⟩ := bind_eq_ok.1 (show (_ >>= _) = _ from h)
    obtain ⟨more, hmore, h⟩ := bind_eq_ok.1 h
    cases h
    exact .cons (e.path_of_compile hfirst) (ih hmore)

theorem MappingEntry.selectsParameter_iff {e : MappingEntry} :
    e.selectsParameter = true ↔ ∃ i rest, e.path = .index i :: rest ∧ 0 ≤ i := by
  unfold MappingEntry.selectsParameter
  rcases e.path with _ | ⟨_ | _, rest⟩
  · exact iff_of_false nofun nofun
  · simp
  · exact iff_of_false nofun nofun

/-- A mapping is compiled when each entry about an argument selects a parameter and all entries are
compiled. -/
theorem Mappings.compile_eq_ok {m : Mappings} {id : String} {mapping : TypeMapping}
    {enc : FunctionEncoding} (hm : Table.find? id m = some mapping) :
    m.compile id = .ok enc ↔ (∀ e ∈ mapping.args, e.selectsParameter = true) ∧
      compileAll mapping.args = .ok enc.args ∧ compileAll mapping.result = .ok enc.result := by
  have hselect : mapping.args.find? (fun e => !e.selectsParameter) = none ↔
      ∀ e ∈ mapping.args, e.selectsParameter = true := by
    rw [List.find?_eq_none]
    simp only [Bool.not_eq_true', Bool.not_eq_false]
  unfold Mappings.compile
  simp only [hm]
  cases hfind : mapping.args.find? (fun e => !e.selectsParameter) with
  | some e => exact iff_of_false nofun fun h => nomatch hfind.symm.trans (hselect.2 h.1)
  | none =>
    rw [and_iff_right (hselect.1 hfind)]
    simp only [bind_eq_ok]
    constructor
    · rintro ⟨args, hargs, result, hresult, ⟨⟩⟩
      exact ⟨hargs, hresult⟩
    · rintro ⟨hargs, hresult⟩
      exact ⟨_, hargs, _, hresult, rfl⟩

theorem Encoding.exists_splitParameter {e : Encoding} {i : Int} {rest : Path}
    (hp : e.path = .index i :: rest) (hi : 0 ≤ i) :
    ∃ (k : Nat) (own : Encoding), e.splitParameter = .ok (k, own) ∧ own.withPath e.path = e ∧
      e.path = .index k :: own.path := by
  obtain ⟨k, rfl⟩ := Int.eq_ofNat_of_zero_le hi
  refine ⟨k, e.withPath rest, splitParameter_eq_ok.2 ⟨rest, hp, rfl⟩, ?_, ?_⟩
  · rw [withPath_withPath, withPath_path]
  · rw [path_withPath, hp]

theorem Mappings.exists_splitParameter {m : Mappings} {id : String} {encoding : FunctionEncoding}
    (h : m.compile id = .ok encoding) :
    ∃ entries, encoding.args.mapM Encoding.splitParameter = .ok entries := by
  obtain ⟨mapping, hm⟩ : ∃ mapping, Table.find? id m = some mapping := by
    unfold Mappings.compile at h
    split at h
    · cases h
    · exact ⟨_, ‹_›⟩
  obtain ⟨hselect, hargs, -⟩ := (compile_eq_ok hm).1 h
  have hsplit : ∀ e ∈ encoding.args, ∃ x, e.splitParameter = .ok x ∧ True := by
    intro e he
    obtain ⟨entry, hentry, hpath⟩ := exists_mem_of_forall₂ (path_of_compileAll hargs).flip he
    obtain ⟨i, rest, hp, hi⟩ := MappingEntry.selectsParameter_iff.1 (hselect entry hentry)
    obtain ⟨k, own, hown, -⟩ := Encoding.exists_splitParameter (hpath.trans hp) hi
    exact ⟨_, hown, trivial⟩
  obtain ⟨entries, hentries, -⟩ := exists_mapM_forall₂ hsplit
  exact ⟨entries, hentries⟩

/-! ## Writing -/

/-- The same bytes are written, and either both go through or neither does. -/
structure Emission.Alike (a b : Emission) : Prop where
  bytes : a.bytes = b.bytes
  error : a.error = none ↔ b.error = none

theorem Emission.Alike.andThen {a a' b b' : Emission} (ha : a.Alike a') (hb : b.Alike b') :
    (a.andThen b).Alike (a'.andThen b') := by
  obtain ⟨bytes, error⟩ := a
  obtain ⟨bytes', error'⟩ := a'
  obtain ⟨rfl, he⟩ := ha
  cases error with
  | none =>
    obtain rfl := he.1 rfl
    exact ⟨congrArg (bytes ++ ·) hb.bytes, hb.error⟩
  | some e =>
    cases error' with
    | none => cases he.2 rfl
    | some e' => exact ⟨rfl, he⟩

namespace Encoding

variable {e : Encoding} {v x : Value} {s : Step} {p : Path}

theorem write_of_member (hp : e.path = s :: p) (hx : v.member s = .ok x) :
    e.write v = (e.withPath p).write x := by
  cases e <;> obtain rfl := hp <;>
    rw [write, withPath, write, show v.get (s :: p) = x.get p from bind_of_ok hx _]

theorem write_of_not_member (hp : e.path = s :: p) {err : Error} (hx : v.member s = .error err) :
    e.write v = .fail err := by
  have hget : v.get (s :: p) = .error err := by
    rw [Value.get, hx]
    rfl
  cases e <;> obtain rfl := hp <;> rw [write, hget] <;> rfl

end Encoding

/-- An argument list and the array of its arguments are written alike. -/
theorem encodeArguments_alike {encoding : List Encoding} {entries : List (Nat × Encoding)}
    (hs : encoding.mapM Encoding.splitParameter = .ok entries) (args : List Value) :
    (encodeArguments encoding args).Alike (encode encoding (.array args)) := by
  induction encoding generalizing entries with
  | nil => exact ⟨rfl, Iff.rfl⟩
  | cons e rest ih =>
    obtain ⟨⟨i, own⟩, entries, hsplit, hrest, rfl⟩ := mapM_cons_eq_ok.1 hs
    obtain ⟨p, hp, rfl⟩ := Encoding.splitParameter_eq_ok.1 hsplit
    rw [encodeArguments, encode]
    refine Emission.Alike.andThen ?_ (ih hrest)
    simp only [bind_of_ok hsplit]
    cases ha : args[i]? with
    | none =>
      have hmember : (Value.array args).member (.index i) =
          .error (.outOfBounds i args.length) := by
        rw [Value.member, bind_of_ok (position_eq_ok.2 rfl), ha]
        rfl
      rw [Encoding.write_of_not_member hp hmember]
      exact ⟨rfl, iff_of_false (by rintro ⟨⟩) (by rintro ⟨⟩)⟩
    | some a =>
      have hmember : (Value.array args).member (.index i) = .ok a :=
        Value.member_index_eq_ok.2 ⟨args, i, rfl, rfl, ha⟩
      rw [Encoding.write_of_member hp hmember]
      show (encode [e.withPath p] a).Alike _
      rw [encode, encode, Emission.andThen_nothing]
      exact ⟨rfl, Iff.rfl⟩

/-! ## Entries by name -/

namespace Encoding

/-- An entry about a parameter as one about a field of the record. -/
def named (i : Nat) (e : Encoding) : Encoding :=
  e.withPath (.name (toString i) :: e.path)

/-- An entry of an argument list as one of a record: a position in front becomes a name. -/
def byName (e : Encoding) : Encoding :=
  match e.path with
  | .index i :: rest => e.withPath (.name (toString i) :: rest)
  | _ => e

theorem path_named (i : Nat) (e : Encoding) : (e.named i).path = .name (toString i) :: e.path :=
  path_withPath e _

theorem byName_of_splitParameter {e own : Encoding} {i : Nat}
    (h : e.splitParameter = .ok (i, own)) : e.byName = own.named i := by
  obtain ⟨rest, hp, rfl⟩ := splitParameter_eq_ok.1 h
  rw [byName, hp, named, path_withPath, withPath_withPath]
  rfl

end Encoding

theorem map_byName {encoding : List Encoding} {entries : List (Nat × Encoding)}
    (hs : encoding.mapM Encoding.splitParameter = .ok entries) :
    encoding.map Encoding.byName = entries.map fun p => p.2.named p.1 := by
  induction encoding generalizing entries with
  | nil =>
    cases hs
    rfl
  | cons e rest ih =>
    obtain ⟨⟨i, own⟩, entries, hsplit, hrest, rfl⟩ := mapM_cons_eq_ok.1 hs
    rw [List.map_cons, List.map_cons, Encoding.byName_of_splitParameter hsplit, ih hrest]

/-! ## Reading -/

/-- An entry is read into the part that its first step leads to, and the part is put back. -/
theorem Encoding.run_read_cons {e : Encoding} {s : Step} {p : Path} {t : Ty} {v w : Value}
    {c c' : Cursor} :
    ((e.withPath (s :: p)).read t v).run c = (.ok w, c') ↔ ∃ u y y', t.step s = .ok u ∧
      v.member s = .ok y ∧ ((e.withPath p).read u y).run c = (.ok y', c') ∧
        v.setMember s y' = .ok w := by
  cases e with
  | base kind path =>
    simp only [withPath, run_read_base, Ty.follow_cons, Value.set_cons]
    constructor
    · rintro ⟨target, a, x, ⟨u, hu, ht⟩, ha, hx, y, y', hy, hset, hw⟩
      exact ⟨u, y, y', hu, hy, ⟨target, a, x, ht, ha, hx, hset⟩, hw⟩
    · rintro ⟨u, y, y', hu, hy, ⟨target, a, x, ht, ha, hx, hset⟩, hw⟩
      exact ⟨target, a, x, ⟨u, hu, ht⟩, ha, hx, y, y', hy, hset, hw⟩
  | enum path table =>
    simp only [withPath, run_read_enum, Ty.follow_cons, Value.set_cons]
    constructor
    · rintro ⟨target, a, x, ⟨u, hu, ht⟩, ha, hx, y, y', hy, hset, hw⟩
      exact ⟨u, y, y', hu, hy, ⟨target, a, x, ht, ha, hx, hset⟩, hw⟩
    · rintro ⟨u, y, y', hu, hy, ⟨target, a, x, ht, ha, hx, hset⟩, hw⟩
      exact ⟨target, a, x, ⟨u, hu, ht⟩, ha, hx, y, y', hy, hset, hw⟩
  | array path element =>
    simp only [withPath, run_read_array, Ty.follow_cons, Value.set_cons]
    constructor
    · rintro ⟨element, count, c₁, items, ws, ⟨u, hu, ht⟩, hc, hle, hi, hws, y, y', hy, hset, hw⟩
      exact ⟨u, y, y', hu, hy, ⟨element, count, c₁, items, ws, ht, hc, hle, hi, hws, hset⟩, hw⟩
    · rintro ⟨u, y, y', hu, hy, ⟨element, count, c₁, items, ws, ht, hc, hle, hi, hws, hset⟩, hw⟩
      exact ⟨element, count, c₁, items, ws, ⟨u, hu, ht⟩, hc, hle, hi, hws, y, y', hy, hset, hw⟩

theorem run_fillArguments_nil {types : List Ty} {zs ws : List Value} {c c' : Cursor} :
    (fillArguments types [] zs).run c = (.ok ws, c') ↔ ws = zs ∧ c' = c := by
  rw [fillArguments, Reader.run_pure, Prod.mk.injEq, Except.ok.injEq, eq_comm, eq_comm (a := c)]

theorem run_fillArguments_cons_eq_ok {types : List Ty} {i : Nat} {e : Encoding}
    {entries : List (Nat × Encoding)} {zs ws : List Value} {c c' : Cursor} :
    (fillArguments types ((i, e) :: entries) zs).run c = (.ok ws, c') ↔ ∃ t z w c₁,
      types[i]? = some t ∧ zs[i]? = some z ∧ (e.read t z).run c = (.ok w, c₁) ∧
        (fillArguments types entries (zs.set i w)).run c₁ = (.ok ws, c') := by
  constructor
  · intro h
    rw [fillArguments] at h
    split at h
    · rename_i z t hz ht
      obtain ⟨w, c₁, hw, h⟩ := Reader.of_run_bind h
      obtain ⟨_, _, hw, hnil⟩ := run_fill_cons.1 hw
      obtain ⟨rfl, rfl⟩ := run_fill_nil.1 hnil
      exact ⟨t, z, w, c₁, ht, hz, hw, h⟩
    · cases h
  · rintro ⟨t, z, w, c₁, ht, hz, hw, h⟩
    rw [run_fillArguments_cons hz ht hw, h]

/-- Reading entries into the record is reading them one by one into the arguments. -/
theorem run_fill_named {entries : List (Nat × Encoding)} {name : String} {types : List Ty}
    {zs : List Value} {w : Value} {c c' : Cursor} :
    (fill (entries.map fun p => p.2.named p.1) (.bundle name types) (.bundle zs)).run c =
      (.ok w, c') ↔
    ∃ ws, (fillArguments types entries zs).run c = (.ok ws, c') ∧ w = .bundle ws := by
  induction entries generalizing zs c with
  | nil =>
    simp only [List.map_nil, run_fill_nil, run_fillArguments_nil]
    constructor
    · rintro ⟨rfl, rfl⟩
      exact ⟨zs, ⟨rfl, rfl⟩, rfl⟩
    · rintro ⟨_, ⟨rfl, rfl⟩, rfl⟩
      exact ⟨rfl, rfl⟩
  | cons entry entries ih =>
    obtain ⟨i, e⟩ := entry
    simp only [List.map_cons, run_fill_cons, run_fillArguments_cons_eq_ok, Encoding.named,
      Encoding.run_read_cons, Encoding.withPath_path, step_bundle, member_bundle,
      setMember_bundle]
    constructor
    · rintro ⟨_, c₁, ⟨t, z, z', ht, hz, hread, -, rfl⟩, h⟩
      obtain ⟨ws, hws, rfl⟩ := ih.1 h
      exact ⟨ws, ⟨t, z, z', c₁, ht, hz, hread, hws⟩, rfl⟩
    · rintro ⟨ws, ⟨t, z, z', c₁, ht, hz, hread, hws⟩, rfl⟩
      exact ⟨_, c₁, ⟨t, z, z', ht, hz, hread, (List.getElem?_eq_some_iff.1 hz).1, rfl⟩,
        ih.2 ⟨ws, hws, rfl⟩⟩

/-! ## Construction -/

theorem Ty.default_member_name {kind : RecordKind} {name n : String} {table : List (String × Ty)}
    {u : Ty} (hd : (Ty.record kind name table).Distinct) (hn : Table.find? n table = some u) :
    (Ty.record kind name table).default.member (.name n) = .ok u.default := by
  obtain ⟨fields, he, -, -, hf⟩ := has_record.1 (has_default hd)
  obtain ⟨y, hy, -⟩ := hf.of_find? hn
  have hmember := Value.member_name_eq_ok.2 ⟨kind, fields, he, hy⟩
  rw [hmember, default_member hd (step_name_eq_ok.2 ⟨kind, name, table, rfl, hn⟩) hmember]

/-- A field of the value of a sketch is that of the field's place, or a default. -/
theorem Sketch.Of.member_of_build {kind : RecordKind} {name n : String}
    {table : List (String × Ty)} {s : Sketch} {u : Ty} {w y : Value}
    (h : Of (.record kind name table) s) (hd : (Ty.record kind name table).Distinct)
    (hb : s.build = .ok w) (hn : Table.find? n table = some u)
    (hy : ((s.child? (.name n)).getD (Sketch.leaf u)).build = .ok y) :
    w.member (.name n) = .ok y := by
  cases h with
  | leaf =>
    rw [child?_leaf, Option.getD_none, Sketch.build] at hy
    cases hb
    cases hy
    exact Ty.default_member_name hd hn
  | record _ _ _ fields ho ht hs =>
    obtain ⟨given, hg, hk, hf⟩ := exists_mapM_snd (f := Sketch.build)
      (P := fun s v => s.build = .ok v ∧ s.type.Has v) ho.nodup fun m c hm => by
        obtain ⟨v, hv, hty, -⟩ := (hs m c hm).build (hd.2.of_find? (ht m c hm))
        exact ⟨v, hv, hv, hty⟩
    rw [← buildFields_eq] at hg
    have hgiven : ∀ m x, Table.find? m given = some x →
        ∃ u, Table.find? m table = some u ∧ u.Has x := by
      intro m x hx
      obtain ⟨c, hc⟩ := Table.exists_find?_of_mem_keys (hk ▸ Table.mem_keys_of_find? hx)
      obtain ⟨z, hz, -, hty⟩ := hf m c hc
      cases hx.symm.trans hz
      exact ⟨c.type, ht m c hc, hty⟩
    obtain ⟨w', hw', -, hset, hkeep⟩ :=
      exists_setFields hd (Ty.has_default hd) (hk ▸ ho.nodup) hgiven
    have hbuild : (Sketch.record (.record kind name table) fields).build = .ok w' := by
      rw [Sketch.build]
      exact bind_eq_ok.2 ⟨given, hg, hw'⟩
    cases hb.symm.trans hbuild
    cases hc : Table.find? n fields with
    | some c =>
      obtain ⟨x, hx, hxb, -⟩ := hf n c hc
      rw [show (Sketch.record _ fields).child? (.name n) = some c from hc,
        Option.getD_some, hxb] at hy
      cases hy
      exact hset n _ hx
    | none =>
      rw [show (Sketch.record _ fields).child? (.name n) = none from hc,
        Option.getD_none, Sketch.build] at hy
      cases hy
      exact hkeep n _ (hk ▸ Table.find?_eq_none_iff.1 hc) (Ty.default_member_name hd hn)

theorem resolves_named {i : Nat} {e : Encoding} {name : String} {types : List Ty} :
    (e.named i).Resolves (.bundle name types) ↔ ∃ t, types[i]? = some t ∧ e.Resolves t := by
  rw [Encoding.Resolves, Encoding.path_named]
  simp only [Ty.follow_cons, step_bundle]
  constructor
  · rintro ⟨hp, u, t, ht, hu⟩
    exact ⟨t, ht, hp.tail, u, hu⟩
  · rintro ⟨t, ht, hp, u, hu⟩
    refine ⟨fun s hs => ?_, u, t, ht, hu⟩
    rcases List.mem_cons.1 hs with rfl | hs
    · exact trivial
    · exact hp s hs

theorem mem_own {entries : List (Nat × Encoding)} {i : Nat} {e : Encoding} :
    e ∈ own entries i ↔ (i, e) ∈ entries := by
  rw [own, List.mem_map]
  constructor
  · rintro ⟨⟨j, e⟩, hmem, rfl⟩
    obtain rfl : j = i := of_decide_eq_true (List.mem_filter.1 hmem).2
    exact (List.mem_filter.1 hmem).1
  · intro hmem
    exact ⟨(i, e), List.mem_filter.2 ⟨hmem, decide_eq_true rfl⟩, rfl⟩

theorem enters_named {entries : List (Nat × Encoding)} {i : Nat} {q : Path} :
    Enters (entries.map fun p => p.2.named p.1) (.name (toString i) :: q) ↔
      Enters (own entries i) q := by
  constructor
  · rintro ⟨e, he, hq⟩
    obtain ⟨⟨j, e⟩, hmem, rfl⟩ := List.mem_map.1 he
    rw [Encoding.path_named, List.cons_prefix_cons] at hq
    obtain rfl := toString_inj (Step.name.inj hq.1)
    exact ⟨e, mem_own.2 hmem, hq.2⟩
  · rintro ⟨e, he, hq⟩
    refine ⟨e.named i, List.mem_map.2 ⟨(i, e), mem_own.1 he, rfl⟩, ?_⟩
    rw [Encoding.path_named, List.cons_prefix_cons]
    exact ⟨rfl, hq⟩

/-- The place of a field of the record is the sketch of the entries about its parameter. -/
theorem child?_named {entries : List (Nat × Encoding)} {types : List Ty} {name : String} {i : Nat}
    {t : Ty} {s s' : Sketch}
    (h : Sketch.ofEncoding (entries.map fun p => p.2.named p.1) (.bundle name types) = .ok s)
    (ht : types[i]? = some t) (h' : Sketch.ofEncoding (own entries i) t = .ok s') :
    (s.child? (.name (toString i))).getD (.leaf t) = s' := by
  obtain ⟨hof, htight, hcovers⟩ := of_ofEncoding h
  obtain ⟨hof', htight', hcovers'⟩ := of_ofEncoding h'
  refine (hof.getD_child (step_bundle.2 ht)).ext hof' (htight.getD_child t) htight' fun q => ?_
  rw [Sketch.covers_getD, ← Sketch.covers_cons, hcovers, hcovers', enters_named]
  simp

/-- What is allocated for the record stands for what is allocated for the arguments. -/
theorem construct_named {entries : List (Nat × Encoding)} {types : List Ty} (name : String)
    (hd : ∀ t ∈ types, t.Distinct)
    (hr : ∀ p ∈ entries, ∃ t, types[p.1]? = some t ∧ p.2.Resolves t) :
    ∃ zs, constructArguments entries types = .ok zs ∧
      construct (entries.map fun p => p.2.named p.1) (.bundle name types) =
        .ok (Value.bundle zs) := by
  have hown (i : Nat) (t : Ty) (ht : types[i]? = some t) : ∀ e ∈ own entries i, e.Resolves t := by
    intro e he
    obtain ⟨u, hu, hres⟩ := hr (i, e) (mem_own.1 he)
    cases ht.symm.trans hu
    exact hres
  have heach : ∀ p ∈ types.zipIdx, ∃ z, construct (own entries p.2) p.1 = .ok z ∧
      construct (own entries p.2) p.1 = .ok z := fun p hp => by
    have ht := List.mem_zipIdx_iff_getElem?.1 hp
    obtain ⟨z, hz, -⟩ := exists_construct (hd p.1 (List.mem_of_getElem? ht)) (hown p.2 p.1 ht)
    exact ⟨z, hz, hz⟩
  obtain ⟨zs, hzs, hall⟩ := exists_mapM_forall₂
    (P := fun (p : Ty × Nat) z => construct (own entries p.2) p.1 = .ok z) heach
  have hlen : zs.length = types.length := by rw [← hall.length_eq, List.length_zipIdx]
  have hbundle := distinct_bundle name hd
  have hresolves : ∀ e ∈ entries.map fun p => p.2.named p.1, e.Resolves (.bundle name types) := by
    intro e he
    obtain ⟨p, hp, rfl⟩ := List.mem_map.1 he
    exact resolves_named.2 (hr p hp)
  obtain ⟨s, hs⟩ := exists_ofEncoding_iff.2 hresolves
  obtain ⟨w, hw, hty, -⟩ := (of_ofEncoding hs).1.build hbundle
  refine ⟨zs, hzs, bind_eq_ok.2 ⟨s, hs, ?_⟩⟩
  rw [hw, eq_bundle hty hlen fun i x hx => ?_]
  have hi : i < types.length := hlen ▸ (List.getElem?_eq_some_iff.1 hx).1
  have ht := List.getElem?_eq_getElem hi
  have hzip : types.zipIdx[i]? = some (types[i], i) := by
    rw [List.getElem?_zipIdx, ht, Option.map_some, Nat.zero_add]
  obtain ⟨z, hz, hc⟩ := getElem?_of_forall₂ hall hzip
  cases hx.symm.trans hz
  obtain ⟨s', hs', hb⟩ := bind_eq_ok.1 hc
  refine (of_ofEncoding hs).1.member_of_build hbundle hw
    ((find?_numbered types i).trans ht) ?_
  rw [child?_named hs ht hs', hb]

/-! ## Argument lists and the values that stand for them -/

theorem run_decodeArguments_eq_ok {encoding : List Encoding} {entries : List (Nat × Encoding)}
    {types : List Ty} {args : List Value} {c c' : Cursor}
    (hs : encoding.mapM Encoding.splitParameter = .ok entries) :
    (decodeArguments encoding types).run c = (.ok args, c') ↔
      ∃ zs, constructArguments entries types = .ok zs ∧
        (fillArguments types entries zs).run c = (.ok args, c') := by
  rw [decodeArguments, hs]
  constructor
  · intro h
    obtain ⟨_, _, hentries, h⟩ := Reader.of_run_bind h
    cases hentries
    obtain ⟨zs, _, hzs, h⟩ := Reader.of_run_bind h
    cases congrArg Prod.snd hzs
    exact ⟨zs, congrArg Prod.fst hzs, h⟩
  · rintro ⟨zs, hzs, h⟩
    exact (Reader.run_bind rfl _).trans ((Reader.run_bind_lift hzs _ _).trans h)

theorem exists_parameter_of_fillArguments {entries : List (Nat × Encoding)} {types : List Ty}
    {zs ws : List Value} {c c' : Cursor}
    (h : (fillArguments types entries zs).run c = (.ok ws, c')) :
    ∀ p ∈ entries, ∃ t, types[p.1]? = some t := by
  induction entries generalizing zs c with
  | nil => exact fun _ hp => absurd hp List.not_mem_nil
  | cons entry entries ih =>
    obtain ⟨t, _, _, _, ht, -, -, hrest⟩ := run_fillArguments_cons_eq_ok.1 h
    intro p hp
    rcases List.mem_cons.1 hp with rfl | hp
    · exact ⟨t, ht⟩
    · exact ih hrest p hp

theorem resolves_of_constructArguments {entries : List (Nat × Encoding)} {types : List Ty}
    {zs : List Value} (h : constructArguments entries types = .ok zs) {p : Nat × Encoding}
    (hp : p ∈ entries) {t : Ty} (ht : types[p.1]? = some t) : p.2.Resolves t := by
  obtain ⟨z, -, hz⟩ := (construct_of_constructArguments h).2 p.1 t ht
  obtain ⟨s, hs, -⟩ := bind_eq_ok.1 hz
  exact exists_ofEncoding_iff.1 ⟨s, hs⟩ p.2 (mem_own.2 hp)

/-- Reading arguments is reading the record that stands for them. -/
theorem run_decode_bundle {encoding : List Encoding} {entries : List (Nat × Encoding)}
    {types : List Ty} (name : String) {w : Value} {c c' : Cursor}
    (hs : encoding.mapM Encoding.splitParameter = .ok entries) (hd : ∀ t ∈ types, t.Distinct) :
    (decode (encoding.map Encoding.byName) (.bundle name types)).run c = (.ok w, c') ↔
      ∃ args, (decodeArguments encoding types).run c = (.ok args, c') ∧ w = .bundle args := by
  rw [map_byName hs, run_decode_eq_ok]
  simp only [run_decodeArguments_eq_ok hs]
  constructor
  · rintro ⟨z, hz, hfill⟩
    obtain ⟨s, hsketch, -⟩ := bind_eq_ok.1 hz
    have hresolves := exists_ofEncoding_iff.1 ⟨s, hsketch⟩
    obtain ⟨zs, hzs, hc⟩ := construct_named name hd fun p hp =>
      resolves_named.1 (hresolves _ (List.mem_map.2 ⟨p, hp, rfl⟩))
    cases hz.symm.trans hc
    obtain ⟨ws, hws, rfl⟩ := run_fill_named.1 hfill
    exact ⟨ws, ⟨zs, hzs, hws⟩, rfl⟩
  · rintro ⟨ws, ⟨zs, hzs, hws⟩, rfl⟩
    obtain ⟨zs', hzs', hc⟩ := construct_named name hd fun p hp => by
      obtain ⟨t, ht⟩ := exists_parameter_of_fillArguments hws p hp
      exact ⟨t, ht, resolves_of_constructArguments hzs hp ht⟩
    cases hzs.symm.trans hzs'
    exact ⟨_, hc, run_fill_named.2 ⟨ws, hws, rfl⟩⟩

/-- An argument list is written as the array of its arguments, and it is read as the record with the
fields `0`, `1` and so on is: with the same values and up to the same place. -/
theorem arguments_as_one {m : Mappings} {id : String} {encoding : FunctionEncoding}
    (h : m.compile id = .ok encoding) :
    (∀ args, (encodeArguments encoding.args args).Alike (encode encoding.args (.array args))) ∧
    ∀ (name : String) (types : List Ty), (∀ t ∈ types, t.Distinct) → ∀ c c' : Cursor,
      (∀ args, (decodeArguments encoding.args types).run c = (.ok args, c') →
        ∃ fields, (decode (encoding.args.map Encoding.byName) (.bundle name types)).run c =
            (.ok (.record .value fields), c') ∧
          args.length = types.length ∧ ∀ i : Nat, Table.find? (toString i) fields = args[i]?) ∧
      ∀ w, (decode (encoding.args.map Encoding.byName) (.bundle name types)).run c = (.ok w, c') →
        ∃ args, (decodeArguments encoding.args types).run c = (.ok args, c') ∧
          w = .bundle args := by
  obtain ⟨entries, hs⟩ := Mappings.exists_splitParameter h
  refine ⟨encodeArguments_alike hs,
    fun name types hd c c' => ⟨fun args hargs => ?_, fun w hw => ?_⟩⟩
  · refine ⟨_, (run_decode_bundle name hs hd).2 ⟨args, hargs, rfl⟩, ?_, find?_bundle args⟩
    exact (has_of_decodeArguments hd hargs).length_eq.symm
  · exact (run_decode_bundle name hs hd).1 hw

/-- A point and a number whose entries are interleaved, and a parameter without entries. -/
theorem arguments_as_one_interleaved :
    let m : Mappings := [("move", ⟨[.base .u8 [.index 1, .name "x"], .base .u8 [.index 0],
      .base .u8 [.index 1, .name "y"]], []⟩)]
    let types : List Ty := [.int .u8, .record .value "Point" [("x", .int .i32), ("y", .int .i32)],
      .string]
    let args : List Value := [.int ⟨.u8, 5, by decide⟩, .record .value
      [("x", .int ⟨.i32, 1, by decide⟩), ("y", .int ⟨.i32, 2, by decide⟩)], .string ""]
    ∃ encoding, m.compile "move" = .ok encoding ∧
      (encodeArguments encoding.args args).Alike (encode encoding.args (.array args)) ∧
      ∃ fields, (decode (encoding.args.map Encoding.byName) (.bundle "Arguments" types)).run
          (Cursor.start [1, 5, 2, 9]) = (.ok (.record .value fields), ⟨3, [9]⟩) ∧
        Table.find? (toString 0) fields = some (.int ⟨.u8, 5, by decide⟩) := by
  intro m types args
  have h : m.compile "move" = .ok ⟨[.base .u8 [.index 1, .name "x"], .base .u8 [.index 0],
      .base .u8 [.index 1, .name "y"]], []⟩ := rfl
  obtain ⟨hwrite, hread⟩ := arguments_as_one h
  obtain ⟨hfields, -⟩ := hread "Arguments" types (by decide) (Cursor.start [1, 5, 2, 9]) ⟨3, [9]⟩
  obtain ⟨fields, hdecode, -, hfind⟩ := hfields args rfl
  exact ⟨_, h, hwrite args, fields, hdecode, hfind 0⟩

end Parley
