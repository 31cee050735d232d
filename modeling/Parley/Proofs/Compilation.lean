import Parley.Proofs.Parameters

/-!
# Compiled mappings

A mapping is compiled unless it says nothing about a parameter where it should or lists a key or a
number of an enumeration twice. What it is compiled to says what the mapping says.

* `EnumTable.ofPairs_eq_ok` : the table of a list of pairs; `EnumTable.Lists` : what it looks up.
* `MappingEntry.Clear`, `AllClear` : no enumeration lists a key or a number twice, however deep it
  stands.
* `MappingEntry.Mirrors`, `AllMirror` : entries and encodings of one shape, with the same kinds and
  paths.
* `exists_compileAll_iff`, `allMirror_of_compileAll` : when entries are compiled, and to what.
* `AllNarrow`, `AllLawful`, `Mappings.allLawful_of_compile` : numbers of four bytes make lawful
  tables.
* `Mappings.compile_faithful` : the same for a mapping.
-/

namespace Parley

/-! ## Enumerations -/

namespace EnumTable

/-- No key and no number is listed twice. -/
def OneToOne (pairs : List (String × Int)) : Prop :=
  (pairs.map Prod.fst).Nodup ∧ (pairs.map Prod.snd).Nodup

instance (pairs : List (String × Int)) : Decidable (OneToOne pairs) :=
  inferInstanceAs (Decidable (_ ∧ _))

variable {pairs more : List (String × Int)} {key : String} {number : Int} {t t' : EnumTable}

theorem OneToOne.of_append (h : OneToOne (pairs ++ more)) : OneToOne pairs := by
  unfold OneToOne at h
  rw [List.map_append, List.map_append] at h
  exact ⟨(List.nodup_append.1 h.1).1, (List.nodup_append.1 h.2).1⟩

theorem oneToOne_concat (h : OneToOne pairs) :
    OneToOne (pairs ++ [(key, number)]) ↔ ∀ e ∈ pairs, e.1 ≠ key ∧ e.2 ≠ number := by
  have hconcat {α : Type} (f : String × Int → α) (hf : (pairs.map f).Nodup) :
      ((pairs ++ [(key, number)]).map f).Nodup ↔ ∀ e ∈ pairs, f e ≠ f (key, number) := by
    rw [List.map_append, List.nodup_append_comm, List.map_singleton, List.singleton_append,
      List.nodup_cons, and_iff_left hf, List.mem_map, not_exists]
    exact forall_congr' fun e => not_and
  rw [OneToOne, hconcat _ h.1, hconcat _ h.2, ← forall₂_and]

theorem insert_eq_ok (h : OneToOne t.entries) :
    t.insert key number = .ok t' ↔ OneToOne (t.entries ++ [(key, number)]) ∧
      t' = ⟨t.defaultKey, t.defaultNumber, t.entries ++ [(key, number)]⟩ := by
  have hany : t.entries.any (fun e => e.1 = key || e.2 = number) = true ↔
      ¬OneToOne (t.entries ++ [(key, number)]) := by
    rw [oneToOne_concat h, List.any_eq_true]
    simp only [Bool.or_eq_true, decide_eq_true_eq, not_forall, not_and_or, not_not, exists_prop]
  unfold insert
  by_cases hfree : OneToOne (t.entries ++ [(key, number)])
  · rw [if_neg fun ht => hany.1 ht hfree]
    constructor
    · rintro ⟨⟩
      exact ⟨hfree, rfl⟩
    · rintro ⟨-, rfl⟩
      rfl
  · rw [if_pos (hany.2 hfree)]
    exact iff_of_false (by rintro ⟨⟩) fun ht => hfree ht.1

theorem foldlM_insert_eq_ok (h : OneToOne t.entries) :
    pairs.foldlM (fun t e => t.insert e.1 e.2) t = .ok t' ↔ OneToOne (t.entries ++ pairs) ∧
      t' = ⟨t.defaultKey, t.defaultNumber, t.entries ++ pairs⟩ := by
  induction pairs generalizing t with
  | nil =>
    rw [List.append_nil, List.foldlM_nil]
    exact ⟨fun ht => ⟨h, (Except.ok.inj ht).symm⟩, fun ht => congrArg Except.ok ht.2.symm⟩
  | cons e pairs ih =>
    rw [List.foldlM_cons, bind_eq_ok, List.append_cons]
    constructor
    · rintro ⟨t₁, ht₁, ht'⟩
      obtain ⟨hone, rfl⟩ := (insert_eq_ok h).1 ht₁
      exact (ih hone).1 ht'
    · rintro ⟨hall, rfl⟩
      have hone := hall.of_append
      exact ⟨_, (insert_eq_ok h).2 ⟨hone, rfl⟩, (ih hone).2 ⟨hall, rfl⟩⟩

/-- The table of a list of pairs is made unless a key or a number comes twice. -/
theorem ofPairs_eq_ok :
    ofPairs key number pairs = .ok t ↔ OneToOne pairs ∧ t = ⟨key, number, pairs⟩ :=
  foldlM_insert_eq_ok ⟨List.nodup_nil, List.nodup_nil⟩

/-- The table has the number of every key that is listed and the key of every number; for any other
key or number the default stands in. -/
structure Lists (t : EnumTable) (defaultKey : String) (defaultNumber : Int)
    (pairs : List (String × Int)) : Prop where
  number : ∀ e ∈ pairs, t.number e.1 = e.2
  key : ∀ e ∈ pairs, t.key e.2 = e.1
  otherKey : ∀ key ∉ pairs.map Prod.fst, t.number key = defaultNumber
  otherNumber : ∀ number ∉ pairs.map Prod.snd, t.key number = defaultKey

theorem OneToOne.lists (h : OneToOne pairs) (defaultKey : String) (defaultNumber : Int) :
    Lists ⟨defaultKey, defaultNumber, pairs⟩ defaultKey defaultNumber pairs where
  number e he := by rw [EnumTable.number, find?_fst h.1 he]
  key e he := by rw [EnumTable.key, find?_snd h.2 he]
  otherKey key hkey := by
    rw [EnumTable.number, List.find?_eq_none.2 fun e he => ?_]
    simpa using fun hk : e.1 = key => hkey (hk ▸ List.mem_map_of_mem he)
  otherNumber number hnumber := by
    rw [EnumTable.key, List.find?_eq_none.2 fun e he => ?_]
    simpa using fun hn : e.2 = number => hnumber (hn ▸ List.mem_map_of_mem he)

end EnumTable

/-! ## Entries -/

mutual

/-- No enumeration that the entry leads to lists a key or a number twice. -/
def MappingEntry.Clear : MappingEntry → Prop
  | .base _ _ => True
  | .array _ element => AllClear element
  | .enum _ _ _ pairs => EnumTable.OneToOne pairs

/-- No enumeration that the entries lead to lists a key or a number twice. -/
def AllClear : List MappingEntry → Prop
  | [] => True
  | e :: rest => e.Clear ∧ AllClear rest

end

mutual

/-- The encoding is about the part that the entry is about and says the same of it: the kind of a
scalar, what there is of each item of an array, the table of an enumeration. -/
def MappingEntry.Mirrors : MappingEntry → Encoding → Prop
  | .base kind path, .base kind' path' => kind' = kind ∧ path' = path
  | .array path element, .array path' element' => path' = path ∧ AllMirror element element'
  | .enum path key number pairs, .enum path' table => path' = path ∧ table.Lists key number pairs
  | _, _ => False

/-- The encodings are those of the entries, in their order. -/
def AllMirror : List MappingEntry → List Encoding → Prop
  | [], [] => True
  | e :: rest, e' :: rest' => e.Mirrors e' ∧ AllMirror rest rest'
  | _, _ => False

end

mutual

instance MappingEntry.decidableClear : ∀ e : MappingEntry, Decidable e.Clear
  | .base _ _ => inferInstanceAs (Decidable True)
  | .array _ element => decidableAllClear element
  | .enum _ _ _ pairs => inferInstanceAs (Decidable (EnumTable.OneToOne pairs))

instance decidableAllClear : ∀ entries : List MappingEntry, Decidable (AllClear entries)
  | [] => inferInstanceAs (Decidable True)
  | e :: rest =>
    have := MappingEntry.decidableClear e
    have := decidableAllClear rest
    inferInstanceAs (Decidable (e.Clear ∧ AllClear rest))

end

theorem compileAll_cons_eq_ok {e : MappingEntry} {rest : List MappingEntry}
    {encoding : List Encoding} : compileAll (e :: rest) = .ok encoding ↔
      ∃ first more, e.compile = .ok first ∧ compileAll rest = .ok more ∧
        encoding = first :: more := by
  show (e.compile >>= fun first => compileAll rest >>= fun more => pure (first :: more)) = _ ↔ _
  simp only [bind_eq_ok]
  constructor
  · rintro ⟨first, hfirst, more, hmore, ⟨⟩⟩
    exact ⟨first, more, hfirst, hmore, rfl⟩
  · rintro ⟨first, more, hfirst, hmore, rfl⟩
    exact ⟨first, hfirst, more, hmore, rfl⟩

theorem MappingEntry.compile_array_eq_ok {path : Path} {element : List MappingEntry}
    {e' : Encoding} : (MappingEntry.array path element).compile = .ok e' ↔
      ∃ element', compileAll element = .ok element' ∧ e' = .array path element' := by
  show (compileAll element >>= fun element' => pure (Encoding.array path element')) = _ ↔ _
  rw [bind_eq_ok]
  constructor
  · rintro ⟨element', helement, ⟨⟩⟩
    exact ⟨element', helement, rfl⟩
  · rintro ⟨element', helement, rfl⟩
    exact ⟨element', helement, rfl⟩

theorem MappingEntry.compile_enum_eq_ok {path : Path} {key : String} {number : Int}
    {pairs : List (String × Int)} {e' : Encoding} :
    (MappingEntry.enum path key number pairs).compile = .ok e' ↔
      EnumTable.OneToOne pairs ∧ e' = .enum path ⟨key, number, pairs⟩ := by
  show (EnumTable.ofPairs key number pairs >>= fun table => pure (Encoding.enum path table)) = _ ↔ _
  simp only [bind_eq_ok, EnumTable.ofPairs_eq_ok]
  constructor
  · rintro ⟨_, ⟨hone, rfl⟩, ⟨⟩⟩
    exact ⟨hone, rfl⟩
  · rintro ⟨hone, rfl⟩
    exact ⟨_, ⟨hone, rfl⟩, rfl⟩

mutual

theorem MappingEntry.exists_compile_iff : ∀ {e : MappingEntry},
    (∃ e', e.compile = .ok e') ↔ e.Clear
  | .base kind path => ⟨fun _ => trivial, fun _ => ⟨_, rfl⟩⟩
  | .array path element => by
    simp only [MappingEntry.compile_array_eq_ok]
    rw [exists_comm]
    simp only [exists_and_left, exists_eq, and_true]
    exact exists_compileAll_iff
  | .enum path key number pairs => by
    simp only [MappingEntry.compile_enum_eq_ok, exists_and_left, exists_eq, and_true]
    exact Iff.rfl

theorem exists_compileAll_iff : ∀ {entries : List MappingEntry},
    (∃ encoding, compileAll entries = .ok encoding) ↔ AllClear entries
  | [] => ⟨fun _ => trivial, fun _ => ⟨[], rfl⟩⟩
  | e :: rest => by
    rw [AllClear, ← MappingEntry.exists_compile_iff, ← exists_compileAll_iff]
    simp only [compileAll_cons_eq_ok]
    constructor
    · rintro ⟨_, first, more, hfirst, hmore, -⟩
      exact ⟨⟨first, hfirst⟩, more, hmore⟩
    · rintro ⟨⟨first, hfirst⟩, more, hmore⟩
      exact ⟨_, first, more, hfirst, hmore, rfl⟩

end

mutual

theorem MappingEntry.mirrors_of_compile : ∀ {e : MappingEntry} {e' : Encoding},
    e.compile = .ok e' → e.Mirrors e'
  | .base _ _, _, h => by
    cases h
    exact ⟨rfl, rfl⟩
  | .array _ _, _, h => by
    obtain ⟨element', helement, rfl⟩ := MappingEntry.compile_array_eq_ok.1 h
    exact ⟨rfl, allMirror_of_compileAll helement⟩
  | .enum _ key number _, _, h => by
    obtain ⟨hone, rfl⟩ := MappingEntry.compile_enum_eq_ok.1 h
    exact ⟨rfl, hone.lists key number⟩

theorem allMirror_of_compileAll : ∀ {entries : List MappingEntry} {encoding : List Encoding},
    compileAll entries = .ok encoding → AllMirror entries encoding
  | [], _, h => by
    cases h
    trivial
  | _ :: _, _, h => by
    obtain ⟨first, more, hfirst, hmore, rfl⟩ := compileAll_cons_eq_ok.1 h
    exact ⟨MappingEntry.mirrors_of_compile hfirst, allMirror_of_compileAll hmore⟩

end

/-! ## Lawful tables -/

mutual

/-- The numbers that the entry leads to have four bytes. -/
def MappingEntry.Narrow : MappingEntry → Prop
  | .base _ _ => True
  | .array _ element => AllNarrow element
  | .enum _ _ _ pairs => ∀ e ∈ pairs, IntKind.i32.Holds e.2

/-- The numbers that the entries lead to have four bytes. -/
def AllNarrow : List MappingEntry → Prop
  | [] => True
  | e :: rest => e.Narrow ∧ AllNarrow rest

end

mutual

/-- The tables that the entry leads to are lawful. -/
def Encoding.Lawful : Encoding → Prop
  | .base _ _ => True
  | .array _ element => AllLawful element
  | .enum _ table => table.Lawful

/-- The tables that the entries lead to are lawful. -/
def AllLawful : List Encoding → Prop
  | [] => True
  | e :: rest => e.Lawful ∧ AllLawful rest

end

mutual

theorem MappingEntry.lawful_of_compile : ∀ {e : MappingEntry} {e' : Encoding},
    e.compile = .ok e' → e.Narrow → e'.Lawful
  | .base _ _, _, h, _ => by
    cases h
    trivial
  | .array _ _, _, h, hn => by
    obtain ⟨element', helement, rfl⟩ := MappingEntry.compile_array_eq_ok.1 h
    exact allLawful_of_compileAll helement hn
  | .enum _ _ _ _, _, h, hn => by
    obtain ⟨⟨hkeys, hnumbers⟩, rfl⟩ := MappingEntry.compile_enum_eq_ok.1 h
    exact ⟨hkeys, hnumbers, hn⟩

theorem allLawful_of_compileAll : ∀ {entries : List MappingEntry} {encoding : List Encoding},
    compileAll entries = .ok encoding → AllNarrow entries → AllLawful encoding
  | [], _, h, _ => by
    cases h
    trivial
  | _ :: _, _, h, hn => by
    obtain ⟨first, more, hfirst, hmore, rfl⟩ := compileAll_cons_eq_ok.1 h
    exact ⟨MappingEntry.lawful_of_compile hfirst hn.1, allLawful_of_compileAll hmore hn.2⟩

end

/-! ## Mappings -/

/-- The tables of a compiled mapping are lawful, as fitting asks of them, if their numbers have four
bytes. -/
theorem Mappings.allLawful_of_compile {m : Mappings} {id : String} {mapping : TypeMapping}
    {enc : FunctionEncoding} (hm : Table.find? id m = some mapping) (h : m.compile id = .ok enc)
    (hargs : AllNarrow mapping.args) (hresult : AllNarrow mapping.result) :
    AllLawful enc.args ∧ AllLawful enc.result := by
  obtain ⟨-, hcargs, hcresult⟩ := (compile_eq_ok hm).1 h
  exact ⟨allLawful_of_compileAll hcargs hargs, allLawful_of_compileAll hcresult hresult⟩

/-- Compiling goes through exactly if every entry about the arguments starts with a position and no
enumeration, however deep, lists a key or a number twice. What comes out mirrors the entries. -/
theorem Mappings.compile_faithful {m : Mappings} {id : String} {mapping : TypeMapping}
    (hm : Table.find? id m = some mapping) :
    ((∃ enc, m.compile id = .ok enc) ↔
      (∀ e ∈ mapping.args, ∃ i rest, e.path = .index i :: rest ∧ 0 ≤ i) ∧
        AllClear mapping.args ∧ AllClear mapping.result) ∧
      ∀ enc, m.compile id = .ok enc →
        AllMirror mapping.args enc.args ∧ AllMirror mapping.result enc.result ∧
          ∀ e ∈ enc.args, ∃ (i : Nat) (own : Encoding), e.splitParameter = .ok (i, own) ∧
            own.withPath e.path = e ∧ e.path = .index i :: own.path := by
  simp only [compile_eq_ok hm, MappingEntry.selectsParameter_iff]
  constructor
  · rw [← exists_compileAll_iff, ← exists_compileAll_iff]
    constructor
    · rintro ⟨enc, hselect, hargs, hresult⟩
      exact ⟨hselect, ⟨_, hargs⟩, _, hresult⟩
    · rintro ⟨hselect, ⟨args, hargs⟩, result, hresult⟩
      exact ⟨⟨args, result⟩, hselect, hargs, hresult⟩
  · rintro enc ⟨hselect, hargs, hresult⟩
    refine ⟨allMirror_of_compileAll hargs, allMirror_of_compileAll hresult, fun e he => ?_⟩
    obtain ⟨entry, hentry, hpath⟩ := exists_mem_of_forall₂ (path_of_compileAll hargs).flip he
    obtain ⟨i, rest, hp, hi⟩ := hselect entry hentry
    exact e.exists_splitParameter (hpath.trans hp) hi

/-- Two entries about the arguments, the first of which leads to an enumeration inside an array
inside an array. -/
def nestedMapping (pairs : List (String × Int)) : TypeMapping where
  args := [.array [.index 1] [.base .u8 [.name "deck"],
    .array [.name "posts"] [.enum [] "none" 0 pairs]], .base .zcstring [.index 0]]
  result := [.base .boolean []]

/-- With an enumeration of two keys the mapping is compiled; with one that lists a number twice it
is not. -/
theorem Mappings.compile_faithful_nested :
    let fine := nestedMapping [("cook", 3), ("mate", 4)]
    let m : Mappings := [("fine", fine), ("twice", nestedMapping [("cook", 3), ("mate", 3)])]
    (∃ enc, m.compile "fine" = .ok enc ∧ AllMirror fine.args enc.args ∧
      AllMirror fine.result enc.result ∧
      ∀ e ∈ enc.args, ∃ (i : Nat) (own : Encoding), e.splitParameter = .ok (i, own) ∧
        own.withPath e.path = e ∧ e.path = .index i :: own.path) ∧
      ¬∃ enc, m.compile "twice" = .ok enc := by
  intro fine m
  have hselect : ∀ e ∈ fine.args, ∃ i rest, e.path = .index i :: rest ∧ 0 ≤ i :=
    List.forall_mem_cons.2 ⟨⟨1, [], rfl, by decide⟩, List.forall_mem_singleton.2
      ⟨0, [], rfl, by decide⟩⟩
  constructor
  · obtain ⟨hiff, hmirror⟩ := compile_faithful (show Table.find? "fine" m = some fine from rfl)
    obtain ⟨enc, henc⟩ := hiff.2 ⟨hselect, by decide, by decide⟩
    exact ⟨enc, henc, hmirror enc henc⟩
  · rw [(compile_faithful (show Table.find? "twice" m = some _ from rfl)).1]
    exact fun h => absurd h.2.1 (by decide)

end Parley
