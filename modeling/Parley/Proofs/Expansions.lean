import Parley.Document.Resolve
import Parley.Proofs.Casts

/-!
# What a type name stands for

A type name is expanded level by level: brackets come off its end, a base name is done, a declared
name is replaced by what it is declared as. Resolving a name counts levels, since declarations may
be recursive. The count changes nothing for a name whose expansion ends soon enough, and no other
name has a type.

* `Shape`, `Document.shape?` : one level of an expansion, and the names it goes on with.
* `Document.Expands` : the type that a name stands for, whatever its depth.
* `Document.Leads`, `Document.Ends` : the names that are some levels below a name, and a bound to
  the levels that there are.
* `resolveWithin_eq_ok` : a bounded count finds the expansions that end within the bound.
* `Document.resolve_exact` : what resolving a name comes to.
-/

namespace Parley

/-- What one level of an expansion says: a type, or an array or a record of names. -/
inductive Shape where
  | done (t : Ty)
  | array (element : String)
  | record (fields : List (String × String))

/-- The names that the expansion goes on with. -/
def Shape.parts : Shape → List String
  | done _ => []
  | array element => [element]
  | record fields => fields.map Prod.snd

namespace Document

variable {d : Document} {name other : String} {levels : Nat} {t u : Ty}

/-- One level of the expansion of a name. Brackets at its end go first, then the base names, then
the declarations; an enumeration travels as text. -/
def shape? (d : Document) (name : String) : Option Shape :=
  match elementName? name with
  | some element => some (.array element)
  | none =>
    match baseType? name with
    | some t => some (.done t)
    | none =>
      match Table.find? name d.types with
      | some (.struct fields) => some (.record fields)
      | some (.enum _) => some (.done .string)
      | some (.array element) => some (.array element)
      | none => none

/-- The type that a name stands for: what its levels come to. -/
inductive Expands (d : Document) : String → Ty → Prop
  | done {name : String} {t : Ty} (h : d.shape? name = some (.done t)) : Expands d name t
  | array {name element : String} {t : Ty} (h : d.shape? name = some (.array element))
      (ht : Expands d element t) : Expands d name (.array t)
  | record {name : String} {fields : List (String × String)} {table : List (String × Ty)}
      (h : d.shape? name = some (.record fields)) (names : Table.keys table = Table.keys fields)
      (ht : List.Forall₂ (Expands d) (fields.map Prod.snd) (table.map Prod.snd)) :
      Expands d name (.record .value name table)

/-- The other name is so many levels below the name. -/
def Leads (d : Document) : Nat → String → String → Prop
  | 0, name, other => name = other
  | k + 1, name, other =>
    ∃ shape next, d.shape? name = some shape ∧ next ∈ shape.parts ∧ d.Leads k next other

/-- The expansion of the name has so many levels or less, the name itself being one. -/
def Ends (d : Document) (levels : Nat) (name : String) : Prop :=
  ∀ k other, d.Leads k name other → k < levels

/-! ## Levels -/

theorem Ends.mono {more : Nat} (h : d.Ends levels name) (hle : levels ≤ more) :
    d.Ends more name :=
  fun k other hk => Nat.lt_of_lt_of_le (h k other hk) hle

theorem not_ends_zero : ¬d.Ends 0 name :=
  fun h => Nat.not_lt_zero 0 (h 0 name rfl)

theorem ends_succ {shape : Shape} (hs : d.shape? name = some shape) :
    d.Ends (levels + 1) name ↔ ∀ next ∈ shape.parts, d.Ends levels next := by
  constructor
  · intro h next hmem k other hk
    exact Nat.lt_of_succ_lt_succ (h (k + 1) other ⟨shape, next, hs, hmem, hk⟩)
  · rintro h (_ | k) other hk
    · exact Nat.succ_pos levels
    · obtain ⟨_, next, hs', hmem, hk⟩ := hk
      cases hs.symm.trans hs'
      exact Nat.succ_lt_succ (h next hmem k other hk)

theorem Leads.trans {a b c : String} {j k : Nat} (h : d.Leads j a b) (h' : d.Leads k b c) :
    d.Leads (j + k) a c := by
  induction j generalizing a with
  | zero =>
    cases h
    rwa [Nat.zero_add]
  | succ j ih =>
    obtain ⟨shape, next, hs, hmem, hn⟩ := h
    rw [Nat.add_right_comm]
    exact ⟨shape, next, hs, hmem, ih hn⟩

/-- A name that is below itself is so any number of times. -/
theorem Leads.again {k : Nat} (h : d.Leads k name name) (n : Nat) :
    d.Leads (n * k) name name := by
  induction n with
  | zero =>
    rw [Nat.zero_mul]
    rfl
  | succ n ih =>
    rw [Nat.succ_mul]
    exact ih.trans h

/-- A name has no end if one below it is below itself. -/
theorem not_ends_of_cycle {j k : Nat} (h : d.Leads j name other)
    (hcycle : d.Leads (k + 1) other other) (levels : Nat) : ¬d.Ends levels name := by
  intro hends
  have := hends _ _ (h.trans (hcycle.again levels))
  rw [Nat.mul_succ] at this
  omega

/-! ## Expansions -/

theorem expands_done (hs : d.shape? name = some (.done u)) : d.Expands name t ↔ t = u := by
  constructor
  · intro h
    cases h with
    | done h => cases hs.symm.trans h; rfl
    | array h => cases hs.symm.trans h
    | record h => cases hs.symm.trans h
  · rintro rfl
    exact .done hs

theorem expands_array {element : String} (hs : d.shape? name = some (.array element)) :
    d.Expands name t ↔ ∃ u, d.Expands element u ∧ .array u = t := by
  constructor
  · intro h
    cases h with
    | done h => cases hs.symm.trans h
    | array h ht =>
      cases hs.symm.trans h
      exact ⟨_, ht, rfl⟩
    | record h => cases hs.symm.trans h
  · rintro ⟨u, hu, rfl⟩
    exact .array hs hu

theorem expands_record {fields : List (String × String)}
    (hs : d.shape? name = some (.record fields)) :
    d.Expands name t ↔ ∃ table, (Table.keys table = Table.keys fields ∧
      List.Forall₂ d.Expands (fields.map Prod.snd) (table.map Prod.snd)) ∧
        .record .value name table = t := by
  constructor
  · intro h
    cases h with
    | done h => cases hs.symm.trans h
    | array h => cases hs.symm.trans h
    | record h names ht =>
      cases hs.symm.trans h
      exact ⟨_, ⟨names, ht⟩, rfl⟩
  · rintro ⟨table, ⟨names, ht⟩, rfl⟩
    exact .record hs names ht

theorem Expands.exists_shape (h : d.Expands name t) : ∃ shape, d.shape? name = some shape := by
  cases h with
  | done hs | array hs | record hs => exact ⟨_, hs⟩

theorem Expands.part {shape : Shape} {next : String} (h : d.Expands name t)
    (hs : d.shape? name = some shape) (hmem : next ∈ shape.parts) : ∃ u, d.Expands next u := by
  cases h with
  | done h =>
    cases hs.symm.trans h
    cases hmem
  | array h ht =>
    cases hs.symm.trans h
    obtain rfl := List.mem_singleton.1 hmem
    exact ⟨_, ht⟩
  | record h names ht =>
    cases hs.symm.trans h
    obtain ⟨u, -, hu⟩ := exists_mem_of_forall₂ ht hmem
    exact ⟨u, hu⟩

theorem exists_ends_all {names : List String} (h : ∀ name ∈ names, ∃ levels, d.Ends levels name) :
    ∃ levels, ∀ name ∈ names, d.Ends levels name := by
  induction names with
  | nil => exact ⟨0, fun _ hmem => absurd hmem List.not_mem_nil⟩
  | cons name names ih =>
    obtain ⟨hname, hnames⟩ := List.forall_mem_cons.1 h
    obtain ⟨m, hm⟩ := hname
    obtain ⟨n, hn⟩ := ih hnames
    exact ⟨max m n, List.forall_mem_cons.2 ⟨hm.mono (Nat.le_max_left m n),
      fun other hmem => (hn other hmem).mono (Nat.le_max_right m n)⟩⟩

theorem exists_ends_of_parts {shape : Shape} (hs : d.shape? name = some shape)
    (h : ∀ next ∈ shape.parts, ∃ levels, d.Ends levels next) : ∃ levels, d.Ends levels name := by
  obtain ⟨levels, hlevels⟩ := exists_ends_all h
  exact ⟨levels + 1, (ends_succ hs).2 hlevels⟩

/-- A name that stands for a type has an end, as the names below it stand for parts of the type. -/
theorem Expands.exists_ends (h : d.Expands name t) : ∃ levels, d.Ends levels name := by
  induction t using Ty.parts generalizing name with
  | scalar s =>
    cases h with
    | done hs => exact exists_ends_of_parts hs nofun
  | array element ih =>
    cases h with
    | done hs => exact exists_ends_of_parts hs nofun
    | array hs ht => exact exists_ends_of_parts hs (List.forall_mem_singleton.2 (ih ht))
  | record kind owner table ih =>
    cases h with
    | done hs => exact exists_ends_of_parts hs nofun
    | record hs names ht =>
      refine exists_ends_of_parts hs fun next hmem => ?_
      obtain ⟨u, hu, hnext⟩ := exists_mem_of_forall₂ ht hmem
      obtain ⟨e, he, rfl⟩ := List.mem_map.1 hu
      exact ih e he hnext

/-! ## Resolving with a bound -/

theorem resolveWithin_succ (d : Document) (levels : Nat) (name : String) :
    d.resolveWithin (levels + 1) name =
      match d.shape? name with
      | some (.done t) => .ok t
      | some (.array element) => (d.resolveWithin levels element).map .array
      | some (.record fields) =>
        (fields.mapM fun f => (d.resolveWithin levels f.2).map fun t => (f.1, t)).map
          (.record .value name)
      | none => .error (.unknownType name) := by
  rw [resolveWithin, shape?]
  cases elementName? name with
  | some element => rfl
  | none =>
    cases baseType? name with
    | some t => rfl
    | none => rcases Table.find? name d.types with _ | ⟨_ | _ | _⟩ <;> rfl

theorem mapM_fields_eq_ok {resolve : String → Except Error Ty} {fields : List (String × String)}
    {table : List (String × Ty)} :
    (fields.mapM fun f => (resolve f.2).map fun t => (f.1, t)) = .ok table ↔
      Table.keys table = Table.keys fields ∧
        List.Forall₂ (fun name t => resolve name = .ok t) (fields.map Prod.snd)
          (table.map Prod.snd) := by
  induction fields generalizing table with
  | nil =>
    constructor
    · rintro ⟨⟩
      exact ⟨rfl, .nil⟩
    · rintro ⟨hkeys, -⟩
      rw [List.map_eq_nil_iff.1 hkeys]
      rfl
  | cons f fields ih =>
    simp only [mapM_cons_eq_ok, map_eq_ok, ih]
    constructor
    · rintro ⟨_, rest, ⟨t, ht, rfl⟩, ⟨hkeys, hrest⟩, rfl⟩
      exact ⟨congrArg (f.1 :: ·) hkeys, .cons ht hrest⟩
    · rintro ⟨hkeys, h⟩
      cases table with
      | nil => cases hkeys
      | cons e rest =>
        obtain ⟨hname, hkeys⟩ := List.cons.inj hkeys
        obtain ⟨ht, hrest⟩ := List.forall₂_cons.1 h
        exact ⟨_, rest, ⟨e.2, ht, rfl⟩, ⟨hkeys, hrest⟩, by rw [← hname]⟩

/-- A bounded count finds the expansions that end within the bound. -/
theorem resolveWithin_eq_ok :
    d.resolveWithin levels name = .ok t ↔ d.Ends levels name ∧ d.Expands name t := by
  induction levels generalizing name t with
  | zero => exact iff_of_false nofun fun h => not_ends_zero h.1
  | succ levels ih =>
    rw [resolveWithin_succ]
    cases hs : d.shape? name with
    | none =>
      refine iff_of_false nofun fun h => ?_
      obtain ⟨shape, hshape⟩ := h.2.exists_shape
      cases hs.symm.trans hshape
    | some shape =>
      rw [ends_succ hs]
      cases shape with
      | done u =>
        rw [expands_done hs, and_iff_right (by exact nofun), eq_comm (a := t)]
        exact ⟨Except.ok.inj, congrArg Except.ok⟩
      | array element =>
        simp only [expands_array hs, map_eq_ok, ih, Shape.parts, List.forall_mem_singleton,
          and_assoc, exists_and_left]
      | record fields =>
        simp only [expands_record hs, map_eq_ok, mapM_fields_eq_ok, ih, List.forall₂_and_left]
        constructor
        · rintro ⟨table, ⟨hkeys, hends, ht⟩, rfl⟩
          exact ⟨hends, table, ⟨hkeys, ht⟩, rfl⟩
        · rintro ⟨hends, table, ⟨hkeys, ht⟩, rfl⟩
          exact ⟨table, ⟨hkeys, hends, ht⟩, rfl⟩

theorem Expands.unique (h : d.Expands name t) (h' : d.Expands name u) : t = u := by
  obtain ⟨levels, hends⟩ := h.exists_ends
  exact Except.ok.inj ((resolveWithin_eq_ok.2 ⟨hends, h⟩).symm.trans
    (resolveWithin_eq_ok.2 ⟨hends, h'⟩))

/-! ## Names that have an expansion -/

/-- Something is known of the name: it ends in brackets, is a base name or is declared. -/
def Known (d : Document) (name : String) : Prop :=
  (d.shape? name).isSome

theorem Expands.known (h : d.Expands name t) {k : Nat} (hk : d.Leads k name other) :
    d.Known other := by
  induction k generalizing name t with
  | zero =>
    cases hk
    exact Option.isSome_iff_exists.2 h.exists_shape
  | succ k ih =>
    obtain ⟨shape, next, hs, hmem, hk⟩ := hk
    obtain ⟨u, hu⟩ := h.part hs hmem
    exact ih hu hk

theorem exists_table {R : String → Ty → Prop} {fields : List (String × String)}
    (h : ∀ name ∈ fields.map Prod.snd, ∃ t, R name t) :
    ∃ table : List (String × Ty), Table.keys table = Table.keys fields ∧
      List.Forall₂ R (fields.map Prod.snd) (table.map Prod.snd) := by
  induction fields with
  | nil => exact ⟨[], rfl, .nil⟩
  | cons f fields ih =>
    obtain ⟨⟨t, ht⟩, hrest⟩ := List.forall_mem_cons.1 h
    obtain ⟨table, hkeys, htable⟩ := ih hrest
    exact ⟨(f.1, t) :: table, congrArg (f.1 :: ·) hkeys, .cons ht htable⟩

/-- A name has an expansion when it has an end and every name below it is known. -/
theorem exists_expands (hends : d.Ends levels name)
    (hknown : ∀ k other, d.Leads k name other → d.Known other) : ∃ t, d.Expands name t := by
  induction levels generalizing name with
  | zero => exact absurd hends not_ends_zero
  | succ levels ih =>
    obtain ⟨shape, hs⟩ := Option.isSome_iff_exists.1 (hknown 0 name rfl)
    have hnext : ∀ next ∈ shape.parts, ∃ t, d.Expands next t := fun next hmem =>
      ih ((ends_succ hs).1 hends next hmem) fun k other hk =>
        hknown (k + 1) other ⟨shape, next, hs, hmem, hk⟩
    cases shape with
    | done t => exact ⟨t, .done hs⟩
    | array element =>
      obtain ⟨t, ht⟩ := hnext element List.mem_cons_self
      exact ⟨_, .array hs ht⟩
    | record fields =>
      obtain ⟨table, names, ht⟩ := exists_table hnext
      exact ⟨_, .record hs names ht⟩

/-! ## Failures -/

theorem map_eq_error {ε α β : Type} {x : Except ε α} {f : α → β} {e : ε}
    (h : x.map f = .error e) : x = .error e := by
  cases x with
  | error e' => exact congrArg Except.error (Except.error.inj h)
  | ok a => cases h

theorem exists_of_mapM_eq_error {ε α β : Type} {f : α → Except ε β} {as : List α} {e : ε}
    (h : as.mapM f = .error e) : ∃ a ∈ as, f a = .error e := by
  induction as with
  | nil => cases h
  | cons a as ih =>
    cases ha : f a with
    | error e' =>
      rw [List.mapM_cons, ha] at h
      exact ⟨a, List.mem_cons_self, ha.trans (congrArg Except.error (Except.error.inj h))⟩
    | ok b =>
      rw [List.mapM_cons, bind_of_ok ha] at h
      obtain ⟨x, hx, he⟩ := ih (map_eq_error h)
      exact ⟨x, List.mem_cons_of_mem a hx, he⟩

/-- A name that is not resolved is told as an error of the document. -/
theorem family_of_resolveWithin {e : Error} (h : d.resolveWithin levels name = .error e) :
    e.family = .document := by
  induction levels generalizing name with
  | zero =>
    cases h
    rfl
  | succ levels ih =>
    rw [resolveWithin_succ] at h
    cases hs : d.shape? name with
    | none =>
      rw [hs] at h
      cases h
      rfl
    | some shape =>
      rw [hs] at h
      cases shape with
      | done t => cases h
      | array element => exact ih (map_eq_error h)
      | record fields =>
        obtain ⟨f, -, hf⟩ := exists_of_mapM_eq_error (map_eq_error h)
        exact ih (map_eq_error hf)

/-! ## Resolving a name -/

/-- A name is resolved to a type just if it expands to the type with no name more than 64 levels
below it. A name above a cycle is refused, and every refusal is an error of the document. -/
theorem resolve_exact (d : Document) (name : String) :
    (∀ t, d.resolve name = .ok t ↔
      d.Expands name t ∧ ∀ k other, d.Leads k name other → k ≤ 64) ∧
      ((∃ t, d.Expands name t) ↔
        (∃ levels, ∀ k other, d.Leads k name other → k ≤ levels) ∧
          ∀ k other, d.Leads k name other → d.Known other) ∧
      (∀ t u, d.Expands name t → d.Expands name u → t = u) ∧
      (∀ j k other, d.Leads j name other → d.Leads (k + 1) other other →
        ∃ e, d.resolve name = .error e) ∧
      ∀ e, d.resolve name = .error e → e.family = .document := by
  have hiff (levels : Nat) :
      (∀ k other, d.Leads k name other → k ≤ levels) ↔ d.Ends (levels + 1) name :=
    forall₂_congr fun k other => forall_congr' fun _ => Nat.lt_succ_iff.symm
  refine ⟨fun t => ?_, ?_, fun t u => Expands.unique, fun j k other hj hk => ?_,
    fun e => family_of_resolveWithin⟩
  · rw [hiff, and_comm]
    exact resolveWithin_eq_ok
  · constructor
    · rintro ⟨t, ht⟩
      obtain ⟨levels, hends⟩ := ht.exists_ends
      exact ⟨⟨levels, (hiff levels).2 (hends.mono (Nat.le_succ levels))⟩, fun k other => ht.known⟩
    · rintro ⟨⟨levels, hends⟩, hknown⟩
      exact exists_expands ((hiff levels).1 hends) hknown
  · cases hr : d.resolve name with
    | error e => exact ⟨e, rfl⟩
    | ok t => exact absurd (resolveWithin_eq_ok.1 hr).1 (not_ends_of_cycle hj hk _)

/-- Declarations of a base name, of a record with brackets in it, and of a record and an array that
contain one another. -/
def tangle : Document :=
  empty
    |>.declare "Color" (.enum [("red", 0), ("blue", 1)])
    |>.declare "i32" (.array "Color")
    |>.declare "Pen" (.struct [("width", "i32"), ("colors", "Color[]")])
    |>.declare "List" (.struct [("next", "Lists")])
    |>.declare "Lists" (.array "List")

/-- An array of pens has a type, in which the declaration of the base name is not seen; lists have
none. -/
theorem resolve_exact_tangle :
    let pens : Ty := .array (.record .value "Pen"
      [("width", .int .i32), ("colors", .array .string)])
    tangle.resolve "Pen[]" = .ok pens ∧ tangle.Expands "Pen[]" pens ∧
      (∀ k other, tangle.Leads k "Pen[]" other → k ≤ 64) ∧
      tangle.Leads 2 "List" "List" ∧
      ∃ e, tangle.resolve "List" = .error e ∧ e.family = .document := by
  intro pens
  have hpens : tangle.resolve "Pen[]" = .ok pens := by rfl
  have hcycle : tangle.Leads 2 "List" "List" :=
    ⟨.record [("next", "Lists")], "Lists", rfl, List.mem_cons_self, .array "List", "List", rfl,
      List.mem_cons_self, rfl⟩
  obtain ⟨hexpands, hends⟩ := ((resolve_exact tangle "Pen[]").1 pens).1 hpens
  obtain ⟨-, -, -, hrefused, hfamily⟩ := resolve_exact tangle "List"
  obtain ⟨e, he⟩ := hrefused 0 1 "List" rfl hcycle
  exact ⟨hpens, hexpands, hends, hcycle, e, he, hfamily e he⟩

end Document

end Parley
