import Parley.Proofs.Compilation

/-!
# Enumerations after any inserts

Inserts are tried one after the other and some are refused. Whatever they were, the table pairs the
keys and the numbers that went in one to one, and so do two maps, one for either direction, that are
changed one after the other.

* `EnumTable.accepted`, `EnumTable.insertEach` : the pairs that go in, and the table after them.
* `TwoMaps` : the numbers of the keys and the keys of the numbers; `TwoMaps.insert` changes both or
  neither.
* `TwoMaps.Shows` : the maps and a table that find the same; an insert keeps it, and so do any
  inserts.
* `EnumTable.PairsUp`, `EnumTable.inserts_one_to_one` : what is looked up after any inserts, and
  what the next one does.
-/

namespace Parley

namespace EnumTable

/-! ## Inserts that are tried -/

/-- The pairs that go in when inserts are tried one after the other. -/
def accepted (t : EnumTable) : List (String × Int) → List (String × Int)
  | [] => []
  | e :: rest =>
    match t.insert e.1 e.2 with
    | .ok t' => e :: accepted t' rest
    | .error _ => accepted t rest

/-- The table once inserts were tried one after the other; those that are refused are passed
over. -/
def insertEach (t : EnumTable) : List (String × Int) → EnumTable
  | [] => t
  | e :: rest =>
    match t.insert e.1 e.2 with
    | .ok t' => insertEach t' rest
    | .error _ => insertEach t rest

/-- No pair has the key or the number. -/
def Free (pairs : List (String × Int)) (key : String) (number : Int) : Prop :=
  ∀ e ∈ pairs, e.1 ≠ key ∧ e.2 ≠ number

instance (pairs : List (String × Int)) (key : String) (number : Int) :
    Decidable (Free pairs key number) :=
  inferInstanceAs (Decidable (∀ e ∈ pairs, _))

variable {t : EnumTable} {pairs : List (String × Int)} {key : String} {number : Int}

theorem not_free_iff : ¬ Free pairs key number ↔ ∃ e ∈ pairs, e.1 = key ∨ e.2 = number := by
  simp only [Free, not_forall, not_and_or, not_not, exists_prop]

theorem insert_of_free (h : Free t.entries key number) :
    t.insert key number = .ok { t with entries := t.entries ++ [(key, number)] } := by
  refine if_neg fun hany => ?_
  obtain ⟨e, he, hclash⟩ := List.any_eq_true.1 hany
  rw [Bool.or_eq_true, decide_eq_true_eq, decide_eq_true_eq] at hclash
  exact hclash.elim (h e he).1 (h e he).2

theorem insert_of_not_free (h : ¬ Free t.entries key number) :
    t.insert key number = .error (.duplicateEntry key number) := by
  obtain ⟨e, he, hclash⟩ := not_free_iff.1 h
  refine if_pos (List.any_eq_true.2 ⟨e, he, ?_⟩)
  rwa [Bool.or_eq_true, decide_eq_true_eq, decide_eq_true_eq]

theorem exists_insert_iff : (∃ t', t.insert key number = .ok t') ↔ Free t.entries key number := by
  refine ⟨fun ⟨t', ht⟩ => ?_, fun h => ⟨_, insert_of_free h⟩⟩
  by_contra h
  rw [insert_of_not_free h] at ht
  cases ht

/-- The entries after some inserts are those there were and the pairs that went in. -/
theorem insertEach_eq_append (t : EnumTable) (attempts : List (String × Int)) :
    t.insertEach attempts = { t with entries := t.entries ++ t.accepted attempts } := by
  fun_induction insertEach t attempts with
  | case1 t => rw [accepted, List.append_nil]
  | case2 t e rest t' ht ih =>
    have hfree := exists_insert_iff.1 ⟨t', ht⟩
    rw [insert_of_free hfree] at ht
    obtain rfl := Except.ok.inj ht
    rw [ih, accepted, insert_of_free hfree]
    simp only [List.append_assoc, List.singleton_append]
  | case3 t e rest error ht ih => rw [ih, accepted, ht]

theorem OneToOne.insertEach (h : OneToOne t.entries) (attempts : List (String × Int)) :
    OneToOne (t.insertEach attempts).entries := by
  fun_induction EnumTable.insertEach t attempts with
  | case1 t => exact h
  | case2 t e rest t' ht ih =>
    obtain ⟨hone, rfl⟩ := (insert_eq_ok h).1 ht
    exact ih hone
  | case3 t e rest error ht ih => exact ih h

end EnumTable

/-! ## Two maps -/

/-- An enumeration as two maps, the numbers of the keys and the keys of the numbers. -/
structure TwoMaps where
  defaultKey : String
  defaultNumber : Int
  numbers : List (String × Int)
  keys : List (Int × String)
  deriving DecidableEq, Repr

namespace TwoMaps

/-- Maps without entries. -/
def empty (defaultKey : String) (defaultNumber : Int) : TwoMaps :=
  ⟨defaultKey, defaultNumber, [], []⟩

/-- The number of a key. -/
def number (m : TwoMaps) (key : String) : Int :=
  (Table.find? key m.numbers).getD m.defaultNumber

/-- The key of a number. -/
def key (m : TwoMaps) (number : Int) : String :=
  (Table.find? number m.keys).getD m.defaultKey

/-- Enters the key of the number and then the number of the key, unless one of them is there. -/
def insert (key : String) (number : Int) : ExceptT Error (StateM TwoMaps) Unit := do
  let m ← get
  if Table.contains key m.numbers || Table.contains number m.keys then
    throw (.duplicateEntry key number)
  modify fun m => { m with keys := Table.insert number key m.keys }
  modify fun m => { m with numbers := Table.insert key number m.numbers }

/-- The maps once inserts were tried one after the other; each goes on from what the one before it
left, also when that was refused. -/
def insertEach (m : TwoMaps) (attempts : List (String × Int)) : TwoMaps :=
  attempts.foldl (fun m e => ((insert e.1 e.2).run.run m).2) m

/-- The maps find the entries of the table. -/
structure Shows (m : TwoMaps) (t : EnumTable) : Prop where
  defaultKey : m.defaultKey = t.defaultKey
  defaultNumber : m.defaultNumber = t.defaultNumber
  numbers : ∀ key, Table.find? key m.numbers = (t.entries.find? (·.1 = key)).map Prod.snd
  keys : ∀ number, Table.find? number m.keys = (t.entries.find? (·.2 = number)).map Prod.fst

variable {m : TwoMaps} {t : EnumTable}

theorem shows_empty (defaultKey : String) (defaultNumber : Int) :
    (empty defaultKey defaultNumber).Shows (.empty defaultKey defaultNumber) :=
  ⟨rfl, rfl, fun _ => rfl, fun _ => rfl⟩

theorem Shows.number_eq (h : m.Shows t) (key : String) : m.number key = t.number key := by
  rw [number, EnumTable.number, h.numbers, h.defaultNumber]
  cases t.entries.find? (·.1 = key) <;> rfl

theorem Shows.key_eq (h : m.Shows t) (number : Int) : m.key number = t.key number := by
  rw [key, EnumTable.key, h.keys, h.defaultKey]
  cases t.entries.find? (·.2 = number) <;> rfl

theorem Shows.contains_iff (h : m.Shows t) {key : String} {number : Int} :
    (Table.contains key m.numbers || Table.contains number m.keys) = true ↔
      ¬ EnumTable.Free t.entries key number := by
  simp only [EnumTable.not_free_iff, Table.contains, h.numbers, h.keys, Option.isSome_map,
    List.find?_isSome, Bool.or_eq_true, decide_eq_true_eq]
  constructor
  · rintro (⟨e, he, hk⟩ | ⟨e, he, hn⟩)
    · exact ⟨e, he, .inl hk⟩
    · exact ⟨e, he, .inr hn⟩
  · rintro ⟨e, he, hk | hn⟩
    · exact .inl ⟨e, he, hk⟩
    · exact .inr ⟨e, he, hn⟩

theorem Shows.concat (h : m.Shows t) {key : String} {number : Int}
    (hfree : EnumTable.Free t.entries key number) :
    Shows ⟨m.defaultKey, m.defaultNumber, Table.insert key number m.numbers,
      Table.insert number key m.keys⟩ { t with entries := t.entries ++ [(key, number)] } where
  defaultKey := h.defaultKey
  defaultNumber := h.defaultNumber
  numbers k := by
    rw [Table.find?_insert, h.numbers, List.find?_append]
    by_cases hk : key = k
    · have hnone : t.entries.find? (·.1 = k) = none :=
        List.find?_eq_none.2 fun e he => by simpa [← hk] using (hfree e he).1
      rw [if_pos hk, hnone, List.find?_singleton, if_pos (decide_eq_true hk)]
      rfl
    · rw [if_neg hk, List.find?_singleton, if_neg (by simpa using hk), Option.or_none]
  keys n := by
    rw [Table.find?_insert, h.keys, List.find?_append]
    by_cases hn : number = n
    · have hnone : t.entries.find? (·.2 = n) = none :=
        List.find?_eq_none.2 fun e he => by simpa [← hn] using (hfree e he).2
      rw [if_pos hn, hnone, List.find?_singleton, if_pos (decide_eq_true hn)]
      rfl
    · rw [if_neg hn, List.find?_singleton, if_neg (by simpa using hn), Option.or_none]

theorem run_insert (m : TwoMaps) (key : String) (number : Int) :
    (insert key number).run.run m =
      if Table.contains key m.numbers || Table.contains number m.keys then
        (.error (.duplicateEntry key number), m)
      else (.ok (), ⟨m.defaultKey, m.defaultNumber, Table.insert key number m.numbers,
        Table.insert number key m.keys⟩) := by
  show (if _ then _ else _ : ExceptT Error (StateM TwoMaps) Unit) m = _
  split <;> rfl

/-- An insert goes through for the maps when it does for the table, and they show it still. -/
theorem Shows.insert (h : m.Shows t) (key : String) (number : Int) :
    match t.insert key number with
    | .ok t' => ∃ m', (TwoMaps.insert key number).run.run m = (.ok (), m') ∧ m'.Shows t'
    | .error e => (TwoMaps.insert key number).run.run m = (.error e, m) := by
  rw [run_insert]
  by_cases hfree : EnumTable.Free t.entries key number
  · rw [EnumTable.insert_of_free hfree, if_neg fun hc => h.contains_iff.1 hc hfree]
    exact ⟨_, rfl, h.concat hfree⟩
  · rw [EnumTable.insert_of_not_free hfree, if_pos (h.contains_iff.2 hfree)]

theorem Shows.insertEach (h : m.Shows t) (attempts : List (String × Int)) :
    (m.insertEach attempts).Shows (t.insertEach attempts) := by
  induction attempts generalizing m t with
  | nil => exact h
  | cons e rest ih =>
    have hstep := h.insert e.1 e.2
    rw [TwoMaps.insertEach, List.foldl_cons, EnumTable.insertEach]
    cases ht : t.insert e.1 e.2 with
    | ok t' =>
      rw [ht] at hstep
      obtain ⟨m', hm, hshows⟩ := hstep
      rw [hm]
      exact ih hshows
    | error error =>
      rw [ht] at hstep
      rw [hstep]
      exact ih h

end TwoMaps

/-! ## Any inserts -/

namespace EnumTable

/-- The table and the two maps pair the keys and the numbers of the pairs, and the defaults stand in
for the others. -/
structure PairsUp (t : EnumTable) (m : TwoMaps) (defaultKey : String) (defaultNumber : Int)
    (pairs : List (String × Int)) : Prop where
  oneToOne : OneToOne pairs
  lists : t.Lists defaultKey defaultNumber pairs
  number_eq : ∀ key, m.number key = t.number key
  key_eq : ∀ number, m.key number = t.key number
  /-- An insert goes through when neither its key nor its number is in a pair. -/
  accepts : ∀ key number, ((∃ t', t.insert key number = .ok t') ↔ Free pairs key number) ∧
    ((∃ m', (TwoMaps.insert key number).run.run m = (.ok (), m')) ↔ Free pairs key number)
  /-- Any other insert is refused and changes nothing. -/
  refuses : ∀ key number, ¬ Free pairs key number →
    t.insert key number = .error (.duplicateEntry key number) ∧ t.insertEach [(key, number)] = t ∧
      (TwoMaps.insert key number).run.run m = (.error (.duplicateEntry key number), m)

/-- Two maps that show a table with one-to-one entries pair up the same keys and numbers. -/
theorem OneToOne.pairsUp {m : TwoMaps} {t : EnumTable} (h : OneToOne t.entries) (hm : m.Shows t) :
    t.PairsUp m t.defaultKey t.defaultNumber t.entries where
  oneToOne := h
  lists := h.lists t.defaultKey t.defaultNumber
  number_eq := hm.number_eq
  key_eq := hm.key_eq
  accepts key number := by
    refine ⟨exists_insert_iff, ?_⟩
    have hstep := hm.insert key number
    by_cases hfree : Free t.entries key number
    · rw [insert_of_free hfree] at hstep
      obtain ⟨m', hm', -⟩ := hstep
      exact iff_of_true ⟨m', hm'⟩ hfree
    · rw [insert_of_not_free hfree] at hstep
      rw [hstep]
      exact iff_of_false (fun ⟨_, hm'⟩ => nomatch hm') hfree
  refuses key number hfree := by
    have hinsert := insert_of_not_free hfree
    have hstep := hm.insert key number
    rw [hinsert] at hstep
    refine ⟨hinsert, ?_, hstep⟩
    rw [EnumTable.insertEach, hinsert]
    rfl

/-- After any inserts an enumeration is one to one, as a table and as two maps. The next insert goes
through just when neither its key nor its number went in before. -/
theorem inserts_one_to_one (defaultKey : String) (defaultNumber : Int)
    (attempts : List (String × Int)) :
    ((empty defaultKey defaultNumber).insertEach attempts).PairsUp
      ((TwoMaps.empty defaultKey defaultNumber).insertEach attempts) defaultKey defaultNumber
      ((empty defaultKey defaultNumber).accepted attempts) := by
  have hnone : OneToOne (empty defaultKey defaultNumber).entries :=
    ⟨List.nodup_nil, List.nodup_nil⟩
  have hshows := (TwoMaps.shows_empty defaultKey defaultNumber).insertEach attempts
  have h := (hnone.insertEach attempts).pairsUp hshows
  rw [insertEach_eq_append] at h ⊢
  exact h

/-- Inserts are refused for their key, for their number, and for both, which went in apart. -/
example : (empty "Mature" 0).accepted
    [("Mature", 0), ("Teen", 1), ("Teen", 7), ("Child", 1), ("Teen", 0), ("Child", 7)] =
      [("Mature", 0), ("Teen", 1), ("Child", 7)] := by
  decide

end EnumTable

end Parley
