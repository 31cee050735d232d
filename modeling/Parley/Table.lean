/-!
# Tables: association lists in key order

A finite map is kept as a list of pairs in strictly increasing key order, so equal maps are equal
lists and walking a table visits its keys in order. The functions are stated for any list of pairs:
looking a key up after `insert` needs no order at all.

* `Table.find?`, `Table.insert`, `Table.erase`, `Table.set?`, `Table.keys`, `Table.ofList`.
* `find?_insert`, `find?_erase`, `find?_set?` : what is found after a change; `forall_insert` : what
  is true of all entries after one was made; `set?_isSome` : when an entry can be replaced;
  `keys_set?` : replacing one keeps the keys.
-/

namespace Parley.Table

variable {κ α : Type}

/-- The entry at `k`. -/
def find? [DecidableEq κ] (k : κ) : List (κ × α) → Option α
  | [] => none
  | (k', a) :: rest => if k' = k then some a else find? k rest

/-- Whether `k` has an entry. -/
def contains [DecidableEq κ] (k : κ) (table : List (κ × α)) : Bool :=
  (find? k table).isSome

/-- Enters `a` at `k`, replacing an entry that is there. -/
def insert [LT κ] [DecidableLT κ] [DecidableEq κ] (k : κ) (a : α) : List (κ × α) → List (κ × α)
  | [] => [(k, a)]
  | (k', b) :: rest =>
    if k < k' then (k, a) :: (k', b) :: rest
    else if k' = k then (k, a) :: rest
    else (k', b) :: insert k a rest

/-- Drops the entry at `k`. -/
def erase [DecidableEq κ] (k : κ) (table : List (κ × α)) : List (κ × α) :=
  table.filter fun entry => entry.1 ≠ k

/-- Replaces the entry at `k`, if there is one. -/
def set? [DecidableEq κ] (k : κ) (a : α) : List (κ × α) → Option (List (κ × α))
  | [] => none
  | (k', b) :: rest =>
    if k' = k then some ((k, a) :: rest) else (set? k a rest).map ((k', b) :: ·)

/-- The keys in order. -/
def keys (table : List (κ × α)) : List κ :=
  table.map Prod.fst

/-- The table of a list of pairs; the last pair with a key stands. -/
def ofList [LT κ] [DecidableLT κ] [DecidableEq κ] (pairs : List (κ × α)) : List (κ × α) :=
  pairs.foldl (fun table entry => insert entry.1 entry.2 table) []

/-! ## What a table holds after a change -/

theorem find?_insert [LT κ] [DecidableLT κ] [DecidableEq κ] (k j : κ) (a : α)
    (table : List (κ × α)) :
    find? j (insert k a table) = if k = j then some a else find? j table := by
  induction table with
  | nil => rfl
  | cons entry rest ih =>
    obtain ⟨i, b⟩ := entry
    rw [insert]
    by_cases h : k < i
    · rw [if_pos h, find?]
    · rw [if_neg h]
      by_cases hi : i = k
      · rw [if_pos hi, find?]
        by_cases hj : k = j
        · rw [if_pos hj, if_pos hj]
        · rw [if_neg hj, if_neg hj, find?, if_neg (hi ▸ hj)]
      · rw [if_neg hi, find?, ih, find?]
        by_cases hj : i = j
        · rw [if_pos hj, if_pos hj, if_neg (fun h => hi (hj.trans h.symm))]
        · rw [if_neg hj, if_neg hj]

theorem find?_insert_self [LT κ] [DecidableLT κ] [DecidableEq κ] (k : κ) (a : α)
    (table : List (κ × α)) : find? k (insert k a table) = some a :=
  (find?_insert k k a table).trans (if_pos rfl)

theorem find?_insert_ne [LT κ] [DecidableLT κ] [DecidableEq κ] {k j : κ} (h : k ≠ j) (a : α)
    (table : List (κ × α)) : find? j (insert k a table) = find? j table :=
  (find?_insert k j a table).trans (if_neg h)

/-- What is true of the entry that is made and of the others is true of all entries. -/
theorem forall_insert [LT κ] [DecidableLT κ] [DecidableEq κ] {P : κ → α → Prop} {k : κ} {a : α}
    {table : List (κ × α)} (hself : P k a)
    (hothers : ∀ j b, k ≠ j → find? j table = some b → P j b) :
    ∀ j b, find? j (insert k a table) = some b → P j b := by
  intro j b hb
  by_cases hj : k = j
  · subst hj
    rw [find?_insert_self] at hb
    cases hb
    exact hself
  · rw [find?_insert_ne hj] at hb
    exact hothers j b hj hb

theorem find?_erase [DecidableEq κ] (k j : κ) (table : List (κ × α)) :
    find? j (erase k table) = if k = j then none else find? j table := by
  induction table with
  | nil => simp [erase, find?]
  | cons entry rest ih =>
    obtain ⟨i, b⟩ := entry
    rw [erase] at ih ⊢
    by_cases hi : i = k
    · rw [List.filter_cons_of_neg (by simpa using hi), ih, find?, hi]
      by_cases hj : k = j
      · rw [if_pos hj, if_pos hj]
      · rw [if_neg hj, if_neg hj, if_neg hj]
    · rw [List.filter_cons_of_pos (by simpa using hi), find?, ih, find?]
      by_cases hj : i = j
      · rw [if_pos hj, if_pos hj, if_neg (fun h => hi (hj.trans h.symm))]
      · rw [if_neg hj, if_neg hj]

theorem set?_isSome [DecidableEq κ] (k : κ) (a : α) (table : List (κ × α)) :
    (set? k a table).isSome = contains k table := by
  induction table with
  | nil => rfl
  | cons entry rest ih =>
    obtain ⟨i, b⟩ := entry
    rw [set?, contains, find?]
    by_cases hi : i = k
    · rw [if_pos hi, if_pos hi]; rfl
    · rw [if_neg hi, if_neg hi, Option.isSome_map, ih, contains]

theorem find?_set? [DecidableEq κ] {k : κ} (j : κ) {a : α} {table changed : List (κ × α)}
    (h : set? k a table = some changed) :
    find? j changed = if k = j then some a else find? j table := by
  induction table generalizing changed with
  | nil => exact absurd h (by simp [set?])
  | cons entry rest ih =>
    obtain ⟨i, b⟩ := entry
    rw [set?] at h
    by_cases hi : i = k
    · rw [if_pos hi] at h
      obtain rfl := Option.some.inj h
      rw [find?, find?]
      by_cases hj : k = j
      · rw [if_pos hj, if_pos hj]
      · rw [if_neg hj, if_neg hj, if_neg (hi ▸ hj)]
    · rw [if_neg hi] at h
      obtain ⟨tail, ht, rfl⟩ := Option.map_eq_some_iff.1 h
      rw [find?, ih ht, find?]
      by_cases hj : i = j
      · rw [if_pos hj, if_pos hj, if_neg (fun h => hi (hj.trans h.symm))]
      · rw [if_neg hj, if_neg hj]

theorem keys_set? [DecidableEq κ] {k : κ} {a : α} {table changed : List (κ × α)}
    (h : set? k a table = some changed) : keys changed = keys table := by
  induction table generalizing changed with
  | nil => exact absurd h (by simp [set?])
  | cons entry rest ih =>
    obtain ⟨i, b⟩ := entry
    rw [set?] at h
    by_cases hi : i = k
    · rw [if_pos hi] at h
      obtain rfl := Option.some.inj h
      rw [keys, List.map_cons, keys, List.map_cons, hi]
    · rw [if_neg hi] at h
      obtain ⟨tail, ht, rfl⟩ := Option.map_eq_some_iff.1 h
      have := ih ht
      simp only [keys, List.map_cons] at this ⊢
      rw [this]

end Parley.Table
