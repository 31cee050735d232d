import Parley.Table

/-!
# Tables in key order

* `Table.Sorted` : the keys of a table increase strictly; every change keeps that.
* `Sorted.ext` : sorted tables that hold the same entries are equal.
* `find?_ofList` : the table of a list of pairs with distinct keys holds the pairs.
* `find?_map_snd`, `set?_map_snd` : looking up and replacing commute with a change of the entries.
* `set?_set?`, `set?_find?` : replacing an entry again, and by what it was.
-/

namespace Parley.Table

variable {κ α β : Type}

/-- The keys increase strictly. -/
def Sorted [LT κ] (table : List (κ × α)) : Prop :=
  (keys table).Pairwise (· < ·)

instance [LT κ] [DecidableLT κ] (table : List (κ × α)) : Decidable (Sorted table) :=
  inferInstanceAs (Decidable ((keys table).Pairwise (· < ·)))

/-! ## Finding entries -/

section Find

variable [DecidableEq κ]

theorem mem_of_find? {k : κ} {a : α} {table : List (κ × α)} (h : find? k table = some a) :
    (k, a) ∈ table := by
  induction table with
  | nil => cases h
  | cons entry rest ih =>
    obtain ⟨i, b⟩ := entry
    rw [find?] at h
    by_cases hi : i = k
    · rw [if_pos hi] at h
      obtain rfl := Option.some.inj h
      exact hi ▸ List.mem_cons_self
    · rw [if_neg hi] at h
      exact List.mem_cons_of_mem _ (ih h)

theorem contains_iff_mem_keys {k : κ} {table : List (κ × α)} :
    contains k table = true ↔ k ∈ keys table := by
  induction table with
  | nil => simp [contains, find?, keys]
  | cons entry rest ih =>
    obtain ⟨i, b⟩ := entry
    rw [contains, find?, keys, List.map_cons, List.mem_cons]
    by_cases hi : i = k
    · rw [if_pos hi]
      exact ⟨fun _ => Or.inl hi.symm, fun _ => rfl⟩
    · rw [if_neg hi]
      exact ih.trans ⟨Or.inr, fun h => h.resolve_left fun he => hi he.symm⟩

theorem find?_eq_none_iff {k : κ} {table : List (κ × α)} :
    find? k table = none ↔ k ∉ keys table := by
  rw [← contains_iff_mem_keys, contains]
  cases find? k table <;> simp

theorem exists_find?_of_mem_keys {k : κ} {table : List (κ × α)} (h : k ∈ keys table) :
    ∃ a, find? k table = some a :=
  Option.isSome_iff_exists.1 (contains_iff_mem_keys.2 h)

theorem mem_keys_of_find? {k : κ} {a : α} {table : List (κ × α)} (h : find? k table = some a) :
    k ∈ keys table :=
  contains_iff_mem_keys.1 (by rw [contains, h]; rfl)

theorem find?_of_mem {k : κ} {a : α} {table : List (κ × α)} (hn : (keys table).Nodup)
    (h : (k, a) ∈ table) : find? k table = some a := by
  induction table with
  | nil => cases h
  | cons entry rest ih =>
    obtain ⟨i, b⟩ := entry
    rw [keys, List.map_cons, List.nodup_cons] at hn
    rw [find?]
    rcases List.mem_cons.1 h with he | hr
    · obtain ⟨rfl, rfl⟩ := Prod.mk.inj he
      rw [if_pos rfl]
    · have hik : i ≠ k := fun he => hn.1 (List.mem_map.2 ⟨(k, a), hr, he.symm⟩)
      rw [if_neg hik]
      exact ih hn.2 hr

theorem find?_map_snd (f : α → β) (k : κ) (table : List (κ × α)) :
    find? k (table.map fun e => (e.1, f e.2)) = (find? k table).map f := by
  induction table with
  | nil => rfl
  | cons entry rest ih =>
    obtain ⟨i, b⟩ := entry
    rw [List.map_cons, find?, find?]
    by_cases hi : i = k
    · rw [if_pos hi, if_pos hi, Option.map_some]
    · rw [if_neg hi, if_neg hi, ih]

theorem mem_keys_erase {j k : κ} {table : List (κ × α)} :
    j ∈ keys (erase k table) ↔ j ≠ k ∧ j ∈ keys table := by
  rw [← contains_iff_mem_keys, ← contains_iff_mem_keys, contains, contains, find?_erase]
  by_cases h : k = j
  · simp [h]
  · simp [h, Ne.symm h]

theorem find?_erase_eq_some {j k : κ} {table : List (κ × α)} {a : α} :
    find? j (erase k table) = some a ↔ k ≠ j ∧ find? j table = some a := by
  rw [find?_erase]
  split
  · simp [*]
  · simp [*]

theorem exists_set? {k : κ} {table : List (κ × α)} (h : k ∈ keys table) (a : α) :
    ∃ changed, set? k a table = some changed :=
  Option.isSome_iff_exists.1 (by rw [set?_isSome]; exact contains_iff_mem_keys.2 h)

theorem set?_map_snd (f : α → β) (k : κ) (a : α) (table : List (κ × α)) :
    set? k (f a) (table.map fun e => (e.1, f e.2)) =
      (set? k a table).map fun changed => changed.map fun e => (e.1, f e.2) := by
  induction table with
  | nil => rfl
  | cons entry rest ih =>
    obtain ⟨i, b⟩ := entry
    rw [List.map_cons, set?, set?]
    by_cases hi : i = k
    · rw [if_pos hi, if_pos hi, Option.map_some, List.map_cons]
    · rw [if_neg hi, if_neg hi, ih, Option.map_map, Option.map_map]
      rfl

theorem set?_set? {k : κ} {a : α} (b : α) {table changed : List (κ × α)}
    (h : set? k a table = some changed) : set? k b changed = set? k b table := by
  induction table generalizing changed with
  | nil => cases h
  | cons entry rest ih =>
    obtain ⟨i, c⟩ := entry
    rw [set?] at h
    by_cases hi : i = k
    · rw [if_pos hi] at h
      obtain rfl := Option.some.inj h
      rw [set?, if_pos rfl, set?, if_pos hi]
    · rw [if_neg hi] at h
      obtain ⟨tail, ht, rfl⟩ := Option.map_eq_some_iff.1 h
      rw [set?, if_neg hi, ih ht, set?, if_neg hi]

theorem set?_find? {k : κ} {a : α} {table : List (κ × α)} (h : find? k table = some a) :
    set? k a table = some table := by
  induction table with
  | nil => cases h
  | cons entry rest ih =>
    obtain ⟨i, b⟩ := entry
    rw [find?] at h
    rw [set?]
    by_cases hi : i = k
    · rw [if_pos hi] at h ⊢
      rw [← Option.some.inj h, hi]
    · rw [if_neg hi] at h ⊢
      rw [ih h, Option.map_some]

/-- Replacing an entry where all others are changed to the same thing anyway. -/
theorem set?_map_of_agree {f g : α → β} {k : κ} {a : α} {table : List (κ × α)}
    (hn : (keys table).Nodup) (ha : find? k table = some a)
    (h : ∀ e ∈ table, e.1 ≠ k → f e.2 = g e.2) :
    set? k (g a) (table.map fun e => (e.1, f e.2)) = some (table.map fun e => (e.1, g e.2)) := by
  induction table with
  | nil => cases ha
  | cons entry rest ih =>
    obtain ⟨i, b⟩ := entry
    rw [keys, List.map_cons, List.nodup_cons] at hn
    rw [find?] at ha
    rw [List.map_cons, List.map_cons, set?]
    by_cases hi : i = k
    · rw [if_pos hi] at ha ⊢
      obtain rfl := Option.some.inj ha
      have hrest : rest.map (fun e => (e.1, f e.2)) = rest.map fun e => (e.1, g e.2) :=
        List.map_congr_left fun e he => congrArg _ (h e (List.mem_cons_of_mem _ he) fun hek =>
          hn.1 (List.mem_map.2 ⟨e, he, hek.trans hi.symm⟩))
      rw [hrest, hi]
    · rw [if_neg hi] at ha ⊢
      rw [ih hn.2 ha fun e he => h e (List.mem_cons_of_mem _ he), Option.map_some,
        h (i, b) List.mem_cons_self hi]

theorem set?_eq_none {k : κ} {table : List (κ × α)} (h : find? k table = none) (a : α) :
    set? k a table = none := by
  rw [← Option.not_isSome_iff_eq_none, set?_isSome, contains, h]
  exact Bool.false_ne_true

end Find

/-! ## Tables of pairs -/

theorem find?_foldl_insert [LT κ] [DecidableLT κ] [DecidableEq κ] {pairs : List (κ × α)}
    (hn : (keys pairs).Nodup) (k : κ) (table : List (κ × α)) :
    find? k (pairs.foldl (fun table entry => Table.insert entry.1 entry.2 table) table) =
      (find? k pairs).or (find? k table) := by
  induction pairs generalizing table with
  | nil => rfl
  | cons entry rest ih =>
    obtain ⟨i, b⟩ := entry
    rw [keys, List.map_cons, List.nodup_cons] at hn
    rw [List.foldl_cons, ih hn.2, find?_insert, find?]
    by_cases hi : i = k
    · subst hi
      rw [if_pos rfl, if_pos rfl, find?_eq_none_iff.2 hn.1]
      rfl
    · rw [if_neg hi, if_neg hi]

theorem find?_ofList [LT κ] [DecidableLT κ] [DecidableEq κ]
    {pairs : List (κ × α)} (hn : (keys pairs).Nodup) (k : κ) :
    find? k (ofList pairs) = find? k pairs := by
  rw [ofList, find?_foldl_insert hn]
  exact Option.or_none

/-! ## Entries -/

theorem mem_of_mem_insert [LT κ] [DecidableLT κ] [DecidableEq κ] {k : κ} {a : α}
    {table : List (κ × α)} {e : κ × α} (h : e ∈ insert k a table) : e = (k, a) ∨ e ∈ table := by
  induction table with
  | nil => exact Or.inl (List.mem_singleton.1 h)
  | cons entry rest ih =>
    rw [insert] at h
    split at h
    · exact List.mem_cons.1 h
    · split at h
      · exact (List.mem_cons.1 h).imp_right (List.mem_cons_of_mem _)
      · rcases List.mem_cons.1 h with rfl | h
        · exact Or.inr List.mem_cons_self
        · exact (ih h).imp_right (List.mem_cons_of_mem _)

theorem mem_of_mem_foldl_insert [LT κ] [DecidableLT κ] [DecidableEq κ] {pairs table : List (κ × α)}
    {e : κ × α} (h : e ∈ pairs.foldl (fun table entry => insert entry.1 entry.2 table) table) :
    e ∈ pairs ∨ e ∈ table := by
  induction pairs generalizing table with
  | nil => exact Or.inr h
  | cons entry rest ih =>
    rcases ih h with h | h
    · exact Or.inl (List.mem_cons_of_mem _ h)
    · rcases mem_of_mem_insert h with rfl | h
      · exact Or.inl List.mem_cons_self
      · exact Or.inr h

theorem mem_of_mem_ofList [LT κ] [DecidableLT κ] [DecidableEq κ] {pairs : List (κ × α)} {e : κ × α}
    (h : e ∈ ofList pairs) : e ∈ pairs :=
  (mem_of_mem_foldl_insert h).resolve_right List.not_mem_nil

theorem mem_ofList [LT κ] [DecidableLT κ] [DecidableEq κ] {pairs : List (κ × α)}
    (hn : (keys pairs).Nodup) {e : κ × α} :
    e ∈ ofList pairs ↔ e ∈ pairs := by
  constructor
  · exact mem_of_mem_ofList
  · intro he
    refine mem_of_find? (k := e.1) ?_
    rw [find?_ofList hn]
    exact find?_of_mem hn he

/-! ## Order -/

theorem sorted_nil [LT κ] : Sorted ([] : List (κ × α)) :=
  List.Pairwise.nil

theorem sorted_cons [LT κ] {k : κ} {a : α} {rest : List (κ × α)} :
    Sorted ((k, a) :: rest) ↔ (∀ j ∈ keys rest, k < j) ∧ Sorted rest :=
  List.pairwise_cons

theorem Sorted.erase [LT κ] [DecidableEq κ] {table : List (κ × α)} (k : κ) (h : Sorted table) :
    Sorted (Table.erase k table) :=
  List.Pairwise.sublist (List.filter_sublist.map _) h

theorem Sorted.set? [LT κ] [DecidableEq κ] {k : κ} {a : α} {table changed : List (κ × α)}
    (h : Sorted table) (hs : Table.set? k a table = some changed) : Sorted changed := by
  unfold Sorted
  rw [keys_set? hs]
  exact h

theorem mem_keys_insert [LT κ] [DecidableLT κ] [DecidableEq κ] {j k : κ} {a : α}
    {table : List (κ × α)} : j ∈ keys (insert k a table) ↔ j = k ∨ j ∈ keys table := by
  rw [← contains_iff_mem_keys, ← contains_iff_mem_keys, contains, contains, find?_insert]
  by_cases h : k = j
  · simp [h]
  · simp [h, Ne.symm h]

theorem Sorted.nodup [LT κ] [Std.Irrefl (α := κ) (· < ·)] {table : List (κ × α)}
    (h : Sorted table) : (keys table).Nodup :=
  List.Pairwise.imp
    (fun {a b} (hlt : a < b) (he : a = b) => Std.Irrefl.irrefl b (he ▸ hlt : b < b)) h

section Order

variable [LE κ] [LT κ] [Std.IsLinearOrder κ] [Std.LawfulOrderLT κ]

variable [DecidableEq κ]

/-- Sorted tables that hold the same entries are equal. -/
theorem Sorted.ext {s t : List (κ × α)} (hs : Sorted s) (ht : Sorted t)
    (h : ∀ k, find? k s = find? k t) : s = t := by
  induction s generalizing t with
  | nil =>
    cases t with
    | nil => rfl
    | cons entry rest =>
      have hk := h entry.1
      rw [find?, find?, if_pos rfl] at hk
      cases hk
  | cons entry rest ih =>
    obtain ⟨i, a⟩ := entry
    cases t with
    | nil =>
      have hk := h i
      rw [find?, find?, if_pos rfl] at hk
      cases hk
    | cons other tail =>
      obtain ⟨j, b⟩ := other
      rw [sorted_cons] at hs ht
      -- the first key of each table is in the other one, so neither comes before the other
      have hi : i ∈ keys ((j, b) :: tail) := by
        rw [← contains_iff_mem_keys, contains, ← h i, find?, if_pos rfl]
        rfl
      have hj : j ∈ keys ((i, a) :: rest) := by
        rw [← contains_iff_mem_keys, contains, h j, find?, if_pos rfl]
        rfl
      have hij : i = j := by
        rcases List.mem_cons.1 hi with he | hi
        · exact he
        · rcases List.mem_cons.1 hj with he | hj
          · exact he.symm
          · exact absurd (Std.lt_trans (hs.1 j hj) (ht.1 i hi)) Std.lt_irrefl
      subst hij
      have hab : a = b := by
        have hk := h i
        rw [find?, find?, if_pos rfl, if_pos rfl] at hk
        exact Option.some.inj hk
      subst hab
      rw [ih hs.2 ht.2]
      intro k
      have hk := h k
      rw [find?, find?] at hk
      by_cases he : i = k
      · subst he
        have h1 : find? i rest = none :=
          find?_eq_none_iff.2 fun hm => Std.lt_irrefl (hs.1 i hm)
        have h2 : find? i tail = none :=
          find?_eq_none_iff.2 fun hm => Std.lt_irrefl (ht.1 i hm)
        rw [h1, h2]
      · rwa [if_neg he, if_neg he] at hk

variable [DecidableLT κ]

theorem Sorted.insert {table : List (κ × α)} (k : κ) (a : α) (h : Sorted table) :
    Sorted (Table.insert k a table) := by
  induction table with
  | nil => exact sorted_cons.2 ⟨fun _ hj => absurd hj List.not_mem_nil, sorted_nil⟩
  | cons entry rest ih =>
    obtain ⟨i, b⟩ := entry
    have hc := sorted_cons.1 h
    rw [Table.insert]
    by_cases hlt : k < i
    · rw [if_pos hlt]
      refine sorted_cons.2 ⟨fun j hj => ?_, h⟩
      rcases List.mem_cons.1 hj with rfl | hj
      · exact hlt
      · exact Std.lt_trans hlt (hc.1 j hj)
    · rw [if_neg hlt]
      by_cases he : i = k
      · rw [if_pos he]
        exact sorted_cons.2 ⟨he ▸ hc.1, hc.2⟩
      · rw [if_neg he]
        refine sorted_cons.2 ⟨fun j hj => ?_, ih hc.2⟩
        rcases mem_keys_insert.1 hj with rfl | hj
        · exact Std.lt_of_le_of_ne (Std.not_lt.1 hlt) he
        · exact hc.1 j hj

theorem sorted_foldl_insert (pairs : List (κ × α)) {table : List (κ × α)} (h : Sorted table) :
    Sorted (pairs.foldl (fun table entry => Table.insert entry.1 entry.2 table) table) := by
  induction pairs generalizing table with
  | nil => exact h
  | cons entry rest ih => exact ih (h.insert entry.1 entry.2)

theorem sorted_ofList (pairs : List (κ × α)) : Sorted (ofList pairs) :=
  sorted_foldl_insert pairs sorted_nil

/-- A sorted table is the table of any list of pairs with distinct keys that holds the same
entries. -/
theorem ofList_eq {pairs table : List (κ × α)} (hn : (keys pairs).Nodup) (ht : Sorted table)
    (h : ∀ k, find? k pairs = find? k table) : ofList pairs = table :=
  (sorted_ofList pairs).ext ht fun k => (find?_ofList hn k).trans (h k)

end Order

end Parley.Table
