import Mathlib.Data.List.Forall2
import Parley.Wire.Reader

/-!
# Computations that may fail

What a chain of fallible steps yields, for plain results and for readers.

* `bind_eq_ok` : a chain goes through when its first step does and what follows does.
* `mapM_eq_ok` : a list is computed item by item.
* `Reader.run_bind`, `Reader.run_lift`, `Reader.run_mapM_cons` : running the parts of a reader one
  after the other; `Reader.of_run_bind` : what each part did.
-/

namespace Parley

theorem exists_mem_of_forall₂ {α β : Type} {R : α → β → Prop} {as : List α} {bs : List β}
    (h : List.Forall₂ R as bs) {a : α} (ha : a ∈ as) : ∃ b ∈ bs, R a b := by
  induction h with
  | nil => cases ha
  | cons hr _ ih =>
    rcases List.mem_cons.1 ha with rfl | ha
    · exact ⟨_, List.mem_cons_self, hr⟩
    · obtain ⟨b, hb, hr⟩ := ih ha
      exact ⟨b, List.mem_cons_of_mem _ hb, hr⟩

section Except

variable {ε ε' α β : Type}

theorem bind_eq_ok {x : Except ε α} {f : α → Except ε β} {b : β} :
    (x >>= f) = .ok b ↔ ∃ a, x = .ok a ∧ f a = .ok b := by
  cases x with
  | error e =>
    constructor
    · intro h
      cases h
    · rintro ⟨_, h, _⟩
      cases h
  | ok a =>
    constructor
    · intro h
      exact ⟨a, rfl, h⟩
    · rintro ⟨_, ha, h⟩
      cases ha
      exact h

theorem bind_of_ok {x : Except ε α} {a : α} (h : x = .ok a) (f : α → Except ε β) :
    (x >>= f) = f a := by
  rw [h]
  rfl

theorem map_eq_ok {x : Except ε α} {f : α → β} {b : β} :
    x.map f = .ok b ↔ ∃ a, x = .ok a ∧ f a = b := by
  cases x with
  | error e => constructor <;> rintro ⟨_, ⟨⟩, _⟩
  | ok a =>
    constructor
    · rintro ⟨⟩
      exact ⟨a, rfl, rfl⟩
    · rintro ⟨_, ⟨⟩, rfl⟩
      rfl

theorem toOption_eq_some {x : Except ε α} {a : α} : x.toOption = some a ↔ x = .ok a := by
  cases x with
  | error e => constructor <;> rintro ⟨⟩
  | ok b => exact ⟨fun h => congrArg Except.ok (Option.some.inj h), fun h => h ▸ rfl⟩

theorem toOption_bind (x : Except ε α) (f : α → Except ε β) :
    (x >>= f).toOption = x.toOption.bind fun a => (f a).toOption := by
  cases x <;> rfl

theorem mapError_eq_ok {x : Except ε α} {f : ε → ε'} {a : α} :
    x.mapError f = .ok a ↔ x = .ok a := by
  cases x with
  | error e => constructor <;> rintro ⟨⟩
  | ok b => constructor <;> rintro ⟨⟩ <;> rfl

theorem mapM_cons_eq_ok {f : α → Except ε β} {a : α} {as : List α} {bs : List β} :
    (a :: as).mapM f = .ok bs ↔ ∃ b rest, f a = .ok b ∧ as.mapM f = .ok rest ∧ bs = b :: rest := by
  rw [List.mapM_cons]
  constructor
  · intro h
    obtain ⟨b, hb, h⟩ := bind_eq_ok.1 h
    obtain ⟨rest, hr, h⟩ := bind_eq_ok.1 h
    exact ⟨b, rest, hb, hr, (Except.ok.inj h).symm⟩
  · rintro ⟨b, rest, hb, hr, rfl⟩
    exact bind_eq_ok.2 ⟨b, hb, bind_eq_ok.2 ⟨rest, hr, rfl⟩⟩

theorem mapM_eq_ok {f : α → Except ε β} {as : List α} {bs : List β} :
    as.mapM f = .ok bs ↔ List.Forall₂ (fun a b => f a = .ok b) as bs := by
  induction as generalizing bs with
  | nil =>
    constructor
    · rintro ⟨⟩
      exact .nil
    · rintro ⟨⟩
      rfl
  | cons a as ih =>
    rw [mapM_cons_eq_ok]
    constructor
    · rintro ⟨b, rest, hb, hrest, rfl⟩
      exact .cons hb (ih.1 hrest)
    · rintro (_ | ⟨hb, hrest⟩)
      exact ⟨_, _, hb, ih.2 hrest, rfl⟩

/-- A function that undoes another one item by item. -/
theorem mapM_map_eq_ok {f : β → Except ε α} {g : α → β} {as : List α}
    (h : ∀ a ∈ as, f (g a) = .ok a) : (as.map g).mapM f = .ok as := by
  induction as with
  | nil => rfl
  | cons a as ih =>
    exact mapM_cons_eq_ok.2 ⟨a, as, h a List.mem_cons_self,
      ih fun x hx => h x (List.mem_cons_of_mem _ hx), rfl⟩

/-- A function that can be undone item by item. -/
theorem exists_mapM {f : α → Except ε β} {g : β → α} {as : List α}
    (h : ∀ a ∈ as, ∃ b, f a = .ok b ∧ g b = a) : ∃ bs, as.mapM f = .ok bs ∧ bs.map g = as := by
  induction as with
  | nil => exact ⟨[], rfl, rfl⟩
  | cons a as ih =>
    obtain ⟨b, hb, hg⟩ := h a List.mem_cons_self
    obtain ⟨bs, hbs, hgs⟩ := ih fun x hx => h x (List.mem_cons_of_mem _ hx)
    refine ⟨b :: bs, mapM_cons_eq_ok.2 ⟨b, bs, hb, hbs, rfl⟩, ?_⟩
    rw [List.map_cons, hg, hgs]

end Except

namespace Reader

variable {α β : Type} {c c' c'' : Cursor}

theorem run_pure (a : α) (c : Cursor) : Reader.run (pure a) c = (.ok a, c) := rfl

theorem run_throw (e : Error) (c : Cursor) : Reader.run (throw e : Reader α) c = (.error e, c) :=
  rfl

theorem run_cursor (c : Cursor) : Reader.run cursor c = (.ok c, c) := rfl

theorem run_lift (x : Except Error α) (c : Cursor) :
    Reader.run (liftM x : Reader α) c = (x, c) := rfl

theorem run_bind {x : Reader α} {a : α} (h : x.run c = (.ok a, c')) (f : α → Reader β) :
    Reader.run (x >>= f) c = (f a).run c' := by
  unfold Reader.run at h ⊢
  rw [ExceptT.run_bind, StateT.run_bind, h]
  rfl

theorem run_bind_error {x : Reader α} {e : Error} (h : x.run c = (.error e, c'))
    (f : α → Reader β) : Reader.run (x >>= f) c = (.error e, c') := by
  unfold Reader.run at h ⊢
  rw [ExceptT.run_bind, StateT.run_bind, h]
  rfl

theorem of_run_bind {x : Reader α} {f : α → Reader β} {b : β}
    (h : Reader.run (x >>= f) c = (.ok b, c'')) :
    ∃ a c', x.run c = (.ok a, c') ∧ (f a).run c' = (.ok b, c'') := by
  cases hx : x.run c with
  | mk read c' =>
    cases read with
    | ok a => exact ⟨a, c', rfl, (run_bind hx f).symm.trans h⟩
    | error e =>
      rw [run_bind_error hx] at h
      cases h

theorem run_bind_lift {x : Except Error α} {a : α} (h : x = .ok a) (f : α → Reader β)
    (c : Cursor) : Reader.run (liftM x >>= f) c = (f a).run c :=
  run_bind (by rw [run_lift, h]) f

theorem run_mapM_cons {f : α → Reader β} {a : α} {as : List α} {b : β} {bs : List β}
    (h : (f a).run c = (.ok b, c')) (hs : Reader.run (as.mapM f) c' = (.ok bs, c'')) :
    Reader.run ((a :: as).mapM f) c = (.ok (b :: bs), c'') := by
  rw [List.mapM_cons, run_bind h, run_bind hs, run_pure]

end Reader

end Parley
