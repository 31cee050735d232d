import Parley.Proofs.Onward

/-!
# What a cast that fails leaves behind

A shared record gets its new fields as soon as all of them are cast, and it keeps them when a later
part of the value does not suit. So a failed cast may leave records inside the value changed, but
each of them as a whole.

* `Store.Comes`, `Gives` : a cast comes, at a path, to the cast of the part there, and that one gives
  a record its fields.
* `Store.Passage` : what a cast does to a store, whether it goes through or fails.
* `castPasses` : the passage of every cast, one lemma for each kind of type and one for lists.
* `Comes.sound` : the part that is come to is the one at the path, and so is its type.
* `records_after_failed_cast` : every record is as it was or has the fields of a cast of its own.
-/

namespace Parley.Store

variable {s t u s' s₁ : Store} {c d e c' : Cell} {type type' element : Ty} {p : Path} {id k : Nat}
  {n name : String} {kind : RecordKind} {items : List Cell} {fields all : List (String × Cell)}
  {table : List (String × Ty)} {given given' : Nat → List (String × Cell) → Prop}
  {r : Except TypeMismatch Cell}

/-! ## The casts on the way -/

/-- Casting items one after the other from the store `s` comes to the `k`-th in the store `s'`. -/
inductive ComesItem (element : Ty) : Store → List Cell → Nat → Store → Cell → Prop
  | head {s : Store} {c : Cell} {items : List Cell} : ComesItem element s (c :: items) 0 s c
  | tail {s s₁ s' : Store} {c c' d : Cell} {items : List Cell} {k : Nat}
      (hon : (cast element c).on s = (.ok c', s₁)) (h : ComesItem element s₁ items k s' d) :
      ComesItem element s (c :: items) (k + 1) s' d

/-- Casting the fields of a table one after the other comes to the one of a name, to cast it to its
type. -/
inductive ComesField :
    Store → List (String × Ty) → List (String × Cell) → String → Store → Ty → Cell → Prop
  | head {s : Store} {n : String} {type : Ty} {table : List (String × Ty)}
      {fields : List (String × Cell)} {c : Cell} (hn : Table.find? n fields = some c) :
      ComesField s ((n, type) :: table) fields n s type c
  | tail {s s₁ s' : Store} {m n : String} {first type : Ty} {table : List (String × Ty)}
      {fields : List (String × Cell)} {c d : Cell}
      (hon : (castField m first fields).on s = (.ok c, s₁))
      (h : ComesField s₁ table (Table.erase m fields) n s' type d) :
      ComesField s ((m, first) :: table) fields n s' type d

/-- Casting a cell comes, at the path, to the cast of the cell there to the type there. -/
inductive Comes : Store → Ty → Cell → Path → Store → Ty → Cell → Prop
  | here (s : Store) (type : Ty) (c : Cell) : Comes s type c [] s type c
  | item {s s₁ s' : Store} {element type : Ty} {items : List Cell} {c d : Cell} {k : Nat} {p : Path}
      (hk : ComesItem element s items k s₁ c) (h : Comes s₁ element c p s' type d) :
      Comes s (.array element) (.array items) (.index k :: p) s' type d
  | field {s s₁ s' : Store} {kind : RecordKind} {name n : String} {table : List (String × Ty)}
      {fields : List (String × Cell)} {part type : Ty} {c d e : Cell} {p : Path}
      (hf : s.fields? c = some fields) (hn : ComesField s table fields n s₁ part d)
      (h : Comes s₁ part d p s' type e) :
      Comes s (.record kind name table) c (.name n :: p) s' type e

/-- Casting the cell comes, at the path, to a cast of the record that gives it these fields. -/
def Gives (s : Store) (type : Ty) (c : Cell) (p : Path) (id : Nat)
    (fields : List (String × Cell)) : Prop :=
  ∃ name table s₁ s₂, s.Comes type c p s₁ (.record .reference name table) (.shared id) ∧
    (cast (.record .reference name table) (.shared id)).on s₁ = (.ok (.shared id), s₂) ∧
    s₂.fields id = fields

/-- Casting items comes to a cast of the record that gives it these fields. -/
def GivesItem (s : Store) (element : Ty) (items : List Cell) (id : Nat)
    (fields : List (String × Cell)) : Prop :=
  ∃ k s₁ c p, ComesItem element s items k s₁ c ∧ s₁.Gives element c p id fields

/-- Casting the fields of a table comes to a cast of the record that gives it these fields. -/
def GivesField (s : Store) (table : List (String × Ty)) (given : List (String × Cell)) (id : Nat)
    (fields : List (String × Cell)) : Prop :=
  ∃ n s₁ type c p, ComesField s table given n s₁ type c ∧ s₁.Gives type c p id fields

theorem Gives.head (h : s.Gives element c p id all) : s.GivesItem element (c :: items) id all :=
  ⟨0, s, c, p, .head, h⟩

theorem GivesItem.tail (hon : (cast element c).on s = (.ok c', s₁))
    (h : s₁.GivesItem element items id all) : s.GivesItem element (c :: items) id all := by
  obtain ⟨k, s₂, d, p, hk, hgives⟩ := h
  exact ⟨k + 1, s₂, d, p, .tail hon hk, hgives⟩

theorem GivesField.tail (hon : (castField n type fields).on s = (.ok c, s₁))
    (h : s₁.GivesField table (Table.erase n fields) id all) :
    s.GivesField ((n, type) :: table) fields id all := by
  obtain ⟨m, s₂, type, d, p, hm, hgives⟩ := h
  exact ⟨m, s₂, type, d, p, .tail hon hm, hgives⟩

/-- Casting the cell comes to a cast that gives the record these fields; if casting the cell fails,
that cast is one of a part. -/
def GivesInside (s : Store) (type : Ty) (c : Cell) (r : Except TypeMismatch Cell) (id : Nat)
    (fields : List (String × Cell)) : Prop :=
  ∃ p, (∀ e, r = .error e → p ≠ []) ∧ s.Gives type c p id fields

theorem GivesItem.inside (h : s.GivesItem element items id all) :
    s.GivesInside (.array element) (.array items) r id all := by
  obtain ⟨k, s₁, c, p, hk, name, table, s₂, s₃, hcomes, hon, hfields⟩ := h
  exact ⟨.index k :: p, fun _ _ => List.cons_ne_nil _ p, name, table, s₂, s₃, .item hk hcomes, hon,
    hfields⟩

theorem GivesField.inside (hf : s.fields? c = some fields) (h : s.GivesField table fields id all) :
    s.GivesInside (.record kind name table) c r id all := by
  obtain ⟨n, s₁, type, d, p, hn, name, table, s₂, s₃, hcomes, hon, hfields⟩ := h
  exact ⟨.name n :: p, fun _ _ => List.cons_ne_nil _ p, name, table, s₂, s₃, .field hf hn hcomes,
    hon, hfields⟩

/-! ## What casts do to a store -/

/-- The store goes onward, and a record that was there keeps its fields or has some that it was
given. -/
structure Passage (s t : Store) (given : Nat → List (String × Cell) → Prop) : Prop where
  onward : s.Onward t
  kept : ∀ id < s.records.length, t.fields id = s.fields id ∨ given id (t.fields id)

namespace Passage

theorem refl (s : Store) : s.Passage s given :=
  ⟨.refl s, fun _ _ => Or.inl rfl⟩

theorem mono (h : s.Passage t given) (hg : ∀ id fields, given id fields → given' id fields) :
    s.Passage t given' :=
  ⟨h.onward, fun id hid => (h.kept id hid).imp_right (hg id _)⟩

theorem trans (h : s.Passage t given) (h' : t.Passage u given) : s.Passage u given where
  onward := h.onward.trans h'.onward
  kept id hid := by
    rcases h'.kept id (Nat.lt_of_lt_of_le hid h.onward.length_le) with hsame | hg
    · rw [hsame]
      exact h.kept id hid
    · exact Or.inr hg

theorem append (h : s.Passage t given) (ha : t.records <+: u.records) : s.Passage u given where
  onward := h.onward.trans (onward_of_append ha)
  kept id hid := by
    rw [fields_of_append ha (Nat.lt_of_lt_of_le hid h.onward.length_le)]
    exact h.kept id hid

theorem fails {α : Type} {P : α → Prop} {e : TypeMismatch} (h : s.Passage t given) :
    s.Passage t given ∧ ∀ a, (Except.error e : Except TypeMismatch α) = .ok a → P a :=
  ⟨h, fun _ ha => by cases ha⟩

end Passage

/-- A cast to the type, whether it goes through or fails: the records that change are given their
fields by casts on the way, and if it fails those are casts of parts. What comes out leads to no more
than what went in. -/
def Passes (type : Ty) : Prop :=
  ∀ s c r t, s.Stored c → (cast type c).on s = (r, t) →
    s.Passage t (s.GivesInside type c r) ∧ ∀ c', r = .ok c' → s.Leads c [] t c'

theorem passes_scalar (st : ScalarTy) : Passes (.scalar st) := by
  intro s c r t hs hon
  cases c with
  | scalar v =>
    rw [cast] at hon
    cases hv : v.cast? st with
    | none =>
      rw [hv] at hon
      cases hon
      exact (Passage.refl _).fails
    | some w =>
      rw [hv] at hon
      cases hon
      refine ⟨.refl _, ?_⟩
      rintro _ ⟨⟩
      exact .scalar w
  | array items | record fields | shared id =>
    cases hon
    exact (Passage.refl _).fails

theorem passes_items (h : Passes element) {r : Except TypeMismatch (List Cell)}
    (hs : ∀ c ∈ items, s.Stored c) (hon : Casting.on (items.mapM (cast element)) s = (r, t)) :
    s.Passage t (s.GivesItem element items) ∧
    ∀ items', r = .ok items' → ∀ (k : Nat) c', items'[k]? = some c' →
      ∃ c, items[k]? = some c ∧ s.Leads c [] t c' := by
  induction items generalizing s r with
  | nil =>
    cases hon
    refine ⟨.refl _, ?_⟩
    rintro _ ⟨⟩ k c' ⟨⟩
  | cons c items ih =>
    obtain ⟨hc, hs⟩ := List.forall_mem_cons.1 hs
    rw [List.mapM_cons] at hon
    rcases Casting.on_bind_cases hon with ⟨e, hcast, rfl⟩ | ⟨c₁, s₁, hcast, hon⟩
    · have hpass := (h s c _ t hc hcast).1
      exact (hpass.mono fun _ _ ⟨_, _, hgives⟩ => hgives.head).fails
    · obtain ⟨hpass, hleads⟩ := h s c _ s₁ hc hcast
      have hfirst : s.Passage s₁ (s.GivesItem element (c :: items)) :=
        hpass.mono fun _ _ ⟨_, _, hgives⟩ => hgives.head
      have hstored : ∀ d ∈ items, s₁.Stored d := fun d hd => hpass.onward.stored (hs d hd)
      rcases Casting.on_bind_cases hon with ⟨e, hrest, rfl⟩ | ⟨items₁, s₂, hrest, hon⟩
      · exact (hfirst.trans ((ih hstored hrest).1.mono fun _ _ => .tail hcast)).fails
      · cases hon
        obtain ⟨hpass', hleads'⟩ := ih hstored hrest
        refine ⟨hfirst.trans (hpass'.mono fun _ _ => .tail hcast), ?_⟩
        rintro _ ⟨⟩ k c' hk
        cases k with
        | zero =>
          cases hk
          exact ⟨c, rfl, (hleads _ rfl).onward hpass.onward.length_le hpass'.onward⟩
        | succ k =>
          obtain ⟨d, hd, hl⟩ := hleads' items₁ rfl k c' hk
          have hd' := hs d (List.mem_of_getElem? hd)
          exact ⟨d, hd, (hpass.onward.leads d hd').trans hl hpass.onward.length_le⟩

theorem passes_array (h : Passes element) : Passes (.array element) := by
  intro s c r t hs hon
  cases c with
  | scalar v | record fields | shared id =>
    cases hon
    exact (Passage.refl _).fails
  | array items =>
    have hstored : ∀ c ∈ items, s.Stored c := fun c hc => hs.item hc
    rw [cast] at hon
    rcases Casting.on_bind_cases hon with ⟨e, hitems, rfl⟩ | ⟨items', s₁, hitems, hon⟩
    · exact ((passes_items h hstored hitems).1.mono fun _ _ => GivesItem.inside).fails
    · cases hon
      obtain ⟨hpass, hleads⟩ := passes_items h hstored hitems
      refine ⟨hpass.mono fun _ _ => GivesItem.inside, ?_⟩
      rintro _ ⟨⟩
      refine .array fun k e hk => ?_
      obtain ⟨c, hc, hl⟩ := hleads items' rfl k e hk
      exact hl.of_member (member_index_eq_ok.2 ⟨items, k, rfl, rfl, hc⟩)

/-- What becomes of the name of a table: a cast of the field, or new records. -/
theorem passes_castField (table : List (String × Ty)) (h : Passes type)
    (hs : ∀ d, Table.find? n fields = some d → s.Stored d)
    (hon : (castField n type fields).on s = (r, t)) :
    s.Passage t (s.GivesField ((n, type) :: table) fields) ∧
    ∀ c', r = .ok c' → s.Leads (.record fields) [.name n] t c' := by
  rw [castField] at hon
  cases hf : Table.find? n fields with
  | some d =>
    rw [hf] at hon
    obtain ⟨hpass, hleads⟩ := h s d r t (hs d hf) hon
    refine ⟨hpass.mono ?_, fun c' hc' => ?_⟩
    · rintro id all ⟨p, -, hgives⟩
      exact ⟨n, s, type, d, p, .head hf, hgives⟩
    · exact (hleads c' hc').of_member (member_name_eq_ok.2 ⟨fields, rfl, hf⟩)
  | none =>
    rw [hf] at hon
    rcases hload : (load type.default).run s with ⟨c, s₁⟩
    have hlift : (monadLift (load type.default) : Casting Cell).on s = (.ok c, s₁) :=
      congrArg (fun r => (Except.ok r.1, r.2)) hload
    cases hlift.symm.trans hon
    obtain ⟨happend, hnew⟩ := loadsNew_default type s c _ hload
    refine ⟨(Passage.refl s).append happend, ?_⟩
    rintro _ ⟨⟩
    exact hnew.of_scalar (Nat.le_refl _)

theorem passes_castFields (h : ∀ f ∈ table, Passes f.2)
    {r : Except TypeMismatch (List (String × Cell) × List (String × Cell))}
    (hs : ∀ m d, Table.find? m fields = some d → s.Stored d)
    (hon : (castFields table fields).on s = (r, t)) :
    s.Passage t (s.GivesField table fields) ∧
    ∀ out, r = .ok out → ∀ e ∈ out.1, s.Leads (.record fields) [.name e.1] t e.2 := by
  induction table generalizing s fields r with
  | nil =>
    cases hon
    refine ⟨.refl _, ?_⟩
    rintro _ ⟨⟩ e he
    cases he
  | cons f table ih =>
    obtain ⟨m, first⟩ := f
    obtain ⟨hfirst, h⟩ := List.forall_mem_cons.1 h
    rw [castFields_cons] at hon
    rcases Casting.on_bind_cases hon with ⟨e, hfield, rfl⟩ | ⟨c₁, s₁, hfield, hon⟩
    · exact (passes_castField table hfirst (hs m) hfield).1.fails
    · obtain ⟨hpass, hleads⟩ := passes_castField table hfirst (hs m) hfield
      have hstored (n : String) (d : Cell) (hn : Table.find? n (Table.erase m fields) = some d) :
          s₁.Stored d := hpass.onward.stored (hs n d (Table.find?_erase_eq_some.1 hn).2)
      rcases Casting.on_bind_cases hon with ⟨e, hrest, rfl⟩ | ⟨⟨done, rest⟩, s₂, hrest, hon⟩
      · exact (hpass.trans ((ih h hstored hrest).1.mono fun _ _ => .tail hfield)).fails
      · cases hon
        obtain ⟨hpass', hleads'⟩ := ih h hstored hrest
        refine ⟨hpass.trans (hpass'.mono fun _ _ => .tail hfield), ?_⟩
        rintro _ ⟨⟩
        refine List.forall_mem_cons.2
          ⟨(hleads _ rfl).onward hpass.onward.length_le hpass'.onward, fun e he => ?_⟩
        -- what a later field leads to, its field led to when the first one was cast, and so before
        intro q id hq
        obtain ⟨hlt, hback⟩ := hleads' _ rfl e he q id hq
        refine ⟨hlt, fun hid => ?_⟩
        obtain ⟨d, hd, hpath⟩ := get_cons_eq_ok.1
          (hback (Nat.lt_of_lt_of_le hid hpass.onward.length_le))
        obtain ⟨_, ⟨⟩, hn⟩ := member_name_eq_ok.1 hd
        obtain ⟨-, hn⟩ := Table.find?_erase_eq_some.1 hn
        exact get_cons_eq_ok.2 ⟨d, member_name_eq_ok.2 ⟨fields, rfl, hn⟩,
          (hpass.onward.leads d (hs _ d hn) q id hpath).2 hid⟩

/-- The record that is handed out once its fields are cast; the one that was given gets them. -/
theorem passes_deliver (hs : s.Stored c)
    (hc : ∃ fields, s.fields? c = some fields) (hpass : s.Passage s₁ given)
    (hleads : ∀ n e, Table.find? n fields = some e → s.Leads c [.name n] s₁ e)
    (hon : (deliver kind c fields).on s₁ = (r, t)) :
    s.Passage t (fun id all => given id all ∨
      kind = .reference ∧ c = .shared id ∧ r = .ok c ∧ t.fields id = all) ∧
    ∃ c', r = .ok c' ∧ s.Leads c [] t c' := by
  cases kind with
  | value =>
    cases hon
    exact ⟨hpass.mono fun _ _ => Or.inl, _, rfl, .record hleads⟩
  | reference =>
    cases c with
    | scalar v => obtain ⟨_, ⟨⟩⟩ := hc
    | array items => obtain ⟨_, ⟨⟩⟩ := hc
    | record fields' =>
      cases hon
      exact ⟨(hpass.mono fun _ _ => Or.inl).append (append_allocate s₁ fields), _, rfl,
        .allocate hpass.onward.length_le hleads⟩
    | shared id =>
      cases hon
      have hid : id < s.records.length := hs id ⟨[], rfl⟩
      have honward := hpass.onward.write hid hleads
      refine ⟨⟨honward, fun j hj => ?_⟩, _, rfl, honward.leads _ hs⟩
      by_cases hij : j = id
      · subst hij
        exact Or.inr (Or.inr ⟨rfl, rfl, rfl, rfl⟩)
      · rw [fields_write_ne hij]
        exact (hpass.kept j hj).imp_right Or.inl

theorem passes_record (h : ∀ f ∈ table, Passes f.2) : Passes (.record kind name table) := by
  intro s c r t hs hon
  cases hf : s.fields? c with
  | none =>
    rw [cast, Casting.on_read_bind, hf] at hon
    cases hon
    exact (Passage.refl _).fails
  | some fields =>
    have hwhole := hon
    have hstored (m : String) (d : Cell) (hm : Table.find? m fields = some d) : s.Stored d :=
      hs.field hf hm
    rw [on_cast_record hf] at hon
    rcases Casting.on_bind_cases hon with ⟨e, hfields, rfl⟩ | ⟨⟨done, rest⟩, s₁, hfields, hon⟩
    · exact ((passes_castFields h hstored hfields).1.mono fun _ _ => GivesField.inside hf).fails
    · obtain ⟨hpass, hleads⟩ := passes_castFields h hstored hfields
      cases rest with
      | cons e rest =>
        cases hon
        exact (hpass.mono fun _ _ => GivesField.inside hf).fails
      | nil =>
        have hparts (n : String) (e : Cell) (hn : Table.find? n (Table.ofList done) = some e) :
            s.Leads c [.name n] s₁ e :=
          (hleads _ rfl (n, e) (Table.mem_of_mem_ofList (Table.mem_of_find? hn))).of_record hf
        obtain ⟨hpass', c', rfl, hl⟩ := passes_deliver hs ⟨fields, hf⟩ hpass hparts hon
        refine ⟨hpass'.mono ?_, fun _ he => Except.ok.inj he ▸ hl⟩
        rintro id all (hgives | ⟨rfl, rfl, hout, hall⟩)
        · exact hgives.inside hf
        · refine ⟨[], ?_, name, table, s, t, .here .., hout ▸ hwhole, hall⟩
          rintro e ⟨⟩

theorem castPasses (type : Ty) : Passes type := by
  induction type using Ty.parts with
  | scalar st => exact passes_scalar st
  | array element ih => exact passes_array ih
  | record kind name table ih => exact passes_record ih

/-! ## Where the casts on the way are made -/

theorem ComesItem.sound (h : ComesItem element s items k s' d) (hs : ∀ c ∈ items, s.Stored c) :
    items[k]? = some d ∧ s.Onward s' := by
  induction h with
  | head => exact ⟨rfl, .refl _⟩
  | tail hon _ ih =>
    obtain ⟨hc, hs⟩ := List.forall_mem_cons.1 hs
    have hpass := (castPasses element _ _ _ _ hc hon).1
    obtain ⟨hk, honward⟩ := ih fun d hd => hpass.onward.stored (hs d hd)
    exact ⟨hk, hpass.onward.trans honward⟩

theorem ComesField.sound (h : ComesField s table fields n s' type d)
    (hs : ∀ m d, Table.find? m fields = some d → s.Stored d) :
    Table.find? n table = some type ∧ Table.find? n fields = some d ∧ s.Onward s' := by
  induction h with
  | head hn => exact ⟨if_pos rfl, hn, .refl _⟩
  | @tail s s₁ s' m n first type table fields c d hon _ ih =>
    have hpass := (passes_castField table (castPasses first) (hs m) hon).1
    obtain ⟨ht, hd, honward⟩ := ih fun n d hn =>
      hpass.onward.stored (hs n d (Table.find?_erase_eq_some.1 hn).2)
    obtain ⟨hne, hd⟩ := Table.find?_erase_eq_some.1 hd
    exact ⟨(if_neg hne).trans ht, hd, hpass.onward.trans honward⟩

/-- The cast that is come to is one to the type at the path. -/
theorem Comes.sound (h : s.Comes type c p s' type' d) (hs : s.Stored c) :
    type.follow p = .ok type' ∧ s.records.length ≤ s'.records.length ∧ s.Leads c p s' d := by
  induction h with
  | here s type c => exact ⟨rfl, Nat.le_refl _, .refl hs⟩
  | @item s s₁ s' element type items c d k p hk _ ih =>
    obtain ⟨hget, honward⟩ := hk.sound fun c hc => hs.item hc
    have hc := hs.item (List.mem_of_getElem? hget)
    obtain ⟨hfollow, hlen, hleads⟩ := ih (honward.stored hc)
    refine ⟨Ty.follow_cons.2 ⟨element, rfl, hfollow⟩, Nat.le_trans honward.length_le hlen, ?_⟩
    exact ((honward.leads c hc).trans hleads honward.length_le).of_member
      (member_index_eq_ok.2 ⟨items, k, rfl, rfl, hget⟩)
  | @field s s₁ s' kind name n table fields part type c d e p hf hn _ ih =>
    obtain ⟨htable, hget, honward⟩ := hn.sound fun m d hm => hs.field hf hm
    have hd := hs.field hf hget
    obtain ⟨hfollow, hlen, hleads⟩ := ih (honward.stored hd)
    refine ⟨Ty.follow_cons.2 ⟨part, Ty.step_name_eq_ok.2 ⟨kind, name, table, rfl, htable⟩,
      hfollow⟩, Nat.le_trans honward.length_le hlen, ?_⟩
    exact ((honward.leads d hd).trans hleads honward.length_le).of_member
      (member_name_eq_ok.2 ⟨fields, hf, hget⟩)

/-- The record that a cast gives its fields is the one at the path, and the type there is the one of
a shared record. -/
theorem Gives.at_path (h : s.Gives type c p id fields) (hs : s.Stored c)
    (hid : id < s.records.length) :
    s.get c p = .ok (.shared id) ∧
      ∃ name table, type.follow p = .ok (.record .reference name table) := by
  obtain ⟨name, table, s₁, s₂, hcomes, -, -⟩ := h
  obtain ⟨hfollow, -, hleads⟩ := hcomes.sound hs
  have hget := (hleads [] id rfl).2 hid
  rw [List.append_nil] at hget
  exact ⟨hget, name, table, hfollow⟩

/-! ## Casts that fail -/

/-- A failed cast leaves each record as it was or, strictly inside the value and where the type has
a shared record, with the fields of a cast of this record that had gone through. -/
theorem records_after_failed_cast {why : TypeMismatch} (hs : s.Stored c)
    (h : (cast type c).on s = (.error why, t)) :
    (∀ id < s.records.length, t.fields id = s.fields id ∨
      ∃ p name table s₁ s₂, p ≠ [] ∧ s.get c p = .ok (.shared id) ∧
        type.follow p = .ok (.record .reference name table) ∧
        s.Comes type c p s₁ (.record .reference name table) (.shared id) ∧
        (cast (.record .reference name table) (.shared id)).on s₁ = (.ok (.shared id), s₂) ∧
        t.fields id = s₂.fields id) ∧
      (∀ id, c = .shared id → s.Acyclic c → t.fields id = s.fields id) ∧
      ((∀ p name table, p ≠ [] → type.follow p ≠ .ok (.record .reference name table)) →
        ∀ id < s.records.length, t.fields id = s.fields id) := by
  have hkept (id : Nat) (hid : id < s.records.length) : t.fields id = s.fields id ∨
      ∃ p, p ≠ [] ∧ s.Gives type c p id (t.fields id) := by
    rcases (castPasses type s c _ t hs h).1.kept id hid with hsame | ⟨p, hp, hgives⟩
    · exact Or.inl hsame
    · exact Or.inr ⟨p, hp why rfl, hgives⟩
  refine ⟨fun id hid => (hkept id hid).imp_right ?_, ?_, fun hnone id hid => ?_⟩
  · rintro ⟨p, hp, hgives⟩
    have hget := (hgives.at_path hs hid).1
    obtain ⟨name, table, s₁, s₂, hcomes, hon, hfields⟩ := hgives
    exact ⟨p, name, table, s₁, s₂, hp, hget, (hcomes.sound hs).1, hcomes, hon, hfields.symm⟩
  · rintro id rfl hacyclic
    have hid : id < s.records.length := hs id ⟨[], rfl⟩
    rcases hkept id hid with hsame | ⟨p, hp, hgives⟩
    · exact hsame
    · exact absurd (hacyclic id p ⟨[], rfl⟩ (hgives.at_path hs hid).1) hp
  · rcases hkept id hid with hsame | ⟨p, hp, hgives⟩
    · exact hsame
    · obtain ⟨-, name, table, hfollow⟩ := hgives.at_path hs hid
      exact absurd hfollow (hnone p name table hp)

/-! ## A crew with a name -/

/-- A shared record without fields, and one that holds it beside a post that is no number. -/
def crew : Store :=
  ⟨[[], [("name", .shared 0), ("post", .scalar (.bool true))]]⟩

/-- What the crew is to be cast to. -/
def crewType : Ty :=
  .record .reference "Crew"
    [("name", .record .reference "Name" [("first", .string)]), ("post", .int .i32)]

/-- A type without shared records inside. -/
def badgeType : Ty :=
  .record .reference "Badge" [("post", .int .i32)]

theorem follow_badgeType (hp : p ≠ []) :
    badgeType.follow p ≠ .ok (.record .reference name table) := by
  intro hfollow
  cases p with
  | nil => exact hp rfl
  | cons step p =>
    obtain ⟨u, hu, hfollow⟩ := Ty.follow_cons.1 hfollow
    cases step with
    | index i => cases hu
    | name n =>
      obtain ⟨_, _, _, ⟨⟩, hn⟩ := Ty.step_name_eq_ok.1 hu
      cases List.mem_singleton.1 (Table.mem_of_find? hn)
      cases p with
      | nil => cases hfollow
      | cons step p => cases step <;> cases hfollow

theorem get_crew (h : crew.get (.shared 1) p = .ok (.shared id)) :
    (p = [] ∧ id = 1) ∨ (p = [.name "name"] ∧ id = 0) := by
  cases p with
  | nil =>
    cases h
    exact Or.inl ⟨rfl, rfl⟩
  | cons step p =>
    obtain ⟨d, hd, h⟩ := get_cons_eq_ok.1 h
    cases step with
    | index i => cases hd
    | name n =>
      obtain ⟨_, ⟨⟩, hn⟩ := member_name_eq_ok.1 hd
      rcases List.mem_pair.1 (Table.mem_of_find? hn) with ⟨⟨⟩⟩ | ⟨⟨⟩⟩
      · cases p with
        | nil =>
          cases h
          exact Or.inr ⟨rfl, rfl⟩
        | cons step p => cases step <;> cases h
      · cases get_of_scalar h

theorem stored_crew : crew.Stored (.shared 1) := by
  rintro id ⟨p, hp⟩
  rcases get_crew hp with ⟨-, rfl⟩ | ⟨-, rfl⟩ <;> decide

theorem acyclic_crew : crew.Acyclic (.shared 1) := by
  refine Unshared.acyclic fun p q id hp hq => ?_
  rcases get_crew hp with ⟨rfl, rfl⟩ | ⟨rfl, rfl⟩
  · rcases get_crew hq with ⟨rfl, -⟩ | ⟨-, ⟨⟩⟩
    rfl
  · rcases get_crew hq with ⟨-, ⟨⟩⟩ | ⟨rfl, -⟩
    rfl

/-- The crew once its name is cast. -/
def namedCrew : Store :=
  ⟨[[("first", .scalar (.string ""))], [("name", .shared 0), ("post", .scalar (.bool true))]]⟩

theorem on_cast_crew : (cast crewType (.shared 1)).on crew =
    (.error (.unsuited (.scalar (.bool true)) (.int .i32)), namedCrew) :=
  rfl

/-- The post does not suit, but the name was cast before it: its record has the missing field, and
the one of the crew is as it was. -/
theorem records_after_failed_cast_crew :
    crew.Stored (.shared 1) ∧ crew.Acyclic (.shared 1) ∧
      (cast crewType (.shared 1)).on crew =
        (.error (.unsuited (.scalar (.bool true)) (.int .i32)), namedCrew) ∧
      namedCrew.fields 1 = crew.fields 1 ∧
      (∃ p name table s₁ s₂, p ≠ [] ∧ crew.get (.shared 1) p = .ok (.shared 0) ∧
        crewType.follow p = .ok (.record .reference name table) ∧
        crew.Comes crewType (.shared 1) p s₁ (.record .reference name table) (.shared 0) ∧
        (cast (.record .reference name table) (.shared 0)).on s₁ = (.ok (.shared 0), s₂) ∧
        namedCrew.fields 0 = s₂.fields 0) ∧
      ∃ why t, (cast badgeType (.shared 1)).on crew = (.error why, t) ∧
        ∀ id < crew.records.length, t.fields id = crew.fields id := by
  obtain ⟨hkept, hself, -⟩ := records_after_failed_cast stored_crew on_cast_crew
  refine ⟨stored_crew, acyclic_crew, on_cast_crew, hself 1 rfl acyclic_crew, ?_, _, _, rfl,
    (records_after_failed_cast stored_crew rfl).2.2 fun _ _ _ => follow_badgeType⟩
  rcases hkept 0 (by decide) with hsame | hcast
  · cases hsame
  · exact hcast

/-- A failed cast may change a record. -/
theorem exists_record_changed_by_failed_cast :
    ∃ s t : Store, ∃ c type why id, s.Stored c ∧ s.Acyclic c ∧ s.Reaches c id ∧
      (cast type c).on s = (.error why, t) ∧ t.fields id ≠ s.fields id :=
  ⟨crew, namedCrew, .shared 1, crewType, _, 0, stored_crew, acyclic_crew, ⟨[.name "name"], rfl⟩,
    on_cast_crew, nofun⟩

end Parley.Store
