import Parley.Proofs.Cells

/-!
# What a store holds

A cell stands for a value along the cell itself: nothing but the records that are passed on the way
matters, and they are listed. Whatever leaves these records alone leaves the value alone.

* `Store.Holds` : a cell stands for a value in some records.
* `Holds.frame` : the same in every store that has these records as they are.
* `Holds.snapshot_eq` : the value is the tree of the cell if no record is passed twice.
* `Holds.take`, `Holds.exists_ofList` : one field apart from the others, and fields in name order.
* `Tidy.exists_holds` : a cell that reaches no record by two paths stands for its tree.
* `Store.Moves` : what a computation does to the records it was given and to the others;
  `Moves.andThen` : one after the other.
-/

namespace Parley

namespace Table

variable {κ α : Type} [DecidableEq κ] {k j : κ} {a : α} {table : List (κ × α)}

theorem erase_eq_self (h : k ∉ keys table) : erase k table = table :=
  List.filter_eq_self.2 fun _ he => decide_eq_true fun hk => h (hk ▸ List.mem_map_of_mem he)

theorem erase_cons_self (h : k ∉ keys table) : erase k ((k, a) :: table) = table := by
  rw [erase, List.filter_cons_of_neg (by simp)]
  exact erase_eq_self h

theorem erase_cons_ne (h : j ≠ k) : erase k ((j, a) :: table) = (j, a) :: erase k table :=
  List.filter_cons_of_pos (by simpa using h)

end Table

namespace Store

variable {s t u : Store} {c d : Cell} {v w : Value} {ids ids' more more' : List Nat} {id : Nat}
  {n : String} {items : List Cell} {fields : List (String × Cell)} {vs : List Value} {ws : Fields}

/-- The cell stands for the value, and the records that are passed on the way are the listed ones,
each as often as it is passed. -/
inductive Holds (s : Store) : Cell → Value → List Nat → Prop
  | scalar (v : Scalar) : Holds s (.scalar v) (.scalar v) []
  | nil : Holds s (.array []) (.array []) []
  | cons {c : Cell} {v : Value} {items : List Cell} {vs : List Value} {ids more : List Nat}
      (hc : Holds s c v ids) (h : Holds s (.array items) (.array vs) more) :
      Holds s (.array (c :: items)) (.array (v :: vs)) (ids ++ more)
  | bare : Holds s (.record []) (.record .value []) []
  | field {n : String} {c : Cell} {v : Value} {fields : List (String × Cell)} {ws : Fields}
      {ids more : List Nat} (hn : n ∉ Table.keys fields) (hc : Holds s c v ids)
      (h : Holds s (.record fields) (.record .value ws) more) :
      Holds s (.record ((n, c) :: fields)) (.record .value ((n, v) :: ws)) (ids ++ more)
  | shared {id : Nat} {ws : Fields} {ids : List Nat} (hid : id < s.records.length)
      (h : Holds s (.record (s.fields id)) (.record .value ws) ids) :
      Holds s (.shared id) (.record .reference ws) (id :: ids)

namespace Holds

theorem lt_of_mem (h : s.Holds c v ids) : ∀ id ∈ ids, id < s.records.length := by
  induction h with
  | scalar | nil | bare => exact fun _ hid => absurd hid List.not_mem_nil
  | cons _ _ ih ih' | field _ _ _ ih ih' =>
    exact fun id hid => (List.mem_append.1 hid).elim (ih id) (ih' id)
  | shared hid _ ih => exact List.forall_mem_cons.2 ⟨hid, ih⟩

/-- What a cell stands for depends on the records that are passed and on no others. -/
theorem frame (h : s.Holds c v ids) (hlen : s.records.length ≤ t.records.length)
    (hsame : ∀ id ∈ ids, t.fields id = s.fields id) : t.Holds c v ids := by
  induction h with
  | scalar v => exact .scalar v
  | nil => exact .nil
  | bare => exact .bare
  | cons _ _ ih ih' =>
    exact .cons (ih fun id hid => hsame id (List.mem_append_left _ hid))
      (ih' fun id hid => hsame id (List.mem_append_right _ hid))
  | field hn _ _ ih ih' =>
    exact .field hn (ih fun id hid => hsame id (List.mem_append_left _ hid))
      (ih' fun id hid => hsame id (List.mem_append_right _ hid))
  | shared hid _ ih =>
    obtain ⟨hfields, hrest⟩ := List.forall_mem_cons.1 hsame
    refine .shared (Nat.lt_of_lt_of_le hid hlen) ?_
    rw [hfields]
    exact ih hrest

theorem exists_record (h : s.Holds (.record fields) v ids) : ∃ ws, v = .record .value ws := by
  cases h <;> exact ⟨_, rfl⟩

theorem exists_array (h : s.Holds c (.array vs) ids) : ∃ items, c = .array items := by
  cases h <;> exact ⟨_, rfl⟩

theorem keys_eq (h : s.Holds (.record fields) (.record .value ws) ids) :
    Table.keys ws = Table.keys fields := by
  induction fields generalizing ws ids with
  | nil =>
    cases h
    rfl
  | cons e fields ih =>
    cases h with
    | field hn hc h => exact congrArg (_ :: ·) (ih h)

theorem exists_item (h : s.Holds (.array items) (.array vs) ids) :
    ∀ c ∈ items, ∃ v ∈ vs, ∃ given, s.Holds c v given := by
  induction items generalizing vs ids with
  | nil => exact fun _ hc => absurd hc List.not_mem_nil
  | cons d items ih =>
    cases h with
    | cons hd h =>
      refine List.forall_mem_cons.2 ⟨⟨_, List.mem_cons_self, _, hd⟩, fun c hc => ?_⟩
      obtain ⟨v, hv, given, hgiven⟩ := ih h c hc
      exact ⟨v, List.mem_cons_of_mem _ hv, given, hgiven⟩

/-! ## The tree of a cell -/

/-- A record is passed at every level, so trees need not be followed deeper than there are records
on the way. -/
theorem tree_eq (h : s.Holds c v ids) {n : Nat} (hn : ids.length ≤ n) :
    tree (s.recordTree n) c = v := by
  induction h generalizing n with
  | scalar v => rfl
  | nil => rfl
  | bare => rfl
  | cons _ _ ih ih' =>
    rw [List.length_append] at hn
    have hrest := Value.array.inj (ih' (n := n) (by omega))
    rw [tree, trees, ih (by omega), hrest]
  | field _ _ _ ih ih' =>
    rw [List.length_append] at hn
    have hrest := (Value.record.inj (ih' (n := n) (by omega))).2
    rw [tree, fieldTrees, ih (by omega), hrest]
  | shared _ _ ih =>
    obtain ⟨n, rfl⟩ : ∃ k, n = k + 1 := ⟨n - 1, by rw [List.length_cons] at hn; omega⟩
    have hrest := (Value.record.inj (ih (Nat.le_of_succ_le_succ hn))).2
    rw [tree, recordTree, hrest]

theorem snapshot_eq (h : s.Holds c v ids) (hn : ids.Nodup) : s.snapshot c = v := by
  have hsub : ids ⊆ List.range s.records.length := fun id hid =>
    List.mem_range.2 (h.lt_of_mem id hid)
  have hlen := (List.Nodup.subperm hn hsub).length_le
  rw [List.length_range] at hlen
  exact h.tree_eq hlen

/-! ## Fields by name -/

theorem take (h : s.Holds (.record fields) (.record .value ws) ids)
    (hc : Table.find? n fields = some c) :
    ∃ v given rest, Table.find? n ws = some v ∧ s.Holds c v given ∧
      s.Holds (.record (Table.erase n fields)) (.record .value (Table.erase n ws)) rest ∧
      ids.Perm (given ++ rest) := by
  induction fields generalizing ws ids with
  | nil => cases hc
  | cons e fields ih =>
    obtain ⟨m, d⟩ := e
    cases h with
    | @field _ _ v _ ws given rest hm hd h =>
      rw [Table.find?] at hc
      by_cases heq : m = n
      · subst heq
        rw [if_pos rfl] at hc
        cases hc
        refine ⟨v, given, rest, if_pos rfl, hd, ?_, .refl _⟩
        rw [Table.erase_cons_self hm, Table.erase_cons_self (h.keys_eq ▸ hm)]
        exact h
      · rw [if_neg heq] at hc
        obtain ⟨w, given', rest', hw, hgiven, hrest, hperm⟩ := ih h hc
        refine ⟨w, given', given ++ rest', (if_neg heq).trans hw, hgiven, ?_, ?_⟩
        · rw [Table.erase_cons_ne heq, Table.erase_cons_ne heq]
          exact .field (fun hk => hm (Table.mem_keys_erase.1 hk).2) hd hrest
        · exact (hperm.append_left given).trans (List.perm_append_comm_assoc ..)

theorem exists_insert (hn : n ∉ Table.keys fields) (hc : s.Holds c v ids)
    (h : s.Holds (.record fields) (.record .value ws) more) :
    ∃ all, all.Perm (ids ++ more) ∧
      s.Holds (.record (Table.insert n c fields)) (.record .value (Table.insert n v ws)) all := by
  induction fields generalizing ws more with
  | nil =>
    cases h
    exact ⟨_, .refl _, .field hn hc .bare⟩
  | cons e fields ih =>
    obtain ⟨m, d⟩ := e
    cases h with
    | @field _ _ w _ ws given rest hm hd h =>
      obtain ⟨hne, hn'⟩ := not_or.1 (mt List.mem_cons.2 hn)
      rw [Table.insert, Table.insert]
      by_cases hlt : n < m
      · rw [if_pos hlt, if_pos hlt]
        exact ⟨_, .refl _, .field hn hc (.field hm hd h)⟩
      · rw [if_neg hlt, if_neg hlt, if_neg (Ne.symm hne), if_neg (Ne.symm hne)]
        obtain ⟨all, hperm, hall⟩ := ih hn' h
        refine ⟨given ++ all, (hperm.append_left given).trans (List.perm_append_comm_assoc ..),
          .field ?_ hd hall⟩
        rw [Table.mem_keys_insert, not_or]
        exact ⟨Ne.symm hne, hm⟩

theorem exists_foldl_insert {acc : List (String × Cell)} {acc' : Fields}
    (hapart : ∀ n ∈ Table.keys fields, n ∉ Table.keys acc)
    (h : s.Holds (.record fields) (.record .value ws) ids)
    (hacc : s.Holds (.record acc) (.record .value acc') more) :
    ∃ all, all.Perm (ids ++ more) ∧ s.Holds
      (.record (fields.foldl (fun table e => Table.insert e.1 e.2 table) acc))
      (.record .value (ws.foldl (fun table e => Table.insert e.1 e.2 table) acc')) all := by
  induction fields generalizing ws ids acc acc' more with
  | nil =>
    cases h
    exact ⟨more, .refl _, hacc⟩
  | cons e fields ih =>
    cases h with
    | @field n d _ _ _ given rest hn hc h =>
      obtain ⟨hn', hapart⟩ := List.forall_mem_cons.1 hapart
      obtain ⟨mid, hmid, hinsert⟩ := exists_insert hn' hc hacc
      have hapart' : ∀ m ∈ Table.keys fields, m ∉ Table.keys (Table.insert n d acc) := by
        intro m hm hm'
        rcases Table.mem_keys_insert.1 hm' with rfl | hm'
        · exact hn hm
        · exact hapart m hm hm'
      obtain ⟨all, hall, hdone⟩ := ih hapart' h hinsert
      refine ⟨all, hall.trans ((hmid.append_left rest).trans ?_), hdone⟩
      rw [List.append_assoc]
      exact List.perm_append_comm_assoc ..

theorem exists_ofList (h : s.Holds (.record fields) (.record .value ws) ids) :
    ∃ all, all.Perm ids ∧
      s.Holds (.record (Table.ofList fields)) (.record .value (Table.ofList ws)) all := by
  obtain ⟨all, hall, hdone⟩ := exists_foldl_insert (fun _ _ => List.not_mem_nil) h .bare
  exact ⟨all, by rwa [List.append_nil] at hall, hdone⟩

end Holds

/-! ## Cells that reach no record by two paths -/

/-- The shared records that the cell reaches are in the store. -/
def Stored (s : Store) (c : Cell) : Prop :=
  ∀ id, s.Reaches c id → id < s.records.length

/-- What a value is in memory: none of its shared records is reached twice, none has two fields of
one name, and all of them are there. -/
structure Tidy (s : Store) (c : Cell) : Prop where
  unshared : s.Unshared c
  keyed : s.Keyed c
  stored : s.Stored c

/-- The cell stands for a value, and it passes records that it reaches, each of them once. -/
def Spans (s : Store) (c : Cell) : Prop :=
  ∃ v ids, s.Holds c v ids ∧ ids.Nodup ∧ ∀ id ∈ ids, s.Reaches c id

theorem Unshared.pairwise_items (h : s.Unshared (.array items)) : items.Pairwise s.Disjoint := by
  refine List.pairwise_iff_getElem.2 ?_
  rintro i j hi hj hlt id ⟨p, hp⟩ ⟨q, hq⟩
  have hmember (k : Nat) (hk : k < items.length) :
      s.member (.array items) (.index k) = .ok items[k] :=
    member_index_eq_ok.2 ⟨items, k, rfl, rfl, List.getElem?_eq_getElem hk⟩
  have := h (.index i :: p) (.index j :: q) id (get_cons_eq_ok.2 ⟨_, hmember i hi, hp⟩)
    (get_cons_eq_ok.2 ⟨_, hmember j hj, hq⟩)
  have := Int.ofNat_inj.1 (Step.index.inj (List.cons.inj this).1)
  omega

theorem Unshared.pairwise_fields (h : s.Unshared (.record fields)) (hk : s.Keyed (.record fields)) :
    fields.Pairwise fun e f => s.Disjoint e.2 f.2 := by
  have hne : fields.Pairwise fun e f => e.1 ≠ f.1 := List.pairwise_map.1 (hk.nodup rfl)
  refine hne.imp_of_mem fun he hf hne => ?_
  rintro id ⟨p, hp⟩ ⟨q, hq⟩
  refine hne ?_
  have := h (.name _ :: p) (.name _ :: q) id
    (get_cons_eq_ok.2 ⟨_, hk.member_of_mem rfl he, hp⟩)
    (get_cons_eq_ok.2 ⟨_, hk.member_of_mem rfl hf, hq⟩)
  exact Step.name.inj (List.cons.inj this).1

theorem get_fields {step : Step} {p : Path} :
    s.get (.record (s.fields id)) (step :: p) = .ok d ↔ s.get (.shared id) (step :: p) = .ok d := by
  rw [get_cons_eq_ok, get_cons_eq_ok]
  cases step with
  | index i => constructor <;> rintro ⟨_, ⟨⟩, _⟩
  | name n =>
    refine exists_congr fun e => and_congr_left fun _ => ?_
    rw [member_name_eq_ok, member_name_eq_ok]
    rfl

namespace Tidy

theorem member {step : Step} (h : s.Tidy c) (hd : s.member c step = .ok d) : s.Tidy d where
  unshared := h.unshared.get (p := [step]) ((get_singleton s c step).trans hd)
  keyed := h.keyed.member hd
  stored := fun id hr => h.stored id (hr.of_member hd)

/-- A record that is left out has fields that reach the same records but itself. -/
theorem opened (h : s.Tidy (.shared id)) :
    s.Tidy (.record (s.fields id)) ∧ ¬ s.Reaches (.record (s.fields id)) id ∧
      ∀ j, s.Reaches (.record (s.fields id)) j → s.Reaches (.shared id) j := by
  have hget {p : Path} {j : Nat} (hp : s.get (.record (s.fields id)) p = .ok (.shared j)) :
      p ≠ [] ∧ s.get (.shared id) p = .ok (.shared j) := by
    cases p with
    | nil => cases hp
    | cons step p => exact ⟨List.cons_ne_nil _ _, get_fields.1 hp⟩
  have hreaches (j : Nat) (hj : s.Reaches (.record (s.fields id)) j) : s.Reaches (.shared id) j := by
    obtain ⟨p, hp⟩ := hj
    exact ⟨p, (hget hp).2⟩
  refine ⟨⟨fun p q j hp hq => h.unshared p q j (hget hp).2 (hget hq).2, fun p d fields hp hf => ?_,
    fun j hj => h.stored j (hreaches j hj)⟩, ?_, hreaches⟩
  · cases p with
    | nil =>
      cases hp
      exact h.keyed.nodup hf
    | cons step p => exact h.keyed _ d fields (get_fields.1 hp) hf
  · rintro ⟨p, hp⟩
    exact (hget hp).1 (h.unshared.acyclic id p ⟨[], rfl⟩ (hget hp).2)

end Tidy

theorem exists_holds_array (h : ∀ c ∈ items, s.Spans c) (hd : items.Pairwise s.Disjoint) :
    ∃ vs ids, s.Holds (.array items) (.array vs) ids ∧ ids.Nodup ∧
      ∀ id ∈ ids, ∃ c ∈ items, s.Reaches c id := by
  induction items with
  | nil => exact ⟨[], [], .nil, List.nodup_nil, fun _ hid => absurd hid List.not_mem_nil⟩
  | cons c items ih =>
    obtain ⟨hc, hrest⟩ := List.forall_mem_cons.1 h
    obtain ⟨hcd, hd⟩ := List.pairwise_cons.1 hd
    obtain ⟨v, ids, hv, hn, hreach⟩ := hc
    obtain ⟨vs, more, hvs, hn', hreach'⟩ := ih hrest hd
    refine ⟨v :: vs, ids ++ more, .cons hv hvs, List.nodup_append.2 ⟨hn, hn', ?_⟩, ?_⟩
    · rintro id hid _ hid' rfl
      obtain ⟨d, hmem, hr⟩ := hreach' id hid'
      exact hcd d hmem id (hreach id hid) hr
    · intro id hid
      rcases List.mem_append.1 hid with hid | hid
      · exact ⟨c, List.mem_cons_self, hreach id hid⟩
      · obtain ⟨d, hmem, hr⟩ := hreach' id hid
        exact ⟨d, List.mem_cons_of_mem _ hmem, hr⟩

theorem exists_holds_record (h : ∀ e ∈ fields, s.Spans e.2) (hk : (Table.keys fields).Nodup)
    (hd : fields.Pairwise fun e f => s.Disjoint e.2 f.2) :
    ∃ ws ids, s.Holds (.record fields) (.record .value ws) ids ∧ ids.Nodup ∧
      ∀ id ∈ ids, ∃ e ∈ fields, s.Reaches e.2 id := by
  induction fields with
  | nil => exact ⟨[], [], .bare, List.nodup_nil, fun _ hid => absurd hid List.not_mem_nil⟩
  | cons e fields ih =>
    obtain ⟨hc, hrest⟩ := List.forall_mem_cons.1 h
    obtain ⟨hcd, hd⟩ := List.pairwise_cons.1 hd
    obtain ⟨hnot, hk⟩ := List.nodup_cons.1 hk
    obtain ⟨v, ids, hv, hn, hreach⟩ := hc
    obtain ⟨ws, more, hws, hn', hreach'⟩ := ih hrest hk hd
    refine ⟨(e.1, v) :: ws, ids ++ more, .field hnot hv hws,
      List.nodup_append.2 ⟨hn, hn', ?_⟩, ?_⟩
    · rintro id hid _ hid' rfl
      obtain ⟨f, hmem, hr⟩ := hreach' id hid'
      exact hcd f hmem id (hreach id hid) hr
    · intro id hid
      rcases List.mem_append.1 hid with hid | hid
      · exact ⟨e, List.mem_cons_self, hreach id hid⟩
      · obtain ⟨f, hmem, hr⟩ := hreach' id hid
        exact ⟨f, List.mem_cons_of_mem _ hmem, hr⟩

/-- Passing a shared record leaves one more outside, so there is an end; what the parts of a cell
pass can be put together, as they reach different records. -/
theorem Tidy.spans {c : Cell} {outside : List Nat} {m : Nat} (h : s.Tidy c)
    (ho : s.Outside outside c) (hm : s.records.length ≤ outside.length + m) : s.Spans c := by
  induction c using Cell.parts with
  | scalar v => exact ⟨_, _, .scalar v, List.nodup_nil, fun _ hid => absurd hid List.not_mem_nil⟩
  | array items ih =>
    have hspan : ∀ c ∈ items, s.Spans c := fun c hc => by
      obtain ⟨k, hd⟩ := member_of_mem (s := s) hc
      exact ih c hc (h.member hd) (ho.member hd)
    obtain ⟨vs, ids, hvs, hn, hreach⟩ := exists_holds_array hspan h.unshared.pairwise_items
    refine ⟨_, ids, hvs, hn, fun id hid => ?_⟩
    obtain ⟨c, hc, hr⟩ := hreach id hid
    obtain ⟨k, hd⟩ := member_of_mem (s := s) hc
    exact hr.of_member hd
  | record fields ih =>
    have hmember {e : String × Cell} (he : e ∈ fields) := h.keyed.member_of_mem rfl he
    have hspan : ∀ e ∈ fields, s.Spans e.2 := fun e he =>
      ih e he (h.member (hmember he)) (ho.member (hmember he))
    obtain ⟨ws, ids, hws, hn, hreach⟩ := exists_holds_record hspan (h.keyed.nodup rfl)
      (h.unshared.pairwise_fields h.keyed)
    refine ⟨_, ids, hws, hn, fun id hid => ?_⟩
    obtain ⟨e, he, hr⟩ := hreach id hid
    exact hr.of_member (hmember he)
  | shared id =>
    obtain ⟨hfields, hnot, hsub⟩ := h.opened
    have hself : s.Reaches (.shared id) id := ⟨[], rfl⟩
    -- the record is outside of its own fields, so one less is left to count
    have ho' : s.Outside (id :: outside) (.record (s.fields id)) :=
      Outside.cons ⟨ho.nodup, ho.lt, fun j hj hr => ho.not_reaches j hj (hsub j hr)⟩
        (h.stored id hself) (ho.not_mem (p := []) rfl) hnot
    have := ho'.length_le
    rw [List.length_cons] at this
    obtain ⟨m, rfl⟩ : ∃ k, m = k + 1 := ⟨m - 1, by omega⟩
    obtain ⟨w, ids, hw, hn, hreach⟩ := hfields.spans (m := m) ho' (by rw [List.length_cons]; omega)
    obtain ⟨ws, rfl⟩ := hw.exists_record
    refine ⟨_, id :: ids, .shared (h.stored id hself) hw,
      List.nodup_cons.2 ⟨fun hid => hnot (hreach id hid), hn⟩, ?_⟩
    exact List.forall_mem_cons.2 ⟨hself, fun j hj => hsub j (hreach j hj)⟩
termination_by m

/-- A cell that reaches no record by two paths stands for its tree. -/
theorem Tidy.exists_holds (h : s.Tidy c) : ∃ ids, ids.Nodup ∧ s.Holds c (s.snapshot c) ids := by
  obtain ⟨v, ids, hv, hn, -⟩ := h.spans (.nil s c) (Nat.le_add_left _ _)
  exact ⟨ids, hn, hv.snapshot_eq hn ▸ hv⟩

/-! ## What a computation does to the records -/

theorem fields_allocate_self (s : Store) (fields : List (String × Cell)) :
    (s.allocate fields).2.fields s.records.length = fields := by
  rw [Store.fields, allocate, List.getElem?_concat_length, Option.getD_some]

theorem fields_of_append (h : s.records <+: t.records) (hid : id < s.records.length) :
    t.fields id = s.fields id := by
  obtain ⟨more, h⟩ := h
  rw [Store.fields, ← h, List.getElem?_append_left hid, Store.fields]

theorem append_allocate (s : Store) (fields : List (String × Cell)) :
    s.records <+: (s.allocate fields).2.records :=
  ⟨[fields], rfl⟩

theorem fields_allocate_of_lt (fields : List (String × Cell)) (hid : id < s.records.length) :
    (s.allocate fields).2.fields id = s.fields id :=
  fields_of_append (append_allocate s fields) hid

/-- What a computation does that is given some records and gives back others: each of those is a
given one or new, and the records that it was not given are as they were. -/
structure Moves (s : Store) (ids : List Nat) (t : Store) (ids' : List Nat) : Prop where
  nodup : ids'.Nodup
  grows : s.records.length ≤ t.records.length
  given_or_new : ∀ id ∈ ids', id ∈ ids ∨ s.records.length ≤ id
  frame : ∀ id < s.records.length, id ∉ ids → t.fields id = s.fields id

namespace Moves

theorem refl (s : Store) (hn : ids.Nodup) : s.Moves ids s ids :=
  ⟨hn, Nat.le_refl _, fun _ hid => Or.inl hid, fun _ _ _ => rfl⟩

theorem mono {all all' : List Nat} (h : s.Moves ids t ids') (hsub : ids ⊆ all)
    (hp : ids'.Perm all') : s.Moves all t all' where
  nodup := hp.nodup_iff.1 h.nodup
  grows := h.grows
  given_or_new := fun id hid => (h.given_or_new id (hp.mem_iff.2 hid)).imp_left (@hsub id)
  frame := fun id hlt hid => h.frame id hlt fun hmem => hid (hsub hmem)

theorem holds (h : s.Moves ids t ids') (hd : s.Holds d w more) (hapart : ∀ id ∈ ids, id ∉ more) :
    t.Holds d w more :=
  hd.frame h.grows fun id hid =>
    h.frame id (hd.lt_of_mem id hid) fun hmem => hapart id hmem hid

theorem holds_rest (h : s.Moves ids t ids') (hn : (ids ++ more).Nodup) (hd : s.Holds d w more) :
    t.Holds d w more :=
  h.holds hd fun id hid hid' => (List.nodup_append.1 hn).2.2 id hid id hid' rfl

/-- One computation after the other, with the records shared out between them: what the first one
yields is left alone by the second. -/
theorem andThen (h : s.Moves ids t ids') (h' : t.Moves more u more') (hn : (ids ++ more).Nodup)
    (hmore : ∀ id ∈ more, id < s.records.length) (hc : t.Holds c v ids') :
    u.Holds c v ids' ∧ s.Moves (ids ++ more) u (ids' ++ more') := by
  have hne := (List.nodup_append.1 hn).2.2
  -- what the first one yields is given or new, and what is left for the second is neither
  have hapart : ∀ id ∈ more, id ∉ ids' := fun id hid' hid => by
    rcases h.given_or_new id hid with hgiven | hnew
    · exact hne id hgiven id hid' rfl
    · exact Nat.not_lt.2 hnew (hmore id hid')
  refine ⟨h'.holds hc hapart, ?_, Nat.le_trans h.grows h'.grows, fun id hid => ?_,
    fun id hlt hid => ?_⟩
  · refine List.nodup_append.2 ⟨h.nodup, h'.nodup, ?_⟩
    rintro id hid _ hid' rfl
    rcases h'.given_or_new id hid' with hgiven | hnew
    · exact hapart id hgiven hid
    · exact Nat.not_lt.2 hnew (hc.lt_of_mem id hid)
  · rcases List.mem_append.1 hid with hid | hid
    · exact (h.given_or_new id hid).imp_left (List.mem_append_left _)
    · exact (h'.given_or_new id hid).imp (List.mem_append_right _) (Nat.le_trans h.grows)
  · rw [List.mem_append, not_or] at hid
    rw [h'.frame id (Nat.lt_of_lt_of_le hlt h.grows) hid.2, h.frame id hlt hid.1]

/-- A record whose fields were given away gets the fields that came back. -/
theorem write (h : s.Moves ids t ids') (hc : t.Holds (.record fields) (.record .value ws) ids')
    (hn : id ∉ ids) (hid : id < s.records.length) :
    (t.write id fields).Holds (.shared id) (.record .reference ws) (id :: ids') ∧
      s.Moves (id :: ids) (t.write id fields) (id :: ids') := by
  have hid' : id < t.records.length := Nat.lt_of_lt_of_le hid h.grows
  have hlen : (t.write id fields).records.length = t.records.length := length_write t id fields
  have hnot : id ∉ ids' := fun hmem =>
    (h.given_or_new id hmem).elim hn (Nat.not_le.2 hid)
  constructor
  · refine .shared (hlen ▸ hid') ?_
    rw [fields_write_self hid']
    exact hc.frame (Nat.le_of_eq hlen.symm) fun j hj =>
      fields_write_ne fun he => hnot (he ▸ hj)
  · refine ⟨List.nodup_cons.2 ⟨hnot, h.nodup⟩, hlen ▸ h.grows, ?_, fun j hlt hj => ?_⟩
    · exact List.forall_mem_cons.2 ⟨Or.inl List.mem_cons_self, fun j hj =>
        (h.given_or_new j hj).imp_left (List.mem_cons_of_mem _)⟩
    · obtain ⟨hne, hj⟩ := not_or.1 (mt List.mem_cons.2 hj)
      rw [fields_write_ne hne, h.frame j hlt hj]

theorem allocate (h : s.Moves ids t ids')
    (hc : t.Holds (.record fields) (.record .value ws) ids') :
    (t.allocate fields).2.Holds (.shared t.records.length) (.record .reference ws)
        (t.records.length :: ids') ∧
      s.Moves ids (t.allocate fields).2 (t.records.length :: ids') := by
  have hlen : (t.allocate fields).2.records.length = t.records.length + 1 := by
    rw [Store.allocate, List.length_append, List.length_singleton]
  constructor
  · refine .shared (hlen ▸ Nat.lt_succ_self _) ?_
    rw [fields_allocate_self]
    exact hc.frame (by omega) fun j hj => fields_allocate_of_lt fields (hc.lt_of_mem j hj)
  · refine ⟨List.nodup_cons.2 ⟨fun hmem => Nat.lt_irrefl _ (hc.lt_of_mem _ hmem), h.nodup⟩,
      by have := h.grows; omega, ?_, fun j hlt hj => ?_⟩
    · exact List.forall_mem_cons.2 ⟨Or.inr h.grows, h.given_or_new⟩
    · rw [fields_allocate_of_lt fields (Nat.lt_of_lt_of_le hlt h.grows), h.frame j hlt hj]

end Moves

end Store

end Parley
