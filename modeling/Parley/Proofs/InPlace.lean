import Parley.Proofs.Writes

/-!
# Writing in place

On the trees that cells stand for, a write is plain replacement of the part at the path. The tree of
a record is followed to some depth, so what is left of the depth where the part is put is told by
the records that the path has passed.

* `Store.opened` : the tree of a cell, itself opened if it is a shared record.
* `Store.set_tree_below`, `Store.Sets.set_snapshot` : the tree after a write is the tree before with
  the part replaced.
* `Store.InPlace`, `Store.set_in_place` : what a write does, at every path.
-/

namespace Parley

/-- Whether the holders of a record have copies of it. -/
def Cell.kind : Cell → RecordKind
  | .shared _ => .reference
  | _ => .value

namespace Store

variable {s t : Store} {c c' d d' x y z : Cell} {step : Step} {p q : Path} {id : Nat}
  {n : String} {fields fields' : List (String × Cell)} {f g : Nat → Value}

/-! ## Trees with a part replaced -/

/-- The tree of a cell, itself opened if it is a shared record. -/
def opened (s : Store) (look : Nat → Value) : Cell → Value
  | .shared id => .record .reference (fieldTrees look (s.fields id))
  | c => tree look c

theorem opened_of_ne_shared (s : Store) (look : Nat → Value) (hc : ∀ id, c ≠ .shared id) :
    s.opened look c = tree look c := by
  cases c with
  | shared id => exact absurd rfl (hc id)
  | scalar v => rfl
  | array items => rfl
  | record fields => rfl

theorem opened_array (s : Store) (look : Nat → Value) (items : List Cell) :
    s.opened look (.array items) = .array (items.map (tree look)) :=
  tree_array look items

theorem opened_record (look : Nat → Value) (hf : s.fields? c = some fields) :
    s.opened look c = .record c.kind (fields.map fun e => (e.1, tree look e.2)) := by
  rcases eq_of_fields? hf with rfl | ⟨id, rfl, rfl⟩
  · exact congrArg _ (fieldTrees_eq look fields)
  · exact congrArg _ (fieldTrees_eq look _)

theorem member_opened (hd : s.member c step = .ok d) :
    (s.opened f c).member step = .ok (tree f d) := by
  cases step with
  | index i =>
    obtain ⟨items, k, rfl, hi, hk⟩ := member_index_eq_ok.1 hd
    rw [opened_array]
    refine Value.member_index_eq_ok.2 ⟨_, k, rfl, hi, ?_⟩
    rw [List.getElem?_map, hk, Option.map_some]
  | name n =>
    obtain ⟨fields, hf, hn⟩ := member_name_eq_ok.1 hd
    rw [opened_record f hf]
    refine Value.member_name_eq_ok.2 ⟨_, _, rfl, ?_⟩
    rw [Table.find?_map_snd, hn, Option.map_some]

theorem setMember_opened (hd : s.member c step = .ok d) (hk : s.Keyed c)
    (hsame : t.fields? c = s.fields? c)
    (hother : ∀ step' e, step' ≠ step → s.member c step' = .ok e → tree f e = tree g e) :
    (s.opened f c).setMember step (tree g d) = .ok (t.opened g c) := by
  cases step with
  | index i =>
    obtain ⟨items, k, rfl, rfl, hk⟩ := member_index_eq_ok.1 hd
    obtain ⟨hlt, -⟩ := List.getElem?_eq_some_iff.1 hk
    rw [opened_array, opened_array]
    refine Value.setMember_index_eq_ok.2 ⟨_, k, rfl, rfl, by rwa [List.length_map], ?_⟩
    refine congrArg _ (List.ext_getElem? fun j => ?_)
    by_cases hj : k = j
    · subst hj
      rw [List.getElem?_set_self (by rwa [List.length_map]), List.getElem?_map, hk, Option.map_some]
    · rw [List.getElem?_set_ne hj, List.getElem?_map, List.getElem?_map]
      cases he : items[j]? with
      | none => rfl
      | some e =>
        have hne : Step.index j ≠ .index k := fun h => hj (Int.ofNat_inj.1 (Step.index.inj h)).symm
        have := hother _ e hne (member_index_eq_ok.2 ⟨items, j, rfl, rfl, he⟩)
        exact congrArg some this.symm
  | name n =>
    obtain ⟨fields, hf, hn⟩ := member_name_eq_ok.1 hd
    rw [opened_record f hf, opened_record g (hsame.trans hf)]
    refine Value.setMember_name_eq_ok.2 ⟨_, _, _, rfl,
      Table.set?_map_of_agree (hk.nodup hf) hn fun e he hne => ?_, rfl⟩
    exact hother _ _ (fun h => hne (Step.name.inj h)) (hk.member_of_mem hf he)

/-! ## Trees after a write -/

theorem Unshared.tree_write_other {step' : Step} {e : Cell} (hu : s.Unshared c) (hk : s.Keyed c)
    (hq : s.get c (step :: q) = .ok (.shared id)) (hne : step' ≠ step)
    (he : s.member c step' = .ok e) (fields' : List (String × Cell)) (m : Nat) :
    tree (s.recordTree m) e = tree ((s.write id fields').recordTree m) e := by
  refine (tree_write fields' (hk.member he) ?_ m).symm
  rintro ⟨u, hu'⟩
  exact hne (List.cons.inj (hu (step' :: u) (step :: q) id (get_cons_eq_ok.2 ⟨e, he, hu'⟩) hq)).1

/-- Passing a shared record leaves one more outside, so there is depth left for what it holds. -/
theorem Outside.pass {j m : Nat} {ids : List Nat} {e : Cell} (hu : s.Unshared (.shared j))
    (hox : s.Outside ids x) (hoc : s.Outside ids (.shared j)) (hjx : ¬ s.Reaches x j)
    (he : s.member (.shared j) step = .ok e) (hm : s.records.length ≤ ids.length + m) :
    s.Outside (j :: ids) e ∧ s.Outside (j :: ids) x ∧
      ∃ k, m = k + 1 ∧ s.records.length ≤ (j :: ids).length + k := by
  have hself : s.get (.shared j) [] = .ok (.shared j) := rfl
  have hoe := hoc.enter hu.acyclic hself he
  have := hoe.length_le
  rw [List.length_cons] at this ⊢
  exact ⟨hoe, hox.cons (lt_of_member he) (hoc.not_mem hself) hjx, m - 1, by omega, by omega⟩

/-- The fields of the record that is written hold no way back to it. -/
theorem tree_write_fields {r : Path} (hx : s.Keyed x) (hu : s.Unshared (.shared id))
    (hk : s.Keyed (.shared id)) (hidx : ¬ s.Reaches x id)
    (hd : Table.find? n (s.fields id) = some d) (h : Put x d r d')
    (hs : Table.set? n d' (s.fields id) = some fields') (m : Nat) {e : String × Cell}
    (he : e ∈ fields') :
    tree ((s.write id fields').recordTree m) e.2 = tree (s.recordTree m) e.2 := by
  have hself : s.get (.shared id) [] = .ok (.shared id) := rfl
  have hnodup : (Table.keys fields').Nodup := by
    rw [Table.keys_set? hs]
    exact hk.nodup rfl
  have hfind := Table.find?_of_mem hnodup he
  rw [Table.find?_set? e.1 hs] at hfind
  split at hfind
  · -- the field that is another now
    obtain rfl := Option.some.inj hfind
    have hdm := member_shared hd
    refine tree_write fields' (h.keyed (hk.member hdm) hx) (fun hr => ?_) m
    exact (h.reaches hr).elim (hu.acyclic.not_reaches_part hself hdm) hidx
  · have hem := member_shared hfind
    exact tree_write fields' (hk.member hem) (hu.acyclic.not_reaches_part hself hem) m

/-- The records passed so far are outside of what is left of the cell and of the part that is put
there. -/
theorem set_tree_below {r : Path} {ids : List Nat} {m : Nat} (hx : s.Keyed x) (hax : s.Acyclic x)
    (hox : s.Outside ids x) (hu : s.Unshared c) (hk : s.Keyed c) (hcx : s.Disjoint c x)
    (hoc : s.Outside ids c) (hm : s.records.length ≤ ids.length + m)
    (hq : s.get c q = .ok (.shared id)) (hd : Table.find? n (s.fields id) = some d)
    (h : Put x d r d') (hs : Table.set? n d' (s.fields id) = some fields') :
    (tree (s.recordTree m) c).set (s.snapshot x) (q ++ .name n :: r) =
      .ok (tree ((s.write id fields').recordTree m) c) := by
  induction q generalizing c m ids with
  | nil =>
    -- the record that is written: the part is replaced in one of its fields
    obtain rfl := Except.ok.inj hq
    have hdm := member_shared hd
    have hidx : ¬ s.Reaches x id := hcx id ⟨[], rfl⟩
    obtain ⟨-, hox, k, rfl, hk'⟩ := Outside.pass hu hox hoc hidx hdm hm
    have htree : tree (s.recordTree k) x = s.snapshot x :=
      tree_eq_of_outside hx hax hox hk' (Nat.le_add_left _ _)
    have hf : (s.write id fields').fields? (.shared id) = some fields' :=
      congrArg some (fields_write_self (lt_of_member hdm))
    show (s.opened (s.recordTree k) (.shared id)).set _ (.name n :: r) =
      .ok ((s.write id fields').opened _ (.shared id))
    rw [← htree]
    refine Value.set_cons.2 ⟨_, _, member_opened hdm, h.set_tree _, ?_⟩
    rw [opened_record _ rfl, opened_record _ hf]
    refine Value.setMember_name_eq_ok.2 ⟨_, _, _, rfl, ?_, congrArg _
      (List.map_congr_left fun e he => congrArg _ (tree_write_fields hx hu hk hidx hd h hs k he))⟩
    rw [Table.set?_map_snd, hs, Option.map_some]
  | cons step q ih =>
    obtain ⟨e, he, hq'⟩ := get_cons_eq_ok.1 hq
    have hue : s.Unshared e := hu.get (p := [step]) ((get_singleton s c step).trans he)
    have hex : s.Disjoint e x := fun j hj => hcx j (hj.of_member he)
    have hne : c ≠ .shared id := by
      rintro rfl
      exact nomatch hu [] (step :: q) id rfl hq
    have hsame : (s.write id fields').fields? c = s.fields? c := fields?_write hne
    have hback (m : Nat) := setMember_opened he hk hsame
      fun step' e' hne he' => hu.tree_write_other hk hq hne he' fields' m
    -- a container above it has the same fields, of which one stands for something else; whether it
    -- is shared tells how much depth is left
    by_cases hc : ∀ j, c ≠ .shared j
    · have := ih hox hue (hk.member he) hex (hoc.member he) hm hq'
      rw [← opened_of_ne_shared s _ hc, ← opened_of_ne_shared (s.write id fields') _ hc]
      exact Value.set_cons.2 ⟨_, _, member_opened he, this, hback m⟩
    · obtain ⟨j, rfl⟩ := not_forall_not.1 hc
      obtain ⟨hoe, hox, k, rfl, hk'⟩ := Outside.pass hu hox hoc (hcx j ⟨[], rfl⟩) he hm
      have := ih hox hue (hk.member he) hex hoe hk' hq'
      exact Value.set_cons.2 ⟨_, _, member_opened he, this, hback k⟩

/-- A write replaces the part in the tree of the cell, and what it puts there stays what it is. -/
theorem Sets.set_snapshot (h : s.Sets x c p c' t) (hu : s.Unshared c) (hk : s.Keyed c)
    (hx : s.Keyed x) (hcx : s.Disjoint c x) (hax : s.Acyclic x) :
    (s.snapshot c).set (s.snapshot x) p = .ok (t.snapshot c') ∧ t.snapshot x = s.snapshot x := by
  cases h with
  | inside h => exact ⟨h.set_tree _, rfl⟩
  | @below q r id n d d' fields' hq hd h hs =>
    refine ⟨?_, snapshot_write fields' hx (hcx id ⟨q, hq⟩)⟩
    show (Store.tree (s.recordTree _) c).set _ _ = .ok (Store.tree (Store.recordTree _ _) c)
    rw [length_write]
    exact set_tree_below hx hax (.nil s x) hu hk hcx (.nil s c) (Nat.le_add_left _ _) hq hd h hs

/-! ## What a write does -/

/-- What is left behind by a write of `x` in the place of `y` at a path: another cell and store. -/
structure Written (s : Store) (x c : Cell) (p : Path) (y c' : Cell) (t : Store) : Prop where
  /-- In the tree of the cell the part is replaced, where what is put there has a tree. -/
  tree : s.Acyclic x →
    (s.snapshot c).set (s.snapshot x) p = .ok (t.snapshot c') ∧ t.snapshot x = s.snapshot x
  /-- The path leads to what was put there. -/
  read : t.get c' p = .ok x
  /-- A path apart from it leads to what it led to before, which is the same through and through, or
  it led and leads nowhere. -/
  apart : ∀ q, p.Apart q → (t.get c' q).toOption = (s.get c q).toOption ∧
    ∀ z, s.get c q = .ok z → t.snapshot z = s.snapshot z
  /-- Another write at the path overrides this one. -/
  again : ∀ z, (set z c' p).on t = (set z c p).on s
  /-- A write of what was there would have changed nothing. -/
  back : (set y c p).on s = (.ok c, s)
  /-- If the path goes through no shared record, none is changed. -/
  inside : (∀ q r id, p = q ++ r → r ≠ [] → s.get c q ≠ .ok (.shared id)) → t = s
  /-- If it does, the last one is all that is changed, one of its own fields, so that every cell
  that leads to it leads to what was put there. -/
  below : ∀ q r id, p = q ++ r → r ≠ [] → s.get c q = .ok (.shared id) →
    (∀ u v j, r = u ++ v → u ≠ [] → v ≠ [] → s.get (.shared id) u ≠ .ok (.shared j)) →
    c' = c ∧ (∃ fields', Table.keys fields' = Table.keys (s.fields id) ∧ t = s.write id fields') ∧
      ∀ d u, s.get d u = .ok (.shared id) →
        (∀ v w, u = v ++ w → w ≠ [] → s.get d v ≠ .ok (.shared id)) → t.get d (u ++ r) = .ok x

/-- What a write of `x` at a path does. -/
structure InPlace (s : Store) (x c : Cell) (p : Path) : Prop where
  /-- The same as replacing the part by recursion. -/
  recursion : (set x c p).on s = (replace x c p).on s
  /-- Where the path leads nowhere, it fails as reading does, and nothing has been changed. -/
  refused : ∀ e, s.get c p = .error e → (set x c p).on s = (.error e, s)
  /-- Where the path leads somewhere, it succeeds. -/
  done : ∀ y, s.get c p = .ok y → ∃ c' t, (set x c p).on s = (.ok c', t) ∧ s.Written x c p y c' t

/-- A write to a cell that reaches no record by two paths, of a cell that reaches none of the same
records, is done in place. -/
theorem set_in_place {s : Store} {c x : Cell} (hu : s.Unshared c) (hk : s.Keyed c) (hx : s.Keyed x)
    (hcx : s.Disjoint c x) (p : Path) : s.InPlace x c p := by
  cases hp : s.get c p with
  | error e =>
    have hrefused := on_set_error hp x
    refine ⟨hrefused.trans (on_replace_error hp x).symm, ?_, fun y hy => (nomatch hp.symm.trans hy)⟩
    intro e' he'
    cases hp.symm.trans he'
    exact hrefused
  | ok y =>
    obtain ⟨c', t, h⟩ := exists_sets hp x
    refine ⟨(on_set h).trans (h.on_replace hu).symm, fun e he => (nomatch hp.symm.trans he), ?_⟩
    intro y' hy'
    cases hp.symm.trans hy'
    refine ⟨c', t, on_set h, ?_⟩
    exact {
      tree := h.set_snapshot hu hk hx hcx
      read := h.get hu
      apart := fun q ha => ⟨h.get_apart hu ha, fun z hz => h.snapshot_apart hu hk ha hz⟩
      again := fun z => by
        obtain ⟨c'', t', h1, h2⟩ := h.exists_again hu z
        rw [on_set h1, on_set h2]
      back := on_set (h.back hp)
      inside := h.eq_of_not_shared
      below := by
        rintro q r id rfl hr hq hlast
        obtain ⟨rfl, ⟨fields', hkeys, rfl⟩, hread⟩ := h.of_shared hr hq hlast
        refine ⟨rfl, ⟨fields', hkeys, rfl⟩, fun d u hd hfirst => ?_⟩
        have hd' := (get_write fields' hfirst).trans (toOption_eq_some.2 hd)
        exact get_append_eq_ok.2 ⟨_, toOption_eq_some.1 hd', hread⟩ }

/-! ## A shelf -/

theorem get_of_single {e : Cell} (h : ∀ step' e, s.member c step' = .ok e → step' = step ∧ e = d)
    (hg : s.get c p = .ok e) : (p = [] ∧ e = c) ∨ ∃ q, p = step :: q ∧ s.get d q = .ok e := by
  cases p with
  | nil => exact Or.inl ⟨rfl, (Except.ok.inj hg).symm⟩
  | cons step' q =>
    obtain ⟨e', he', hg⟩ := get_cons_eq_ok.1 hg
    obtain ⟨rfl, rfl⟩ := h step' e' he'
    exact Or.inr ⟨q, rfl, hg⟩

theorem get_of_field {e : Cell} (hf : s.fields? c = some [(n, d)]) (hg : s.get c p = .ok e) :
    (p = [] ∧ e = c) ∨ ∃ q, p = .name n :: q ∧ s.get d q = .ok e := by
  refine get_of_single (fun step e he => ?_) hg
  cases step with
  | index i =>
    obtain ⟨items, k, rfl, -⟩ := member_index_eq_ok.1 he
    cases hf
  | name m =>
    obtain ⟨fields, hf', hm⟩ := member_name_eq_ok.1 he
    cases hf.symm.trans hf'
    rw [Table.find?] at hm
    split at hm
    · rename_i h
      exact ⟨h ▸ rfl, (Option.some.inj hm).symm⟩
    · cases hm

theorem get_of_item {e : Cell} (hg : s.get (.array [d]) p = .ok e) :
    (p = [] ∧ e = .array [d]) ∨ ∃ q, p = .index 0 :: q ∧ s.get d q = .ok e := by
  refine get_of_single (fun step e he => ?_) hg
  cases step with
  | name n =>
    obtain ⟨fields, hf, -⟩ := member_name_eq_ok.1 he
    cases hf
  | index i =>
    obtain ⟨items, k, ⟨⟩, rfl, hk⟩ := member_index_eq_ok.1 he
    obtain ⟨hlt, rfl⟩ := List.getElem?_eq_some_iff.1 hk
    obtain rfl : k = 0 := Nat.lt_one_iff.1 hlt
    exact ⟨rfl, rfl⟩

theorem get_of_scalar {v : Scalar} {e : Cell} (hg : s.get (.scalar v) p = .ok e) :
    e = .scalar v := by
  cases p with
  | nil => exact (Except.ok.inj hg).symm
  | cons step q => cases step <;> cases hg

/-- A shared record that holds an array of records. -/
def shelf : Store :=
  ⟨[[("items", .array [.record [("x", .scalar .nil)]])]]⟩

/-- A record with value semantics that holds the shared one. -/
def holder : Cell :=
  .record [("shelf", .shared 0)]

theorem get_holder (h : shelf.get holder p = .ok c) :
    (p = [] ∧ c = holder) ∨ (p = [.name "shelf"] ∧ c = .shared 0) ∨
      (∃ d, c = .array [d]) ∨ c = .record [("x", .scalar .nil)] ∨ c = .scalar .nil := by
  rcases get_of_field rfl h with he | ⟨p, rfl, h₁⟩
  · exact Or.inl he
  rcases get_of_field rfl h₁ with ⟨rfl, rfl⟩ | ⟨p, rfl, h₂⟩
  · exact Or.inr (Or.inl ⟨rfl, rfl⟩)
  rcases get_of_item h₂ with ⟨rfl, rfl⟩ | ⟨p, rfl, h₃⟩
  · exact Or.inr (Or.inr (Or.inl ⟨_, rfl⟩))
  rcases get_of_field rfl h₃ with ⟨rfl, rfl⟩ | ⟨p, rfl, h₄⟩
  · exact Or.inr (Or.inr (Or.inr (Or.inl rfl)))
  · exact Or.inr (Or.inr (Or.inr (Or.inr (get_of_scalar h₄))))

theorem set_in_place_shelf :
    shelf.InPlace (.scalar (.bool true)) holder
        [.name "shelf", .name "items", .index 0, .name "x"] ∧
      (set (.scalar (.bool true)) holder
        [.name "shelf", .name "items", .index 0, .name "x"]).on shelf =
        (.ok holder, ⟨[[("items", .array [.record [("x", .scalar (.bool true))]])]]⟩) := by
  have hshared {p : Path} {id : Nat} (h : shelf.get holder p = .ok (.shared id)) :
      p = [.name "shelf"] := by
    rcases get_holder h with ⟨rfl, ⟨⟩⟩ | ⟨rfl, -⟩ | ⟨_, ⟨⟩⟩ | ⟨⟨⟩⟩ | ⟨⟨⟩⟩
    rfl
  have hscalar {p : Path} {e : Cell} (h : shelf.get (.scalar (.bool true)) p = .ok e) :=
    get_of_scalar h
  refine ⟨set_in_place ?_ ?_ ?_ ?_ _, rfl⟩
  · exact fun p q id hp hq => (hshared hp).trans (hshared hq).symm
  · intro p d fields hd hf
    rcases get_holder hd with ⟨-, rfl⟩ | ⟨-, rfl⟩ | ⟨_, rfl⟩ | rfl | rfl <;> cases hf <;> decide
  · intro p d fields hd hf
    rw [hscalar hd] at hf
    cases hf
  · rintro id - ⟨p, hp⟩
    cases hscalar hp

end Store

end Parley
