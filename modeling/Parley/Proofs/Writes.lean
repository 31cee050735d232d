import Parley.Proofs.Trails

/-!
# Reading after a write

A write puts a part in the place of another one and is seen nowhere else.

* `Store.Put` : the laws of a replacement that enters no shared record.
* `Store.Sets.get`, `Store.Sets.get_apart`, `Store.Sets.exists_again`, `Store.Sets.back` : what is
  read at the path and apart from it, and what a second write does.
* `Store.Sets.of_shared` : below a shared record, the last one on the way is all that is written.
* `Store.replace`, `Store.Sets.on_replace` : replacing a part by recursion, with every container
  stored back, comes to the same.
-/

namespace Parley.Store

variable {s t : Store} {c c' d d' x y z : Cell} {step : Step} {p q : Path} {id : Nat}
  {n : String} {fields fields' : List (String × Cell)}

/-! ## Parts after a replacement -/

theorem toOption_member_set {items : List Cell} {k : Nat} (hlt : k < items.length) (x : Cell)
    (s : Store) (step : Step) :
    (s.member (.array (items.set k x)) step).toOption =
      if .index k = step then some x else (s.member (.array items) step).toOption := by
  cases step with
  | name n => rfl
  | index i =>
    rw [toOption_member_index, toOption_member_index]
    cases hi : position i with
    | error e =>
      have hne : Step.index k ≠ .index i := by
        rintro ⟨⟩
        exact nomatch hi.symm.trans (position_eq_ok.2 rfl)
      rw [if_neg hne]
      rfl
    | ok j =>
      obtain rfl := position_eq_ok.1 hi
      by_cases hkj : k = j
      · subst hkj
        rw [if_pos rfl]
        exact List.getElem?_set_self hlt
      · have hne : Step.index k ≠ .index j := fun h => hkj (Int.ofNat_inj.1 (Step.index.inj h))
        rw [if_neg hne]
        exact List.getElem?_set_ne hkj

theorem toOption_member_set? (hf : s.fields? c = some fields) (hf' : t.fields? c' = some fields')
    (hs : Table.set? n x fields = some fields') (step : Step) :
    (t.member c' step).toOption =
      if .name n = step then some x else (s.member c step).toOption := by
  cases step with
  | index i =>
    rw [if_neg nofun]
    rcases eq_of_fields? hf with rfl | ⟨_, rfl, -⟩ <;>
      rcases eq_of_fields? hf' with rfl | ⟨_, rfl, -⟩ <;> rfl
  | name m =>
    rw [toOption_member_name, toOption_member_name, hf, hf', Option.bind_some, Option.bind_some,
      Table.find?_set? m hs]
    by_cases h : n = m
    · rw [if_pos h, if_pos (congrArg Step.name h)]
    · rw [if_neg h, if_neg fun he => h (Step.name.inj he)]

/-- A write one step into a cell is seen in that part. -/
theorem toOption_member_setMember (h : (setMember c step x).on s = (.ok c', t)) (step' : Step) :
    (t.member c' step').toOption =
      if step = step' then some x else (s.member c step').toOption := by
  cases hd : s.member c step with
  | error e =>
    rw [on_setMember_error hd] at h
    cases h
  | ok d =>
    cases step with
    | index i =>
      obtain ⟨items, k, rfl, rfl, hk⟩ := member_index_eq_ok.1 hd
      obtain ⟨hlt, -⟩ := List.getElem?_eq_some_iff.1 hk
      rw [on_setMember_array hlt] at h
      cases h
      exact toOption_member_set hlt x s step'
    | name n =>
      obtain ⟨fields, hf, hn⟩ := member_name_eq_ok.1 hd
      obtain ⟨fields', hs⟩ := Table.exists_set? (Table.mem_keys_of_find? hn) x
      rcases eq_of_fields? hf with rfl | ⟨id, rfl, rfl⟩
      · rw [on_setMember_record hs] at h
        cases h
        exact toOption_member_set? rfl rfl hs step'
      · rw [on_setMember_shared hs] at h
        cases h
        have hf : (s.write id fields').fields? (.shared id) = some fields' :=
          congrArg some (fields_write_self (lt_of_member hd))
        exact toOption_member_set? rfl hf hs step'

namespace Put

theorem get (h : Put x c p c') (t : Store) : t.get c' p = .ok x := by
  induction p generalizing c c' with
  | nil =>
    rw [h.eq_of_nil]
    rfl
  | cons step p ih =>
    obtain ⟨d, d', -, hput, hback⟩ := h.of_cons
    have hd' := (toOption_member_setMember (hback t) step).trans (if_pos rfl)
    exact get_cons_eq_ok.2 ⟨d', toOption_eq_some.1 hd', ih hput⟩

theorem get_apart (h : Put x c p c') (ha : p.Apart q) (t : Store) :
    (t.get c' q).toOption = (t.get c q).toOption := by
  induction p generalizing q c c' with
  | nil => exact absurd ha (Path.not_nil_apart q)
  | cons step p ih =>
    cases q with
    | nil => exact absurd ha (Path.not_apart_nil _)
    | cons step' q =>
      obtain ⟨d, d', hd, hput, hback⟩ := h.of_cons
      rw [toOption_get_cons, toOption_get_cons, toOption_member_setMember (hback t)]
      rcases Path.apart_cons.1 ha with hne | ⟨rfl, hp⟩
      · rw [if_neg hne]
      · rw [if_pos rfl, hd t]
        exact ih hput hp

/-- No shared record is on the way. -/
theorem get_ne_shared (h : Put x c (p ++ q) c') (hq : q ≠ []) (t : Store) (id : Nat) :
    t.get c p ≠ .ok (.shared id) := by
  induction p generalizing c c' with
  | nil => exact fun hc => h.ne_shared hq id (Except.ok.inj hc)
  | cons step p ih =>
    obtain ⟨d, d', hd, hput, -⟩ := h.of_cons
    intro hget
    obtain ⟨e, he, hget⟩ := get_cons_eq_ok.1 hget
    cases (hd t).symm.trans he
    exact ih hput hget

theorem reaches (h : Put x c p c') (hr : t.Reaches c' id) : t.Reaches c id ∨ t.Reaches x id := by
  induction p generalizing c c' with
  | nil =>
    obtain rfl := h.eq_of_nil
    exact Or.inr hr
  | cons step p ih =>
    obtain ⟨d, d', hd, hput, hback⟩ := h.of_cons
    obtain ⟨q, hq⟩ := hr
    cases q with
    | nil =>
      obtain rfl := Except.ok.inj hq
      cases h
    | cons step' q =>
      obtain ⟨e, he, hq⟩ := get_cons_eq_ok.1 hq
      have he := toOption_eq_some.2 he
      rw [toOption_member_setMember (hback t)] at he
      split at he
      · cases he
        exact (ih hput ⟨q, hq⟩).imp_left (Reaches.of_member (hd t))
      · exact Or.inl (Reaches.of_member (toOption_eq_some.1 he) ⟨q, hq⟩)

theorem keyed (h : Put x c p c') (hc : t.Keyed c) (hx : t.Keyed x) : t.Keyed c' := by
  induction p generalizing c c' with
  | nil =>
    obtain rfl := h.eq_of_nil
    exact hx
  | cons step p ih =>
    obtain ⟨d, d', hd, hput, hback⟩ := h.of_cons
    intro q e fields hq hf
    cases q with
    | nil =>
      obtain rfl := Except.ok.inj hq
      cases h with
      | item => cases hf
      | field _ _ hs =>
        cases hf
        rw [Table.keys_set? hs]
        exact hc.nodup rfl
    | cons step' q =>
      obtain ⟨a, ha, hq⟩ := get_cons_eq_ok.1 hq
      have ha := toOption_eq_some.2 ha
      rw [toOption_member_setMember (hback t)] at ha
      split at ha
      · cases ha
        exact ih hput (hc.member (hd t)) q e fields hq hf
      · exact hc.member (toOption_eq_some.1 ha) q e fields hq hf

theorem exists_again (h : Put x c p c') (z : Cell) : ∃ c'', Put z c p c'' ∧ Put z c' p c'' := by
  induction h with
  | here c => exact ⟨z, .here c, .here _⟩
  | @item items k c c' p hc h ih =>
    obtain ⟨c'', h1, h2⟩ := ih
    obtain ⟨hlt, -⟩ := List.getElem?_eq_some_iff.1 hc
    refine ⟨_, .item hc h1, ?_⟩
    have := Put.item (List.getElem?_set_self hlt) h2
    rwa [List.set_set] at this
  | @field fields fields' n c c' p hc h hs ih =>
    obtain ⟨c'', h1, h2⟩ := ih
    obtain ⟨fields'', hs'⟩ := Table.exists_set? (Table.mem_keys_of_find? hc) c''
    refine ⟨_, .field hc h1 hs', .field ?_ h2 ((Table.set?_set? c'' hs).trans hs')⟩
    rw [Table.find?_set? n hs, if_pos rfl]

theorem back (h : Put x c p c') (hy : t.get c p = .ok y) : Put y c p c := by
  induction h with
  | here c =>
    obtain rfl := Except.ok.inj hy
    exact .here c
  | @item items k c c' p hc h ih =>
    obtain ⟨d, hd, hy⟩ := get_cons_eq_ok.1 hy
    cases hd.symm.trans (member_index_eq_ok.2 ⟨items, k, rfl, rfl, hc⟩)
    obtain ⟨hlt, rfl⟩ := List.getElem?_eq_some_iff.1 hc
    have := Put.item hc (ih hy)
    rwa [List.set_getElem_self] at this
  | @field fields fields' n c c' p hc h hs ih =>
    obtain ⟨d, hd, hy⟩ := get_cons_eq_ok.1 hy
    cases hd.symm.trans (member_name_eq_ok.2 ⟨fields, rfl, hc⟩)
    exact .field hc (ih hy) (Table.set?_find? hc)

/-- In the tree of the cell, the part is replaced by the tree of what is put there. -/
theorem set_tree (h : Put x c p c') (look : Nat → Value) :
    (tree look c).set (tree look x) p = .ok (tree look c') := by
  induction h with
  | here c => rfl
  | @item items k c c' p hc h ih =>
    obtain ⟨hlt, -⟩ := List.getElem?_eq_some_iff.1 hc
    rw [tree_array, tree_array, List.map_set]
    refine Value.set_cons.2 ⟨_, _, Value.member_index_eq_ok.2 ⟨_, k, rfl, rfl, ?_⟩, ih,
      Value.setMember_index_eq_ok.2 ⟨_, k, rfl, rfl, ?_, rfl⟩⟩
    · rw [List.getElem?_map, hc, Option.map_some]
    · rwa [List.length_map]
  | @field fields fields' n c c' p hc h hs ih =>
    rw [tree, tree, fieldTrees_eq, fieldTrees_eq]
    refine Value.set_cons.2 ⟨_, _, Value.member_name_eq_ok.2 ⟨_, _, rfl, ?_⟩, ih,
      Value.setMember_name_eq_ok.2 ⟨_, _, _, rfl, ?_, rfl⟩⟩
    · rw [Table.find?_map_snd, hc, Option.map_some]
    · rw [Table.set?_map_snd, hs, Option.map_some]

end Put

/-! ## Reading after a write -/

section Below

/-! What a write below a shared record does to reading. -/

variable {r : Path} (hu : s.Unshared c) (hq : s.get c q = .ok (.shared id))
  (hd : Table.find? n (s.fields id) = some d) (hs : Table.set? n d' (s.fields id) = some fields')

include hd in
theorem member_shared : s.member (.shared id) (.name n) = .ok d :=
  member_name_eq_ok.2 ⟨_, rfl, hd⟩

include hu hq in
theorem get_write_shared : (s.write id fields').get c q = .ok (.shared id) := by
  refine toOption_eq_some.1 ((get_write fields' fun u v huv hv hget => hv ?_).trans
    (toOption_eq_some.2 hq))
  have := hu u q id hget hq
  rwa [huv, eq_comm, List.append_right_eq_self] at this

include hs in
theorem toOption_member_write (step : Step) :
    ((s.write id fields').member (.shared id) step).toOption =
      if .name n = step then some d' else (s.member (.shared id) step).toOption :=
  toOption_member_setMember (on_setMember_shared hs) step

include hu hq hs in
theorem get_below (h : Put x d r d') : (s.write id fields').get c (q ++ .name n :: r) = .ok x :=
  get_append_eq_ok.2 ⟨_, get_write_shared hu hq, get_cons_eq_ok.2 ⟨d',
    toOption_eq_some.1 ((toOption_member_write hs _).trans (if_pos rfl)), h.get _⟩⟩

include hu hq hd hs in
theorem get_below_apart (h : Put x d r d') (ha : Path.Apart (q ++ .name n :: r) p) :
    ((s.write id fields').get c p).toOption = (s.get c p).toOption := by
  by_cases hp : ∃ u v, p = u ++ v ∧ v ≠ [] ∧ s.get c u = .ok (.shared id)
  · -- the path goes through the record, and parts from the other one below it
    obtain ⟨u, v, rfl, hv, hget⟩ := hp
    obtain rfl := hu u q id hget hq
    obtain ⟨step, v, rfl⟩ := List.exists_cons_of_ne_nil hv
    rw [get_append, get_append, toOption_bind, toOption_bind, get_write_shared hu hq, hq]
    show Option.bind (some _) _ = Option.bind (some _) _
    rw [Option.bind_some, Option.bind_some, toOption_get_cons, toOption_get_cons,
      toOption_member_write hs]
    have hpart {step : Step} {e : Cell} (he : s.member (.shared id) step = .ok e) (v : Path) :
        ((s.write id fields').get e v).toOption = (s.get e v).toOption :=
      get_write_of_not_reaches fields' (hu.acyclic.not_reaches_part hq he) v
    have ha : Path.Apart (.name n :: r) (step :: v) := by
      unfold Path.Apart at ha ⊢
      rwa [List.prefix_append_right_inj, List.prefix_append_right_inj] at ha
    rcases Path.apart_cons.1 ha with hne | ⟨rfl, hrv⟩
    · rw [if_neg hne]
      cases he : s.member (.shared id) step with
      | error e => rfl
      | ok e => exact hpart he v
    · rw [if_pos rfl, member_shared hd]
      exact (h.get_apart hrv _).trans (hpart (member_shared hd) v)
  · exact get_write fields' fun u v huv hv hget => hp ⟨u, v, huv, hv, hget⟩

end Below

namespace Sets

theorem get (h : s.Sets x c p c' t) (hu : s.Unshared c) : t.get c' p = .ok x := by
  cases h with
  | inside h => exact h.get s
  | below hq hd h hs => exact get_below hu hq hs h

theorem get_apart (h : s.Sets x c p c' t) (hu : s.Unshared c) (ha : p.Apart q) :
    (t.get c' q).toOption = (s.get c q).toOption := by
  cases h with
  | inside h => exact h.get_apart ha s
  | below hq hd h hs => exact get_below_apart hu hq hd hs h ha

/-- What is apart from the path stays the same through and through. -/
theorem snapshot_apart (h : s.Sets x c p c' t) (hu : s.Unshared c) (hk : s.Keyed c)
    (ha : p.Apart q) (hy : s.get c q = .ok y) : t.snapshot y = s.snapshot y := by
  cases h with
  | inside h => rfl
  | @below q' r id n d d' fields' hq hd h hs =>
    refine snapshot_write fields' (hk.get hy) fun ⟨u, hu'⟩ => ha.2 ?_
    have hqu := hu (q ++ u) q' id (get_append_eq_ok.2 ⟨y, hy, hu'⟩) hq
    exact (List.prefix_append q u).trans (hqu ▸ List.prefix_append ..)

theorem exists_again (h : s.Sets x c p c' t) (hu : s.Unshared c) (z : Cell) :
    ∃ c'' t', s.Sets z c p c'' t' ∧ t.Sets z c' p c'' t' := by
  cases h with
  | inside h =>
    obtain ⟨c'', h1, h2⟩ := h.exists_again z
    exact ⟨c'', s, .inside h1, .inside h2⟩
  | @below q r id n d d' fields' hq hd h hs =>
    obtain ⟨d'', h1, h2⟩ := h.exists_again z
    obtain ⟨fields'', hs'⟩ := Table.exists_set? (Table.mem_keys_of_find? hd) d''
    have hself : (s.write id fields').fields id = fields' :=
      fields_write_self (lt_of_member (member_shared hd))
    refine ⟨c, s.write id fields'', .below hq hd h1 hs', ?_⟩
    rw [← write_write s id fields' fields'']
    refine .below (get_write_shared hu hq) ?_ h2 ?_
    · rw [hself, Table.find?_set? n hs, if_pos rfl]
    · rw [hself, Table.set?_set? d'' hs, hs']

theorem back (h : s.Sets x c p c' t) (hy : s.get c p = .ok y) : s.Sets y c p c s := by
  cases h with
  | inside h => exact .inside (h.back hy)
  | @below q r id n d d' fields' hq hd h hs =>
    obtain ⟨_, hq', hy⟩ := get_append_eq_ok.1 hy
    cases hq.symm.trans hq'
    obtain ⟨_, hd', hy⟩ := get_cons_eq_ok.1 hy
    cases (member_shared hd).symm.trans hd'
    have := Sets.below hq hd (h.back hy) (Table.set?_find? hd)
    rwa [write_fields] at this

/-- Where no shared record is on the way, only the cell is another. -/
theorem eq_of_not_shared (h : s.Sets x c p c' t)
    (hp : ∀ q r id, p = q ++ r → r ≠ [] → s.get c q ≠ .ok (.shared id)) : t = s := by
  cases h with
  | inside h => rfl
  | below hq hd h hs => exact absurd hq (hp _ _ _ rfl (List.cons_ne_nil _ _))

/-- Where there are shared records on the way, only the last one is another: all who hold it find
the new part in it. -/
theorem of_shared {r : Path} (h : s.Sets x c (q ++ r) c' t) (hr : r ≠ [])
    (hq : s.get c q = .ok (.shared id))
    (hlast : ∀ u v j, r = u ++ v → u ≠ [] → v ≠ [] → s.get (.shared id) u ≠ .ok (.shared j)) :
    c' = c ∧ (∃ fields', Table.keys fields' = Table.keys (s.fields id) ∧ t = s.write id fields') ∧
      t.get (.shared id) r = .ok x := by
  generalize hp : q ++ r = p at h
  cases h with
  | inside h => exact absurd hq ((hp ▸ h : Put x c (q ++ r) c').get_ne_shared hr s id)
  | @below q' r' id' n d d' fields' hq' hd h hs =>
    -- neither record is below the other one
    obtain ⟨rfl, rfl⟩ : q = q' ∧ r = .name n :: r' := by
      rcases List.append_eq_append_iff.1 hp with ⟨u, rfl, rfl⟩ | ⟨u, rfl, hr'⟩
      · cases u with
        | nil => exact ⟨(List.append_nil q).symm, rfl⟩
        | cons step u =>
          obtain ⟨_, he, hq'⟩ := get_append_eq_ok.1 hq'
          cases hq.symm.trans he
          exact absurd hq' (hlast _ _ _ rfl (List.cons_ne_nil _ _) (List.cons_ne_nil _ _))
      · cases u with
        | nil => exact ⟨List.append_nil q', hr'.symm⟩
        | cons step u =>
          obtain ⟨rfl, rfl⟩ := List.cons.inj hr'
          obtain ⟨_, he, hq⟩ := get_append_eq_ok.1 hq
          cases hq'.symm.trans he
          obtain ⟨_, he, hq⟩ := get_cons_eq_ok.1 hq
          cases (member_shared hd).symm.trans he
          exact absurd hq (h.get_ne_shared hr s id)
    cases hq.symm.trans hq'
    refine ⟨rfl, ⟨fields', Table.keys_set? hs, rfl⟩, get_cons_eq_ok.2 ⟨d', ?_, h.get _⟩⟩
    exact toOption_eq_some.1 ((toOption_member_write hs _).trans (if_pos rfl))

end Sets

/-! ## Replacing by recursion -/

/-- The cell with `x` for the part at a path: the part of a part is replaced, and what that makes of
the part is stored back, whatever the cell is. -/
def replace (x c : Cell) : Path → Writing Cell
  | [] => return x
  | step :: p => do
    let d ← (← getThe Store).member c step
    setMember c step (← replace x d p)

theorem on_replace_cons (hd : s.member c step = .ok d) (hr : (replace x d p).on s = (.ok d', t)) :
    (replace x c (step :: p)).on s = (setMember c step d').on t := by
  rw [replace, on_read_bind, on_lift_bind_of_ok _ hd, on_bind_of_ok _ hr]

theorem on_replace_error {e : Error} (h : s.get c p = .error e) (x : Cell) :
    (replace x c p).on s = (.error e, s) := by
  induction p generalizing c with
  | nil => cases h
  | cons step p ih =>
    rw [replace, on_read_bind]
    cases hd : s.member c step with
    | error e' =>
      rw [Store.get, hd] at h
      cases h
      exact on_lift_bind_of_error _ rfl
    | ok d =>
      rw [Store.get, hd] at h
      rw [on_lift_bind_of_ok _ rfl]
      exact on_bind_of_error _ (ih h)

theorem Put.on_replace (h : Put x c p c') (s : Store) : (replace x c p).on s = (.ok c', s) := by
  induction p generalizing c c' with
  | nil =>
    rw [h.eq_of_nil]
    rfl
  | cons step p ih =>
    obtain ⟨d, d', hd, hput, hback⟩ := h.of_cons
    rw [on_replace_cons (hd s) (ih hput), hback]

/-- Storing the cells above the last shared record back, as recursion does, makes no difference. -/
theorem Sets.on_replace (h : s.Sets x c p c' t) (hu : s.Unshared c) :
    (replace x c p).on s = (.ok c', t) := by
  cases h with
  | inside h => exact h.on_replace s
  | @below q r id n d d' fields' hq hd h hs =>
    induction q generalizing c with
    | nil =>
      obtain rfl := Except.ok.inj hq
      rw [List.nil_append, on_replace_cons (member_shared hd) (h.on_replace s),
        on_setMember_shared hs]
    | cons step q ih =>
      obtain ⟨e, he, hq'⟩ := get_cons_eq_ok.1 hq
      have hue := hu.get (p := [step]) ((get_singleton s c step).trans he)
      have hne : c ≠ .shared id := by
        rintro rfl
        exact nomatch hu [] (step :: q) id rfl hq
      have he' : (s.write id fields').member c step = .ok e := toOption_eq_some.1
        ((toOption_member_congr (fields?_write hne) step).trans (toOption_eq_some.2 he))
      rw [List.cons_append, on_replace_cons he (ih hue hq'), on_setMember_member he']

end Parley.Store
