import Parley.Proofs.Cells

/-!
# Writing along a trail

A write copies containers out on its way down and stores them back on its way up. What that comes to
is said without the trail: the copies are one replacement inside the container that the trail hangs
off, and that container is the only one that is written to.

* `Store.Writing.on` : what a computation yields in a store, and the store it leaves.
* `Store.Put` : a cell with another part, no shared record on the way to it.
* `Store.descend_last` : where a trail comes to; `Store.descend_put` : the copies that it takes, and
  what storing them back does.
* `Store.Sets`, `Store.on_set`, `Store.exists_sets` : what a write does where there is such a part,
  and `Store.on_set_error` : it fails as reading does where there is none, before it writes.
-/

namespace Parley.Store

variable {s t : Store} {root top c c' d d' x y : Cell} {step leaf : Step} {p q : Path} {id : Nat}
  {n : String} {e : Error} {fields fields' : List (String × Cell)}

/-! ## Running -/

/-- What a computation yields in a store, and the store it leaves. -/
def Writing.on {α : Type} (w : Writing α) (s : Store) : Except Error α × Store :=
  (ExceptT.run w).run s

section Running

variable {α β : Type} {w : Writing α} {a : α}

theorem on_bind (w : Writing α) (f : α → Writing β) (s : Store) :
    (w >>= f).on s =
      match w.on s with
      | (.ok a, t) => (f a).on t
      | (.error e, t) => (.error e, t) := by
  unfold Writing.on
  rw [ExceptT.run_bind, StateT.run_bind]
  rcases StateT.run (ExceptT.run w) s with ⟨_ | _, t⟩ <;> rfl

theorem on_lift (r : Except Error α) (s : Store) : (liftM r : Writing α).on s = (r, s) := by
  cases r <;> rfl

theorem on_read_bind (f : Store → Writing β) (s : Store) :
    ((getThe Store : Writing Store) >>= f).on s = (f s).on s :=
  rfl

theorem on_bind_of_ok (f : α → Writing β) (h : w.on s = (.ok a, t)) :
    (w >>= f).on s = (f a).on t := by
  rw [on_bind, h]

theorem on_bind_of_error (f : α → Writing β) (h : w.on s = (.error e, t)) :
    (w >>= f).on s = (.error e, t) := by
  rw [on_bind, h]

theorem on_lift_bind_of_ok {r : Except Error α} (f : α → Writing β) (h : r = .ok a) :
    ((liftM r : Writing α) >>= f).on s = (f a).on s :=
  on_bind_of_ok f ((on_lift r s).trans (h ▸ rfl))

theorem on_lift_bind_of_error {r : Except Error α} (f : α → Writing β) (h : r = .error e) :
    ((liftM r : Writing α) >>= f).on s = (.error e, s) :=
  on_bind_of_error f ((on_lift r s).trans (h ▸ rfl))

end Running

/-! ## One step -/

theorem on_setMember_array {items : List Cell} {k : Nat} (hk : k < items.length) (x : Cell)
    (s : Store) :
    (setMember (.array items) (.index k) x).on s = (.ok (.array (items.set k x)), s) := by
  rw [setMember, on_lift_bind_of_ok _ (position_eq_ok.2 rfl)]
  show Writing.on (if _ then _ else _) s = _
  rw [if_pos hk]
  rfl

theorem on_setMember_record (h : Table.set? n x fields = some fields') (s : Store) :
    (setMember (.record fields) (.name n) x).on s = (.ok (.record fields'), s) := by
  simp only [setMember, h]
  rfl

theorem on_setMember_shared (h : Table.set? n x (s.fields id) = some fields') :
    (setMember (.shared id) (.name n) x).on s = (.ok (.shared id), s.write id fields') := by
  rw [setMember, on_read_bind]
  simp only [h]
  rfl

theorem on_setMember_error (h : s.member c step = .error e) (x : Cell) :
    (setMember c step x).on s = (.error e, s) := by
  cases step with
  | index i =>
    cases c with
    | scalar v => cases h; rfl
    | record fields => cases h; rfl
    | shared id => cases h; rfl
    | array items =>
      rw [setMember]
      cases hk : position i with
      | error e' =>
        rw [member, hk] at h
        cases h
        exact on_lift_bind_of_error _ rfl
      | ok k =>
        rw [member, hk, bind_of_ok rfl] at h
        rw [on_lift_bind_of_ok _ rfl]
        cases hd : items[k]? with
        | some d => rw [hd] at h; cases h
        | none =>
          rw [hd] at h
          cases h
          show Writing.on (if _ then _ else _) s = _
          rw [if_neg (Nat.not_lt.2 (List.getElem?_eq_none_iff.1 hd))]
          rfl
  | name n =>
    rw [member_name] at h
    cases c with
    | scalar v => cases h; rfl
    | array items => cases h; rfl
    | record fields =>
      cases hn : Table.find? n fields with
      | some d => simp only [fields?, hn] at h; cases h
      | none =>
        simp only [fields?, hn] at h
        cases h
        simp only [setMember, Table.set?_eq_none hn]
        rfl
    | shared id =>
      cases hn : Table.find? n (s.fields id) with
      | some d => simp only [fields?, hn] at h; cases h
      | none =>
        simp only [fields?, hn] at h
        cases h
        rw [setMember, on_read_bind]
        simp only [Table.set?_eq_none hn]
        rfl

theorem on_setMember_member (h : s.member c step = .ok d) :
    (setMember c step d).on s = (.ok c, s) := by
  cases step with
  | index i =>
    obtain ⟨items, k, rfl, rfl, hk⟩ := member_index_eq_ok.1 h
    obtain ⟨hlt, rfl⟩ := List.getElem?_eq_some_iff.1 hk
    rw [on_setMember_array hlt, List.set_getElem_self]
  | name n =>
    obtain ⟨fields, hf, hn⟩ := member_name_eq_ok.1 h
    rcases eq_of_fields? hf with rfl | ⟨id, rfl, rfl⟩
    · exact on_setMember_record (Table.set?_find? hn) s
    · rw [on_setMember_shared (Table.set?_find? hn), write_fields]

/-! ## Replacing without shared records on the way -/

/-- The cell with `x` for the part at a path that enters arrays and records with value semantics
only. -/
inductive Put (x : Cell) : Cell → Path → Cell → Prop
  | here (c : Cell) : Put x c [] x
  | item {items : List Cell} {k : Nat} {c c' : Cell} {p : Path} (hc : items[k]? = some c)
      (h : Put x c p c') : Put x (.array items) (.index k :: p) (.array (items.set k c'))
  | field {fields fields' : List (String × Cell)} {n : String} {c c' : Cell} {p : Path}
      (hc : Table.find? n fields = some c) (h : Put x c p c')
      (hs : Table.set? n c' fields = some fields') :
      Put x (.record fields) (.name n :: p) (.record fields')

namespace Put

theorem eq_of_nil (h : Put x c [] c') : c' = x := by
  cases h
  rfl

theorem of_cons (h : Put x c (step :: p) c') :
    ∃ d d', (∀ t : Store, t.member c step = .ok d) ∧ Put x d p d' ∧
      ∀ t, (setMember c step d').on t = (.ok c', t) := by
  cases h with
  | item hc h =>
    obtain ⟨hlt, -⟩ := List.getElem?_eq_some_iff.1 hc
    exact ⟨_, _, fun t => member_index_eq_ok.2 ⟨_, _, rfl, rfl, hc⟩, h, on_setMember_array hlt _⟩
  | field hc h hs =>
    exact ⟨_, _, fun t => member_name_eq_ok.2 ⟨_, rfl, hc⟩, h, on_setMember_record hs⟩

theorem ne_shared (h : Put x c p c') (hp : p ≠ []) (id : Nat) : c ≠ .shared id := by
  cases h with
  | here => exact absurd rfl hp
  | item => exact nofun
  | field => exact nofun

/-- A replacement in a part, stored back where the cell has value semantics. -/
theorem exists_cons (hc : ∀ id, c ≠ .shared id) (hd : s.member c step = .ok d)
    (h : Put x d p d') : ∃ c', Put x c (step :: p) c' := by
  cases step with
  | index i =>
    obtain ⟨items, k, rfl, rfl, hk⟩ := member_index_eq_ok.1 hd
    exact ⟨_, .item hk h⟩
  | name n =>
    obtain ⟨fields, hf, hn⟩ := member_name_eq_ok.1 hd
    rcases eq_of_fields? hf with rfl | ⟨id, rfl, -⟩
    · obtain ⟨fields', hs⟩ := Table.exists_set? (Table.mem_keys_of_find? hn) d'
      exact ⟨_, .field hn h hs⟩
    · exact absurd rfl (hc id)

end Put

/-! ## Trails -/

theorem last_enter (root : Cell) (trail : Trail) (step : Step) (c : Cell) :
    (trail.enter step c).last root = c := by
  cases c <;> rfl

theorem enter_of_ne_shared (trail : Trail) (step : Step) (hc : ∀ id, c ≠ .shared id) :
    trail.enter step c = ⟨trail.anchor, (step, c) :: trail.copies⟩ := by
  cases c with
  | shared id => exact absurd rfl (hc id)
  | scalar v => rfl
  | array items => rfl
  | record fields => rfl

theorem descend_cons {trail : Trail} (hd : s.member (trail.last root) step = .ok d) (p : Path) :
    s.descend root trail (step :: p) = s.descend root (trail.enter step d) p :=
  bind_of_ok hd _

/-- A trail comes to the cell that its path leads to, or fails as reading does. -/
theorem descend_last (s : Store) (root : Cell) (trail : Trail) (p : Path) :
    (s.descend root trail p).map (Trail.last root) = s.get (trail.last root) p := by
  induction p generalizing trail with
  | nil => rfl
  | cons step p ih =>
    cases hd : s.member (trail.last root) step with
    | error e =>
      rw [descend, get, hd]
      rfl
    | ok d => rw [descend_cons hd, ih, last_enter, get, bind_of_ok hd]

theorem descend_append (s : Store) (root : Cell) (trail : Trail) (p q : Path) :
    s.descend root trail (p ++ q) =
      s.descend root trail p >>= fun trail => s.descend root trail q := by
  induction p generalizing trail with
  | nil => rfl
  | cons step p ih =>
    rw [List.cons_append, descend, descend, bind_assoc]
    exact bind_congr fun d => ih (trail.enter step d)

/-- At a shared record a trail begins anew. -/
theorem descend_shared (hne : p ≠ []) (h : s.get root p = .ok (.shared id)) :
    s.descend root ⟨none, []⟩ p = .ok ⟨some (.shared id), []⟩ := by
  obtain ⟨q, step, rfl⟩ := (List.eq_nil_or_concat' p).resolve_left hne
  obtain ⟨d, hd, h⟩ := get_append_eq_ok.1 h
  obtain ⟨_, hm, ⟨⟩⟩ := get_cons_eq_ok.1 h
  obtain ⟨trail, ht, rfl⟩ := map_eq_ok.1 ((descend_last s root ⟨none, []⟩ q).trans hd)
  rw [descend_append, bind_of_ok ht, descend_cons hm]
  rfl

/-- The containers below a copy are copied as well, and stored back into it. -/
theorem descend_below (s : Store) (root : Cell) (anchor : Option Cell) (step : Step)
    (copies : List (Step × Cell)) (h : Put x d (p ++ [leaf]) d') :
    ∃ copies', s.descend root ⟨anchor, (step, d) :: copies⟩ p = .ok ⟨anchor, copies'⟩ ∧
      ∀ top t, (storeBack top leaf x copies').on t = (storeBack top step d' copies).on t := by
  induction p generalizing d d' step copies with
  | nil =>
    obtain ⟨_, _, -, hx, hback⟩ := h.of_cons
    obtain rfl := hx.eq_of_nil
    exact ⟨_, rfl, fun top t => on_bind_of_ok _ (hback t)⟩
  | cons step' p ih =>
    obtain ⟨c, c', hc, hput, hback⟩ := h.of_cons
    obtain ⟨copies', hdesc, hrun⟩ := ih step' ((step, d) :: copies) hput
    refine ⟨copies', ?_, fun top t => (hrun top t).trans (on_bind_of_ok _ (hback t))⟩
    rw [descend_cons (hc s), enter_of_ne_shared _ _ (hput.ne_shared (List.concat_ne_nil _ _))]
    exact hdesc

/-- Storing back comes to one write to the container that the trail hangs off. -/
theorem descend_put (root : Cell) (anchor : Option Cell) (hd : s.member top step = .ok d)
    (h : Put x d p d') (ht : (⟨anchor, []⟩ : Trail).last root = top) :
    ∃ q leaf copies, step :: p = q ++ [leaf] ∧
      s.descend root ⟨anchor, []⟩ q = .ok ⟨anchor, copies⟩ ∧
      ∀ t, (storeBack top leaf x copies).on t = (setMember top step d').on t := by
  rcases List.eq_nil_or_concat' p with rfl | ⟨q, leaf, rfl⟩
  · obtain rfl := h.eq_of_nil
    exact ⟨[], step, [], rfl, rfl, fun t => rfl⟩
  · obtain ⟨copies, hdesc, hrun⟩ := descend_below s root anchor step [] h
    refine ⟨step :: q, leaf, copies, rfl, ?_, hrun top⟩
    rw [descend_cons (ht ▸ hd), enter_of_ne_shared _ _ (h.ne_shared (List.concat_ne_nil _ _))]
    exact hdesc

/-! ## What a write does -/

/-- What a write of `x` at a path makes of a cell and of the store: if the path enters no shared
record on the way, the cell is another one and the store stays; if it does, the cell stays and the
last such record is written. -/
inductive Sets (s : Store) (x c : Cell) : Path → Cell → Store → Prop
  | inside {p : Path} {c' : Cell} (h : Put x c p c') : Sets s x c p c' s
  | below {q r : Path} {id : Nat} {n : String} {d d' : Cell} {fields' : List (String × Cell)}
      (hq : s.get c q = .ok (.shared id)) (hd : Table.find? n (s.fields id) = some d)
      (h : Put x d r d') (hs : Table.set? n d' (s.fields id) = some fields') :
      Sets s x c (q ++ .name n :: r) c (s.write id fields')

theorem exists_sets (h : s.get c p = .ok y) (x : Cell) : ∃ c' t, s.Sets x c p c' t := by
  induction p generalizing c with
  | nil => exact ⟨x, s, .inside (.here c)⟩
  | cons step p ih =>
    obtain ⟨d, hd, h⟩ := get_cons_eq_ok.1 h
    obtain ⟨d', t, hsets⟩ := ih h
    cases hsets with
    | below hq hf hput hs => exact ⟨c, _, .below (get_cons_eq_ok.2 ⟨d, hd, hq⟩) hf hput hs⟩
    | inside hput =>
      by_cases hc : ∀ id, c ≠ .shared id
      · obtain ⟨c', hput⟩ := Put.exists_cons hc hd hput
        exact ⟨c', s, .inside hput⟩
      · -- the cell itself is the last shared record on the way
        obtain ⟨id, rfl⟩ := not_forall_not.1 hc
        cases step with
        | index i => cases hd
        | name n =>
          obtain ⟨_, ⟨⟩, hn⟩ := member_name_eq_ok.1 hd
          obtain ⟨fields', hs⟩ := Table.exists_set? (Table.mem_keys_of_find? hn) d'
          exact ⟨.shared id, _, .below (q := []) rfl hn hput hs⟩

theorem on_set_of_descend {anchor : Option Cell} {copies : List (Step × Cell)}
    (h : s.descend c ⟨none, []⟩ q = .ok ⟨anchor, copies⟩) (x : Cell) (leaf : Step) :
    (set x c (q ++ [leaf])).on s =
      match anchor with
      | none => (storeBack c leaf x copies).on s
      | some record =>
        (storeBack record leaf x copies >>= fun _ => pure c : Writing Cell).on s := by
  rw [set, List.getLast?_concat, List.dropLast_concat]
  show Writing.on (getThe Store >>= _) s = _
  rw [on_read_bind, on_lift_bind_of_ok _ h]
  cases anchor <;> rfl

theorem on_set (h : s.Sets x c p c' t) : (set x c p).on s = (.ok c', t) := by
  cases h with
  | inside h =>
    cases p with
    | nil =>
      obtain rfl := h.eq_of_nil
      rfl
    | cons step p =>
      obtain ⟨d, d', hd, hput, hback⟩ := h.of_cons
      obtain ⟨q, leaf, copies, hp, hdesc, hrun⟩ := descend_put c none (hd s) hput rfl
      rw [hp, on_set_of_descend hdesc]
      exact (hrun s).trans (hback s)
  | @below q r id n d d' fields' hq hd h hs =>
    have hm : s.member (.shared id) (.name n) = .ok d := member_name_eq_ok.2 ⟨_, rfl, hd⟩
    cases q with
    | nil =>
      obtain rfl := Except.ok.inj hq
      obtain ⟨q, leaf, copies, hp, hdesc, hrun⟩ := descend_put (.shared id) none hm h rfl
      rw [List.nil_append, hp, on_set_of_descend hdesc]
      exact (hrun s).trans (on_setMember_shared hs)
    | cons step q =>
      obtain ⟨q', leaf, copies, hp, hdesc, hrun⟩ := descend_put c (some (.shared id)) hm h rfl
      have hfrom := descend_shared (List.cons_ne_nil step q) hq
      rw [hp, ← List.append_assoc, on_set_of_descend ((descend_append ..).trans
        ((bind_of_ok hfrom _).trans hdesc))]
      exact on_bind_of_ok _ ((hrun s).trans (on_setMember_shared hs))

theorem on_storeBack_error (x : Cell) {anchor : Option Cell} {copies : List (Step × Cell)}
    (h : s.member ((⟨anchor, copies⟩ : Trail).last root) leaf = .error e) :
    (storeBack (anchor.getD root) leaf x copies).on s = (.error e, s) := by
  cases copies with
  | nil => exact on_setMember_error h x
  | cons copy copies => exact on_bind_of_error _ (on_setMember_error h x)

/-- Where there is no part to be replaced, a write fails as reading does and changes nothing. -/
theorem on_set_error (h : s.get c p = .error e) (x : Cell) : (set x c p).on s = (.error e, s) := by
  rcases List.eq_nil_or_concat' p with rfl | ⟨q, leaf, rfl⟩
  · cases h
  have hlast : (s.descend c ⟨none, []⟩ q).map (Trail.last c) = s.get c q :=
    descend_last s c ⟨none, []⟩ q
  rw [get_append, ← hlast] at h
  cases hdesc : s.descend c ⟨none, []⟩ q with
  | error e' =>
    rw [hdesc] at h
    cases h
    rw [set, List.getLast?_concat, List.dropLast_concat]
    show Writing.on (getThe Store >>= _) s = _
    rw [on_read_bind, on_lift_bind_of_error _ hdesc]
  | ok trail =>
    -- the step that fails is the last one, into the container that the trail came to
    rw [hdesc] at h
    have hm : s.member (trail.last c) leaf = .error e := (get_singleton s _ leaf).symm.trans h
    obtain ⟨anchor, copies⟩ := trail
    rw [on_set_of_descend hdesc]
    cases anchor with
    | none => exact on_storeBack_error x hm
    | some record => exact on_bind_of_error _ (on_storeBack_error x hm)

end Parley.Store
