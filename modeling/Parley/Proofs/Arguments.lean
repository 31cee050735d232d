import Parley.Proofs.Coverage

/-!
# Argument lists

The entries of an argument list may come in any order: those about one argument need not stand
together.

* `own` : the entries about one argument.
* `Conveys` : entries that fit the types of a parameter list and carry all of every argument.
* `exists_fillArguments` : each entry is stored in its argument; the parts of the same argument that
  are apart from its entries stay, and so do the other arguments.
* `run_decodeArguments` : reading an argument list from its bytes yields the very arguments.
-/

namespace Parley

/-! ## Lists item by item -/

theorem getElem?_of_forall₂ {α β : Type} {R : α → β → Prop} {as : List α} {bs : List β}
    (h : List.Forall₂ R as bs) {i : Nat} {a : α} (ha : as[i]? = some a) :
    ∃ b, bs[i]? = some b ∧ R a b := by
  induction h generalizing i with
  | nil => cases ha
  | cons hr _ ih =>
    cases i with
    | zero =>
      cases ha
      exact ⟨_, rfl, hr⟩
    | succ i => exact ih ha

theorem exists_mapM_forall₂ {ε α β : Type} {f : α → Except ε β} {P : α → β → Prop} {as : List α}
    (h : ∀ a ∈ as, ∃ b, f a = .ok b ∧ P a b) :
    ∃ bs, as.mapM f = .ok bs ∧ List.Forall₂ P as bs := by
  induction as with
  | nil => exact ⟨[], rfl, .nil⟩
  | cons a as ih =>
    obtain ⟨b, hb, hp⟩ := h a List.mem_cons_self
    obtain ⟨bs, hbs, hps⟩ := ih fun x hx => h x (List.mem_cons_of_mem _ hx)
    exact ⟨b :: bs, mapM_cons_eq_ok.2 ⟨b, bs, hb, hbs, rfl⟩, .cons hp hps⟩

/-! ## Entries by argument -/

/-- The entries that are about one argument. -/
def own (entries : List (Nat × Encoding)) (i : Nat) : List Encoding :=
  (entries.filter (·.1 = i)).map Prod.snd

theorem own_cons_self (i : Nat) (e : Encoding) (entries : List (Nat × Encoding)) :
    own ((i, e) :: entries) i = e :: own entries i := by
  simp [own]

theorem own_cons_ne {i j : Nat} (h : i ≠ j) (e : Encoding) (entries : List (Nat × Encoding)) :
    own ((i, e) :: entries) j = own entries j := by
  simp [own, h]

/-- Every entry is about a parameter, and the entries about each fit its type and carry all of
it. -/
structure Conveys (entries : List (Nat × Encoding)) (types : List Ty) : Prop where
  taken : ∀ e ∈ entries, e.1 < types.length
  fits : ∀ i t, types[i]? = some t → Fits (own entries i) t
  covered : ∀ i (t : Ty), types[i]? = some t → t.Covered [] (own entries i)

/-! ## What is written -/

theorem encodeArguments_cons_eq_ofBytes {e e' : Encoding} {i : Nat} {rest : List Encoding}
    {args : List Value} {b : List UInt8} (h : e.splitParameter = .ok (i, e')) :
    encodeArguments (e :: rest) args = .ofBytes b ↔
      ∃ a x y, args[i]? = some a ∧ e'.write a = .ofBytes x ∧
        encodeArguments rest args = .ofBytes y ∧ b = x ++ y := by
  rw [encodeArguments, Emission.andThen_eq_ofBytes]
  simp only [bind_of_ok h, Emission.ofExcept_eq_ofBytes]
  cases args[i]? with
  | none =>
    constructor
    · rintro ⟨x, y, hx, -⟩
      cases hx
    · rintro ⟨_, _, _, ⟨⟩, -⟩
  | some a =>
    have hone {x : List UInt8} : (return encode [e'] a : Except Error Emission) = .ok (.ofBytes x) ↔
        e'.write a = .ofBytes x := by
      rw [encode, encode, Emission.andThen_nothing]
      exact ⟨Except.ok.inj, congrArg Except.ok⟩
    constructor
    · rintro ⟨x, y, hx, hy, rfl⟩
      exact ⟨a, x, y, rfl, hone.1 hx, hy, rfl⟩
    · rintro ⟨_, x, y, ⟨⟩, hx, hy, rfl⟩
      exact ⟨x, y, hone.2 hx, hy, rfl⟩

/-! ## What is read -/

theorem run_fillArguments_cons {types : List Ty} {i : Nat} {e : Encoding}
    {entries : List (Nat × Encoding)} {zs : List Value} {z w : Value} {t : Ty} {c c' : Cursor}
    (hz : zs[i]? = some z) (ht : types[i]? = some t) (hw : (e.read t z).run c = (.ok w, c')) :
    (fillArguments types ((i, e) :: entries) zs).run c =
      (fillArguments types entries (zs.set i w)).run c' := by
  have hfill : (fill [e] t z).run c = (.ok w, c') := by
    rw [fill, Reader.run_bind hw]
    rfl
  rw [fillArguments, hz, ht]
  exact Reader.run_bind hfill _

/-- Arguments of the given types, with entries about each that fit its type and hold keys of their
tables there. -/
def Suited (entries : List (Nat × Encoding)) (types : List Ty) (args : List Value) : Prop :=
  ∀ i t, types[i]? = some t → ∃ a, args[i]? = some a ∧ t.Has a ∧ Fits (own entries i) t ∧
    Keyed (own entries i) a

/-- Arguments of the given types, each with a part for every entry about it. -/
def Ready (entries : List (Nat × Encoding)) (types : List Ty) (zs : List Value) : Prop :=
  ∀ i t, types[i]? = some t → ∃ z, zs[i]? = some z ∧ t.Has z ∧
    ∀ e ∈ own entries i, ∃ x, z.get e.path = .ok x

theorem Suited.tail {i : Nat} {e : Encoding} {entries : List (Nat × Encoding)} {types : List Ty}
    {args : List Value} (h : Suited ((i, e) :: entries) types args) :
    Suited entries types args := by
  intro j t ht
  obtain ⟨a, ha, hta, hf, hk⟩ := h j t ht
  by_cases hij : i = j
  · subst hij
    rw [own_cons_self] at hf hk
    exact ⟨a, ha, hta, hf.2.2, hk.2⟩
  · rw [own_cons_ne hij] at hf hk
    exact ⟨a, ha, hta, hf, hk⟩

/-- An argument `z` into which entries were read, with `w` for its outcome: it agrees with the one
that was written, and apart from the entries it is as it was. -/
structure Restored (encoding : List Encoding) (t : Ty) (a z w : Value) : Prop where
  has : t.Has w
  agree : Agree encoding a w
  frame : ∀ q x, (∀ e ∈ encoding, e.path.Apart q) → z.get q = .ok x → w.get q = .ok x

/-- The other entries are apart from the first one, so its part stays as it was read. -/
theorem Restored.cons {e : Encoding} {encoding : List Encoding} {t : Ty}
    {a z part w w' : Value} (h : Restored encoding t a w w') (hset : z.set part e.path = .ok w)
    (hagree : e.Agree a w) (hapart : ∀ e' ∈ encoding, e.path.Apart e'.path) :
    Restored (e :: encoding) t a z w' where
  has := h.has
  agree := by
    have hpart : w'.get e.path = .ok part :=
      h.frame e.path part (fun e' he' => (hapart e' he').symm) (Value.get_set_self hset)
    exact ⟨hagree.of_get (Value.get_set_self hset) hpart, h.agree⟩
  frame q x hq hx := h.frame q x (fun e' he' => hq e' (List.mem_cons_of_mem _ he'))
    (Value.get_set_apart hset (hq e List.mem_cons_self) hx)

theorem Ready.set {i : Nat} {e : Encoding} {entries : List (Nat × Encoding)} {types : List Ty}
    {zs : List Value} {z w x : Value} {t : Ty} (h : Ready ((i, e) :: entries) types zs)
    (hz : zs[i]? = some z) (ht : types[i]? = some t) (hw : z.set x e.path = .ok w)
    (htw : t.Has w) (ha : ∀ e' ∈ own entries i, e.path.Apart e'.path) :
    Ready entries types (zs.set i w) := by
  intro j u hu
  obtain ⟨y, hy, hty, hp⟩ := h j u hu
  by_cases hij : i = j
  · subst hij
    cases hz.symm.trans hy
    cases ht.symm.trans hu
    refine ⟨w, List.getElem?_set_self (List.getElem?_eq_some_iff.1 hz).1, htw, fun e' he' => ?_⟩
    obtain ⟨part, hpart⟩ := hp e' (own_cons_self i e entries ▸ List.mem_cons_of_mem _ he')
    exact ⟨part, Value.get_set_apart hw (ha e' he') hpart⟩
  · rw [own_cons_ne hij] at hp
    exact ⟨y, (List.getElem?_set_ne hij).trans hy, hty, hp⟩

theorem exists_fillArguments {encoding : List Encoding} {entries : List (Nat × Encoding)}
    {types : List Ty} {args zs : List Value} {b : List UInt8}
    (hs : encoding.mapM Encoding.splitParameter = .ok entries) (hd : ∀ t ∈ types, t.Distinct)
    (htaken : ∀ e ∈ entries, e.1 < types.length) (hargs : Suited entries types args)
    (hb : encodeArguments encoding args = .ofBytes b) (hz : Ready entries types zs) (o : Nat)
    (rest : List UInt8) :
    ∃ ws, (fillArguments types entries zs).run ⟨o, b ++ rest⟩ = (.ok ws, ⟨o + b.length, rest⟩) ∧
      ws.length = zs.length ∧ ∀ i t a z, types[i]? = some t → args[i]? = some a →
        zs[i]? = some z → ∃ w, ws[i]? = some w ∧ Restored (own entries i) t a z w := by
  -- the invariant is `Ready`: each argument has a part for every entry about it that is to come
  induction encoding generalizing entries zs b o with
  | nil =>
    cases hs
    cases hb
    refine ⟨zs, rfl, rfl, fun i t a z ht _ hzi => ⟨z, hzi, ?_, trivial, fun _ _ _ hx => hx⟩⟩
    obtain ⟨_, hy, hty, -⟩ := hz i t ht
    cases hzi.symm.trans hy
    exact hty
  | cons e₀ encoding ih =>
    obtain ⟨⟨i, e⟩, entries, hsplit, hrest, rfl⟩ := mapM_cons_eq_ok.1 hs
    obtain ⟨a, x, y, ha, hx, hy, rfl⟩ := (encodeArguments_cons_eq_ofBytes hsplit).1 hb
    obtain ⟨t, ht⟩ : ∃ t, types[i]? = some t :=
      ⟨_, List.getElem?_eq_getElem (htaken (i, e) List.mem_cons_self)⟩
    have hown := own_cons_self i e entries
    obtain ⟨_, ha', hta, hfit, hkey⟩ := hargs i t ht
    cases ha.symm.trans ha'
    rw [hown] at hfit hkey
    have hapart : ∀ e' ∈ own entries i, e.path.Apart e'.path := hfit.2.1
    obtain ⟨z, hzi, htz, hp⟩ := hz i t ht
    obtain ⟨old, hold⟩ := hp e (hown ▸ List.mem_cons_self)
    obtain ⟨part, w, hread, hset, htw, hagree⟩ :=
      Encoding.restores_of_fits (hd t (List.mem_of_getElem? ht)) hfit.1 hta hkey.1 hx htz hold o
        (y ++ rest)
    obtain ⟨ws, hws, hlen, hall⟩ :=
      ih hrest (fun e' he' => htaken e' (List.mem_cons_of_mem _ he')) hargs.tail hy
        (hz.set hzi ht hset htw hapart) (o + x.length)
    refine ⟨ws, ?_, by rw [hlen, List.length_set], ?_⟩
    · rw [List.append_assoc, run_fillArguments_cons hzi ht hread, hws, List.length_append,
        Nat.add_assoc]
    · intro j u c z' hu hc hz'
      by_cases hij : i = j
      · subst hij
        cases ht.symm.trans hu
        cases ha.symm.trans hc
        cases hzi.symm.trans hz'
        obtain ⟨w', hw', hr⟩ := hall i t a w ht ha
          (List.getElem?_set_self (List.getElem?_eq_some_iff.1 hzi).1)
        exact ⟨w', hw', hown ▸ hr.cons hset hagree hapart⟩
      · obtain ⟨w', hw', hr⟩ := hall j u c z' hu hc ((List.getElem?_set_ne hij).trans hz')
        exact ⟨w', hw', (own_cons_ne hij e entries).symm ▸ hr⟩

/-- What is allocated for each parameter is what is allocated for the entries about it. -/
theorem construct_of_constructArguments {entries : List (Nat × Encoding)} {types : List Ty}
    {zs : List Value} (h : constructArguments entries types = .ok zs) :
    zs.length = types.length ∧ ∀ i t, types[i]? = some t →
      ∃ z, zs[i]? = some z ∧ construct (own entries i) t = .ok z := by
  have hall := mapM_eq_ok.1 h
  constructor
  · rw [← hall.length_eq, List.length_zipIdx]
  · intro i t ht
    have hzip : types.zipIdx[i]? = some (t, i) := by
      rw [List.getElem?_zipIdx, ht, Option.map_some, Nat.zero_add]
    exact getElem?_of_forall₂ hall hzip

theorem exists_constructArguments {entries : List (Nat × Encoding)} {types : List Ty}
    (hd : ∀ t ∈ types, t.Distinct) (hfits : ∀ i t, types[i]? = some t → Fits (own entries i) t) :
    ∃ zs, constructArguments entries types = .ok zs ∧ zs.length = types.length ∧
      Ready entries types zs := by
  have hall (p : Ty × Nat) (hp : p ∈ types.zipIdx) : ∃ z, construct (own entries p.2) p.1 = .ok z ∧
      p.1.Has z ∧ ∀ e ∈ own entries p.2, ∃ x, z.get e.path = .ok x := by
    have hget := List.mem_zipIdx_iff_getElem?.1 hp
    exact exists_construct (hd p.1 (List.mem_of_getElem? hget)) fun e he =>
      ((hfits p.2 p.1 hget).of_mem he).resolves
  obtain ⟨zs, hzs, hf⟩ := exists_mapM_forall₂ hall
  have hlen := hf.length_eq
  rw [List.length_zipIdx] at hlen
  refine ⟨zs, hzs, hlen.symm, ?_⟩
  intro i t ht
  have hzip : types.zipIdx[i]? = some (t, i) := by
    rw [List.getElem?_zipIdx, ht, Option.map_some, Nat.zero_add]
  exact getElem?_of_forall₂ hf hzip

/-- Arguments that entries convey are read back from their bytes. -/
theorem run_decodeArguments {encoding : List Encoding} {entries : List (Nat × Encoding)}
    {types : List Ty} {args : List Value} {b : List UInt8}
    (hs : encoding.mapM Encoding.splitParameter = .ok entries) (hd : ∀ t ∈ types, t.Distinct)
    (hc : Conveys entries types) (ht : List.Forall₂ Ty.Has types args)
    (hk : ∀ i a, args[i]? = some a → Keyed (own entries i) a)
    (hb : encodeArguments encoding args = .ofBytes b) (o : Nat) (rest : List UInt8) :
    (decodeArguments encoding types).run ⟨o, b ++ rest⟩ = (.ok args, ⟨o + b.length, rest⟩) := by
  have hargs : Suited entries types args := by
    intro i t hi
    obtain ⟨a, ha, hta⟩ := getElem?_of_forall₂ ht hi
    exact ⟨a, ha, hta, hc.fits i t hi, hk i a ha⟩
  obtain ⟨zs, hzs, hlen, hready⟩ := exists_constructArguments hd hc.fits
  obtain ⟨ws, hws, hlen', hall⟩ :=
    exists_fillArguments hs hd hc.taken hargs hb hready o rest
  have he : ws = args := by
    refine List.ext_getElem? fun i => ?_
    cases hi : types[i]? with
    | none =>
      have hle := List.getElem?_eq_none_iff.1 hi
      rw [List.getElem?_eq_none_iff.2 (by omega),
        List.getElem?_eq_none_iff.2 (by rw [← ht.length_eq]; exact hle)]
    | some t =>
      obtain ⟨a, ha, hta⟩ := getElem?_of_forall₂ ht hi
      obtain ⟨z, hz, -⟩ := hready i t hi
      obtain ⟨w, hw, hr⟩ := hall i t a z hi ha hz
      rw [hw, ha, eq_of_agree (hc.covered i t hi) hr.agree hta hr.has]
  have hsplit (c : Cursor) : (Reader.ofExcept (encoding.mapM Encoding.splitParameter)).run c =
      (.ok entries, c) := by
    rw [hs]
    rfl
  rw [decodeArguments, Reader.run_bind (hsplit _), Reader.run_bind_lift hzs, hws, he]

end Parley
