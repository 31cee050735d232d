import Parley.Proofs.Parameters

/-!
# Reading leaves what its entries are not about

What an encoding does not mention is not touched: where no path of an entry leads, nor leads on from,
the value that is read is what was allocated for it, and that is a default.

* `Encoding.exists_set_of_read` : an entry stores one part, at its path.
* `toOption_get_of_fill`, `exists_of_fillArguments` : the frame of a list of entries.
* `default_of_construct` : what is allocated apart from all paths is a default.
* `Unread`, `untouched_parts` : a part that nothing was read into, in values and argument lists.
-/

namespace Parley

theorem Encoding.exists_set_of_read {e : Encoding} {t : Ty} {v w : Value} {c c' : Cursor}
    (h : (e.read t v).run c = (.ok w, c')) : ∃ x, v.set x e.path = .ok w := by
  cases e with
  | base kind path =>
    obtain ⟨_, _, x, -, -, -, hw⟩ := run_read_base.1 h
    exact ⟨x, hw⟩
  | array path element =>
    obtain ⟨_, _, _, _, ws, -, -, -, -, -, hw⟩ := run_read_array.1 h
    exact ⟨.array ws, hw⟩
  | enum path table =>
    obtain ⟨_, _, x, -, -, -, hw⟩ := run_read_enum.1 h
    exact ⟨x, hw⟩

theorem Encoding.toOption_get_of_read {e : Encoding} {t : Ty} {v w : Value} {c c' : Cursor}
    {q : Path} (h : (e.read t v).run c = (.ok w, c')) (ha : e.path.Apart q) :
    (w.get q).toOption = (v.get q).toOption := by
  obtain ⟨x, hw⟩ := e.exists_set_of_read h
  exact Value.toOption_get_set_apart hw ha

/-- The frame of a list of entries: what is apart from all of them. -/
theorem toOption_get_of_fill {encoding : List Encoding} {t : Ty} {v w : Value} {c c' : Cursor}
    {q : Path} (h : (fill encoding t v).run c = (.ok w, c'))
    (ha : ∀ e ∈ encoding, e.path.Apart q) : (w.get q).toOption = (v.get q).toOption := by
  induction encoding generalizing v c with
  | nil =>
    obtain ⟨rfl, -⟩ := run_fill_nil.1 h
    rfl
  | cons e rest ih =>
    obtain ⟨z, c₁, hz, hrest⟩ := run_fill_cons.1 h
    rw [ih hrest fun e' he' => ha e' (List.mem_cons_of_mem _ he')]
    exact e.toOption_get_of_read hz (ha e List.mem_cons_self)

/-- The frame of entries of arguments: all of an argument if no entry is about it. -/
theorem exists_of_fillArguments {entries : List (Nat × Encoding)} {types : List Ty}
    {zs ws : List Value} {c c' : Cursor}
    (h : (fillArguments types entries zs).run c = (.ok ws, c')) :
    ws.length = zs.length ∧ ∀ (i : Nat) z, zs[i]? = some z → ∃ w, ws[i]? = some w ∧
      ∀ q, (∀ e ∈ own entries i, e.path.Apart q) → (w.get q).toOption = (z.get q).toOption := by
  induction entries generalizing zs c with
  | nil =>
    obtain ⟨rfl, -⟩ := run_fillArguments_nil.1 h
    exact ⟨rfl, fun i z hz => ⟨z, hz, fun _ _ => rfl⟩⟩
  | cons entry entries ih =>
    obtain ⟨j, e⟩ := entry
    obtain ⟨t, y, y', c₁, -, hy, hread, hrest⟩ := run_fillArguments_cons_eq_ok.1 h
    obtain ⟨hlen, hall⟩ := ih hrest
    refine ⟨hlen.trans List.length_set, fun i z hz => ?_⟩
    by_cases hij : j = i
    · subst hij
      obtain rfl : y = z := Option.some.inj (hy.symm.trans hz)
      have hlt : j < zs.length := (List.getElem?_eq_some_iff.1 hy).1
      obtain ⟨w, hw, hframe⟩ := hall j y' (List.getElem?_set_self hlt)
      refine ⟨w, hw, fun q hq => ?_⟩
      rw [own_cons_self] at hq
      rw [hframe q fun e' he' => hq e' (List.mem_cons_of_mem _ he')]
      exact e.toOption_get_of_read hread (hq e List.mem_cons_self)
    · rw [own_cons_ne hij]
      exact hall i z ((List.getElem?_set_ne hij).trans hz)

theorem default_of_construct {encoding : List Encoding} {t u : Ty} {z x : Value} {q : Path}
    (hd : t.Distinct) (hz : construct encoding t = .ok z) (ha : ∀ e ∈ encoding, e.path.Apart q)
    (hu : t.follow q = .ok u) (hx : z.get q = .ok x) : x = u.default := by
  obtain ⟨s, hs, hbuild⟩ := bind_eq_ok.1 hz
  obtain ⟨hof, htight, hcovers⟩ := of_ofEncoding hs
  obtain ⟨v, hv, hleast⟩ := hof.least htight hd
  obtain rfl : v = z := Except.ok.inj (hv.symm.trans hbuild)
  apply hleast.defaults q u x hu hx
  intro step hcov
  rcases (hcovers _).1 hcov with hnil | ⟨e, he, hle⟩
  · exact List.append_ne_nil_of_right_ne_nil q (List.cons_ne_nil step []) hnil
  · exact (ha e he).2 ((List.prefix_append q [step]).trans hle)

theorem exists_of_mem_own {encoding : List Encoding} {entries : List (Nat × Encoding)}
    (hs : encoding.mapM Encoding.splitParameter = .ok entries) {i : Nat} {e : Encoding}
    (he : e ∈ own entries i) : ∃ e' ∈ encoding, e'.path = .index i :: e.path := by
  obtain ⟨e', he', hsplit⟩ := exists_of_mem_mapM hs (mem_own.1 he)
  obtain ⟨rest, hp, rfl⟩ := Encoding.splitParameter_eq_ok.1 hsplit
  exact ⟨e', he', by rw [hp, Encoding.path_withPath]⟩

/-- A part that nothing was read into: what was found at the path before is found there afterwards,
and where the path leads somewhere in the type that is the default of the type there. -/
structure Unread (t : Ty) (before after : Value) (q : Path) : Prop where
  same : (after.get q).toOption = (before.get q).toOption
  default : t.Distinct → ∀ u x, t.follow q = .ok u → after.get q = .ok x → x = u.default

/-- Apart from the entries that a value was allocated for, its parts were defaults. -/
theorem Unread.of_same {encoding : List Encoding} {t : Ty} {z v : Value} {q : Path}
    (hz : construct encoding t = .ok z) (ha : ∀ e ∈ encoding, e.path.Apart q)
    (hsame : (v.get q).toOption = (z.get q).toOption) : Unread t z v q where
  same := hsame
  default hd u x hu hx := by
    have hget : z.get q = .ok x :=
      toOption_eq_some.1 (hsame.symm.trans (toOption_eq_some.2 hx))
    exact default_of_construct hd hz ha hu hget

theorem unread_of_decode {encoding : List Encoding} {t : Ty} {v : Value} {c c' : Cursor}
    (h : (decode encoding t).run c = (.ok v, c')) :
    ∃ z, construct encoding t = .ok z ∧
      ∀ q, (∀ e ∈ encoding, e.path.Apart q) → Unread t z v q := by
  obtain ⟨z, hz, hfill⟩ := run_decode_eq_ok.1 h
  exact ⟨z, hz, fun q hq => .of_same hz hq (toOption_get_of_fill hfill hq)⟩

theorem unread_of_decodeArguments {encoding : List Encoding} {types : List Ty}
    {args : List Value} {c c' : Cursor}
    (h : (decodeArguments encoding types).run c = (.ok args, c')) :
    ∃ entries, encoding.mapM Encoding.splitParameter = .ok entries ∧ args.length = types.length ∧
      ∀ i t, types[i]? = some t → ∃ z v, construct (own entries i) t = .ok z ∧
        args[i]? = some v ∧ ∀ q, (∀ e ∈ own entries i, e.path.Apart q) → Unread t z v q := by
  obtain ⟨entries, _, hentries, -⟩ := Reader.of_run_bind h
  have hs : encoding.mapM Encoding.splitParameter = .ok entries := congrArg Prod.fst hentries
  obtain ⟨zs, hzs, hfill⟩ := (run_decodeArguments_eq_ok hs).1 h
  obtain ⟨hzlen, hconstruct⟩ := construct_of_constructArguments hzs
  obtain ⟨hlen, hframe⟩ := exists_of_fillArguments hfill
  refine ⟨entries, hs, hlen.trans hzlen, fun i t ht => ?_⟩
  obtain ⟨z, hz, hc⟩ := hconstruct i t ht
  obtain ⟨v, hv, hsame⟩ := hframe i z hz
  exact ⟨z, v, hc, hv, fun q hq => .of_same hc hq (hsame q hq)⟩

/-- Reading touches only the paths of its entries: apart from them a value has what was allocated
for it, which is the default, and so does every argument. -/
theorem untouched_parts (encoding : List Encoding) (c c' : Cursor) :
    (∀ t v, (decode encoding t).run c = (.ok v, c') → ∃ z, construct encoding t = .ok z ∧
      ∀ q, (∀ e ∈ encoding, e.path.Apart q) → Unread t z v q) ∧
    ∀ types args, (decodeArguments encoding types).run c = (.ok args, c') →
      ∃ entries, encoding.mapM Encoding.splitParameter = .ok entries ∧
        args.length = types.length ∧ ∀ i t, types[i]? = some t →
          ∃ z v, construct (own entries i) t = .ok z ∧ args[i]? = some v ∧
            (∀ q, (∀ e ∈ encoding, e.path.Apart (.index i :: q)) → Unread t z v q) ∧
            ((∀ e ∈ encoding, e.path.head? ≠ some (.index i)) → v = t.default) := by
  refine ⟨fun t v h => unread_of_decode h, fun types args h => ?_⟩
  obtain ⟨entries, hs, hlen, hall⟩ := unread_of_decodeArguments h
  refine ⟨entries, hs, hlen, fun i t ht => ?_⟩
  obtain ⟨z, v, hz, hv, hunread⟩ := hall i t ht
  refine ⟨z, v, hz, hv, fun q hq => hunread q fun e he => ?_, fun hnone => ?_⟩
  · obtain ⟨e', he', hp⟩ := exists_of_mem_own hs he
    have hapart := hq e' he'
    rw [hp] at hapart
    rcases Path.apart_cons.1 hapart with hne | ⟨-, h⟩
    · exact absurd rfl hne
    · exact h
  · have hown : own entries i = [] := by
      apply List.eq_nil_iff_forall_not_mem.2
      intro e he
      obtain ⟨e', he', hp⟩ := exists_of_mem_own hs he
      exact hnone e' he' (congrArg List.head? hp)
    rw [hown] at hz hunread
    obtain rfl : t.default = z := Except.ok.inj hz
    have hwhole := (hunread [] fun e he => absurd he List.not_mem_nil).same
    exact Option.some.inj hwhole

/-- Entries go over one item twice, over a field of a shared record and over a whole array; the
other parts are defaults. -/
theorem untouched_parts_crew :
    let crew : Ty := .record .value "Crew" [("post", .string), ("rows", .array (.int .i32)),
      ("bays", .array .string),
      ("cabin", .record .reference "Cabin" [("deck", .int .u8), ("berth", .int .u8)])]
    let entries : List Encoding := [.base .i8 [.name "rows", .index 2], .base .u8
      [.name "cabin", .name "deck"], .array [.name "bays"] [], .base .i8 [.name "rows", .index 0],
      .base .i8 [.name "rows", .index 2]]
    let arguments := entries.map fun e => e.withPath (.index 1 :: e.path)
    let c : Cursor := .start [7, 3, 1, 0, 0, 0, 5, 9]
    let v : Value := .record .value [("bays", .array [.string ""]), ("cabin", .record .reference
      [("berth", .int ⟨.u8, 0, by decide⟩), ("deck", .int ⟨.u8, 3, by decide⟩)]),
      ("post", .string ""), ("rows", .array [.int ⟨.i32, 5, by decide⟩, .int ⟨.i32, 0, by decide⟩,
        .int ⟨.i32, 9, by decide⟩])]
    (decode entries crew).run c = (.ok v, ⟨8, []⟩) ∧
      (∃ z, construct entries crew = .ok z ∧ Unread crew z v [.name "rows", .index 1] ∧
        Unread crew z v [.name "rows", .index 3] ∧ Unread crew z v [.name "cabin", .name "berth"]) ∧
      (decodeArguments arguments [.bool, crew]).run c = (.ok [.bool false, v], ⟨8, []⟩) ∧
      (∃ z, Unread crew z v [.name "post"]) ∧ Value.bool false = Ty.bool.default := by
  intro crew entries arguments c v
  have hv : (decode entries crew).run c = (.ok v, ⟨8, []⟩) := rfl
  have hargs : (decodeArguments arguments [.bool, crew]).run c = (.ok [.bool false, v], ⟨8, []⟩) :=
    rfl
  obtain ⟨z, hz, hunread⟩ := (untouched_parts entries c ⟨8, []⟩).1 crew v hv
  obtain ⟨_, _, -, hall⟩ := (untouched_parts arguments c ⟨8, []⟩).2 [.bool, crew] _ hargs
  obtain ⟨_, _, -, ⟨⟩, -, hnone⟩ := hall 0 .bool rfl
  obtain ⟨z', _, -, ⟨⟩, hpost, -⟩ := hall 1 crew rfl
  refine ⟨hv, ⟨z, hz, hunread _ ?_, hunread _ ?_, hunread _ ?_⟩, hargs, ⟨z', hpost _ ?_⟩,
    hnone ?_⟩
  all_goals decide

end Parley
