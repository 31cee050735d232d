import Parley.Proofs.AllOrNothing
import Parley.Proofs.Serving
import Parley.Proofs.SharedReading

/-!
# Native data and casts

The data of a type and the values of the type are one and the same: data is written as a value of
the type, every value of the type is read as data, and either way nothing is lost. A value that is
cast to the type is read as the data of what it is cast to, although reading is another recursion
than casting: it takes no notice of further fields and casts scalars only.

* `Ty.has_encode`, `Ty.decode_encode` : data as values and back; `decodeRow_encodeRow` for the
  fields of a table.
* `Ty.decode_of_cast` : what a value that is cast is read as; `decodeRow_of_castFields` for the
  fields of a table.
* `data_agrees_with_cast` : data, values and casts agree; so handlers and functions read what they
  are given.
-/

namespace Parley

namespace ScalarTy

theorem type_encode (t : ScalarTy) (x : t.Carrier) : (t.encode x).type = t := by
  cases t <;> rfl

theorem data?_encode (t : ScalarTy) (x : t.Carrier) : t.data? (t.encode x) = some x := by
  cases t with
  | int k => exact dif_pos rfl
  | _ => rfl

end ScalarTy

namespace Ty

variable {table : List (String × Ty)} {fields done rest : Fields}

/-! ## Data as values and back -/

theorem keys_encodeRow (row : Row table) :
    Table.keys (encodeRow table row) = Table.keys table := by
  induction table with
  | nil => rfl
  | cons entry table ih =>
    obtain ⟨n, t⟩ := entry
    obtain ⟨x, row⟩ := row
    exact congrArg (n :: ·) (ih row)

theorem exists_find?_encodeRow (row : Row table) {n : String} {t : Ty}
    (ht : Table.find? n table = some t) :
    ∃ x : t.Carrier, Table.find? n (encodeRow table row) = some (t.encode x) := by
  induction table with
  | nil => cases ht
  | cons entry table ih =>
    obtain ⟨m, u⟩ := entry
    obtain ⟨x, row⟩ := row
    rw [Table.find?] at ht
    rw [encodeRow, Table.find?]
    by_cases hm : m = n
    · rw [if_pos hm] at ht ⊢
      cases ht
      exact ⟨x, rfl⟩
    · rw [if_neg hm] at ht ⊢
      exact ih row ht

theorem has_encode {t : Ty} (hd : t.Distinct) (x : t.Carrier) : t.Has (t.encode x) := by
  induction t using Ty.parts with
  | scalar s => exact s.type_encode x
  | array element ih =>
    refine has_array.2 ⟨_, by rw [encode], fun item hi => ?_⟩
    obtain ⟨y, -, rfl⟩ := List.mem_map.1 hi
    exact ih hd y
  | record kind name table ih =>
    have hn : (Table.keys (encodeRow table x)).Nodup := by
      rw [keys_encodeRow]
      exact hd.1
    have hlook (n : String) := Table.find?_ofList hn n
    refine has_record.2 ⟨_, by rw [encode], Table.sorted_ofList _, fun n hmem => ?_,
      hasFields_of_find? hd.1 fun n t ht => ?_⟩
    · obtain ⟨v, hv⟩ := Table.exists_find?_of_mem_keys hmem
      rw [hlook] at hv
      exact keys_encodeRow x ▸ Table.mem_keys_of_find? hv
    · obtain ⟨y, hy⟩ := exists_find?_encodeRow x ht
      exact ⟨_, (hlook n).trans hy, ih (n, t) (Table.mem_of_find? ht) (hd.2.of_find? ht) y⟩

/-- A row is read from fields that have what it is written as, under the names of the table. -/
theorem decodeRow_encodeRow (row : Row table) (hn : (Table.keys table).Nodup)
    (h : ∀ e ∈ table, ∀ x : e.2.Carrier, e.2.decode (e.2.encode x) = .ok x)
    (hf : ∀ n ∈ Table.keys table, Table.find? n fields = Table.find? n (encodeRow table row)) :
    decodeRow table fields = .ok row := by
  induction table generalizing fields with
  | nil => rfl
  | cons entry table ih =>
    obtain ⟨m, t⟩ := entry
    obtain ⟨x, row⟩ := row
    obtain ⟨hm, hn⟩ := List.nodup_cons.1 hn
    obtain ⟨hx, h⟩ := List.forall_mem_cons.1 h
    obtain ⟨hfirst, hf⟩ := List.forall_mem_cons.1 hf
    have hrow : decodeRow table (Table.erase m fields) = .ok row := ih row hn h fun n hmem => by
      have hne : m ≠ n := fun he => hm (he ▸ hmem)
      rw [Table.find?_erase, if_neg hne, hf n hmem, encodeRow]
      exact if_neg hne
    rw [encodeRow, Table.find?, if_pos rfl] at hfirst
    rw [decodeRow, hfirst, Option.getD_some, bind_of_ok (hx x), bind_of_ok hrow]
    rfl

theorem decode_encode {t : Ty} (hd : t.Distinct) (x : t.Carrier) :
    t.decode (t.encode x) = .ok x := by
  induction t using Ty.parts with
  | scalar s =>
    have hself : castScalar s (.scalar (s.encode x)) = .ok (s.encode x) := by
      refine castScalar_eq_ok.2 ⟨_, rfl, ?_⟩
      have := (s.encode x).cast?_self
      rwa [s.type_encode] at this
    rw [encode, decode, bind_of_ok hself, s.data?_encode]
    rfl
  | array element ih =>
    rw [encode, decode]
    refine mapM_eq_ok.2 (List.forall₂_map_left_iff.2 (List.forall₂_same.2 fun y _ => ih hd y))
  | record kind name table ih =>
    have hn : (Table.keys (encodeRow table x)).Nodup := by
      rw [keys_encodeRow]
      exact hd.1
    rw [encode, decode]
    exact decodeRow_encodeRow x hd.1
      (fun e he => ih e he (hd.2.of_find? (Table.find?_of_mem hd.1 he)))
      fun n _ => Table.find?_ofList hn n

/-! ## Casts -/

/-- A row is read from the fields that are cast. Fields that are missing start at their default in
both. -/
theorem decodeRow_of_castFields (hd : DistinctFields table)
    (h : ∀ e ∈ table, ∀ v w, cast e.2 v = .ok w → ∃ x, e.2.decode v = .ok x ∧ e.2.encode x = w)
    (hcast : castFields table fields = .ok (done, rest)) :
    ∃ row, decodeRow table fields = .ok row ∧ encodeRow table row = done := by
  induction table generalizing fields done with
  | nil =>
    cases hcast
    exact ⟨(), rfl, rfl⟩
  | cons entry table ih =>
    obtain ⟨n, t⟩ := entry
    obtain ⟨ht, h⟩ := List.forall_mem_cons.1 h
    obtain ⟨w, done, hgiven, hnone, hdone, rfl⟩ := exists_of_castFields_cons hcast
    obtain ⟨row, hrow, hdone⟩ := ih hd.2 h hdone
    obtain ⟨x, hx, rfl⟩ :
        ∃ x, t.decode ((Table.find? n fields).getD t.default) = .ok x ∧ t.encode x = w := by
      cases hf : Table.find? n fields with
      | some v => exact ht v w (hgiven v hf)
      | none =>
        obtain rfl := hnone hf
        exact exists_decode_of_has hd.1 (has_default hd.1)
    refine ⟨(x, row), ?_, ?_⟩
    · rw [decodeRow, bind_of_ok hx, bind_of_ok hrow]
      rfl
    · rw [encodeRow, hdone]

theorem decodeItems_of_castItems {element : Ty} {items ws : List Value}
    (h : ∀ v w, cast element v = .ok w → ∃ x, element.decode v = .ok x ∧ element.encode x = w)
    (hc : List.Forall₂ (fun v w => cast element v = .ok w) items ws) :
    ∃ xs, items.mapM (decode element) = .ok xs ∧ xs.map (encode element) = ws := by
  induction hc with
  | nil => exact ⟨[], rfl, rfl⟩
  | cons hv _ ih =>
    obtain ⟨x, hx, he⟩ := h _ _ hv
    obtain ⟨xs, hxs, hes⟩ := ih
    exact ⟨x :: xs, mapM_cons_eq_ok.2 ⟨x, xs, hx, hxs, rfl⟩, by rw [List.map_cons, he, hes]⟩

/-- A value that is cast to the type is read as data, which is written as what it is cast to. -/
theorem decode_of_cast {t : Ty} (hd : t.Distinct) {v w : Value} (h : cast t v = .ok w) :
    ∃ x, t.decode v = .ok x ∧ t.encode x = w := by
  induction t using Ty.parts generalizing v w with
  | scalar s =>
    obtain ⟨leaf, hleaf, hw⟩ := bind_eq_ok.1 h
    cases hw
    obtain rfl : leaf.type = s := has_of_cast hd h
    obtain ⟨x, hx, he⟩ := data?_self leaf
    refine ⟨x, ?_, congrArg Value.scalar he⟩
    rw [decode, bind_of_ok hleaf, hx]
    rfl
  | array element ih =>
    cases v with
    | scalar s => cases h
    | record kind fields => cases h
    | array items =>
      obtain ⟨ws, hws, hw⟩ := bind_eq_ok.1 h
      cases hw
      obtain ⟨xs, hxs, he⟩ := decodeItems_of_castItems (fun v w => ih hd) (mapM_eq_ok.1 hws)
      exact ⟨xs, by rw [decode, hxs], by rw [encode, he]⟩
  | record kind name table ih =>
    obtain ⟨kind', fields, done, rfl, hdone, rfl⟩ := cast_record_eq_ok.1 h
    obtain ⟨row, hrow, rfl⟩ := decodeRow_of_castFields hd.2
      (fun e he v w => ih e he (hd.2.of_find? (Table.find?_of_mem hd.1 he))) hdone
    exact ⟨row, hrow, by rw [encode]⟩

end Ty

theorem Ty.has_of_ofJsonAs {types : List Ty} {args : List Value} (hd : ∀ t ∈ types, t.Distinct)
    (h : List.Forall₂ (fun t v => ∃ j, Value.ofJsonAs t j = .ok v) types args) :
    List.Forall₂ Ty.Has types args := by
  induction h with
  | nil => exact .nil
  | cons hv _ ih =>
    obtain ⟨hfirst, hrest⟩ := List.forall_mem_cons.1 hd
    obtain ⟨j, hj⟩ := hv
    exact .cons (has_of_cast hfirst hj) (ih hrest)

/-- Native data agrees with casts: what is cast to the type is read as data, before the cast and
after it, as long as no record is asked for as two types. -/
theorem data_agrees_with_cast :
    (∀ t : Ty, t.Distinct →
      (∀ x : t.Carrier, t.Has (t.encode x) ∧ t.decode (t.encode x) = .ok x) ∧
      (∀ w, t.Has w → ∃ x, t.decode w = .ok x ∧ t.encode x = w) ∧
      (∀ v w, cast t v = .ok w → ∃ x, t.decode v = .ok x ∧ t.decode w = .ok x) ∧
      (∀ (s : Store) (c : Cell), s.Tidy c → s.Unambiguous t c) ∧
      ∀ (s s' : Store) (c c' : Cell), s.Unambiguous t c →
        (Store.cast t c).on s = (.ok c', s') →
          ∃ x, t.decode (s.snapshot c) = .ok x ∧ t.decode (s'.snapshot c') = .ok x ∧
            t.decode (s'.snapshot c) = .ok x) ∧
    (∀ (κ : Type) (success : Bool) (h : Handler κ), h.Native → ∀ (payload : Payload) (t : Ty)
      (v : Value), h.slot.replyType? success = some t → payload.cast t = .ok v →
        Endpoint.replyFor success h v = .ok (h.slot.ofReply success v)) ∧
    ∀ types : List Ty, (∀ t ∈ types, t.Distinct) →
      (∀ args, List.Forall₂ (fun t v => ∃ j, Value.ofJsonAs t j = .ok v) types args →
        ∃ x, Ty.decodeTuple types args = .ok x ∧ Ty.encodeTuple types x = args) ∧
      ∀ encoding args c c', (decodeArguments encoding types).run c = (.ok args, c') →
        ∃ x, Ty.decodeTuple types args = .ok x ∧ Ty.encodeTuple types x = args := by
  refine ⟨fun t hd => ⟨fun x => ⟨Ty.has_encode hd x, Ty.decode_encode hd x⟩,
      fun w hw => Ty.exists_decode_of_has hd hw, fun v w h => ?_, fun s c hc => hc.unambiguous hd,
      fun s s' c c' hc h => Store.decode_of_on_cast hd hc h⟩,
    fun κ success h hn payload t v ht hv => hn.reads ht hv,
    fun types hd => ⟨fun args h => Ty.exists_decodeTuple hd (Ty.has_of_ofJsonAs hd h),
      fun encoding args c c' h => Ty.exists_decodeTuple hd (has_of_decodeArguments hd h)⟩⟩
  obtain ⟨x, hx, rfl⟩ := Ty.decode_of_cast hd h
  exact ⟨x, hx, Ty.decode_encode hd x⟩

/-- Two fields share a record, and both ask for it as a node. In the holder no record is reached
twice. -/
theorem data_agrees_with_cast_shared :
    let pair : Ty := .record .value "Pair" [("a", nodeTy), ("b", nodeTy)]
    let both : Cell := .record [("a", .shared 0), ("b", .shared 0)]
    let s : Store := ⟨[[("at", .record [("label", .scalar .nil),
      ("x", .scalar (.int ⟨.i64, 1, by decide⟩))])]]⟩
    let s' : Store := ⟨[[("at", .record [("label", .scalar (.string "")),
      ("x", .scalar (.int ⟨.i32, 1, by decide⟩)), ("y", .scalar (.int ⟨.i32, 0, by decide⟩))]),
      ("tags", .array [])]]⟩
    let json : Json := .object [("at", .object [("x", .whole 1 (Or.inl (by decide)))])]
    let node : Value := s'.snapshot (.shared 0)
    let encoding : List Encoding := [.base .i32 [.index 0, .name "at", .name "x"]]
    let rack : Ty := .record .value "Rack"
      [("shelf", .record .reference "Shelf" [("items", .array .string)])]
    (pair.Distinct ∧ s.Unambiguous pair both ∧ (Store.cast pair both).on s = (.ok both, s') ∧
      ∃ x, pair.decode (s.snapshot both) = .ok x ∧ pair.decode (s'.snapshot both) = .ok x ∧
        pair.decode (s'.snapshot both) = .ok x) ∧
    (rack.Distinct ∧ Store.shelf.Tidy Store.holder ∧
      Store.shelf.Unambiguous rack Store.holder) ∧
    ((Handler.result nodeTy 0).Native ∧ (Payload.json (some json)).cast nodeTy = .ok node ∧
      Endpoint.replyFor true (Handler.result nodeTy 0) node = .ok (.value node)) ∧
    (Value.ofJsonAs nodeTy json = .ok node ∧
      ∃ x, Ty.decodeTuple [nodeTy] [node] = .ok x ∧ Ty.encodeTuple [nodeTy] x = [node]) ∧
    ∃ args c',
      (decodeArguments encoding [nodeTy]).run (Cursor.start [1, 0, 0, 0]) = (.ok args, c') ∧
      ∃ x, Ty.decodeTuple [nodeTy] args = .ok x ∧ Ty.encodeTuple [nodeTy] x = args := by
  intro pair both s s' json node encoding rack
  have hd : pair.Distinct := by decide
  have hdr : rack.Distinct := by decide
  have hdn : ∀ t ∈ [nodeTy], t.Distinct := by decide
  have hcast : (Store.cast pair both).on s = (.ok both, s') := rfl
  have hasks : ∀ e, s.Asks pair both e → e = (0, nodeTy) := by
    intro e h
    induction h with
    | here h =>
      rcases List.mem_cons.1 h with rfl | h
      · rfl
      · exact List.mem_singleton.1 h
    | inside _ h ih =>
      cases ih
      cases h
  have hun : s.Unambiguous pair both := by
    refine ⟨fun e he => ?_, fun id u u' hu hu' => ?_⟩
    · cases hasks e he
      decide
    · cases hasks _ hu
      exact (congrArg Prod.snd (hasks _ hu')).symm
  have hnative : (Handler.result nodeTy 0).Native := .result (by decide) 0
  have hjson : Value.ofJsonAs nodeTy json = .ok node := rfl
  have hpayload : (Payload.json (some json)).cast nodeTy = .ok node := rfl
  have hargs : (decodeArguments encoding [nodeTy]).run (Cursor.start [1, 0, 0, 0]) =
      (.ok [node], ⟨4, []⟩) := rfl
  obtain ⟨hdata, hreply, hread⟩ := data_agrees_with_cast
  exact ⟨⟨hd, hun, hcast, (hdata pair hd).2.2.2.2 s s' both both hun hcast⟩,
    ⟨hdr, Store.tidy_holder, (hdata rack hdr).2.2.2.1 _ _ Store.tidy_holder⟩,
    ⟨hnative, hpayload, hreply _ true _ hnative _ nodeTy node rfl hpayload⟩,
    ⟨hjson, (hread [nodeTy] hdn).1 [node] (.cons ⟨json, hjson⟩ .nil)⟩,
    _, _, hargs, (hread [nodeTy] hdn).2 encoding _ _ _ hargs⟩

/-- Two fields ask for their record as two types: the cast makes it a node and then a mark, and it
is no node any more. -/
theorem decode_after_cast_fails :
    let spot : Ty := .record .value "Spot"
      [("x", .scalar .double), ("y", .int .i32), ("label", .string)]
    let marked : Ty := .record .reference "Marked" [("tags", .array .string), ("at", spot)]
    let pair : Ty := .record .value "Pair" [("a", nodeTy), ("b", marked)]
    let both : Cell := .record [("a", .shared 0), ("b", .shared 0)]
    let s : Store := ⟨[[("at", .record [("label", .scalar (.string "p")),
      ("x", .scalar (.int ⟨.i32, 1, by decide⟩)), ("y", .scalar (.int ⟨.i32, 2, by decide⟩))]),
      ("tags", .array [])]]⟩
    pair.Distinct ∧ ∃ c' s', (Store.cast pair both).on s = (.ok c', s') ∧
      (∃ x, pair.decode (s.snapshot both) = .ok x) ∧
      (∃ e, pair.decode (s'.snapshot both) = .error e) ∧
      ∃ e, pair.decode (s'.snapshot c') = .error e := by
  intro spot marked pair both s
  exact ⟨by decide, both, _, rfl, ⟨_, rfl⟩, ⟨_, rfl⟩, ⟨_, rfl⟩⟩

end Parley
