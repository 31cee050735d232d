import Mathlib.Data.List.Nodup
import Parley.Proofs.Typing

/-!
# Lists as records

A list of values, each of its own type, is the same data as a record whose fields go by the
positions in the list, written in decimal.

* `numbered` : a list as fields; `find?_numbered`, `ofList_numbered` : the fields and the list.
* `Ty.bundle`, `Value.bundle` : the record and its type.
* `step_bundle`, `member_bundle`, `setMember_bundle` : one step into the record is a position in the
  list.
* `eq_bundle` : the record is determined by its fields.
-/

namespace Parley

/-! ## Positions as names -/

section Numbered

variable {α : Type}

/-- A list as fields: the position of each item, in decimal, is the name of its field. -/
def numbered (as : List α) : List (String × α) :=
  as.zipIdx.map fun (a, i) => (toString i, a)

theorem toString_inj {i j : Nat} (h : toString i = toString j) : i = j := by
  rw [Nat.toString_eq_ofList_toDigits, Nat.toString_eq_ofList_toDigits] at h
  rw [← Nat.ofDigitChars_ten_toDigits (n := i), String.ofList_injective h,
    Nat.ofDigitChars_ten_toDigits]

theorem keys_numbered (as : List α) :
    Table.keys (numbered as) = (List.range as.length).map toString := by
  have hsnd : as.zipIdx.map Prod.snd = List.range as.length := by
    rw [List.zipIdx_map_snd, List.range_eq_range']
  rw [Table.keys, numbered, List.map_map, ← hsnd, List.map_map]
  rfl

theorem nodup_numbered (as : List α) : (Table.keys (numbered as)).Nodup := by
  rw [keys_numbered]
  exact List.nodup_range.map fun i j h => toString_inj h

theorem find?_numbered (as : List α) (i : Nat) :
    Table.find? (toString i) (numbered as) = as[i]? := by
  cases ha : as[i]? with
  | none =>
    refine Table.find?_eq_none_iff.2 fun h => ?_
    rw [keys_numbered] at h
    obtain ⟨j, hj, he⟩ := List.mem_map.1 h
    obtain rfl := toString_inj he
    have := List.getElem?_eq_none_iff.1 ha
    have := List.mem_range.1 hj
    omega
  | some a =>
    refine Table.find?_of_mem (nodup_numbered as) (List.mem_map.2 ⟨(a, i), ?_, rfl⟩)
    exact List.mem_zipIdx_iff_getElem?.2 ha

/-- A table in name order whose names are positions is that of the list of its entries. -/
theorem ofList_numbered {as : List α} {fields : List (String × α)} (hs : Table.Sorted fields)
    (hk : ∀ n ∈ Table.keys fields, ∃ i : Nat, n = toString i)
    (h : ∀ i : Nat, Table.find? (toString i) fields = as[i]?) :
    Table.ofList (numbered as) = fields := by
  refine Table.ofList_eq (nodup_numbered as) hs fun n => ?_
  by_cases hn : ∃ i : Nat, n = toString i
  · obtain ⟨i, rfl⟩ := hn
    rw [find?_numbered, h]
  · have hleft : n ∉ Table.keys (numbered as) := by
      rw [keys_numbered]
      intro hmem
      obtain ⟨i, -, rfl⟩ := List.mem_map.1 hmem
      exact hn ⟨i, rfl⟩
    rw [Table.find?_eq_none_iff.2 hleft, Table.find?_eq_none_iff.2 (mt (hk n) hn)]

end Numbered

/-! ## Records for lists -/

/-- The type of the records that stand for argument lists. -/
def Ty.bundle (name : String) (types : List Ty) : Ty :=
  .record .value name (numbered types)

/-- The record that stands for an argument list. -/
def Value.bundle (args : List Value) : Value :=
  .record .value (Table.ofList (numbered args))

section Bundle

variable {name : String} {types : List Ty} {args : List Value} {i : Nat} {u : Ty} {x w : Value}

theorem distinct_bundle (name : String) (hd : ∀ t ∈ types, t.Distinct) :
    (Ty.bundle name types).Distinct := by
  refine ⟨nodup_numbered types, ?_⟩
  have hall : ∀ f ∈ numbered types, f.2.Distinct := by
    intro f hf
    obtain ⟨⟨t, i⟩, hmem, rfl⟩ := List.mem_map.1 hf
    exact hd t (List.mem_of_getElem? (List.mem_zipIdx_iff_getElem?.1 hmem))
  generalize numbered types = table at hall
  induction table with
  | nil => exact trivial
  | cons f table ih =>
    exact ⟨hall f List.mem_cons_self, ih fun g hg => hall g (List.mem_cons_of_mem _ hg)⟩

theorem step_bundle :
    (Ty.bundle name types).step (.name (toString i)) = .ok u ↔ types[i]? = some u := by
  rw [Ty.step_name_eq_ok, ← find?_numbered]
  constructor
  · rintro ⟨_, _, _, ht, hu⟩
    cases ht
    exact hu
  · intro hu
    exact ⟨.value, name, _, rfl, hu⟩

theorem find?_bundle (args : List Value) (i : Nat) :
    Table.find? (toString i) (Table.ofList (numbered args)) = args[i]? := by
  rw [Table.find?_ofList (nodup_numbered args), find?_numbered]

theorem member_bundle :
    (Value.bundle args).member (.name (toString i)) = .ok x ↔ args[i]? = some x := by
  rw [Value.member_name_eq_ok, ← find?_bundle]
  constructor
  · rintro ⟨_, _, hv, hx⟩
    cases hv
    exact hx
  · intro hx
    exact ⟨.value, _, rfl, hx⟩

theorem eq_bundle {v : Value} (hv : (Ty.bundle name types).Has v)
    (hlen : args.length = types.length)
    (h : ∀ (i : Nat) (x : Value), args[i]? = some x → v.member (.name (toString i)) = .ok x) :
    v = Value.bundle args := by
  obtain ⟨fields, rfl, hs, hk, -⟩ := Ty.has_record.1 hv
  have hkeys (n : String) (hn : n ∈ Table.keys fields) :
      ∃ i, i < args.length ∧ n = toString i := by
    have hn := hk n hn
    rw [keys_numbered, ← hlen] at hn
    obtain ⟨i, hi, rfl⟩ := List.mem_map.1 hn
    exact ⟨i, List.mem_range.1 hi, rfl⟩
  refine (congrArg (Value.record .value) (ofList_numbered hs (fun n hn => ?_) fun i => ?_)).symm
  · obtain ⟨i, -, hi⟩ := hkeys n hn
    exact ⟨i, hi⟩
  · cases ha : args[i]? with
    | some x =>
      obtain ⟨_, _, he, hx⟩ := Value.member_name_eq_ok.1 (h i x ha)
      cases he
      exact hx
    | none =>
      refine Table.find?_eq_none_iff.2 fun hn => ?_
      obtain ⟨j, hj, he⟩ := hkeys _ hn
      obtain rfl := toString_inj he
      have := List.getElem?_eq_none_iff.1 ha
      omega

theorem setMember_bundle :
    (Value.bundle args).setMember (.name (toString i)) x = .ok w ↔
      i < args.length ∧ w = Value.bundle (args.set i x) := by
  have hset {changed : Fields} (hi : i < args.length)
      (h : Table.set? (toString i) x (Table.ofList (numbered args)) = some changed) :
      Table.ofList (numbered (args.set i x)) = changed := by
    refine ofList_numbered ((Table.sorted_ofList _).set? h) (fun n hn => ?_) fun j => ?_
    · rw [Table.keys_set? h] at hn
      obtain ⟨y, hy⟩ := Table.exists_find?_of_mem_keys hn
      rw [Table.find?_ofList (nodup_numbered args)] at hy
      have hn := Table.mem_keys_of_find? hy
      rw [keys_numbered] at hn
      obtain ⟨j, -, rfl⟩ := List.mem_map.1 hn
      exact ⟨j, rfl⟩
    · rw [Table.find?_set? _ h, find?_bundle]
      by_cases hij : i = j
      · rw [if_pos (hij ▸ rfl), ← hij, List.getElem?_set_self hi]
      · rw [if_neg fun he => hij (toString_inj he), List.getElem?_set_ne hij]
  rw [Value.setMember_name_eq_ok]
  constructor
  · rintro ⟨_, _, changed, hv, hc, rfl⟩
    cases hv
    have hi : i < args.length := by
      have := Table.set?_isSome (toString i) x (Table.ofList (numbered args))
      rw [hc, Table.contains, find?_bundle] at this
      obtain ⟨y, hy⟩ := Option.isSome_iff_exists.1 this.symm
      exact (List.getElem?_eq_some_iff.1 hy).1
    exact ⟨hi, by rw [Value.bundle, hset hi hc]⟩
  · rintro ⟨hi, rfl⟩
    have hmem : toString i ∈ Table.keys (Table.ofList (numbered args)) :=
      Table.mem_keys_of_find? ((find?_bundle args i).trans (List.getElem?_eq_getElem hi))
    obtain ⟨changed, hc⟩ := Table.exists_set? hmem x
    exact ⟨.value, _, changed, rfl, hc, by rw [Value.bundle, hset hi hc]⟩

end Bundle

end Parley
