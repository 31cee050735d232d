import Mathlib.Data.List.Induction
import Parley.Endpoint
import Parley.Proofs.Outcome

/-!
# The handlers of a call

Which of the handlers that were registered for a call are in force, and what they are given when the
call ends.

* `Call.joined`, `Call.inForce` : a handler joins those of a call; `Call.on_eq_ok` and
  `Call.startWith_eq_ok` : the handlers of a call are those in force.
* `Call.filter_inForce` : of those for errors the latest is in force.
* `Endpoint.explanations`, `Endpoint.readings`, `Endpoint.endings` : what handlers are given of an
  error, of values, of an outcome; `Endpoint.told` : of what a reply tells.
* `Endpoint.castAll_sublist`, `Endpoint.endings_sublist`, … : no handler is given anything twice.
-/

namespace Parley

/-! ## Handlers in force -/

namespace Call

variable {κ : Type}

/-- The handlers of a call once another one has joined them; of those for errors only the latest is
kept. -/
def joined (handlers : List (Handler κ)) (h : Handler κ) : List (Handler κ) :=
  (if h.slot.isError then handlers.filter (fun k => !k.slot.isError) else handlers) ++ [h]

/-- The handlers of a call for which these were registered, in this order. -/
def inForce (registered : List (Handler κ)) : List (Handler κ) :=
  registered.foldl joined []

theorem inForce_append (registered : List (Handler κ)) (h : Handler κ) :
    inForce (registered ++ [h]) = joined (inForce registered) h := by
  rw [inForce, List.foldl_append]
  rfl

theorem joined_sublist (handlers : List (Handler κ)) (h : Handler κ) :
    (joined handlers h).Sublist (handlers ++ [h]) := by
  refine List.Sublist.append ?_ (List.Sublist.refl [h])
  split
  · exact List.filter_sublist
  · exact List.Sublist.refl handlers

theorem inForce_sublist (registered : List (Handler κ)) :
    (inForce registered).Sublist registered := by
  induction registered using List.reverseRecOn with
  | nil => exact List.Sublist.refl []
  | append_singleton registered h ih =>
    rw [inForce_append]
    exact (joined_sublist _ h).trans (ih.append (List.Sublist.refl [h]))

/-- Of the handlers that wait for errors the one in force is the latest. -/
theorem filter_inForce (registered : List (Handler κ)) :
    (inForce registered).filter (fun h => h.slot.isError) =
      (registered.filter fun h => h.slot.isError).getLast?.toList := by
  induction registered using List.reverseRecOn with
  | nil => rfl
  | append_singleton registered h ih =>
    rw [inForce_append, joined, List.filter_append, List.filter_append]
    by_cases hh : h.slot.isError = true
    · have hnone : ((inForce registered).filter fun k => !k.slot.isError).filter
          (fun k => k.slot.isError) = [] := by
        rw [List.filter_filter]
        exact List.filter_eq_nil_iff.2 fun k _ => by cases k.slot.isError <;> simp
      have hlast : [h].filter (fun k => k.slot.isError) = [h] :=
        List.filter_eq_self.2 (by simp [hh])
      rw [if_pos hh, hnone, hlast, List.getLast?_append]
      rfl
    · have hlast : [h].filter (fun k => k.slot.isError) = [] :=
        List.filter_eq_nil_iff.2 (by simp [hh])
      rw [if_neg hh, hlast, List.append_nil, List.append_nil, ih]

theorem mem_joined {handlers : List (Handler κ)} {h k : Handler κ} (hk : k ∈ joined handlers h) :
    k = h ∨ k ∈ handlers := by
  rcases List.mem_append.1 ((joined_sublist handlers h).subset hk) with hk | hk
  · exact Or.inr hk
  · exact Or.inl (List.mem_singleton.1 hk)

theorem on_eq_ok {c c' : Call κ} {event : String} {h : Handler κ} (ho : c.on event h = .ok c') :
    c.resolved = false ∧ c' = { c with handlers := joined c.handlers h } := by
  unfold on at ho
  obtain ⟨_, -, ho⟩ := bind_eq_ok.1 ho
  by_cases hr : c.resolved = true
  · simp only [hr, if_true] at ho
    cases ho
  · rw [if_neg hr] at ho
    cases ho
    exact ⟨Bool.eq_false_iff.2 hr, rfl⟩

theorem startWith_eq_ok {id : Nat} {defaults : List (Handler κ)} {c : Call κ}
    (h : startWith id defaults = .ok c) : c = ⟨id, false, inForce defaults⟩ := by
  have hfold : ∀ {rest handlers : List (Handler κ)},
      rest.foldlM (fun (c : Call κ) h => c.on h.slot.eventName h) ⟨id, false, handlers⟩ = .ok c →
      c = ⟨id, false, rest.foldl joined handlers⟩ := by
    intro rest
    induction rest with
    | nil =>
      intro handlers h
      cases h
      rfl
    | cons d rest ih =>
      intro handlers h
      rw [List.foldlM_cons] at h
      obtain ⟨c₁, h₁, h⟩ := bind_eq_ok.1 h
      obtain ⟨-, rfl⟩ := on_eq_ok h₁
      exact ih h
  exact hfold h

end Call

/-! ## What handlers are given -/

namespace Endpoint

variable {κ : Type}

/-- What handlers are given of an error: those that wait for errors get its reason. -/
def explanations (reason : String) (handlers : List (Handler κ)) : List (Handler κ × Delivery) :=
  (handlers.filter fun h => h.slot.isError).map fun h => (h, .reason reason)

/-- What handlers are given of the values cast for them; one that refuses its value gets nothing. -/
def readings (read : Handler κ → Value → Except TypeMismatch Delivery)
    (casts : List (Handler κ × Value)) : List (Handler κ × Delivery) :=
  casts.filterMap fun c => (read c.1 c.2).toOption.map fun d => (c.1, d)

/-- What the handlers of a call are given in an outcome: all of them what they read of the payload,
or else, if it does not cast for one of them, the reason why. -/
def endings (payload : Payload) (slotType? : Slot → Option Ty)
    (read : Handler κ → Value → Except TypeMismatch Delivery) (handlers : List (Handler κ)) :
    List (Handler κ × Delivery) :=
  match castAll payload slotType? handlers with
  | .error e => explanations e.message handlers
  | .ok casts => readings read casts

/-- What the handlers of a call are given in its result or in its exception. -/
def told (success : Bool) (payload : Payload) (handlers : List (Handler κ)) :
    List (Handler κ × Delivery) :=
  if success then endings payload Slot.resultType? resultFor handlers
  else endings payload Slot.exceptionType? exceptionFor handlers

variable {payload : Payload} {slotType? : Slot → Option Ty}
  {read : Handler κ → Value → Except TypeMismatch Delivery} {handlers : List (Handler κ)}
  {h : Handler κ} {d : Delivery}

theorem explanations_cons_error {reason : String} {rest : List (Handler κ)}
    (he : h.slot.isError = true) :
    explanations reason (h :: rest) = (h, .reason reason) :: explanations reason rest := by
  rw [explanations, List.filter_cons, if_pos he]
  rfl

theorem explanations_cons_other {reason : String} {rest : List (Handler κ)}
    (he : ¬ h.slot.isError = true) :
    explanations reason (h :: rest) = explanations reason rest := by
  rw [explanations, List.filter_cons, if_neg he]
  rfl

theorem readings_cons_error {v : Value} {rest : List (Handler κ × Value)} {m : TypeMismatch}
    (hr : read h v = .error m) : readings read ((h, v) :: rest) = readings read rest :=
  List.filterMap_cons_none (by rw [hr]; rfl)

theorem readings_cons_ok {v : Value} {rest : List (Handler κ × Value)}
    (hr : read h v = .ok d) : readings read ((h, v) :: rest) = (h, d) :: readings read rest :=
  List.filterMap_cons_some (by rw [hr]; rfl)

theorem mem_explanations {reason : String} :
    (h, d) ∈ explanations reason handlers ↔
      h ∈ handlers ∧ h.slot.isError = true ∧ d = .reason reason := by
  unfold explanations
  rw [List.mem_map]
  constructor
  · rintro ⟨k, hk, he⟩
    cases he
    obtain ⟨hm, he⟩ := List.mem_filter.1 hk
    exact ⟨hm, he, rfl⟩
  · rintro ⟨hm, he, rfl⟩
    exact ⟨h, List.mem_filter.2 ⟨hm, he⟩, rfl⟩

theorem mem_readings {casts : List (Handler κ × Value)} :
    (h, d) ∈ readings read casts ↔ ∃ v, (h, v) ∈ casts ∧ read h v = .ok d := by
  unfold readings
  rw [List.mem_filterMap]
  constructor
  · rintro ⟨⟨k, v⟩, hm, he⟩
    cases hd : read k v with
    | error m =>
      rw [hd] at he
      cases he
    | ok d' =>
      rw [hd] at he
      cases he
      exact ⟨v, hm, hd⟩
  · rintro ⟨v, hm, hd⟩
    exact ⟨(h, v), hm, by rw [hd]; rfl⟩

theorem castAll_cons_none {rest : List (Handler κ)} (ht : slotType? h.slot = none) :
    castAll payload slotType? (h :: rest) = castAll payload slotType? rest := by
  rw [castAll, ht]

theorem castAll_cons_eq_ok {rest : List (Handler κ)} {t : Ty} {casts : List (Handler κ × Value)}
    (ht : slotType? h.slot = some t) :
    castAll payload slotType? (h :: rest) = .ok casts ↔ ∃ v others, payload.cast t = .ok v ∧
      castAll payload slotType? rest = .ok others ∧ casts = (h, v) :: others := by
  rw [castAll, ht]
  constructor
  · intro hc
    obtain ⟨v, hv, hc⟩ := bind_eq_ok.1 hc
    obtain ⟨others, ho, hc⟩ := bind_eq_ok.1 hc
    cases hc
    exact ⟨v, others, hv, ho, rfl⟩
  · rintro ⟨v, others, hv, ho, rfl⟩
    exact bind_eq_ok.2 ⟨v, hv, bind_eq_ok.2 ⟨others, ho, rfl⟩⟩

theorem mem_castAll {casts : List (Handler κ × Value)}
    (hc : castAll payload slotType? handlers = .ok casts) {v : Value} (hm : (h, v) ∈ casts) :
    h ∈ handlers ∧ ∃ t, slotType? h.slot = some t ∧ payload.cast t = .ok v := by
  induction handlers generalizing casts with
  | nil =>
    cases hc
    cases hm
  | cons j rest ih =>
    cases ht : slotType? j.slot with
    | none =>
      rw [castAll_cons_none ht] at hc
      obtain ⟨hk, hv⟩ := ih hc hm
      exact ⟨List.mem_cons_of_mem _ hk, hv⟩
    | some t =>
      obtain ⟨w, others, hw, ho, rfl⟩ := (castAll_cons_eq_ok ht).1 hc
      rcases List.mem_cons.1 hm with he | hm
      · cases he
        exact ⟨List.mem_cons_self, t, ht, hw⟩
      · obtain ⟨hk, hv⟩ := ih ho hm
        exact ⟨List.mem_cons_of_mem _ hk, hv⟩

/-- If the payload is not cast for all handlers there is one that it does not cast for. -/
theorem exists_of_castAll_eq_error {e : Error}
    (hc : castAll payload slotType? handlers = .error e) :
    ∃ h ∈ handlers, ∃ t, slotType? h.slot = some t ∧ payload.cast t = .error e := by
  induction handlers with
  | nil => cases hc
  | cons j rest ih =>
    cases ht : slotType? j.slot with
    | none =>
      rw [castAll_cons_none ht] at hc
      obtain ⟨h, hm, hh⟩ := ih hc
      exact ⟨h, List.mem_cons_of_mem _ hm, hh⟩
    | some t =>
      simp only [castAll, ht] at hc
      cases hv : payload.cast t with
      | error e' =>
        rw [hv] at hc
        cases hc
        exact ⟨j, List.mem_cons_self, t, ht, hv⟩
      | ok v =>
        rw [hv] at hc
        cases ho : castAll payload slotType? rest with
        | error e' =>
          rw [ho] at hc
          cases hc
          obtain ⟨h, hm, hh⟩ := ih ho
          exact ⟨h, List.mem_cons_of_mem _ hm, hh⟩
        | ok others =>
          rw [ho] at hc
          cases hc

/-- No handler is given an outcome twice. -/
theorem castAll_sublist {casts : List (Handler κ × Value)}
    (hc : castAll payload slotType? handlers = .ok casts) :
    (casts.map Prod.fst).Sublist handlers := by
  induction handlers generalizing casts with
  | nil =>
    cases hc
    exact List.Sublist.refl []
  | cons j rest ih =>
    cases ht : slotType? j.slot with
    | none =>
      rw [castAll_cons_none ht] at hc
      exact (ih hc).cons j
    | some t =>
      obtain ⟨w, others, -, ho, rfl⟩ := (castAll_cons_eq_ok ht).1 hc
      exact (ih ho).cons_cons j

theorem explanations_sublist (reason : String) (handlers : List (Handler κ)) :
    ((explanations reason handlers).map Prod.fst).Sublist handlers := by
  have hfst : (explanations reason handlers).map Prod.fst =
      handlers.filter fun h => h.slot.isError := by
    rw [explanations, List.map_map]
    exact List.map_id _
  rw [hfst]
  exact List.filter_sublist

theorem readings_sublist (casts : List (Handler κ × Value)) :
    ((readings read casts).map Prod.fst).Sublist (casts.map Prod.fst) := by
  induction casts with
  | nil => exact List.Sublist.refl []
  | cons cast rest ih =>
    obtain ⟨h, v⟩ := cast
    cases hr : read h v with
    | error m =>
      rw [readings_cons_error hr]
      exact ih.cons h
    | ok d =>
      rw [readings_cons_ok hr]
      exact ih.cons_cons h

theorem endings_sublist (payload : Payload) (slotType? : Slot → Option Ty)
    (read : Handler κ → Value → Except TypeMismatch Delivery) (handlers : List (Handler κ)) :
    ((endings payload slotType? read handlers).map Prod.fst).Sublist handlers := by
  unfold endings
  cases hcast : castAll payload slotType? handlers with
  | error e => exact explanations_sublist e.message handlers
  | ok casts => exact (readings_sublist casts).trans (castAll_sublist hcast)

theorem endings_eq_nil (hn : ∀ h ∈ handlers, slotType? h.slot = none) :
    endings payload slotType? read handlers = [] := by
  have hcast : castAll payload slotType? handlers = .ok [] := by
    induction handlers with
    | nil => rfl
    | cons h rest ih =>
      rw [castAll_cons_none (hn h List.mem_cons_self)]
      exact ih fun k hk => hn k (List.mem_cons_of_mem _ hk)
  rw [endings, hcast]
  rfl

/-- Handlers of errors may be given a reason, and those whose slot has a type for the outcome what
they read of the payload. -/
theorem of_mem_endings (hm : (h, d) ∈ endings payload slotType? read handlers) :
    h ∈ handlers ∧ ((h.slot.isError = true ∧ ∃ reason, d = .reason reason) ∨
      ∃ t v, slotType? h.slot = some t ∧ payload.cast t = .ok v ∧ read h v = .ok d) := by
  unfold endings at hm
  cases hcast : castAll payload slotType? handlers with
  | error e =>
    rw [hcast] at hm
    obtain ⟨hk, he, rfl⟩ := mem_explanations.1 hm
    exact ⟨hk, Or.inl ⟨he, _, rfl⟩⟩
  | ok casts =>
    rw [hcast] at hm
    obtain ⟨v, hv, hd⟩ := mem_readings.1 hm
    obtain ⟨hk, t, ht, hv⟩ := mem_castAll hcast hv
    exact ⟨hk, Or.inr ⟨t, v, ht, hv, hd⟩⟩

end Endpoint

end Parley
