import Parley.Proofs.Answers
import Parley.Proofs.Deliveries
import Parley.Proofs.Endings
import Parley.Proofs.Soundness

/-!
# An outcome reaches all handlers or none

The payload of a reply is cast for every handler that waits for it before any of them is given
anything. If all casts succeed, each of these handlers is given its value, in the order in which
they were registered; if one fails, only the handler for errors learns of it.

* `Call.onEach`, `Call.accepted` : a call for which handlers were registered, and which of these
  went through; `Call.onEach_start` : its handlers are those in force.
* `Handler.Native` : handlers of native data; `Handler.Native.reads` : they read every value of the
  type that they wait for.
* `exists_castAll`, `castAll_eq_error` : when the payload is cast for all handlers, and which failure
  is the first.
* `AllOrNothing`, `told_all_or_nothing` : what becomes of a call in a reply.
-/

namespace Parley

variable {ε ρ γ μ κ ι : Type}

/-! ## Registering handlers -/

namespace Call

/-- The call once handlers were registered under events, one after the other; those that are refused
are left out. -/
def onEach (c : Call κ) (attempts : List (String × Handler κ)) : Call κ :=
  attempts.foldl (fun c a => ((c.on a.1 a.2).toOption).getD c) c

/-- The handlers that may be registered under their events. -/
def accepted (attempts : List (String × Handler κ)) : List (Handler κ) :=
  (attempts.filter fun a => (a.2.checkEvent a.1).isOk).map Prod.snd

theorem accepted_append (attempts : List (String × Handler κ)) (event : String) (h : Handler κ) :
    accepted (attempts ++ [(event, h)]) =
      if (h.checkEvent event).isOk then accepted attempts ++ [h] else accepted attempts := by
  unfold accepted
  rw [List.filter_append, List.map_append, List.filter_singleton]
  cases (h.checkEvent event).isOk with
  | true => rfl
  | false => exact List.append_nil _

theorem onEach_append (c : Call κ) (attempts : List (String × Handler κ)) (event : String)
    (h : Handler κ) : c.onEach (attempts ++ [(event, h)]) =
      (((c.onEach attempts).on event h).toOption).getD (c.onEach attempts) := by
  rw [onEach, List.foldl_append]
  rfl

theorem on_unresolved {id : Nat} {handlers : List (Handler κ)} {event : String} {h : Handler κ} :
    (((⟨id, false, handlers⟩ : Call κ).on event h).toOption).getD ⟨id, false, handlers⟩ =
      if (h.checkEvent event).isOk then ⟨id, false, joined handlers h⟩
      else ⟨id, false, handlers⟩ := by
  unfold on
  cases h.checkEvent event with
  | error e => rfl
  | ok u => rfl

/-- The handlers of a call are those in force of the ones that were registered. -/
theorem onEach_start (id : Nat) (attempts : List (String × Handler κ)) :
    (start id).onEach attempts = ⟨id, false, inForce (accepted attempts)⟩ := by
  induction attempts using List.reverseRecOn with
  | nil => rfl
  | append_singleton attempts a ih =>
    obtain ⟨event, h⟩ := a
    rw [accepted_append, onEach_append, ih, on_unresolved]
    split
    · rw [inForce_append]
    · rfl

theorem filter_not_isError_inForce (registered : List (Handler κ)) :
    (inForce registered).filter (fun h => !h.slot.isError) =
      registered.filter fun h => !h.slot.isError := by
  induction registered using List.reverseRecOn with
  | nil => rfl
  | append_singleton registered h ih =>
    rw [inForce_append, joined, List.filter_append, List.filter_append]
    by_cases hh : h.slot.isError = true
    · rw [if_pos hh, List.filter_filter]
      simp only [Bool.and_self, ih]
    · rw [if_neg hh, ih]

end Call

/-! ## Handlers of native data -/

theorem Payload.has_of_cast {payload : Payload} {t : Ty} {v : Value} (hd : t.Distinct)
    (h : payload.cast t = .ok v) : t.Has v := by
  cases payload with
  | json j =>
    cases j with
    | none =>
      cases h
      exact Ty.has_default hd
    | some j => exact Parley.has_of_cast hd (mapError_eq_ok.1 h)
  | wire data encoding => exact has_of_decode hd (Prod.ext h rfl)

/-- Handlers of native data, for results, exceptions, either or errors. -/
inductive Handler.Native : Handler κ → Prop
  | result {t : Ty} (ht : t.Distinct) (target : κ) : Native (.result t target)
  | exception {t : Ty} (ht : t.Distinct) (target : κ) : Native (.exception t target)
  | either {e r : Ty} (he : e.Distinct) (hr : r.Distinct) (target : κ) : Native (.either e r target)
  | error (target : κ) : Native (.error target)

/-- What a handler of the slot is given of the value that a reply brings. -/
def Slot.ofReply (success : Bool) (s : Slot) (v : Value) : Delivery :=
  if success then s.ofResult v else s.ofException v

/-- What a handler reads of the value that a reply brings. -/
def Endpoint.replyFor (success : Bool) (h : Handler κ) (v : Value) :
    Except TypeMismatch Delivery :=
  if success then resultFor h v else exceptionFor h v

/-- A handler of native data reads every value that the payload is cast to for it. -/
theorem Handler.Native.reads {h : Handler κ} (hn : h.Native) {success : Bool} {payload : Payload}
    {t : Ty} {v : Value} (ht : h.slot.replyType? success = some t) (hv : payload.cast t = .ok v) :
    Endpoint.replyFor success h v = .ok (h.slot.ofReply success v) := by
  have hconform (hd : t.Distinct) : t.conform v = .ok v :=
    Ty.conform_of_has hd (payload.has_of_cast hd hv)
  cases hn with
  | result hd target =>
    cases success with
    | false => cases ht
    | true =>
      cases ht
      exact bind_of_ok (hconform hd) _
  | exception hd target =>
    cases success with
    | true => cases ht
    | false =>
      cases ht
      exact bind_of_ok (hconform hd) _
  | either he hr target =>
    cases success with
    | false =>
      cases ht
      exact bind_of_ok (hconform he) _
    | true =>
      cases ht
      exact bind_of_ok (hconform hr) _
  | error target => cases success <;> cases ht

/-! ## Casts for all handlers -/

namespace Endpoint

variable {payload : Payload} {slotType? : Slot → Option Ty} {handlers : List (Handler κ)}

theorem readings_eq_map {read : Handler κ → Value → Except TypeMismatch Delivery}
    {casts : List (Handler κ × Value)} {f : Handler κ × Value → Delivery}
    (h : ∀ c ∈ casts, read c.1 c.2 = .ok (f c)) :
    readings read casts = casts.map fun c => (c.1, f c) := by
  induction casts with
  | nil => rfl
  | cons c rest ih =>
    obtain ⟨hc, hrest⟩ := List.forall_mem_cons.1 h
    rw [readings_cons_ok hc, ih hrest, List.map_cons]

/-- The payload is cast for all handlers when it goes to each of the types that they wait for. -/
theorem exists_castAll (h : ∀ k ∈ handlers, ∀ t, slotType? k.slot = some t →
      ∃ v, payload.cast t = .ok v) :
    ∃ casts, castAll payload slotType? handlers = .ok casts ∧
      casts.map Prod.fst = handlers.filter fun k => (slotType? k.slot).isSome := by
  induction handlers with
  | nil => exact ⟨[], rfl, rfl⟩
  | cons k rest ih =>
    obtain ⟨hk, hrest⟩ := List.forall_mem_cons.1 h
    obtain ⟨others, ho, hfst⟩ := ih hrest
    cases ht : slotType? k.slot with
    | none =>
      refine ⟨others, (castAll_cons_none ht).trans ho, ?_⟩
      rw [List.filter_cons_of_neg (by simp [ht]), hfst]
    | some t =>
      obtain ⟨v, hv⟩ := hk t ht
      refine ⟨(k, v) :: others, (castAll_cons_eq_ok ht).2 ⟨v, others, hv, ho, rfl⟩, ?_⟩
      rw [List.filter_cons_of_pos (by simp [ht]), List.map_cons, hfst]

theorem castAll_eq_error {before after : List (Handler κ)} {k : Handler κ} {t : Ty} {e : Error}
    (hbefore : ∀ j ∈ before, ∀ u, slotType? j.slot = some u → ∃ v, payload.cast u = .ok v)
    (ht : slotType? k.slot = some t) (he : payload.cast t = .error e) :
    castAll payload slotType? (before ++ k :: after) = .error e := by
  induction before with
  | nil =>
    rw [List.nil_append, castAll, ht]
    simp only [he]
    rfl
  | cons j rest ih =>
    obtain ⟨hj, hrest⟩ := List.forall_mem_cons.1 hbefore
    rw [List.cons_append]
    cases hu : slotType? j.slot with
    | none => rw [castAll_cons_none hu, ih hrest]
    | some u =>
      obtain ⟨v, hv⟩ := hj u hu
      rw [castAll, hu]
      simp only [hv, ih hrest]
      rfl

end Endpoint

/-! ## Replies -/

section Told

variable {env : Node (Endpoint ε ρ κ) γ μ κ ι → Node (Endpoint ε ρ κ) γ μ κ ι → Prop} {during : γ}
  {n n' : Node (Endpoint ε ρ κ) γ μ κ ι} {id : Nat} {success : Bool} {payload : Payload}
  {call : Call κ} {answers : List (Except Error Unit)} {r : Except Error Unit}

/-- The call is resolved and has no handlers. -/
def HasEnded (id : Nat) (n : Node (Endpoint ε ρ κ) γ μ κ ι) : Prop :=
  ∃ call, n.state.calls.find? id = some call ∧ call.resolved = true ∧ call.handlers = []

theorem hasEnded_close (hcall : n.state.calls.find? id = some call) (hid : call.id = id) :
    HasEnded id (n.withCalls (n.state.calls.close id)) := by
  refine ⟨call.resolve, ?_, rfl, rfl⟩
  rw [Node.state_withCalls, Endpoint.calls_withCalls, Calls.close_of_find? hcall, Calls.find?_put]
  exact if_pos hid

theorem Gives.hasEnded {given : List (Handler κ × Delivery)} (hg : Gives env during id given n n')
    (henv : ∀ m m', env m m' → HasEnded id m → HasEnded id m') (h : HasEnded id n) :
    HasEnded id n' := by
  induction hg with
  | nil => exact h
  | cons he _ ih => exact ih (henv _ _ he h)

/-- Ends a call in the outcome that a reply tells. -/
def Endpoint.tell (success : Bool) (id : Nat) (payload : Payload) :
    Operation (Endpoint ε ρ κ) μ κ ι Unit :=
  if success then succeed id payload else raise id payload

/-- A reply that a handler waits for, or that is a result, ends the call in its outcome. -/
theorem hears_told (hcall : n.state.calls.find? id = some call) (hr : call.resolved = false)
    (hwaits : success = true ∨ ∃ h ∈ call.handlers, (h.slot.replyType? success).isSome) :
    Operation.Hears env during (Endpoint.tell success id payload) n answers r n' ↔
      Operation.Hears env during
        (Endpoint.finish id call payload (Slot.replyType? success) (Endpoint.replyFor success))
        n answers r n' := by
  cases success with
  | true =>
    rw [Endpoint.tell, if_pos rfl, Endpoint.succeed, Endpoint.hears_call?_bind, hcall]
    simp only [hr]
    exact Iff.rfl
  | false =>
    have hany : (call.handlers.any fun h => h.slot.exceptionType?.isSome) = true := by
      rcases hwaits with h | h
      · cases h
      · exact List.any_eq_true.2 h
    rw [Endpoint.tell, if_neg Bool.false_ne_true, Endpoint.raise, Endpoint.hears_call?_bind, hcall]
    simp only [hr, hany]
    exact Iff.rfl

theorem hears_unhandled (hcall : n.state.calls.find? id = some call) (hr : call.resolved = false)
    (hnone : ∀ h ∈ call.handlers, h.slot.exceptionType? = none) :
    Operation.Hears env during (Endpoint.raise id payload) n answers r n' ↔
      answers = [] ∧ r = .error (.unhandledException id payload.describe) ∧
        n' = n.withCalls (n.state.calls.close id) := by
  have hany : (call.handlers.any fun h => h.slot.exceptionType?.isSome) = false := by
    refine List.any_eq_false.2 fun h hm => ?_
    rw [hnone h hm]
    exact Bool.false_ne_true
  rw [Endpoint.raise, Endpoint.hears_call?_bind, hcall]
  simp only [hr, hany]
  exact Endpoint.hears_resolve_bind

theorem hears_told_ok (hcall : n.state.calls.find? id = some call) (hr : call.resolved = false)
    (hnative : ∀ h ∈ call.handlers, h.Native)
    (hwaits : success = true ∨ ∃ h ∈ call.handlers, (h.slot.replyType? success).isSome)
    (hcast : ∀ h ∈ call.handlers, ∀ t, h.slot.replyType? success = some t →
      ∃ v, payload.cast t = .ok v) :
    ∃ given : List (Handler κ × Delivery),
      given.map Prod.fst = call.handlers.filter (fun h => (h.slot.replyType? success).isSome) ∧
      (∀ h d, (h, d) ∈ given → ∃ t v, h.slot.replyType? success = some t ∧
        payload.cast t = .ok v ∧ d = h.slot.ofReply success v) ∧
      ∀ answers r n', Operation.Hears env during (Endpoint.tell success id payload) n answers r n' ↔
        r = firstRefusal answers ∧ answers.length = given.length ∧
          Gives env during id given (n.withCalls (n.state.calls.close id)) n' := by
  obtain ⟨casts, hcasts, hfst⟩ := Endpoint.exists_castAll hcast
  have hread : ∀ c ∈ casts, Endpoint.replyFor success c.1 c.2 =
      .ok (c.1.slot.ofReply success c.2) := by
    rintro ⟨h, v⟩ hm
    obtain ⟨hk, t, ht, hv⟩ := Endpoint.mem_castAll hcasts hm
    exact (hnative h hk).reads ht hv
  refine ⟨Endpoint.readings (Endpoint.replyFor success) casts, ?_, fun h d hm => ?_,
    fun answers r n' => ?_⟩
  · rw [Endpoint.readings_eq_map hread, List.map_map]
    exact hfst
  · obtain ⟨v, hv, hd⟩ := Endpoint.mem_readings.1 hm
    obtain ⟨-, t, ht, hcast⟩ := Endpoint.mem_castAll hcasts hv
    exact ⟨t, v, ht, hcast, (Except.ok.inj ((hread (h, v) hv).symm.trans hd)).symm⟩
  · rw [hears_told hcall hr hwaits]
    exact Endpoint.hears_finish_ok hcasts fun c hc => ⟨_, hread c hc⟩

theorem hears_told_error {before after : List (Handler κ)} {k : Handler κ} {t : Ty} {e : Error}
    (hcall : n.state.calls.find? id = some call) (hr : call.resolved = false)
    (hsplit : call.handlers = before ++ k :: after)
    (hbefore : ∀ j ∈ before, ∀ u, j.slot.replyType? success = some u →
      ∃ v, payload.cast u = .ok v)
    (ht : k.slot.replyType? success = some t) (he : payload.cast t = .error e) :
    Operation.Hears env during (Endpoint.tell success id payload) n answers r n' ↔
      r = .error e ∧ answers.length = (Endpoint.explanations e.message call.handlers).length ∧
        Gives env during id (Endpoint.explanations e.message call.handlers)
          (n.withCalls (n.state.calls.close id)) n' := by
  have hk : k ∈ call.handlers := hsplit ▸ List.mem_append_right _ List.mem_cons_self
  rw [hears_told hcall hr (Or.inr ⟨k, hk, ht ▸ rfl⟩)]
  exact Endpoint.hears_finish_error (Calls.waiting_of_find? hcall hr)
    (hsplit ▸ Endpoint.castAll_eq_error hbefore ht he)

/-- What becomes of a call in a reply; `accepted` were registered for it and `handlers` are those it
has. -/
structure AllOrNothing (env : Node (Endpoint ε ρ κ) γ μ κ ι → Node (Endpoint ε ρ κ) γ μ κ ι → Prop)
    (during : γ) (id : Nat) (accepted handlers : List (Handler κ)) (success : Bool)
    (payload : Payload) (n : Node (Endpoint ε ρ κ) γ μ κ ι) : Prop where
  /-- The handlers are those that were registered, in order, less all but the latest of those for
  errors. -/
  kept : handlers.filter (fun h => !h.slot.isError) = accepted.filter (fun h => !h.slot.isError) ∧
    handlers.filter (fun h => h.slot.isError) =
      (accepted.filter fun h => h.slot.isError).getLast?.toList
  /-- If the payload is cast for every handler that waits for the reply, each of these is given its
  value, once and in order, and nobody else is given anything; what comes of it is the first refusal
  of a target, or success if all of them accept. -/
  told : (success = true ∨ ∃ h ∈ handlers, (h.slot.replyType? success).isSome) →
    (∀ h ∈ handlers, ∀ t, h.slot.replyType? success = some t → ∃ v, payload.cast t = .ok v) →
    ∃ given : List (Handler κ × Delivery),
      given.map Prod.fst = handlers.filter (fun h => (h.slot.replyType? success).isSome) ∧
      (∀ h d, (h, d) ∈ given → ∃ t v, h.slot.replyType? success = some t ∧
        payload.cast t = .ok v ∧ d = h.slot.ofReply success v) ∧
      (∀ answers r n',
        Operation.Hears env during (Endpoint.tell success id payload) n answers r n' ↔
        r = firstRefusal answers ∧ answers.length = given.length ∧
          Gives env during id given (n.withCalls (n.state.calls.close id)) n') ∧
      ∀ answers r n', Operation.Hears env during (Endpoint.tell success id payload) n answers r n' →
        (∀ a ∈ answers, a = .ok ()) → r = .ok ()
  /-- If it is not, the handler for errors is given the text of the first cast that fails, nobody
  else is given anything, and the call ends in that error. -/
  failed : ∀ before k after t e, handlers = before ++ k :: after →
    (∀ j ∈ before, ∀ u, j.slot.replyType? success = some u → ∃ v, payload.cast u = .ok v) →
    k.slot.replyType? success = some t → payload.cast t = .error e →
    ∀ answers r n', Operation.Hears env during (Endpoint.tell success id payload) n answers r n' ↔
      r = .error e ∧
        answers.length = (accepted.filter fun h => h.slot.isError).getLast?.toList.length ∧
        Gives env during id ((accepted.filter fun h => h.slot.isError).getLast?.toList.map
          fun h => (h, .reason e.message)) (n.withCalls (n.state.calls.close id)) n'
  /-- An exception that no handler waits for is an error, and nobody is given anything. -/
  unhandled : success = false → (∀ h ∈ handlers, h.slot.replyType? success = none) →
    ∀ answers r n', Operation.Hears env during (Endpoint.tell success id payload) n answers r n' ↔
      answers = [] ∧ r = .error (.unhandledException id payload.describe) ∧
        n' = n.withCalls (n.state.calls.close id)
  /-- Before anybody is given anything the call is resolved and has no handlers, -/
  closed : HasEnded id (n.withCalls (n.state.calls.close id))
  /-- and that it stays unless a target can undo it. -/
  ended : (∀ m m', env m m' → HasEnded id m → HasEnded id m') →
    ∀ answers r n', Operation.Hears env during (Endpoint.tell success id payload) n answers r n' →
      HasEnded id n'
  /-- The reply is dealt with to its end. -/
  ends : (∀ m, ∃ m', env m m') → ∃ answers r n',
    Operation.Hears env during (Endpoint.tell success id payload) n answers r n'

/-- A reply reaches all handlers of a call that wait for it or none of them. -/
theorem told_all_or_nothing
    (env : Node (Endpoint ε ρ κ) γ μ κ ι → Node (Endpoint ε ρ κ) γ μ κ ι → Prop) (during : γ)
    (id : Nat) (attempts : List (String × Handler κ)) (hnative : ∀ a ∈ attempts, a.2.Native)
    (success : Bool) (payload : Payload) (n : Node (Endpoint ε ρ κ) γ μ κ ι)
    (hcall : n.state.calls.find? id = some ((Call.start id).onEach attempts)) :
    AllOrNothing env during id (Call.accepted attempts) ((Call.start id).onEach attempts).handlers
      success payload n := by
  rw [Call.onEach_start] at hcall ⊢
  have hkept : ∀ h ∈ Call.inForce (Call.accepted attempts), h.Native := by
    intro h hm
    obtain ⟨a, ha, rfl⟩ := List.mem_map.1 ((Call.inForce_sublist _).subset hm)
    exact hnative a (List.mem_filter.1 ha).1
  refine {
    kept := ⟨Call.filter_not_isError_inForce _, Call.filter_inForce _⟩, told := ?told,
    failed := ?failed, closed := hasEnded_close hcall rfl, ended := ?ended, ends := ?ends,
    unhandled := ?unhandled }
  case told =>
    intro hwaits hcast
    obtain ⟨given, hfst, hvalues, hiff⟩ := hears_told_ok hcall rfl hkept hwaits hcast
    refine ⟨given, hfst, hvalues, hiff, fun answers r n' h haccept => ?_⟩
    rw [((hiff answers r n').1 h).1]
    exact firstRefusal_eq_ok.2 haccept
  case failed =>
    intro before k after t e hsplit hbefore ht he answers r n'
    refine (hears_told_error hcall rfl hsplit hbefore ht he).trans ?_
    simp only [Endpoint.explanations, Call.filter_inForce, List.length_map]
  case unhandled =>
    rintro rfl hnone answers r n'
    exact hears_unhandled hcall rfl hnone
  case ended =>
    intro henv answers r n' h
    rcases Endpoint.runs_told (Operation.runs_iff_hears.2 ⟨answers, h⟩) with
      ⟨-, hresolved⟩ | ⟨call, -, -, hg⟩
    · cases hresolved _ hcall
    · exact hg.hasEnded henv (hasEnded_close hcall rfl)
  case ends =>
    intro henv
    obtain ⟨r, n', h⟩ := Action.exists_runs (Site.self _) henv during
      (Operation.outcome (Endpoint.tell success id payload)) n
    obtain ⟨answers, h⟩ := Action.runs_iff_hears.1 h
    exact ⟨answers, r, n', h⟩

/-- Handlers for a number, for an exception or a text and, twice, for errors; one more does not suit
its event. -/
def mixedHandlers : List (String × Handler Nat) :=
  [("result", .result (.int .i32) 0), ("error", .error 1), ("exc_result", .either .nil .string 2),
    ("result", .error 3), ("error", .error 4)]

/-- A reply without a value is a zero and an empty text. A number is no text, and only the later
handler for errors learns of that. -/
theorem told_all_or_nothing_mixed :
    let n : Node (Endpoint Unit Unit Nat) Unit Unit Nat Unit :=
      .start ⟨.default, (), ⟨1, [], [(0, (Call.start 0).onEach mixedHandlers)]⟩⟩
    let seven : Payload := .json (some (.whole 7 (by decide)))
    (∀ a ∈ mixedHandlers, a.2.Native) ∧
      n.state.calls.find? 0 = some ((Call.start 0).onEach mixedHandlers) ∧
      (∃ n',
        Operation.Hears Eq () (Endpoint.tell true 0 (.json none)) n [.ok (), .ok ()] (.ok ()) n' ∧
        n'.trace = [.delivered () 0 (.result (.int .i32) 0) (.value (.int (Integer.zero .i32))),
          .delivered () 0 (.either .nil .string 2) (.either none (some (.string "")))]) ∧
      (∀ answers r n', Operation.Hears Eq () (Endpoint.tell true 0 (.json none)) n answers r n' →
        (∀ a ∈ answers, a = .ok ()) → r = .ok ()) ∧
      ∀ answers r n', Operation.Hears Eq () (Endpoint.tell true 0 seven) n answers r n' ↔
        r = .error (.mismatch (.unsuited (.int ⟨.i64, 7, by decide⟩) .string)) ∧
          answers.length = 1 ∧
          Gives Eq () 0
            [(.error 4, .reason "incompatible native type: Type error: I64(7) :/: String")]
            (n.withCalls (n.state.calls.close 0)) n' := by
  intro n seven
  have hnative : ∀ a ∈ mixedHandlers, a.2.Native := by
    simp only [mixedHandlers, List.forall_mem_cons]
    exact ⟨.result (by decide) 0, .error 1, .either (by decide) (by decide) 2, .error 3, .error 4,
      nofun⟩
  have hnone := told_all_or_nothing Eq () 0 mixedHandlers hnative true (.json none) n rfl
  have hseven := told_all_or_nothing Eq () 0 mixedHandlers hnative true seven n rfl
  refine ⟨hnative, rfl, ⟨_, ⟨_, _, _, rfl, rfl, _, _, _, rfl, rfl, rfl, rfl, rfl⟩, rfl⟩, ?_, ?_⟩
  · obtain ⟨_, -, -, -, hok⟩ := hnone.told (Or.inl rfl) fun h _ t _ => ⟨t.default, rfl⟩
    exact hok
  · have hfailed := hseven.failed [.result (.int .i32) 0] (.either .nil .string 2) [.error 4]
      .string (.mismatch (.unsuited (.int ⟨.i64, 7, by decide⟩) .string)) rfl (fun j hj u hu => by
        obtain rfl := List.mem_singleton.1 hj
        cases hu
        exact ⟨_, rfl⟩) rfl rfl
    have hmessage : (Error.mismatch (.unsuited (.int ⟨.i64, 7, by decide⟩) .string)).message =
      "incompatible native type: Type error: I64(7) :/: String" := by decide +kernel
    rw [hmessage] at hfailed
    exact hfailed

end Told

end Parley
