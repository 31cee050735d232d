import Parley.Connection.Wrapper
import Parley.Proofs.Handlers
import Parley.Proofs.Runs

/-!
# What the operations of an endpoint do

One statement for each operation: how it changes the calls, and what is seen before it ends.

* `Seen` : the environment acts, and occurrences of a certain kind are seen.
* `Calls.close`, `Calls.waiting` : a call once it is resolved, and the handlers it had.
* `Gives` : handlers are given something, one after the other; `Ends`, `Explains` : what is seen.
* `runs_allocate`, `runs_takePending`, `runs_register`, `runs_resolve` : changes of the calls.
* `Calling`, `HandsOut` : what a call does before and after its message is out.
* `runs_explain`, `runs_deliverAll` : deliveries to handlers.
* `runs_fail`, `runs_succeed`, `runs_raise`, `runs_told`, `runs_failAll` : the ends of calls.
-/

namespace Parley

/-- The environment acts and occurrences of a kind are seen, in any order. -/
def Seen {σ γ μ κ ι : Type} (env : Node σ γ μ κ ι → Node σ γ μ κ ι → Prop)
    (kind : Occurrence γ μ κ ι → Prop) : Node σ γ μ κ ι → Node σ γ μ κ ι → Prop :=
  Relation.ReflTransGen fun n n' => env n n' ∨ ∃ o, kind o ∧ n' = n.note o

namespace Seen

variable {σ γ μ κ ι : Type} {env : Node σ γ μ κ ι → Node σ γ μ κ ι → Prop}
  {kind : Occurrence γ μ κ ι → Prop} {n n' n'' : Node σ γ μ κ ι}

theorem refl (n : Node σ γ μ κ ι) : Seen env kind n n :=
  Relation.ReflTransGen.refl

theorem trans (h : Seen env kind n n') (h' : Seen env kind n' n'') : Seen env kind n n'' :=
  Relation.ReflTransGen.trans h h'

theorem ofEnv (h : env n n') : Seen env kind n n' :=
  Relation.ReflTransGen.single (Or.inl h)

theorem noteEnv {o : Occurrence γ μ κ ι} (ho : kind o) (h : env (n.note o) n') :
    Seen env kind n n' :=
  trans (Relation.ReflTransGen.single (Or.inr ⟨o, ho, rfl⟩)) (ofEnv h)

theorem guarantee {R : Node σ γ μ κ ι → Node σ γ μ κ ι → Prop} (hrefl : ∀ n, R n n)
    (htrans : ∀ {n₁ n₂ n₃}, R n₁ n₂ → R n₂ n₃ → R n₁ n₃) (henv : ∀ {n n'}, env n n' → R n n')
    (hnote : ∀ n o, kind o → R n (n.note o)) (h : Seen env kind n n') : R n n' :=
  guarantee_of_reflTransGen hrefl htrans
    (fun hs => hs.elim henv fun ⟨o, ho, he⟩ => he ▸ hnote _ o ho) h

end Seen

/-! ## Calls -/

namespace Calls

variable {ε κ : Type}

theorem find?_put (c : Calls ε κ) (call : Call κ) (j : Nat) :
    (c.put call).find? j = if call.id = j then some call else c.find? j :=
  Table.find?_insert call.id j call c.table

theorem find?_put_self (c : Calls ε κ) (call : Call κ) : (c.put call).find? call.id = some call :=
  Table.find?_insert_self call.id call c.table

theorem find?_put_ne {call : Call κ} {j : Nat} (h : call.id ≠ j) (c : Calls ε κ) :
    (c.put call).find? j = c.find? j :=
  Table.find?_insert_ne h call c.table

theorem exists_find?_put {c : Calls ε κ} {j : Nat} (call : Call κ)
    (h : ∃ d, c.find? j = some d) : ∃ d, (c.put call).find? j = some d := by
  rw [find?_put]
  split
  · exact ⟨call, rfl⟩
  · exact h

/-- What is true of the call that was put and of the others is true of all calls of the table. -/
theorem forall_put {P : Nat → Call κ → Prop} {c : Calls ε κ} {call : Call κ}
    (hself : P call.id call) (hothers : ∀ j d, call.id ≠ j → c.find? j = some d → P j d) :
    ∀ j d, (c.put call).find? j = some d → P j d :=
  Table.forall_insert hself hothers

/-- The calls with one of them resolved. -/
def close (c : Calls ε κ) (id : Nat) : Calls ε κ :=
  match c.find? id with
  | none => c
  | some call => c.put call.resolve

/-- The handlers that wait for the outcome of a call. -/
def waiting (c : Calls ε κ) (id : Nat) : List (Handler κ) :=
  match c.find? id with
  | none => []
  | some call => if call.resolved then [] else call.handlers

/-- Every call is entered under its own identifier. -/
def Own (c : Calls ε κ) : Prop :=
  ∀ id call, c.find? id = some call → call.id = id

theorem Own.put {c : Calls ε κ} (h : c.Own) (call : Call κ) : (c.put call).Own :=
  forall_put rfl fun j d _ hd => h j d hd

theorem Own.close {c : Calls ε κ} (h : c.Own) (id : Nat) : (c.close id).Own := by
  unfold Calls.close
  split
  · exact h
  · exact h.put _

@[simp] theorem nextId_close (c : Calls ε κ) (id : Nat) : (c.close id).nextId = c.nextId := by
  unfold close
  split <;> rfl

@[simp] theorem pending_close (c : Calls ε κ) (id : Nat) : (c.close id).pending = c.pending := by
  unfold close
  split <;> rfl

@[simp] theorem active_close (c : Calls ε κ) (id : Nat) : (c.close id).active = c.active :=
  congrArg Table.keys (pending_close c id)

theorem find?_close_ne {c : Calls ε κ} (h : c.Own) {id j : Nat} (hne : id ≠ j) :
    (c.close id).find? j = c.find? j := by
  unfold close
  cases hc : c.find? id with
  | none => rfl
  | some call =>
    have hid : call.resolve.id = id := h id call hc
    exact find?_put_ne (hid ▸ hne) c

theorem close_of_find? {c : Calls ε κ} {id : Nat} {call : Call κ} (h : c.find? id = some call) :
    c.close id = c.put call.resolve := by
  rw [close, h]

theorem waiting_of_find? {c : Calls ε κ} {id : Nat} {call : Call κ} (h : c.find? id = some call)
    (hr : call.resolved = false) : c.waiting id = call.handlers := by
  rw [waiting, h]
  exact if_neg (by rw [hr]; exact Bool.false_ne_true)

end Calls

namespace Endpoint

variable {ε ρ κ : Type}

/-- The endpoint with other calls. -/
def withCalls (s : Endpoint ε ρ κ) (c : Calls ε κ) : Endpoint ε ρ κ :=
  { s with calls := c }

@[simp] theorem calls_withCalls (s : Endpoint ε ρ κ) (c : Calls ε κ) :
    (s.withCalls c).calls = c := rfl

end Endpoint

/-- The node with other calls. -/
def Node.withCalls {ε ρ γ μ κ ι : Type} (n : Node (Endpoint ε ρ κ) γ μ κ ι) (c : Calls ε κ) :
    Node (Endpoint ε ρ κ) γ μ κ ι :=
  n.move (n.state.withCalls c)

namespace Node

variable {ε ρ γ μ κ ι : Type}

@[simp] theorem state_withCalls (n : Node (Endpoint ε ρ κ) γ μ κ ι) (c : Calls ε κ) :
    (n.withCalls c).state = n.state.withCalls c := rfl

end Node

/-! ## Deliveries in the course of a command -/

/-- The deliveries in which an outcome ends a call: of the handlers it had, each that waits for
errors may be given a reason, and each whose slot has a type for the outcome may be given what it
reads from the payload. -/
def Ends {γ μ κ ι : Type} (during : γ) (id : Nat) (handlers : List (Handler κ)) (payload : Payload)
    (slotType? : Slot → Option Ty) (read : Handler κ → Value → Except TypeMismatch Delivery)
    (o : Occurrence γ μ κ ι) : Prop :=
  ∃ h ∈ handlers, ∃ d, o = .delivered during id h d ∧
    ((h.slot.isError = true ∧ ∃ reason, d = .reason reason) ∨
      ∃ t v, slotType? h.slot = some t ∧ payload.cast t = .ok v ∧ read h v = .ok d)

/-- The deliveries in which an error ends a call. -/
def Explains {γ μ κ ι : Type} (during : γ) (id : Nat) (handlers : List (Handler κ))
    (o : Occurrence γ μ κ ι) : Prop :=
  ∃ h ∈ handlers, h.slot.isError = true ∧ ∃ reason, o = .delivered during id h (.reason reason)

/-- Handlers of a call are given something, one after the other; the environment acts each time. -/
inductive Gives {σ γ μ κ ι : Type} (env : Node σ γ μ κ ι → Node σ γ μ κ ι → Prop) (during : γ)
    (id : Nat) : List (Handler κ × Delivery) → Node σ γ μ κ ι → Node σ γ μ κ ι → Prop
  | nil (n : Node σ γ μ κ ι) : Gives env during id [] n n
  | cons {h : Handler κ} {d : Delivery} {given : List (Handler κ × Delivery)}
      {n n₁ n' : Node σ γ μ κ ι} (he : env (n.note (.delivered during id h d)) n₁)
      (rest : Gives env during id given n₁ n') : Gives env during id ((h, d) :: given) n n'

namespace Gives

variable {σ γ μ κ ι : Type} {env : Node σ γ μ κ ι → Node σ γ μ κ ι → Prop} {during : γ} {id : Nat}
  {n n' : Node σ γ μ κ ι}

theorem seen {given : List (Handler κ × Delivery)} {kind : Occurrence γ μ κ ι → Prop}
    (hg : Gives env during id given n n')
    (hk : ∀ h d, (h, d) ∈ given → kind (.delivered during id h d)) : Seen env kind n n' := by
  induction hg with
  | nil n => exact Seen.refl n
  | cons he _ ih =>
    exact (Seen.noteEnv (hk _ _ List.mem_cons_self) he).trans
      (ih fun h d hm => hk h d (List.mem_cons_of_mem _ hm))

theorem ends {payload : Payload} {slotType? : Slot → Option Ty}
    {read : Handler κ → Value → Except TypeMismatch Delivery} {handlers : List (Handler κ)}
    (hg : Gives env during id (Endpoint.endings payload slotType? read handlers) n n') :
    Seen env (Ends during id handlers payload slotType? read) n n' := by
  refine hg.seen fun h d hm => ?_
  obtain ⟨hk, hd⟩ := Endpoint.of_mem_endings hm
  exact ⟨h, hk, d, rfl, hd⟩

theorem explains {reason : String} {handlers : List (Handler κ)}
    (hg : Gives env during id (Endpoint.explanations reason handlers) n n') :
    Seen env (Explains during id handlers) n n' := by
  refine hg.seen fun h d hm => ?_
  obtain ⟨hk, he, rfl⟩ := Endpoint.mem_explanations.1 hm
  exact ⟨h, hk, he, reason, rfl⟩

end Gives

namespace Endpoint

section Runs

variable {ε ρ γ μ κ ι : Type}
  {env : Node (Endpoint ε ρ κ) γ μ κ ι → Node (Endpoint ε ρ κ) γ μ κ ι → Prop} {during : γ}
  {n n' : Node (Endpoint ε ρ κ) γ μ κ ι} {id : Nat}

/-! ## Changes of the calls -/

theorem runs_allocate {r : Except Error Nat} (h : Operation.Runs env during allocate n r n') :
    (r = .error .idsExhausted ∧ n' = n) ∨
      (r = .ok n.state.calls.nextId ∧ n.state.calls.nextId < idLimit ∧
        n' = n.withCalls { n.state.calls with nextId := n.state.calls.nextId + 1 }) := by
  unfold allocate Calls.allocate at h
  rw [Operation.runs_get_bind] at h
  by_cases hl : n.state.calls.nextId < idLimit
  · rw [if_pos hl] at h
    exact Or.inr ⟨h.1, hl, h.2⟩
  · rw [if_neg hl] at h
    exact Or.inl h

theorem runs_start {defaults : List (Handler κ)} {e : ε} {r : Except Error Unit}
    (h : Operation.Runs env during (start id defaults e) n r n') :
    (∃ error, r = .error error ∧ n' = n) ∨ ∃ call, Call.startWith id defaults = .ok call ∧
      r = .ok () ∧ n' = n.withCalls (n.state.calls.enter call e) := by
  unfold start at h
  cases hc : Call.startWith id defaults with
  | error error =>
    rw [hc] at h
    exact Or.inl ⟨error, h⟩
  | ok call =>
    rw [hc] at h
    exact Or.inr ⟨call, rfl, h⟩

/-- How a call goes on once its message is out: it ends there if its function is called one way, and
otherwise it is refused for its handlers or is entered and handed out. -/
inductive HandsOut (w : Wrapper κ) (id : Nat) (e : ε) (n : Node (Endpoint ε ρ κ) γ μ κ ι) :
    Except Error (Option Nat) → Node (Endpoint ε ρ κ) γ μ κ ι → Prop
  | oneWay (ho : n.state.config.isOneWay w.name = true) : HandsOut w id e n (.ok none) n
  | refused (error : Error) : HandsOut w id e n (.error error) n
  | entered {call : Call κ} (ho : n.state.config.isOneWay w.name = false)
      (hc : Call.startWith id w.defaults = .ok call) :
      HandsOut w id e n (.ok (some id)) (n.withCalls (n.state.calls.enter call e))

theorem runs_handOut {w : Wrapper κ} {e : ε} {r : Except Error (Option Nat)}
    (h : Operation.Runs env during (do
      if (← get).config.isOneWay w.name then return none
      start id w.defaults e
      return some id) n r n') : HandsOut w id e n r n' := by
  rw [Operation.runs_get_bind] at h
  by_cases ho : n.state.config.isOneWay w.name = true
  · rw [if_pos ho] at h
    obtain ⟨rfl, rfl⟩ := h
    exact .oneWay ho
  · rw [if_neg ho] at h
    rcases Operation.runs_bind.1 h with ⟨error, hs, rfl⟩ | ⟨_, n₁, hs, rfl, rfl⟩
    · rcases runs_start hs with ⟨_, -, rfl⟩ | ⟨_, -, hr, -⟩
      · exact .refused error
      · cases hr
    · rcases runs_start hs with ⟨_, hr, -⟩ | ⟨call, hc, -, rfl⟩
      · cases hr
      · exact .entered (Bool.eq_false_iff.2 ho) hc

/-- What a call does whose message depends on its identifier: it takes the next identifier unless
there are none left, and goes on if it has a message. -/
inductive Calling (env : Node (Endpoint ε ρ κ) γ μ κ ι → Node (Endpoint ε ρ κ) γ μ κ ι → Prop)
    (during : γ) (w : Wrapper κ) (e : ε) (message : Nat → Except Error μ)
    (n : Node (Endpoint ε ρ κ) γ μ κ ι) :
    Except Error (Option Nat) → Node (Endpoint ε ρ κ) γ μ κ ι → Prop
  | exhausted : Calling env during w e message n (.error .idsExhausted) n
  | unsent {error : Error} (hm : message n.state.calls.nextId = .error error) :
      Calling env during w e message n (.error error)
        (n.withCalls { n.state.calls with nextId := n.state.calls.nextId + 1 })
  | sent {m : μ} {n₁ n' : Node (Endpoint ε ρ κ) γ μ κ ι} {r : Except Error (Option Nat)}
      (hl : n.state.calls.nextId < idLimit) (hm : message n.state.calls.nextId = .ok m)
      (he : env ((n.withCalls { n.state.calls with nextId := n.state.calls.nextId + 1 }).note
        (.sent during m)) n₁)
      (h : HandsOut w n.state.calls.nextId e n₁ r n') : Calling env during w e message n r n'

theorem runs_takePending {r : Except Error ε}
    (h : Operation.Runs env during (takePending id) n r n') :
    (Table.find? id n.state.calls.pending = none ∧ r = .error (.unknownCall id) ∧ n' = n) ∨
      ∃ e, Table.find? id n.state.calls.pending = some e ∧ r = .ok e ∧
        n' = n.withCalls (n.state.calls.settle id) := by
  unfold takePending at h
  rw [Operation.runs_get_bind] at h
  cases hf : Table.find? id n.state.calls.pending with
  | none =>
    rw [hf] at h
    exact Or.inl ⟨rfl, h⟩
  | some e =>
    rw [hf] at h
    exact Or.inr ⟨e, rfl, h⟩

theorem runs_call?_bind {α : Type} {f : Option (Call κ) → Operation (Endpoint ε ρ κ) μ κ ι α}
    {r : Except Error α} :
    Operation.Runs env during (call? id >>= f) n r n' ↔
      Operation.Runs env during (f (n.state.calls.find? id)) n r n' := Iff.rfl

theorem runs_register {event : String} {hd : Handler κ} {r : Except Error Unit}
    (h : Operation.Runs env during (register id event hd) n r n') :
    (∃ e, r = .error e ∧ n' = n) ∨
      ∃ call changed, n.state.calls.find? id = some call ∧ call.on event hd = .ok changed ∧
        r = .ok () ∧ n' = n.withCalls (n.state.calls.put changed) := by
  unfold register at h
  rw [runs_call?_bind] at h
  cases hf : n.state.calls.find? id with
  | none =>
    rw [hf] at h
    exact Or.inl ⟨_, h⟩
  | some call =>
    rw [hf] at h
    cases hc : call.on event hd with
    | error e =>
      simp only [hc] at h
      exact Or.inl ⟨e, h⟩
    | ok changed =>
      simp only [hc] at h
      exact Or.inr ⟨call, changed, rfl, hc, h⟩

theorem runs_resolve {r : Except Error (List (Handler κ))}
    (h : Operation.Runs env during (resolve id) n r n') :
    r = .ok (n.state.calls.waiting id) ∧ n' = n.withCalls (n.state.calls.close id) := by
  unfold resolve at h
  rw [runs_call?_bind] at h
  unfold Calls.waiting Calls.close
  cases hf : n.state.calls.find? id with
  | none =>
    rw [hf] at h
    exact h
  | some call =>
    rw [hf] at h
    exact h

/-! ## Deliveries -/

/-- The handlers that wait for errors are given the reason, one after the other. -/
theorem runs_explain {reason : String} {handlers : List (Handler κ)} {r : Except Error Unit}
    (h : Operation.Runs env during (explain id reason handlers) n r n') :
    r = .ok () ∧ Gives env during id (explanations reason handlers) n n' := by
  induction handlers generalizing n with
  | nil =>
    obtain ⟨hr, rfl⟩ := h
    exact ⟨hr, .nil n'⟩
  | cons k rest ih =>
    rw [explain] at h
    by_cases hk : k.slot.isError = true
    · simp only [hk, if_true] at h
      obtain ⟨n₁, accepted, he, h⟩ := Operation.runs_deliver_bind.1 h
      obtain ⟨hr, hg⟩ := ih h
      refine ⟨hr, ?_⟩
      rw [explanations_cons_error hk]
      exact .cons he hg
    · simp only [hk] at h
      obtain ⟨hr, hg⟩ := ih h
      refine ⟨hr, ?_⟩
      rw [explanations_cons_other hk]
      exact hg

/-- The handlers are given what they read, one after the other, whatever became of those before. -/
theorem runs_deliverAll {read : Handler κ → Value → Except TypeMismatch Delivery}
    {casts : List (Handler κ × Value)} {r : Except Error (Except Error Unit)}
    (h : Operation.Runs env during (deliverAll id read casts) n r n') :
    (∃ x, r = .ok x) ∧ Gives env during id (readings read casts) n n' := by
  induction casts generalizing n n' r with
  | nil =>
    obtain ⟨hr, rfl⟩ := h
    exact ⟨⟨_, hr⟩, .nil n'⟩
  | cons cast rest ih =>
    obtain ⟨k, v⟩ := cast
    have hrest {n : Node (Endpoint ε ρ κ) γ μ κ ι}
        {next : Except Error Unit → Operation (Endpoint ε ρ κ) μ κ ι (Except Error Unit)}
        (hnext : ∀ others, ∃ x, next others = pure x)
        (h : Operation.Runs env during (deliverAll id read rest >>= next) n r n') :
        (∃ x, r = .ok x) ∧ Gives env during id (readings read rest) n n' := by
      rcases Operation.runs_bind.1 h with ⟨e, he, -⟩ | ⟨others, n₁, ho, h⟩
      · obtain ⟨⟨x, hx⟩, -⟩ := ih he
        cases hx
      · obtain ⟨-, hg⟩ := ih ho
        obtain ⟨x, hx⟩ := hnext others
        rw [hx] at h
        exact ⟨⟨_, h.1⟩, h.2 ▸ hg⟩
    rw [deliverAll] at h
    cases hd : read k v with
    | error m =>
      simp only [hd] at h
      rw [readings_cons_error hd]
      exact hrest (fun _ => ⟨_, rfl⟩) (Operation.runs_pure_bind.1 h)
    | ok d =>
      simp only [hd] at h
      obtain ⟨n₁, accepted, he, h⟩ := Operation.runs_deliver_bind.1 h
      obtain ⟨hr, hg⟩ := hrest (fun _ => by cases accepted <;> exact ⟨_, rfl⟩) h
      rw [readings_cons_ok hd]
      exact ⟨hr, .cons he hg⟩

/-! ## Ends of calls -/

theorem runs_fail {reason : String} {r : Except Error Unit}
    (h : Operation.Runs env during (fail id reason) n r n') :
    r = .ok () ∧ Gives env during id (explanations reason (n.state.calls.waiting id))
      (n.withCalls (n.state.calls.close id)) n' := by
  unfold fail at h
  rcases Operation.runs_bind.1 h with ⟨e, he, -⟩ | ⟨handlers, n₁, hres, h⟩
  · cases (runs_resolve he).1
  · obtain ⟨hh, rfl⟩ := runs_resolve hres
    cases hh
    exact runs_explain h

theorem runs_finish {call : Call κ} {payload : Payload} {slotType? : Slot → Option Ty}
    {read : Handler κ → Value → Except TypeMismatch Delivery} {r : Except Error Unit}
    (hc : n.state.calls.find? id = some call) (hu : call.resolved = false)
    (h : Operation.Runs env during (finish id call payload slotType? read) n r n') :
    Gives env during id (endings payload slotType? read call.handlers)
      (n.withCalls (n.state.calls.close id)) n' := by
  unfold finish at h
  unfold endings
  cases hcast : castAll payload slotType? call.handlers with
  | error e =>
    simp only [hcast] at h
    have hw := Calls.waiting_of_find? hc hu
    rcases Operation.runs_bind.1 h with ⟨e, he, -⟩ | ⟨_, n₁, hf, -, rfl⟩
    · cases (runs_fail he).1
    · exact hw ▸ (runs_fail hf).2
  | ok casts =>
    simp only [hcast] at h
    rcases Operation.runs_bind.1 h with ⟨e, he, -⟩ | ⟨_, n₁, hres, h⟩
    · cases (runs_resolve he).1
    · obtain ⟨-, rfl⟩ := runs_resolve hres
      rcases Operation.runs_bind.1 h with ⟨e, he, -⟩ | ⟨x, n₂, hd, h⟩
      · obtain ⟨⟨x, hx⟩, -⟩ := runs_deliverAll he
        cases hx
      · have hg := (runs_deliverAll hd).2
        cases x with
        | error e => exact h.2 ▸ hg
        | ok u => exact h.2 ▸ hg

theorem runs_succeed {payload : Payload} {r : Except Error Unit}
    (h : Operation.Runs env during (succeed id payload) n r n') :
    (n' = n ∧ ∀ call, n.state.calls.find? id = some call → call.resolved = true) ∨
      ∃ call, n.state.calls.find? id = some call ∧ call.resolved = false ∧
        Gives env during id (endings payload Slot.resultType? resultFor call.handlers)
          (n.withCalls (n.state.calls.close id)) n' := by
  unfold succeed at h
  rw [runs_call?_bind] at h
  cases hf : n.state.calls.find? id with
  | none =>
    rw [hf] at h
    exact Or.inl ⟨h.2, fun _ hc => nomatch hc⟩
  | some call =>
    simp only [hf] at h
    cases hu : call.resolved with
    | true =>
      simp only [hu, if_true] at h
      refine Or.inl ⟨h.2, fun c hc => ?_⟩
      cases hc
      exact hu
    | false =>
      simp only [hu, Bool.false_eq_true, if_false] at h
      exact Or.inr ⟨call, rfl, hu, runs_finish hf hu h⟩

theorem runs_raise {payload : Payload} {r : Except Error Unit}
    (h : Operation.Runs env during (raise id payload) n r n') :
    (n' = n ∧ ∀ call, n.state.calls.find? id = some call → call.resolved = true) ∨
      ∃ call, n.state.calls.find? id = some call ∧ call.resolved = false ∧
        Gives env during id (endings payload Slot.exceptionType? exceptionFor call.handlers)
          (n.withCalls (n.state.calls.close id)) n' := by
  unfold raise at h
  rw [runs_call?_bind] at h
  cases hf : n.state.calls.find? id with
  | none =>
    rw [hf] at h
    exact Or.inl ⟨h.2, fun _ hc => nomatch hc⟩
  | some call =>
    simp only [hf] at h
    cases hu : call.resolved with
    | true =>
      simp only [hu, if_true] at h
      refine Or.inl ⟨h.2, fun c hc => ?_⟩
      cases hc
      exact hu
    | false =>
      simp only [hu, Bool.false_eq_true, if_false] at h
      refine Or.inr ⟨call, rfl, hu, ?_⟩
      by_cases hx : (call.handlers.any fun h => h.slot.exceptionType?.isSome) = true
      · simp only [hx, if_true] at h
        exact runs_finish hf hu h
      · simp only [hx] at h
        rcases Operation.runs_bind.1 h with ⟨e, he, -⟩ | ⟨_, n₁, hres, h⟩
        · cases (runs_resolve he).1
        · obtain ⟨-, rfl⟩ := runs_resolve hres
          have hnone : ∀ k ∈ call.handlers, k.slot.exceptionType? = none := fun k hk =>
            Option.not_isSome_iff_eq_none.1 fun hs => hx (List.any_eq_true.2 ⟨k, hk, hs⟩)
          rw [h.2, endings_eq_nil hnone]
          exact .nil _

/-- What a reply tells ends a call that is not resolved, and only such a call. -/
theorem runs_told {success : Bool} {payload : Payload} {r : Except Error Unit}
    (h : Operation.Runs env during (if success then succeed id payload else raise id payload) n r
      n') :
    (n' = n ∧ ∀ call, n.state.calls.find? id = some call → call.resolved = true) ∨
      ∃ call, n.state.calls.find? id = some call ∧ call.resolved = false ∧
        Gives env during id (told success payload call.handlers)
          (n.withCalls (n.state.calls.close id)) n' := by
  cases success with
  | true => exact runs_succeed h
  | false => exact runs_raise h

theorem runs_failEach_cons {reason : String} {rest : List Nat} {r : Except Error Unit}
    (h : Operation.Runs env during (failEach reason (id :: rest)) n r n') :
    ∃ n₁, Gives env during id (explanations reason (n.state.calls.waiting id))
        (n.withCalls (n.state.calls.close id)) n₁ ∧
      Operation.Runs env during (failEach reason rest) n₁ r n' := by
  rw [failEach] at h
  rcases Operation.runs_bind.1 h with ⟨e, he, -⟩ | ⟨_, n₁, hf, h⟩
  · cases (runs_fail he).1
  · exact ⟨n₁, (runs_fail hf).2, h⟩

theorem runs_failAll {reason : String} {r : Except Error Unit}
    (h : Operation.Runs env during (failAll reason) n r n') :
    Operation.Runs env during (failEach reason n.state.calls.active)
      (n.withCalls { n.state.calls with pending := [] }) r n' := h

end Runs

end Endpoint

end Parley
