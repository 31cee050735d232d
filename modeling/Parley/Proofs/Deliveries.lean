import Parley.Proofs.Lossless
import Parley.Proofs.Pending

/-!
# Deliveries to handlers

A handler of a call is notified only of what a message tells of that call, or of the end of the
connection.

* `Grows` : settings and terms stay, and what was seen stays seen.
* `Preserves` : an invariant is kept, and nothing that was seen is lost.
* `Handles` : the handler is one that the wrapper gives to its calls, or was registered for the
  call.
* `Notified` : what a handler may be given in the course of a command.
* `Protocol` : what tells one kind of endpoint from another in an account.
* `Accounted` : every call of the table has handlers of its own only, every pending call carries
  what its wrapper says, every delivery and every answer is accounted for.
* `accounts_calling`, `accounts_on`, `accounts_receive`, … : what an endpoint does keeps the
  account.
-/

namespace Parley

variable {ε ρ μ κ ι : Type}

/-! ## What grows -/

/-- Settings and terms stay as they are, and what was seen stays seen. -/
structure Grows {γ : Type} (n n' : Node (Endpoint ε ρ κ) γ μ κ ι) : Prop where
  config : n'.state.config = n.state.config
  terms : n'.state.terms = n.state.terms
  trace : n.trace <+: n'.trace

namespace Grows

variable {γ : Type} {n n' n'' : Node (Endpoint ε ρ κ) γ μ κ ι}

theorem refl (n : Node (Endpoint ε ρ κ) γ μ κ ι) : Grows n n :=
  ⟨rfl, rfl, List.prefix_rfl⟩

theorem trans (h : Grows n n') (h' : Grows n' n'') : Grows n n'' :=
  ⟨h'.config.trans h.config, h'.terms.trans h.terms, h.trace.trans h'.trace⟩

theorem note (n : Node (Endpoint ε ρ κ) γ μ κ ι) (o : Occurrence γ μ κ ι) : Grows n (n.note o) :=
  ⟨rfl, rfl, List.prefix_append _ _⟩

theorem withCalls (n : Node (Endpoint ε ρ κ) γ μ κ ι) (c : Calls ε κ) : Grows n (n.withCalls c) :=
  ⟨rfl, rfl, List.prefix_rfl⟩

theorem mem (h : Grows n n') {o : Occurrence γ μ κ ι} (ho : o ∈ n.trace) : o ∈ n'.trace :=
  h.trace.subset ho

end Grows

/-- An invariant is kept, and nothing that was seen is lost. -/
def Preserves {γ : Type} (I : Node (Endpoint ε ρ κ) γ μ κ ι → Prop)
    (n n' : Node (Endpoint ε ρ κ) γ μ κ ι) : Prop :=
  I n → Grows n n' ∧ I n'

namespace Preserves

variable {γ : Type} {I : Node (Endpoint ε ρ κ) γ μ κ ι → Prop}
  {n n' n'' : Node (Endpoint ε ρ κ) γ μ κ ι}

theorem refl (n : Node (Endpoint ε ρ κ) γ μ κ ι) : Preserves I n n :=
  fun h => ⟨Grows.refl n, h⟩

theorem trans (h : Preserves I n n') (h' : Preserves I n' n'') : Preserves I n n'' := by
  intro hi
  obtain ⟨hg, hi'⟩ := h hi
  obtain ⟨hg', hi''⟩ := h' hi'
  exact ⟨hg.trans hg', hi''⟩

end Preserves

/-! ## The account -/

/-- The handler is one of those that the wrapper gives to its calls, or was registered for the
call. -/
def Handles (n : Node (Endpoint ε ρ κ) (Command κ μ) μ κ ι) (w : Wrapper κ) (id : Nat)
    (h : Handler κ) : Prop :=
  h ∈ w.defaults ∨ ∃ event, .finished (.on id event h) (.ok none) ∈ n.trace

/-- The handler belongs to the call. -/
def Owned (n : Node (Endpoint ε ρ κ) (Command κ μ) μ κ ι) (id : Nat) (h : Handler κ) : Prop :=
  ∃ w args, HandedOut n w args id ∧ Handles n w id h

/-- The handler waits for errors and is given a reason. -/
def Explained (h : Handler κ) (d : Delivery) : Prop :=
  h.slot.isError = true ∧ ∃ reason, d = .reason reason

/-- The handler is given what it reads of an outcome: the payload cast to the type that its slot has
for the outcome. -/
def Reads (success : Bool) (payload : Payload) (h : Handler κ) (d : Delivery) : Prop :=
  ∃ t v, (if success then h.slot.resultType? else h.slot.exceptionType?) = some t ∧
    payload.cast t = .ok v ∧
    (if success then Endpoint.resultFor h v else Endpoint.exceptionFor h v) = .ok d

/-- A handler that waits for results of a type and passes them on as they are or as native data. -/
def Handler.ReadsResult (h : Handler κ) (t : Ty) : Prop :=
  h.slot.resultType? = some t ∧ (h.readResult = .ok ∨ h.readResult = t.conform)

/-- A handler that waits for exceptions of a type and passes them on as they are or as native
data. -/
def Handler.ReadsException (h : Handler κ) (t : Ty) : Prop :=
  h.slot.exceptionType? = some t ∧ (h.readException = .ok ∨ h.readException = t.conform)

theorem readsResult_result (t : Ty) (target : κ) : (Handler.result t target).ReadsResult t :=
  ⟨rfl, Or.inr rfl⟩

/-- A result as a handler of the slot is given it. -/
def Slot.ofResult : Slot → Value → Delivery
  | .either .., v => .either none (some v)
  | _, v => .value v

/-- An exception as a handler of the slot is given it. -/
def Slot.ofException : Slot → Value → Delivery
  | .either .., v => .either (some v) none
  | _, v => .value v

theorem Reads.result {payload : Payload} {h : Handler κ} {d : Delivery}
    (hr : Reads true payload h d) : ∃ t v x, h.slot.resultType? = some t ∧
      payload.cast t = .ok v ∧ h.readResult v = .ok x ∧ d = h.slot.ofResult x := by
  obtain ⟨t, v, ht, hv, hd⟩ := hr
  obtain ⟨x, hx, hd⟩ := bind_eq_ok.1 hd
  refine ⟨t, v, x, ht, hv, hx, ?_⟩
  cases hs : h.slot <;> rw [hs] at hd <;> cases hd <;> rfl

theorem Reads.exception {payload : Payload} {h : Handler κ} {d : Delivery}
    (hr : Reads false payload h d) : ∃ t v x, h.slot.exceptionType? = some t ∧
      payload.cast t = .ok v ∧ h.readException v = .ok x ∧ d = h.slot.ofException x := by
  obtain ⟨t, v, ht, hv, hd⟩ := hr
  obtain ⟨x, hx, hd⟩ := bind_eq_ok.1 hd
  refine ⟨t, v, x, ht, hv, hx, ?_⟩
  cases hs : h.slot <;> rw [hs] at hd <;> cases hd <;> rfl

/-- What a handler is given of an outcome: if it waits for a result of the type, the very result; if
it waits for an exception, the very exception. -/
def Handler.Given (h : Handler κ) (range : Ty) (d : Delivery) : Except String Value → Prop
  | .ok v => h.slot.resultType?.isSome ∧
    ∃ x, d = h.slot.ofResult x ∧ (h.ReadsResult range → x = v)
  | .error message => h.slot.exceptionType?.isSome ∧
    ∃ x, d = h.slot.ofException x ∧ (h.ReadsException exceptionTy → x = exceptionValue message)

theorem Reads.given_ok {payload : Payload} {h : Handler κ} {d : Delivery} {range : Ty} {v : Value}
    (hr : Reads true payload h d) (hd : range.Distinct) (hv : range.Has v)
    (hp : payload.cast range = .ok v) : h.Given range d (.ok v) := by
  obtain ⟨t, w, x, ht, hw, hx, rfl⟩ := hr.result
  refine ⟨ht ▸ rfl, x, rfl, fun ⟨hslot, hread⟩ => ?_⟩
  rw [hslot] at ht
  cases ht
  rw [hp] at hw
  cases hw
  rcases hread with hread | hread
  · rw [hread] at hx
    exact (Except.ok.inj hx).symm
  · rw [hread, Ty.conform_of_has hd hv] at hx
    exact (Except.ok.inj hx).symm

theorem Reads.given_error {payload : Payload} {h : Handler κ} {d : Delivery} {range : Ty}
    {message : String} (hr : Reads false payload h d)
    (hp : payload.cast exceptionTy = .ok (exceptionValue message)) :
    h.Given range d (.error message) := by
  obtain ⟨t, w, x, ht, hw, hx, rfl⟩ := hr.exception
  refine ⟨ht ▸ rfl, x, rfl, fun ⟨hslot, hread⟩ => ?_⟩
  rw [hslot] at ht
  cases ht
  rw [hp] at hw
  cases hw
  rcases hread with hread | hread
  · rw [hread] at hx
    exact (Except.ok.inj hx).symm
  · rw [hread, Ty.conform_of_has distinct_exceptionTy (has_exceptionValue message)] at hx
    exact (Except.ok.inj hx).symm

/-- What an account has to know of a kind of endpoint. -/
structure Protocol (ε ρ μ κ ι : Type) where
  /-- What a pending call of a wrapper carries. -/
  entry : Wrapper κ → ε
  /-- The outcomes that a message has for a call of a wrapper. -/
  tells : Wrapper κ → μ → Nat → Bool → Payload → Prop
  /-- The jobs that a message has an endpoint of certain terms run. -/
  serves : ρ → μ → ι → Prop
  /-- The answers to a message whose job came to an outcome. -/
  answers : ρ → μ → ι → Except String Value → μ → Prop

/-- What may be delivered to a handler of a call in the course of a command. -/
def Notified (P : Protocol ε ρ μ κ ι) (n : Node (Endpoint ε ρ κ) (Command κ μ) μ κ ι) :
    Command κ μ → Nat → Handler κ → Delivery → Prop
  | .receive m, id, h, d => ∃ w args success payload, HandedOut n w args id ∧
    P.tells w m id success payload ∧ (Explained h d ∨ Reads success payload h d)
  | .close, _, h, d => Explained h d
  | .fail _, _, h, d => Explained h d
  | _, _, _, _ => False

/-- What an account says of an occurrence: who is notified of what, and that jobs are run for
messages and answered. -/
def Accountable (P : Protocol ε ρ μ κ ι) (n : Node (Endpoint ε ρ κ) (Command κ μ) μ κ ι) :
    Occurrence (Command κ μ) μ κ ι → Prop
  | .sent (.call _ _) _ => True
  | .sent (.receive m) a => ∃ job outcome, .returned (.receive m) job outcome ∈ n.trace ∧
    P.answers n.state.terms m job outcome a
  | .sent _ _ => False
  | .delivered c id h d => Owned n id h ∧ Notified P n c id h d
  | .invoked (.receive m) job => P.serves n.state.terms m job
  | .invoked _ _ => False
  | .returned (.receive m) job _ => P.serves n.state.terms m job
  | .returned _ _ _ => False
  | .finished _ _ => True

/-- The account of an endpoint: the handlers of its calls, what its pending calls carry, and all
that was seen of it. -/
structure Accounted (P : Protocol ε ρ μ κ ι)
    (n : Node (Endpoint ε ρ κ) (Command κ μ) μ κ ι) : Prop where
  calls : ∀ id call, n.state.calls.find? id = some call → call.id = id ∧
    ∃ w args, HandedOut n w args id ∧ ∀ h ∈ call.handlers, Handles n w id h
  pending : ∀ id e, Table.find? id n.state.calls.pending = some e →
    ∃ w args, HandedOut n w args id ∧ e = P.entry w
  seen : ∀ o ∈ n.trace, Accountable P n o

variable {P : Protocol ε ρ μ κ ι}
  {n n' n₁ : Node (Endpoint ε ρ κ) (Command κ μ) μ κ ι} {id : Nat} {h : Handler κ} {d : Delivery}
  {c : Command κ μ}

theorem HandedOut.grows {w : Wrapper κ} {args : List Value} (ho : HandedOut n w args id)
    (hg : Grows n n') : HandedOut n' w args id :=
  hg.mem ho

theorem Handles.grows {w : Wrapper κ} (ha : Handles n w id h) (hg : Grows n n') :
    Handles n' w id h :=
  ha.imp_right fun ⟨event, he⟩ => ⟨event, hg.mem he⟩

theorem Owned.grows (ho : Owned n id h) (hg : Grows n n') : Owned n' id h := by
  obtain ⟨w, args, hw, hr⟩ := ho
  exact ⟨w, args, hw.grows hg, hr.grows hg⟩

theorem Notified.grows (hn : Notified P n c id h d) (hg : Grows n n') :
    Notified P n' c id h d := by
  cases c with
  | receive m =>
    obtain ⟨w, args, success, payload, hw, hs⟩ := hn
    exact ⟨w, args, success, payload, hw.grows hg, hs⟩
  | _ => exact hn

theorem accountable_finished {o : Occurrence (Command κ μ) μ κ ι}
    {r : Except Error (Option Nat)} (ho : o ∈ [.finished c r]) : Accountable P n o := by
  rw [List.mem_singleton.1 ho]
  trivial

theorem Accountable.grows {o : Occurrence (Command κ μ) μ κ ι} (h : Accountable P n o)
    (hg : Grows n n') : Accountable P n' o := by
  have ht := hg.terms
  cases o with
  | sent c m =>
    cases c with
    | receive message =>
      obtain ⟨job, outcome, hr, ha⟩ := h
      exact ⟨job, outcome, hg.mem hr, ht ▸ ha⟩
    | _ => exact h
  | delivered c id k d => exact ⟨h.1.grows hg, h.2.grows hg⟩
  | invoked c job =>
    cases c with
    | receive message =>
      show P.serves n'.state.terms message job
      rw [ht]
      exact h
    | _ => exact h
  | returned c job outcome =>
    cases c with
    | receive message =>
      show P.serves n'.state.terms message job
      rw [ht]
      exact h
    | _ => exact h
  | finished c r => trivial

theorem Accounted.owned (ha : Accounted P n) {call : Call κ}
    (hc : n.state.calls.find? id = some call) (hh : h ∈ call.handlers) : Owned n id h := by
  obtain ⟨-, w, args, hw, hr⟩ := ha.calls id call hc
  exact ⟨w, args, hw, hr h hh⟩

theorem Accounted.step (ha : Accounted P n) (hg : Grows n n')
    (hc : ∀ id call, n'.state.calls.find? id = some call → n.state.calls.find? id = some call ∨
      call.id = id ∧ ∃ w args, HandedOut n' w args id ∧ ∀ h ∈ call.handlers, Handles n' w id h)
    (hp : ∀ id e, Table.find? id n'.state.calls.pending = some e →
      Table.find? id n.state.calls.pending = some e ∨
        ∃ w args, HandedOut n' w args id ∧ e = P.entry w)
    (ho : ∀ o ∈ n'.trace, o ∈ n.trace ∨ Accountable P n' o) : Accounted P n' where
  calls id call h := by
    rcases hc id call h with h | h
    · obtain ⟨hid, w, args, hw, hr⟩ := ha.calls id call h
      exact ⟨hid, w, args, hw.grows hg, fun k hk => (hr k hk).grows hg⟩
    · exact h
  pending id e h := by
    rcases hp id e h with h | h
    · obtain ⟨w, args, hw, rfl⟩ := ha.pending id e h
      exact ⟨w, args, hw.grows hg, rfl⟩
    · exact h
  seen o h := (ho o h).elim (fun h => (ha.seen o h).grows hg) fun h => h

theorem Accounted.note {o : Occurrence (Command κ μ) μ κ ι} (ha : Accounted P n)
    (ho : Accountable P n o) : Accounted P (n.note o) := by
  have hg := Grows.note n o
  refine ha.step hg (fun _ _ hc => Or.inl hc) (fun _ _ he => Or.inl he) fun o' ho' => ?_
  rcases List.mem_append.1 ho' with ho' | ho'
  · exact Or.inl ho'
  · exact Or.inr (List.mem_singleton.1 ho' ▸ ho.grows hg)

/-- The account after a change of the calls that adds no handlers and no pending calls. -/
theorem Accounted.withCalls {calls : Calls ε κ} (ha : Accounted P n)
    (hc : ∀ id call, calls.find? id = some call → call.id = id ∧
      ∃ call', n.state.calls.find? id = some call' ∧ ∀ h ∈ call.handlers, h ∈ call'.handlers)
    (hp : ∀ id e, Table.find? id calls.pending = some e →
      Table.find? id n.state.calls.pending = some e) :
    Accounted P (n.withCalls calls) where
  calls id call h := by
    obtain ⟨hid, call', h', hk⟩ := hc id call h
    obtain ⟨-, w, args, hw, hr⟩ := ha.calls id call' h'
    exact ⟨hid, w, args, hw, fun k hk' => hr k (hk k hk')⟩
  pending id e he := ha.pending id e (hp id e he)
  seen := ha.seen

theorem accounted_start (P : Protocol ε ρ μ κ ι) (config : Config) (terms : ρ) :
    Accounted P (.start (.ofTerms config terms) :
      Node (Endpoint ε ρ κ) (Command κ μ) μ κ ι) where
  calls _ _ hc := nomatch hc
  pending _ _ he := nomatch he
  seen _ ho := nomatch ho

/-! ## Changes that keep the account -/

/-- The account is kept, and nothing that was seen is lost. -/
abbrev Accounts (P : Protocol ε ρ μ κ ι) :
    Node (Endpoint ε ρ κ) (Command κ μ) μ κ ι → Node (Endpoint ε ρ κ) (Command κ μ) μ κ ι → Prop :=
  Preserves (Accounted P)

theorem Accounts.note {o : Occurrence (Command κ μ) μ κ ι} (ho : Accountable P n o) :
    Accounts P n (n.note o) :=
  fun ha => ⟨Grows.note n o, ha.note ho⟩

theorem accounts_allocate : Accounts P n
    (n.withCalls { n.state.calls with nextId := n.state.calls.nextId + 1 }) :=
  fun ha => ⟨Grows.withCalls n _, ha.withCalls
    (fun id call hc => ⟨(ha.calls id call hc).1, call, hc, fun _ hh => hh⟩) fun _ _ he => he⟩

theorem Accounts.send {w : Wrapper κ} {args : List Value} {m : μ}
    (h : Accounts P ((n.withCalls { n.state.calls with nextId := n.state.calls.nextId + 1 }).note
      (.sent (.call w args) m)) n') : Accounts P n n' := by
  refine accounts_allocate.trans (Preserves.trans (Accounts.note ?_) h)
  exact trivial

theorem Accounts.invoke {m : μ} {job : ι} {outcome : Except String Value}
    (hs : P.serves n.state.terms m job)
    (h : Accounts P (n.note (.invoked (.receive m) job)) n') :
    Accounts P n (n'.note (.returned (.receive m) job outcome)) := by
  intro ha
  have ho : Accountable P n (.invoked (.receive m) job) := hs
  obtain ⟨hg, ha'⟩ := ((Accounts.note ho).trans h) ha
  exact ⟨hg.trans (Grows.note _ _), ha'.note (ho.grows hg)⟩

theorem Accounts.finished {r : Except Error (Option Nat)} (h : Accounts P n n') :
    Accounts P n (n'.note (.finished c r)) :=
  h.trans (Accounts.note trivial)

theorem accounts_settle : Accounts P n (n.withCalls (n.state.calls.settle id)) := by
  refine fun ha => ⟨Grows.withCalls n _, ha.withCalls
    (fun id call hc => ⟨(ha.calls id call hc).1, call, hc, fun _ hh => hh⟩) fun j e he => ?_⟩
  have hf : Table.find? j (n.state.calls.settle id).pending =
      if id = j then none else Table.find? j n.state.calls.pending := Table.find?_erase id j _
  rw [hf] at he
  split at he
  · cases he
  · exact he

theorem accounts_drain : Accounts P n
    (n.withCalls { n.state.calls with pending := [] }) :=
  fun ha => ⟨Grows.withCalls n _, ha.withCalls
    (fun id call hc => ⟨(ha.calls id call hc).1, call, hc, fun _ hh => hh⟩)
    fun _ _ he => nomatch he⟩

/-- A resolved call has no handlers that would have to be accounted for. -/
theorem accounts_close : Accounts P n (n.withCalls (n.state.calls.close id)) := by
  intro ha
  refine ⟨Grows.withCalls n _, ?_⟩
  cases hf : n.state.calls.find? id with
  | none =>
    rw [Calls.close, hf]
    exact ha
  | some call =>
    have hown : call.id = id := (ha.calls id call hf).1
    rw [Calls.close_of_find? hf]
    refine ha.withCalls (Calls.forall_put ?_ fun j c _ hc => ?_) fun _ _ he => he
    · exact ⟨rfl, call, hown ▸ hf, fun _ hh => absurd hh List.not_mem_nil⟩
    · exact ⟨(ha.calls j c hc).1, c, hc, fun _ hh => hh⟩

theorem accounts_register {call changed : Call κ} {event : String}
    (hc : n.state.calls.find? id = some call) (ho : call.on event h = .ok changed) :
    Accounts P n ((n.withCalls (n.state.calls.put changed)).note
      (.finished (.on id event h) (.ok none))) := by
  intro ha
  have hg : Grows n ((n.withCalls (n.state.calls.put changed)).note
      (.finished (.on id event h) (.ok none))) := (Grows.withCalls n _).trans (Grows.note _ _)
  obtain ⟨-, hchanged⟩ := Call.on_eq_ok ho
  obtain ⟨hcall, w, args, hw, hr⟩ := ha.calls id call hc
  have hown : changed.id = id := hchanged ▸ hcall
  subst hown
  refine ⟨hg, ha.step hg (Calls.forall_put (Or.inr ⟨rfl, w, args, hw.grows hg, fun k hk => ?_⟩)
    fun _ _ _ hj => Or.inl hj) (fun _ _ he => Or.inl he) fun o ho =>
      (List.mem_append.1 ho).imp_right accountable_finished⟩
  rw [hchanged] at hk
  rcases Call.mem_joined hk with rfl | hk
  · exact Or.inr ⟨event, List.mem_append_right _ List.mem_cons_self⟩
  · exact (hr k hk).grows hg

theorem accounts_handOut {w : Wrapper κ} {args : List Value} {call : Call κ}
    (hc : Call.startWith id w.defaults = .ok call) :
    Accounts P n ((n.withCalls (n.state.calls.enter call (P.entry w))).note
      (.finished (.call w args) (.ok (some id)))) := by
  intro ha
  have hg : Grows n ((n.withCalls (n.state.calls.enter call (P.entry w))).note
      (.finished (.call w args) (.ok (some id)))) := (Grows.withCalls n _).trans (Grows.note _ _)
  have hcall := Call.startWith_eq_ok hc
  have hown : call.id = id := hcall ▸ rfl
  have hdefaults : ∀ k ∈ call.handlers, k ∈ w.defaults :=
    hcall ▸ fun _ hk => (Call.inForce_sublist w.defaults).subset hk
  have hw : HandedOut ((n.withCalls (n.state.calls.enter call (P.entry w))).note
      (.finished (.call w args) (.ok (some id)))) w args id :=
    List.mem_append_right _ List.mem_cons_self
  subst hown
  exact ⟨hg, ha.step hg (Calls.forall_put (Or.inr ⟨rfl, w, args, hw, fun k hk =>
    Or.inl (hdefaults k hk)⟩) fun _ _ _ hj => Or.inl hj)
    (Table.forall_insert (Or.inr ⟨w, args, hw, rfl⟩) fun _ _ _ he => Or.inl he) fun o ho =>
      (List.mem_append.1 ho).imp_right accountable_finished⟩

/-! ## Operations that keep the account -/

variable {env : Node (Endpoint ε ρ κ) (Command κ μ) μ κ ι →
  Node (Endpoint ε ρ κ) (Command κ μ) μ κ ι → Prop} {during : Command κ μ}

/-- Deliveries that are accounted for where they begin, in an environment that keeps the account. -/
theorem Accounts.seen {kind : Occurrence (Command κ μ) μ κ ι → Prop}
    (henv : ∀ {n n'}, env n n' → Accounts P n n')
    (hk : Accounted P n → ∀ o, kind o → Accountable P n o) (hs : Seen env kind n n') :
    Accounts P n n' := by
  intro ha
  have hfrom : Grows n n → Accounted P n → Grows n n' ∧ Accounted P n' := by
    refine hs.guarantee
      (R := fun a b => Grows n a → Accounted P a → Grows n b ∧ Accounted P b)
      (fun a hg ha => ⟨hg, ha⟩) (fun h₁ h₂ hg ha => ?_) (fun he hg ha => ?_)
      (fun a o ho hg ha' => ?_)
    · obtain ⟨hg', ha'⟩ := h₁ hg ha
      exact h₂ hg' ha'
    · obtain ⟨hg', ha'⟩ := henv he ha
      exact ⟨hg.trans hg', ha'⟩
    · exact ⟨hg.trans (Grows.note a o), ha'.note ((hk ha o ho).grows hg)⟩
  exact hfrom (Grows.refl n) ha

theorem accounts_calling {w : Wrapper κ} {args : List Value} {message : Nat → Except Error μ}
    {r : Except Error (Option Nat)} (henv : ∀ {n n'}, env n n' → Accounts P n n')
    (h : Endpoint.Calling env (.call w args) w (P.entry w) message n r n') :
    Accounts P n (n'.note (.finished (.call w args) r)) := by
  cases h with
  | exhausted => exact Accounts.finished (Preserves.refl _)
  | unsent => exact accounts_allocate.finished
  | @sent m n₁ _ _ _ _ he h =>
    have hsent : Accounts P n n₁ := (henv he).send
    cases h with
    | oneWay => exact hsent.finished
    | refused => exact hsent.finished
    | entered _ hc => exact hsent.trans (accounts_handOut hc)

theorem accounts_on {event : String} {hd : Handler κ} {r : Except Error (Option Nat)}
    (h : Operation.Runs env (.on id event hd) (do
      Endpoint.register id event hd
      return none) n r n') : Accounts P n (n'.note (.finished (.on id event hd) r)) := by
  rcases Operation.runs_bind.1 h with ⟨e, hr, rfl⟩ | ⟨_, n₁, hr, rfl, rfl⟩
  · rcases Endpoint.runs_register hr with ⟨_, -, rfl⟩ | ⟨_, _, -, -, hr, -⟩
    · exact Accounts.finished (Preserves.refl _)
    · cases hr
  · rcases Endpoint.runs_register hr with ⟨_, hr, -⟩ | ⟨call, changed, hc, ho, -, rfl⟩
    · cases hr
    · exact accounts_register hc ho

/-- An error that ends a call in the course of a command that may give reasons. -/
theorem accounts_explained {handlers : List (Handler κ)}
    (henv : ∀ {n n'}, env n n' → Accounts P n n')
    (hh : Accounted P n → ∀ k ∈ handlers, Owned n id k)
    (hc : ∀ k d, k ∈ handlers → Explained k d → Notified P n during id k d)
    (hs : Seen env (Explains during id handlers) n n') : Accounts P n n' := by
  refine Accounts.seen henv (fun ha o ho => ?_) hs
  obtain ⟨k, hk, hslot, reason, rfl⟩ := ho
  exact ⟨hh ha k hk, hc k _ hk ⟨hslot, reason, rfl⟩⟩

theorem Accounted.owned_waiting (ha : Accounted P n) :
    ∀ k ∈ n.state.calls.waiting id, Owned n id k := by
  intro k hk
  unfold Calls.waiting at hk
  cases hf : n.state.calls.find? id with
  | none =>
    rw [hf] at hk
    cases hk
  | some call =>
    simp only [hf] at hk
    split at hk
    · cases hk
    · exact ha.owned hf hk

theorem accounts_failAll {reason : String} {r : Except Error Unit}
    (henv : ∀ {n n'}, env n n' → Accounts P n n')
    (hd : during = .close ∨ ∃ text, during = .fail text)
    (h : Operation.Runs env during (Endpoint.failAll reason) n r n') :
    Accounts P n n' := by
  have hc (a : Node (Endpoint ε ρ κ) (Command κ μ) μ κ ι) (j : Nat) (k : Handler κ) (d : Delivery)
      (he : Explained k d) : Notified P a during j k d := by
    rcases hd with rfl | ⟨text, rfl⟩
    · exact he
    · exact he
  refine accounts_drain.trans ?_
  have h := Endpoint.runs_failAll h
  generalize n.state.calls.active = ids at h
  generalize n.withCalls { n.state.calls with pending := [] } = n₀ at h
  induction ids generalizing n₀ with
  | nil =>
    obtain ⟨-, rfl⟩ := h
    exact Preserves.refl n'
  | cons id rest ih =>
    obtain ⟨n₁, hs, h⟩ := Endpoint.runs_failEach_cons h
    refine Preserves.trans (fun ha => ?_) (ih n₁ h)
    have hg := Grows.withCalls n₀ (n₀.state.calls.close id)
    exact accounts_close.trans (accounts_explained henv
      (fun _ k hk => (ha.owned_waiting k hk).grows hg) (fun k d _ he => hc _ id k d he)
      hs.explains) ha

/-- An outcome that a message tells of a call ends it. -/
theorem accounts_receive {m : μ} (success : Bool) {payload : Payload} {r : Except Error Unit}
    (henv : ∀ {n n'}, env n n' → Accounts P n n')
    (ht : Accounted P n → ∃ w args, HandedOut n w args id ∧ P.tells w m id success payload)
    (h : Operation.Runs env (.receive m) (if success then Endpoint.succeed id payload
      else Endpoint.raise id payload) n r n') : Accounts P n n' := by
  have hfinish {call : Call κ} (hc : n.state.calls.find? id = some call)
      {slotType? : Slot → Option Ty} {read : Handler κ → Value → Except TypeMismatch Delivery}
      (hs : Seen env (Ends (.receive m) id call.handlers payload slotType? read)
        (n.withCalls (n.state.calls.close id)) n')
      (hread : ∀ k d, (∃ t v, slotType? k.slot = some t ∧ payload.cast t = .ok v ∧
        read k v = .ok d) → Reads success payload k d) : Accounts P n n' := by
    intro ha
    have hg := Grows.withCalls n (n.state.calls.close id)
    refine accounts_close.trans (Accounts.seen henv (fun _ o ho => ?_) hs) ha
    obtain ⟨w, args, hw, htells⟩ := ht ha
    obtain ⟨k, hk, d, rfl, hd⟩ := ho
    refine ⟨(ha.owned hc hk).grows hg, w, args, success, payload, hw.grows hg, htells, ?_⟩
    rcases hd with ⟨hslot, reason, rfl⟩ | hd
    · exact Or.inl ⟨hslot, reason, rfl⟩
    · exact Or.inr (hread k d hd)
  cases success with
  | true =>
    rcases Endpoint.runs_succeed h with ⟨rfl, -⟩ | ⟨call, hc, -, hs⟩
    · exact Preserves.refl n'
    · exact hfinish hc hs.ends fun _ _ hd => hd
  | false =>
    rcases Endpoint.runs_raise h with ⟨rfl, -⟩ | ⟨call, hc, -, hs⟩
    · exact Preserves.refl n'
    · exact hfinish hc hs.ends fun _ _ hd => hd

end Parley
