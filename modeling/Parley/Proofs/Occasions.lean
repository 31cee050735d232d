import Parley.Proofs.Commands
import Parley.Proofs.Handlers
import Parley.Proofs.Tables

/-!
# Occasions

What is seen of an endpoint when each occurrence is told apart by the state its command began at:
what was registered for a call, what its handlers were given, and which commands end it.

* `Occasion` : a command with the state it begins at; `Occasion.Acts` : one seen to its end.
* `registered`, `deliveries` : the handlers that were registered for a call, and what handlers of it
  were given.
* `Replies` : the messages that end calls of a kind of endpoint; `Occasion.Tells` : one that comes
  in while the call is pending; `Occasion.Sweeps` : the end of the connection.
* `Takes` : an occasion ends a call, and how; `Late` : a message that names a call and does not.
* `Occurrence.Refused` : a command is refused.
-/

namespace Parley

/-- A command and the state of the endpoint it begins at. -/
structure Occasion (ε ρ μ κ : Type) where
  command : Command κ μ
  state : Endpoint ε ρ κ

/-- An endpoint with what was seen of it, each occurrence with its occasion. -/
abbrev History (ε ρ μ κ ι : Type) := Node (Endpoint ε ρ κ) (Occasion ε ρ μ κ) μ κ ι

variable {ε ρ μ κ ι : Type}

/-- One command to an endpoint by itself, and the state it begins at is noted with it. -/
def Occasion.Acts (perform : Command κ μ → Operation (Endpoint ε ρ κ) μ κ ι (Option Nat)) :
    (History ε ρ μ κ ι → History ε ρ μ κ ι → Prop) → History ε ρ μ κ ι → History ε ρ μ κ ι → Prop :=
  (Site.self _).Acts (fun c => perform c.command) fun n c => c.state = n.state

theorem Occasion.Acts.runs
    {perform : Command κ μ → Operation (Endpoint ε ρ κ) μ κ ι (Option Nat)}
    {env : History ε ρ μ κ ι → History ε ρ μ κ ι → Prop} {n n' : History ε ρ μ κ ι}
    (h : Occasion.Acts perform env n n') :
    ∃ command r n₁, Operation.Runs env ⟨command, n.state⟩ (perform command) n r n₁ ∧
      n' = n₁.note (.finished ⟨command, n.state⟩ r) := by
  obtain ⟨⟨command, s⟩, r, n₁, hs, h, rfl⟩ := h
  cases hs
  exact ⟨command, r, n₁, h, rfl⟩

theorem Occasion.reaches_of_runs
    {perform : Command κ μ → Operation (Endpoint ε ρ κ) μ κ ι (Option Nat)}
    {n m : History ε ρ μ κ ι} {c : Command κ μ} {r : Except Error (Option Nat)}
    (h : (perform c).Runs Eq ⟨c, n.state⟩ n r m) :
    Reaches (Occasion.Acts perform) n (m.note (.finished ⟨c, n.state⟩ r)) :=
  .single ⟨1, ⟨c, n.state⟩, r, m, rfl, Action.Runs.put (g := n) (fun _ => .refl) h, rfl⟩

/-- Every command can be given at any time, and comes to its end. -/
theorem Occasion.exists_reaches
    (perform : Command κ μ → Operation (Endpoint ε ρ κ) μ κ ι (Option Nat))
    (n : History ε ρ μ κ ι) (command : Command κ μ) :
    ∃ r n', Reaches (Occasion.Acts perform) n n' ∧ .finished ⟨command, n.state⟩ r ∈ n'.trace := by
  have hidle (g : History ε ρ μ κ ι) :
      ∃ g', Relation.ReflTransGen (Nested (Occasion.Acts perform) 0) g g' := ⟨g, .refl⟩
  obtain ⟨r, n₁, h⟩ := Action.exists_runs (Site.self (History ε ρ μ κ ι)) hidle
    ⟨command, n.state⟩ (perform command).outcome n
  exact ⟨r, n₁.note (.finished ⟨command, n.state⟩ r),
    .single ⟨1, ⟨command, n.state⟩, r, n₁, rfl, h, rfl⟩,
    List.mem_append_right _ List.mem_cons_self⟩

/-! ## Registrations and deliveries -/

/-- The handlers that an occurrence registers for a call: those of its wrapper once it is handed
out, and one that joins it later. -/
def Occurrence.registers (k : Nat) : Occurrence (Occasion ε ρ μ κ) μ κ ι → List (Handler κ)
  | .finished ⟨.call w _, _⟩ (.ok (some id)) => if id = k then w.defaults else []
  | .finished ⟨.on id _ h, _⟩ (.ok _) => if id = k then [h] else []
  | _ => []

/-- The handlers that were registered for a call, in order; one that was registered twice is there
twice. -/
def registered (k : Nat) (trace : List (Occurrence (Occasion ε ρ μ κ) μ κ ι)) : List (Handler κ) :=
  trace.flatMap (Occurrence.registers k)

/-- What an occurrence gives to a handler of a call. -/
def Occurrence.gives? {γ : Type} (k : Nat) : Occurrence γ μ κ ι → Option (Handler κ × Delivery)
  | .delivered _ id h d => if id = k then some (h, d) else none
  | _ => none

/-- What handlers of a call were given, in order. -/
def deliveries {γ : Type} (k : Nat) (trace : List (Occurrence γ μ κ ι)) :
    List (Handler κ × Delivery) :=
  trace.filterMap (Occurrence.gives? k)

theorem registered_note (k : Nat) (n : History ε ρ μ κ ι)
    (o : Occurrence (Occasion ε ρ μ κ) μ κ ι) :
    registered k (n.note o).trace = registered k n.trace ++ o.registers k := by
  rw [Node.trace_note, registered, List.flatMap_append, List.flatMap_cons, List.flatMap_nil,
    List.append_nil]
  rfl

theorem deliveries_note (k : Nat) (n : History ε ρ μ κ ι)
    (o : Occurrence (Occasion ε ρ μ κ) μ κ ι) :
    deliveries k (n.note o).trace = deliveries k n.trace ++ (o.gives? k).toList := by
  rw [Node.trace_note, deliveries, List.filterMap_append, List.filterMap_cons]
  cases o.gives? k <;> rfl

theorem mem_deliveries {γ : Type} {k : Nat} {trace : List (Occurrence γ μ κ ι)} {h : Handler κ}
    {d : Delivery} : (h, d) ∈ deliveries k trace ↔ ∃ c, .delivered c k h d ∈ trace := by
  unfold deliveries
  rw [List.mem_filterMap]
  constructor
  · rintro ⟨o, ho, hg⟩
    cases o with
    | delivered c id h' d' =>
      simp only [Occurrence.gives?, Option.ite_none_right_eq_some, Option.some.injEq,
        Prod.mk.injEq] at hg
      obtain ⟨rfl, rfl, rfl⟩ := hg
      exact ⟨c, ho⟩
    | _ => cases hg
  · rintro ⟨c, ho⟩
    exact ⟨_, ho, if_pos rfl⟩

/-! ## What ends a call -/

/-- The messages that end calls of one kind of endpoint: which call a message names, and what it
tells of a pending call that carries `ε`. -/
structure Replies (ε μ : Type) where
  names : μ → Nat → Prop
  tells : ε → μ → Nat → Bool → Payload → Prop
  names_of_tells : ∀ {e m id success payload}, tells e m id success payload → names m id
  names_unique : ∀ {m i j}, names m i → names m j → i = j
  tells_unique : ∀ {e m id success success' payload payload'}, tells e m id success payload →
    tells e m id success' payload' → success = success' ∧ payload = payload'

/-- The occasion is the end of the connection, for a reason. -/
inductive Occasion.Sweeps : Occasion ε ρ μ κ → String → Prop
  | close (s : Endpoint ε ρ κ) : Sweeps ⟨.close, s⟩ s.config.closeReason
  | fail (reason : String) (s : Endpoint ε ρ κ) : Sweeps ⟨.fail reason, s⟩ reason

theorem Occasion.Sweeps.unique {c : Occasion ε ρ μ κ} {reason reason' : String}
    (h : c.Sweeps reason) (h' : c.Sweeps reason') : reason = reason' := by
  cases h <;> cases h' <;> rfl

theorem Occasion.Sweeps.not_receive {c : Occasion ε ρ μ κ} {reason : String}
    (h : c.Sweeps reason) {m : μ} : c.command ≠ .receive m := by
  cases h <;> nofun

/-- The occasion is a reply to the call while it is pending, which tells whether it succeeded, and
how. -/
def Occasion.Tells (R : Replies ε μ) (k : Nat) (c : Occasion ε ρ μ κ) (success : Bool)
    (payload : Payload) : Prop :=
  ∃ m e, c.command = .receive m ∧ Table.find? k c.state.calls.pending = some e ∧
    R.tells e m k success payload

theorem Occasion.Tells.unique {R : Replies ε μ} {k : Nat} {c : Occasion ε ρ μ κ}
    {success success' : Bool} {payload payload' : Payload} (h : c.Tells R k success payload)
    (h' : c.Tells R k success' payload') : success = success' ∧ payload = payload' := by
  obtain ⟨m, e, hc, hp, ht⟩ := h
  obtain ⟨m', e', hc', hp', ht'⟩ := h'
  cases hc.symm.trans hc'
  cases hp.symm.trans hp'
  exact R.tells_unique ht ht'

/-- The occasion takes a pending call and ends it; `ends` says what its handlers are given. -/
inductive Takes (R : Replies ε μ) (k : Nat) (c : Occasion ε ρ μ κ) :
    (List (Handler κ) → List (Handler κ × Delivery)) → Prop
  | reply {success : Bool} {payload : Payload} (hc : c.Tells R k success payload) :
      Takes R k c (Endpoint.told success payload)
  | sweep {reason : String} (hc : c.Sweeps reason) (ha : k ∈ c.state.calls.active) :
      Takes R k c (Endpoint.explanations reason)

/-- The occasion is a message that names the call and does not take it. -/
def Late (R : Replies ε μ) (k : Nat) (c : Occasion ε ρ μ κ) : Prop :=
  (∃ m, c.command = .receive m ∧ R.names m k) ∧ ∀ ends, ¬ Takes R k c ends

/-- An occasion takes a call only while it is pending. -/
theorem Takes.active {R : Replies ε μ} {k : Nat} {c : Occasion ε ρ μ κ}
    {ends : List (Handler κ) → List (Handler κ × Delivery)} (h : Takes R k c ends) :
    k ∈ c.state.calls.active := by
  cases h with
  | reply hc =>
    obtain ⟨_, _, -, hp, -⟩ := hc
    exact Table.mem_keys_of_find? hp
  | sweep _ ha => exact ha

theorem Takes.unique {R : Replies ε μ} {k : Nat} {c : Occasion ε ρ μ κ}
    {ends ends' : List (Handler κ) → List (Handler κ × Delivery)} (h : Takes R k c ends)
    (h' : Takes R k c ends') : ends = ends' := by
  cases h with
  | reply hc =>
    cases h' with
    | reply hc' =>
      obtain ⟨rfl, rfl⟩ := hc.unique hc'
      rfl
    | sweep hc' _ =>
      obtain ⟨_, _, hm, -⟩ := hc
      exact absurd hm hc'.not_receive
  | sweep hc _ =>
    cases h' with
    | reply hc' =>
      obtain ⟨_, _, hm, -⟩ := hc'
      exact absurd hm hc.not_receive
    | sweep hc' _ => rw [hc.unique hc']

/-- What takes a call is a message that names it or the end of the connection. -/
theorem Takes.names_or_sweeps {R : Replies ε μ} {k : Nat} {c : Occasion ε ρ μ κ}
    {ends : List (Handler κ) → List (Handler κ × Delivery)} (h : Takes R k c ends) :
    (∃ m, c.command = .receive m ∧ R.names m k) ∨ ∃ reason, c.Sweeps reason := by
  cases h with
  | reply hc =>
    obtain ⟨m, _, hm, -, ht⟩ := hc
    exact Or.inl ⟨m, hm, R.names_of_tells ht⟩
  | sweep hc _ => exact Or.inr ⟨_, hc⟩

/-- A command is refused with an error of the connection, and that is all there is. -/
def Occurrence.Refused {γ : Type} : Occurrence γ μ κ ι → Prop
  | .finished _ (.error e) => e.family = .connection
  | _ => False

end Parley
