import Parley.Proofs.Moments
import Parley.Proofs.Peers
import Parley.Proofs.Sessions

/-!
# Refused messages

A message that comes in to a peer or to a caller either names a pending call, and then it ends that
call and nothing else, or it is refused before anything happens. A peer may also be called, which is
no failure.

* `Peer.Addresses` : a reply names a call and says whether it succeeded.
* `Peer.eq_of_refused`, `Caller.runs_of_not_names` : messages that name no pending call.
* `Untouched` : whatever happens meanwhile leaves the endpoint alone.
* `Calls.Reached` : the calls of an endpoint at some moment; `Reached.opened` : those on the list are
  not resolved.
* `EndsOnly` : one call is ended; `endsOnly_of_told` : so it is if its outcome is told.
* `refused_unchanged` : what a message does at any moment.
-/

namespace Parley

variable {κ ι : Type}

/-! ## Messages that name no pending call -/

/-- The message is a reply to the call and says whether it succeeded. -/
def Peer.Addresses (message : String) (id : Nat) : Prop :=
  ∃ success payload, Tells message id success payload

namespace Peer

variable {γ : Type} {env : Node (Peer κ ι) γ String κ ι → Node (Peer κ ι) γ String κ ι → Prop}
  {during : γ} {n n' : Node (Peer κ ι) γ String κ ι} {message : String} {id : Nat}
  {r : Except Error Unit}

/-- A message that fails and addresses no pending call does nothing. -/
theorem eq_of_refused (h : Operation.Runs env during (receive message) n r n')
    (hr : ∃ e, r = .error e) (hno : ∀ id ∈ n.state.calls.active, ¬ Addresses message id) :
    n' = n := by
  rcases runs_receive h with ⟨rfl, -⟩ | ⟨rest, ⟨hm, h⟩ | ⟨-, h⟩⟩
  · rfl
  · rcases runs_receiveReply h with ⟨rfl, -⟩ | ⟨id, success, hid, hs, hp, -⟩
    · rfl
    · exact absurd ⟨success, _, rest, hm, hid, hs, rfl⟩ (hno id (Table.mem_keys_of_find? hp))
  · rcases runs_receiveCall h with ⟨rfl, -⟩ | ⟨hok, -⟩
    · rfl
    · obtain ⟨e, rfl⟩ := hr
      cases hok

/-- A message that addresses a pending call tells its outcome, once the call is off the list. -/
theorem told_of_addresses (h : Operation.Runs env during (receive message) n r n')
    (hp : id ∈ n.state.calls.active) (ha : Addresses message id) :
    ∃ (success : Bool) (payload : Payload),
      Operation.Runs env during (if success then Endpoint.succeed id payload
        else Endpoint.raise id payload) (n.withCalls (n.state.calls.settle id)) r n' := by
  obtain ⟨success, payload, rest, hm, hid, hs, -⟩ := ha
  rcases runs_receive h with ⟨-, -, hno⟩ | ⟨rest', ⟨hm', h⟩ | ⟨hm', -⟩⟩
  · exact absurd hm (hno rest)
  · cases hm.symm.trans hm'
    rcases runs_receiveReply h with ⟨-, -, hno⟩ | ⟨id', success', hid', -, -, h⟩
    · exact absurd hp (Table.find?_eq_none_iff.1 (hno id success hid hs))
    · cases hid.symm.trans hid'
      exact ⟨success', _, h⟩
  · exact absurd (hm'.symm.trans hm) callMessage_ne_reply

end Peer

namespace Caller

variable {γ : Type}
  {env : Node (Caller κ) γ (List UInt8) κ ι → Node (Caller κ) γ (List UInt8) κ ι → Prop}
  {during : γ} {n n' : Node (Caller κ) γ (List UInt8) κ ι} {frame : List UInt8} {id : Nat}
  {r : Except Error Unit}

/-- A frame names the call that its first four bytes are the identifier of. -/
theorem names_iff : Names frame id ↔ 4 ≤ frame.length ∧ ofLittleEndian (frame.take 4) = id := by
  constructor
  · rintro ⟨after, h⟩
    obtain ⟨bytes, c, ht, h⟩ := Reader.of_run_bind h
    obtain ⟨hl, hb, -⟩ := Reader.of_run_take ht
    have hframe : frame = bytes ++ c.rest := hb
    cases h
    rw [hframe, List.length_append, hl, List.take_left' hl]
    exact ⟨Nat.le_add_right _ _, rfl⟩
  · rintro ⟨hl, rfl⟩
    have ht := Reader.run_take (frame.take 4) (frame.drop 4) 0
    rw [List.take_append_drop, List.length_take_of_le hl] at ht
    exact ⟨_, Reader.run_bind ht _⟩

theorem runs_of_not_names {calls : Calls (List Encoding) κ}
    (hno : ∀ id ∈ calls.active, ¬ Names frame id) :
    ∃ e, ∀ (env : Node (Caller κ) γ (List UInt8) κ ι → Node (Caller κ) γ (List UInt8) κ ι → Prop)
      (during : γ) (n n' : Node (Caller κ) γ (List UInt8) κ ι) (r : Except Error Unit),
      n.state.calls = calls →
        (Operation.Runs env during (receive frame) n r n' ↔ r = .error e ∧ n' = n) := by
  cases hw : Reader.word.run (Cursor.start frame) with
  | mk read after =>
    cases read with
    | error e =>
      refine ⟨e, fun env during n n' r _ => ?_⟩
      unfold receive
      rw [Operation.runs_log_bind, hw]
      exact Iff.rfl
    | ok id =>
      refine ⟨.unknownCall id, fun env during n n' r hcalls => ?_⟩
      have hnone : Table.find? id n.state.calls.pending = none :=
        Table.find?_eq_none_iff.2 fun hm => hno id (hcalls ▸ hm) ⟨after, hw⟩
      unfold receive
      rw [Operation.runs_log_bind, hw]
      simp only
      rw [Operation.runs_lift_ok_bind, Operation.runs_get_bind, hnone]
      exact Iff.rfl

theorem told_of_names (h : Operation.Runs env during (receive frame) n r n')
    (hp : id ∈ n.state.calls.active) (ha : Names frame id) : ∃ payload,
      Operation.Runs env during (Endpoint.succeed id payload)
        (n.withCalls (n.state.calls.settle id)) r n' := by
  obtain ⟨after, ha⟩ := ha
  rcases runs_receive h with ⟨-, -, hno⟩ | ⟨id', after', result, hw, -, h⟩
  · exact absurd hp (Table.find?_eq_none_iff.1 (hno id after ha).1)
  · cases ha.symm.trans hw
    exact ⟨_, h⟩

end Caller

/-! ## Messages that name a pending call -/

/-- Whatever happens meanwhile leaves the endpoint alone. -/
def Untouched {σ γ μ : Type} (n n' : Node σ γ μ κ ι) : Prop :=
  n'.state = n.state

theorem exists_runs_untouched {σ γ μ α : Type} (during : γ) (op : Operation σ μ κ ι α)
    (n : Node σ γ μ κ ι) : ∃ r n', Operation.Runs Untouched during op n r n' := by
  have hidle (n : Node σ γ μ κ ι) : ∃ n', Untouched n n' := ⟨n, rfl⟩
  exact Action.exists_runs (Site.self _) hidle during op.outcome n

theorem Gives.state_eq {σ γ μ : Type} {during : γ} {id : Nat} {given : List (Handler κ × Delivery)}
    {n n' : Node σ γ μ κ ι} (h : Gives Untouched during id given n n') : n'.state = n.state := by
  induction h with
  | nil n => rfl
  | cons he _ ih => exact ih.trans he

section

variable {ε ρ μ : Type} {frame : Nat → Wrapper κ → List Value → μ → Prop}
  {perform : Command κ μ → Operation (Endpoint ε ρ κ) μ κ ι (Option Nat)} {calls : Calls ε κ}

/-- An endpoint can have these calls at some moment. What it serves is left open: that may have
changed since, and no call depends on it. -/
def Calls.Reached (perform : Command κ μ → Operation (Endpoint ε ρ κ) μ κ ι (Option Nat))
    (calls : Calls ε κ) : Prop :=
  ∃ config terms n, Moment perform (.start (.ofTerms config terms)) n ∧ n.state.calls = calls

theorem Calls.Reached.own (h : calls.Reached perform) (hk : Guarantees perform (Keeps frame)) :
    calls.Own := by
  obtain ⟨config, terms, n, hmoment, rfl⟩ := h
  obtain ⟨transit, ledger, hn⟩ := hmoment.exists_coherent hk
  exact hn.own

theorem Calls.Reached.opened (h : calls.Reached perform) (hk : Guarantees perform (Keeps frame))
    {id : Nat} (hp : id ∈ calls.active) :
    ∃ call, calls.find? id = some call ∧ call.resolved = false := by
  obtain ⟨config, terms, n, hmoment, rfl⟩ := h
  obtain ⟨transit, ledger, hn⟩ := hmoment.exists_coherent hk
  exact hn.opened id hp

/-- A call is ended, and nothing else: it is off the list of pending calls and resolved, and its
handlers are gone. -/
structure EndsOnly (id : Nat) (s s' : Endpoint ε ρ κ) : Prop where
  config : s'.config = s.config
  terms : s'.terms = s.terms
  nextId : s'.calls.nextId = s.calls.nextId
  pending : s'.calls.pending = Table.erase id s.calls.pending
  resolved : ∃ call, s'.calls.find? id = some call ∧ call.resolved = true ∧ call.handlers = []
  others : ∀ j, j ≠ id → s'.calls.find? j = s.calls.find? j

/-- The outcome of a call that is not resolved ends that call, whatever comes of it. -/
theorem endsOnly_of_told {γ : Type} {n n' : Node (Endpoint ε ρ κ) γ μ κ ι} {during : γ} {id : Nat}
    {call : Call κ} (success : Bool) {payload : Payload} {r : Except Error Unit}
    (hown : n.state.calls.Own) (hc : n.state.calls.find? id = some call)
    (hu : call.resolved = false)
    (h : Operation.Runs Untouched during (if success then Endpoint.succeed id payload
      else Endpoint.raise id payload) (n.withCalls (n.state.calls.settle id)) r n') :
    EndsOnly id n.state n'.state := by
  have hown' : (n.state.calls.settle id).Own := hown
  have hc' : (n.state.calls.settle id).find? id = some call := hc
  rcases Endpoint.runs_told h with ⟨-, hr⟩ | ⟨_, -, -, hg⟩
  · rw [hr call hc'] at hu
    cases hu
  · rw [hg.state_eq]
    refine ⟨rfl, rfl, Calls.nextId_close _ id, Calls.pending_close _ id, ?_, fun j hj => ?_⟩
    · refine ⟨call.resolve, ?_, rfl, rfl⟩
      show ((n.state.calls.settle id).close id).find? id = some call.resolve
      rw [Calls.close_of_find? hc', Calls.find?_put, if_pos (show call.resolve.id = id from
        hown id call hc)]
    · exact Calls.find?_close_ne hown' (Ne.symm hj)

end

/-- A message that fails and names no pending call changes nothing. One that names a pending call
ends it, whatever comes of it, and leaves all other calls as they were. -/
theorem refused_unchanged :
    (∀ n : Node (Peer κ ι) (Command κ String) String κ ι,
      n.state.calls.Reached (Peer.perform (κ := κ) (ι := ι)) →
        ∀ (message : String) (during : Command κ String),
          (∀ env r n', Operation.Runs env during (Peer.receive message) n r n' →
            (∃ e, r = .error e) → (∀ id ∈ n.state.calls.active, ¬ Peer.Addresses message id) →
              n' = n) ∧
          ∀ id ∈ n.state.calls.active, Peer.Addresses message id →
            (∃ r n', Operation.Runs Untouched during (Peer.receive message) n r n') ∧
            ∀ r n', Operation.Runs Untouched during (Peer.receive message) n r n' →
              EndsOnly id n.state n'.state) ∧
    ∀ n : Node (Caller κ) (Command κ (List UInt8)) (List UInt8) κ ι,
      n.state.calls.Reached (Caller.perform (κ := κ) (ι := ι)) →
        ∀ (frame : List UInt8) (during : Command κ (List UInt8)),
          ((frame.length < 4 ∨ ∀ id ∈ n.state.calls.active, ¬ Caller.Names frame id) →
            ∃ e, ∀ env r n', Operation.Runs env during (Caller.receive frame) n r n' ↔
              r = .error e ∧ n' = n) ∧
          ∀ id ∈ n.state.calls.active, Caller.Names frame id →
            (∃ r n', Operation.Runs Untouched during (Caller.receive frame) n r n') ∧
            ∀ r n', Operation.Runs Untouched during (Caller.receive frame) n r n' →
              EndsOnly id n.state n'.state := by
  constructor
  · intro n hreached message during
    refine ⟨fun env r n' h => Peer.eq_of_refused h, fun id hp ha => ?_⟩
    refine ⟨exists_runs_untouched during _ n, fun r n' h => ?_⟩
    obtain ⟨call, hc, hu⟩ := hreached.opened Peer.keeps hp
    obtain ⟨success, payload, h⟩ := Peer.told_of_addresses h hp ha
    exact endsOnly_of_told success (hreached.own Peer.keeps) hc hu h
  · intro n hreached frame during
    refine ⟨fun hfault => ?_, fun id hp ha => ?_⟩
    · have hno : ∀ id ∈ n.state.calls.active, ¬ Caller.Names frame id := by
        rcases hfault with hshort | hno
        · exact fun id _ ha => absurd (Caller.names_iff.1 ha).1 (Nat.not_le.2 hshort)
        · exact hno
      obtain ⟨e, h⟩ := Caller.runs_of_not_names hno
      exact ⟨e, fun env r n' => h env during n n' r rfl⟩
    · refine ⟨exists_runs_untouched during _ n, fun r n' h => ?_⟩
      obtain ⟨call, hc, hu⟩ := hreached.opened Caller.keeps hp
      obtain ⟨payload, h⟩ := Caller.told_of_names h hp ha
      exact endsOnly_of_told true (hreached.own Caller.keeps) hc hu h

/-- A reply to a call that nobody made. -/
@[irreducible] def strayReply : String :=
  (Json.array (Peer.answer 1 .bool (.ok (.bool false)))).text

theorem parseArray?_strayReply :
    Json.parseArray? strayReply = some (Peer.answer 1 .bool (.ok (.bool false))) :=
  Json.parseArray?_of_atoms (by decide +kernel)

/-- A peer and a caller that wait for their first call refuse a reply to another one; the reply to
their call ends it. -/
theorem refused_unchanged_stray :
    let peer := Link.flipCalled.note (.finished (.call Link.flipWrapper [.bool true]) (.ok (some 0)))
    let caller := Session.flipSession.caller
    (Operation.Runs Untouched (.receive strayReply) (Peer.receive strayReply) peer
        (.error (.unknownCall 1)) peer ∧
      ∀ n', Operation.Runs Untouched (.receive strayReply) (Peer.receive strayReply) peer
        (.error (.unknownCall 1)) n' → n' = peer) ∧
    (Operation.Runs Untouched (.receive Link.flipReply) (Peer.receive Link.flipReply) peer (.ok ())
        Link.flipResolved ∧ EndsOnly 0 peer.state Link.flipResolved.state) ∧
    (∀ frame ∈ [[0, 0, 0], littleEndian 4 1 ++ [0]], ∃ e, ∀ r n',
      Operation.Runs Untouched (.receive frame) (Caller.receive frame) caller r n' ↔
        r = .error e ∧ n' = caller) ∧
    Operation.Runs Untouched (.receive Session.flipReply) (Caller.receive Session.flipReply) caller
        (.ok ()) Session.flipResolved ∧ EndsOnly 0 caller.state Session.flipResolved.state := by
  intro peer caller
  have hpeer : peer.state.calls.Reached (Peer.perform (ι := Bool)) :=
    ⟨.default, .builtin, peer, moment_of_reaches
      (.single ⟨1, Site.Acts.of_runs trivial Link.runs_flipCalled fun _ => .refl⟩), rfl⟩
  have hcaller : caller.state.calls.Reached (Caller.perform (ι := Bool)) :=
    ⟨.default, [], caller, moment_of_reaches
      (.single ⟨1, Site.Acts.of_runs trivial Session.runs_flipCalled fun _ => .refl⟩), rfl⟩
  have hreply : Operation.Runs Untouched (.receive Link.flipReply) (Peer.receive Link.flipReply) peer
      (.ok ()) Link.flipResolved := by
    unfold Peer.receive Peer.dispatch
    rw [Link.parseArray?_flipReply]
    exact ⟨Link.flipResolved, .ok (), rfl, rfl, rfl⟩
  have hframe : Operation.Runs Untouched (.receive Session.flipReply)
      (Caller.receive Session.flipReply) caller (.ok ()) Session.flipResolved :=
    ⟨Session.flipResolved, .ok (), rfl, rfl, rfl⟩
  refine ⟨⟨?_, fun n' h => ?_⟩, ⟨hreply, ?_⟩, fun frame hf => ?_, hframe, ?_⟩
  · unfold Peer.receive Peer.dispatch
    rw [parseArray?_strayReply]
    exact ⟨rfl, rfl⟩
  · refine (refused_unchanged.1 peer hpeer strayReply _).1 _ _ n' h ⟨_, rfl⟩ ?_
    rintro id hid ⟨success, payload, rest, hm, hnumber, -⟩
    cases parseArray?_strayReply.symm.trans hm
    cases List.mem_singleton.1 hid
    cases hnumber
  · refine ((refused_unchanged.1 peer hpeer Link.flipReply _).2 0
      List.mem_cons_self ?_).2 _ _ hreply
    exact ⟨true, _, _, Link.parseArray?_flipReply, rfl, rfl, rfl⟩
  · refine (refused_unchanged.2 caller hcaller frame _).1 ?_ |>.imp fun e h => h _
    rcases List.mem_cons.1 hf with rfl | hf
    · exact Or.inl (by decide)
    · cases List.mem_singleton.1 hf
      refine Or.inr fun id hid hn => ?_
      cases List.mem_singleton.1 hid
      exact absurd (Caller.names_iff.1 hn).2 (by decide)
  · exact ((refused_unchanged.2 caller hcaller Session.flipReply _).2 0
      List.mem_cons_self (Caller.names_iff.2 (by decide))).2 _ _ hframe

end Parley
