import Parley.Proofs.Commands
import Parley.Proofs.Endpoints

/-!
# What the operations of peers, callers and servers do

* `Peer.runs_call`, `Caller.runs_call` : a call goes out.
* `Peer.answer`, `Server.answer` : the message that a call is answered with.
* `Peer.request`, `Peer.serve`, `Server.request`, `Server.serve` : what a call asks for, and what is
  done about it; `Peer.runs_receiveCall_iff`, `Server.runs_receive_iff` : the two together are what
  happens when a call comes in.
* `Peer.runs_receive`, `Caller.runs_receive`, `Server.runs_receive` : a message comes in.
-/

namespace Parley

namespace Operation

section

variable {σ γ μ κ ι α β : Type} {env : Node σ γ μ κ ι → Node σ γ μ κ ι → Prop} {during : γ}
  {n n' : Node σ γ μ κ ι}

/-- An operation whose result is replaced by another. -/
theorem runs_as {op : Operation σ μ κ ι α} {b : β} {r : Except Error β}
    (h : Runs env during (do let _ ← op; return b) n r n') :
    ∃ r', Runs env during op n r' n' ∧ r = r'.map fun _ => b := by
  rcases runs_bind.1 h with ⟨e, he, rfl⟩ | ⟨a, n₁, ha, rfl, rfl⟩
  · exact ⟨_, he, rfl⟩
  · exact ⟨_, ha, rfl⟩

end

end Operation

/-- A message goes out, if there is one, and the environment acts. -/
def Replied {σ γ μ κ ι : Type} (env : Node σ γ μ κ ι → Node σ γ μ κ ι → Prop) (during : γ)
    (reply : Option μ) (n n' : Node σ γ μ κ ι) : Prop :=
  match reply with
  | none => n' = n
  | some m => env (n.note (.sent during m)) n'

/-! ## Peers -/

namespace Peer

variable {γ κ ι : Type} {env : Node (Peer κ ι) γ String κ ι → Node (Peer κ ι) γ String κ ι → Prop}
  {during : γ} {n n' : Node (Peer κ ι) γ String κ ι}

/-- The message that answers a call of a function. -/
def answer (id : Nat) (range : Ty) : Except String Value → List Json
  | .ok v => resultMessage id range v
  | .error exception => exceptionMessage id exception

theorem runs_send {message : List Json} {r : Except Error Unit} :
    Operation.Runs env during (send message) n r n' ↔
      r = .ok () ∧ env (n.note (.sent during (Json.array message).text)) n' := by
  unfold send
  rw [Operation.runs_send_bind]
  constructor
  · rintro ⟨n₁, taken, he, h⟩
    obtain ⟨hr, rfl⟩ : r = .ok () ∧ n' = n₁ := by cases taken <;> exact h
    exact ⟨hr, he⟩
  · rintro ⟨rfl, he⟩
    exact ⟨n', true, he, rfl, rfl⟩

theorem runs_call {w : Wrapper κ} {args : List Value} {r : Except Error (Option Nat)}
    (h : Operation.Runs env during (call w args) n r n') :
    Endpoint.Calling env during w ()
      (fun id => .ok (Json.array (callMessage id w.name args)).text) n r n' := by
  unfold call at h
  rcases Operation.runs_bind.1 h with ⟨e, he, rfl⟩ | ⟨id, n₁, ha, h⟩
  · rcases Endpoint.runs_allocate he with ⟨hr, rfl⟩ | ⟨hr, -⟩
    · cases hr
      exact .exhausted
    · cases hr
  · rcases Endpoint.runs_allocate ha with ⟨he, -⟩ | ⟨hid, hl, rfl⟩
    · cases he
    · cases hid
      rw [Operation.runs_log_bind] at h
      rcases Operation.runs_bind.1 h with ⟨e, he, rfl⟩ | ⟨_, n₂, hs, h⟩
      · cases (runs_send.1 he).1
      · exact .sent hl rfl (runs_send.1 hs).2 (Endpoint.runs_handOut h)

theorem callId_eq_error {found : Option Json} {e : Error} (h : callId found = .error e) :
    e.family = .connection := by
  unfold callId at h
  split at h
  · split at h
    · cases h
    · cases h
      rfl
  · cases h
    rfl

theorem runs_receiveReply {rest : List Json} {r : Except Error Unit}
    (h : Operation.Runs env during (receiveReply rest) n r n') :
    (n' = n ∧ (∃ e, r = .error e ∧ e.family = .connection) ∧ ∀ id success,
      callId rest[0]? = .ok id → rest[1]?.bind Json.bool? = some success →
        Table.find? id n.state.calls.pending = none) ∨
    ∃ id success, callId rest[0]? = .ok id ∧ rest[1]?.bind Json.bool? = some success ∧
      Table.find? id n.state.calls.pending = some () ∧
      Operation.Runs env during (if success then Endpoint.succeed id (.json rest[2]?)
        else Endpoint.raise id (.json rest[2]?)) (n.withCalls (n.state.calls.settle id)) r n' := by
  unfold receiveReply at h
  cases hid : callId rest[0]? with
  | error e =>
    rw [hid] at h
    exact Or.inl ⟨h.2, ⟨e, h.1, callId_eq_error hid⟩, fun _ _ hi => nomatch hi⟩
  | ok id =>
    rw [hid, Operation.runs_lift_ok_bind] at h
    cases hs : rest[1]?.bind Json.bool? with
    | none =>
      rw [hs] at h
      exact Or.inl ⟨h.2, ⟨_, h.1, rfl⟩, fun _ _ _ hf => nomatch hf⟩
    | some success =>
      rw [hs] at h
      rcases Operation.runs_bind.1 h with ⟨e, he, hr⟩ | ⟨_, n₁, ht, h⟩
      · rcases Endpoint.runs_takePending he with ⟨hp, hu, hn⟩ | ⟨_, -, hu, -⟩
        · cases hu
          refine Or.inl ⟨hn, ⟨_, hr, rfl⟩, fun id' success' hi _ => ?_⟩
          cases hi
          exact hp
        · cases hu
      · rcases Endpoint.runs_takePending ht with ⟨-, hu, -⟩ | ⟨_, hp, -, rfl⟩
        · cases hu
        · rw [Operation.runs_log_bind] at h
          exact Or.inr ⟨id, success, rfl, rfl, hp, h⟩

/-- What a call asks for: its identifier, the name, the function of that name and arguments for
it. -/
def request (terms : Registry ι) (rest : List Json) :
    Except Error (Nat × String × Registered ι × List Value) := do
  let id ← callId rest[0]?
  match rest[1]?.bind Json.string? with
  | none => throw (.noMethodName id)
  | some name =>
    match terms.function? name with
    | none => throw (.unregistered name)
    | some f =>
      let given := rest.drop 2
      if given.length ≠ f.native.domain.length then
        throw (.argumentCount name f.native.domain.length given.length)
      return (id, name, f, ← readArguments f.native.domain given)

/-- Runs the function that a call asks for and answers. -/
def serve : Nat × String × Registered ι × List Value → Op κ ι Unit
  | (id, name, f, args) => do
    let job ← (f.native.job args).mapError Error.mismatch
    let outcome ← Operation.invoke job
    if (← get).config.isOneWay name then return ()
    send (answer id f.native.range outcome)

theorem request_eq_ok {terms : Registry ι} {rest : List Json} {id : Nat} {name : String}
    {f : Registered ι} {args : List Value} :
    request terms rest = .ok (id, name, f, args) ↔ callId rest[0]? = .ok id ∧
      rest[1]?.bind Json.string? = some name ∧ terms.function? name = some f ∧
      (rest.drop 2).length = f.native.domain.length ∧
      readArguments f.native.domain (rest.drop 2) = .ok args := by
  unfold request
  rw [bind_eq_ok]
  constructor
  · rintro ⟨_, hid, h⟩
    split at h
    · cases h
    · rename_i hname
      split at h
      · cases h
      · rename_i g hg
        by_cases hl : (rest.drop 2).length = g.native.domain.length
        · simp only [hl, ne_eq, not_true_eq_false, if_false] at h
          obtain ⟨_, hargs, h⟩ := bind_eq_ok.1 h
          cases h
          exact ⟨hid, hname, hg, hl, hargs⟩
        · simp only [ne_eq, hl, not_false_eq_true, if_true] at h
          cases h
  · rintro ⟨hid, hname, hf, hl, hargs⟩
    refine ⟨id, hid, ?_⟩
    simp only [hname, hf, hl, ne_eq, not_true_eq_false, if_false]
    exact bind_eq_ok.2 ⟨args, hargs, rfl⟩

theorem runs_receiveCall_iff {rest : List Json} {r : Except Error Unit} :
    Operation.Runs env during (receiveCall rest) n r n' ↔
      Operation.Runs env during (liftM (request n.state.terms rest) >>= serve) n r n' := by
  unfold receiveCall request
  cases hid : callId rest[0]? with
  | error e => exact Iff.rfl
  | ok id =>
    rw [Operation.runs_lift_ok_bind]
    cases hn : rest[1]?.bind Json.string? with
    | none => exact Iff.rfl
    | some name =>
      simp only [Operation.runs_get_bind]
      cases hf : n.state.terms.function? name with
      | none => exact Iff.rfl
      | some f =>
        by_cases hl : (rest.drop 2).length = f.native.domain.length
        · simp only [hl, ne_eq, not_true_eq_false, if_false]
          cases ha : readArguments f.native.domain (rest.drop 2) with
          | error e => exact Iff.rfl
          | ok args =>
            rw [Operation.runs_lift_ok_bind, Operation.runs_log_bind]
            refine Iff.trans ?_ Operation.runs_lift_ok_bind.symm
            rw [serve]
            cases hj : f.native.job args with
            | error m => exact Iff.rfl
            | ok job =>
              refine Operation.runs_invoke_bind.trans (.trans ?_ Operation.runs_invoke_bind.symm)
              refine exists_congr fun n₁ => exists_congr fun outcome => and_congr_right fun _ => ?_
              cases outcome <;> exact Iff.rfl
        · simp only [ne_eq, hl, not_false_eq_true, if_true]
          exact Iff.rfl

theorem runs_serve {id : Nat} {name : String} {f : Registered ι} {args : List Value} {job : ι}
    (hj : f.native.job args = .ok job) {r : Except Error Unit} :
    Operation.Runs env during (serve (id, name, f, args)) n r n' ↔ r = .ok () ∧ ∃ n₁ outcome,
      env (n.note (.invoked during job)) n₁ ∧
        Replied env during (if n₁.state.config.isOneWay name then none
            else some (Json.array (answer id f.native.range outcome)).text)
          (n₁.note (.returned during job outcome)) n' := by
  rw [serve, hj]
  refine Operation.runs_invoke_bind.trans ?_
  rw [← exists_and_left]
  refine exists_congr fun n₁ => ?_
  rw [← exists_and_left]
  refine exists_congr fun outcome => ?_
  rw [and_left_comm, Operation.runs_get_bind]
  refine and_congr_right fun _ => ?_
  show Operation.Runs env during (if n₁.state.config.isOneWay name = true then _ else _) _ r n' ↔ _
  split
  · exact Iff.rfl
  · exact runs_send

/-- A call that names a function and has arguments for it is run and answered; any other is
refused. -/
theorem runs_receiveCall {rest : List Json} {r : Except Error Unit}
    (h : Operation.Runs env during (receiveCall rest) n r n') :
    (n' = n ∧ ∃ e, r = .error e) ∨ (r = .ok () ∧ ∃ id name f args job outcome n₁,
      callId rest[0]? = .ok id ∧ rest[1]?.bind Json.string? = some name ∧
      n.state.terms.function? name = some f ∧
      (rest.drop 2).length = f.native.domain.length ∧
      readArguments f.native.domain (rest.drop 2) = .ok args ∧ f.native.job args = .ok job ∧
      env (n.note (.invoked during job)) n₁ ∧
      (n' = n₁.note (.returned during job outcome) ∨
        env ((n₁.note (.returned during job outcome)).note
          (.sent during (Json.array (answer id f.native.range outcome)).text)) n')) := by
  rw [runs_receiveCall_iff] at h
  cases hrequest : request n.state.terms rest with
  | error e =>
    rw [hrequest] at h
    exact Or.inl ⟨h.2, e, h.1⟩
  | ok asked =>
    obtain ⟨id, name, f, args⟩ := asked
    rw [hrequest, Operation.runs_lift_ok_bind] at h
    obtain ⟨hid, hname, hf, hl, hargs⟩ := request_eq_ok.1 hrequest
    cases hj : f.native.job args with
    | error m =>
      rw [serve, hj] at h
      exact Or.inl ⟨h.2, _, h.1⟩
    | ok job =>
      obtain ⟨hr, n₁, outcome, he, h⟩ := (runs_serve hj).1 h
      refine Or.inr ⟨hr, id, name, f, args, job, outcome, n₁, hid, hname, hf, hl, hargs, hj, he, ?_⟩
      split at h
      · exact Or.inl h
      · exact Or.inr h

theorem dispatch_call {message : String} {rest : List Json}
    (h : Json.parseArray? message = some (.string "call" :: rest)) :
    (dispatch message : Op κ ι Unit) = receiveCall rest := by
  unfold dispatch
  rw [h]
  rfl

theorem dispatch_cases (message : String) :
    (∃ rest, Json.parseArray? message = some (.string "call-reply" :: rest) ∧
      (dispatch message : Op κ ι Unit) = receiveReply rest) ∨
    (∃ rest, Json.parseArray? message = some (.string "call" :: rest) ∧
      (dispatch message : Op κ ι Unit) = receiveCall rest) ∨
    ((∀ rest, Json.parseArray? message ≠ some (.string "call-reply" :: rest)) ∧
      (∀ rest, Json.parseArray? message ≠ some (.string "call" :: rest)) ∧
      ∃ e, (dispatch message : Op κ ι Unit) = throw e) := by
  unfold dispatch
  cases hp : Json.parseArray? message with
  | none => exact Or.inr (Or.inr ⟨by simp, by simp, _, rfl⟩)
  | some items =>
    cases items with
    | nil => exact Or.inr (Or.inr ⟨by simp, by simp, _, rfl⟩)
    | cons kind rest =>
      cases kind with
      | string s =>
        simp only [Json.string?]
        split
        · rename_i hs
          cases hs
          exact Or.inl ⟨rest, rfl, rfl⟩
        · rename_i hs
          cases hs
          exact Or.inr (Or.inl ⟨rest, rfl, rfl⟩)
        · rename_i hreply hcall
          refine Or.inr (Or.inr ⟨fun _ he => ?_, fun _ he => ?_, _, rfl⟩)
          · cases he
            exact hreply rfl
          · cases he
            exact hcall rfl
      | _ => exact Or.inr (Or.inr ⟨by simp, by simp, _, rfl⟩)

theorem runs_receive_iff {message : String} {r : Except Error Unit} :
    Operation.Runs env during (receive message) n r n' ↔
      Operation.Runs env during (dispatch message) n r n' := by
  unfold receive
  rw [Operation.runs_log_bind, Operation.runs_outcome_bind]
  constructor
  · rintro ⟨x, n₁, hd, h⟩
    obtain ⟨rfl, rfl⟩ : r = x ∧ n' = n₁ := by
      cases x with
      | ok u => exact h
      | error e => exact Operation.runs_ite_log_bind.1 h
    exact hd
  · intro h
    refine ⟨r, n', h, ?_⟩
    cases r with
    | ok u => exact ⟨rfl, rfl⟩
    | error e => exact Operation.runs_ite_log_bind.2 ⟨rfl, rfl⟩

/-- A message is a reply or a call; any other is refused. -/
theorem runs_receive {message : String} {r : Except Error Unit}
    (h : Operation.Runs env during (receive message) n r n') :
    (n' = n ∧ (∃ e, r = .error e) ∧
      ∀ rest, Json.parseArray? message ≠ some (.string "call-reply" :: rest)) ∨
    ∃ rest, (Json.parseArray? message = some (.string "call-reply" :: rest) ∧
        Operation.Runs env during (receiveReply rest) n r n') ∨
      (Json.parseArray? message = some (.string "call" :: rest) ∧
        Operation.Runs env during (receiveCall rest) n r n') := by
  rw [runs_receive_iff] at h
  rcases dispatch_cases (κ := κ) (ι := ι) message with
    ⟨rest, hm, hd⟩ | ⟨rest, hm, hd⟩ | ⟨hreply, -, e, hd⟩
  · exact Or.inr ⟨rest, Or.inl ⟨hm, hd ▸ h⟩⟩
  · exact Or.inr ⟨rest, Or.inr ⟨hm, hd ▸ h⟩⟩
  · rw [hd] at h
    exact Or.inl ⟨h.2, ⟨e, h.1⟩, hreply⟩

end Peer

/-! ## Callers -/

namespace Caller

variable {γ κ ι : Type}
  {env : Node (Caller κ) γ (List UInt8) κ ι → Node (Caller κ) γ (List UInt8) κ ι → Prop}
  {during : γ} {n n' : Node (Caller κ) γ (List UInt8) κ ι}

theorem runs_call {w : Wrapper κ} {args : List Value} {r : Except Error (Option Nat)}
    (h : Operation.Runs env during (call w args) n r n') :
    Endpoint.Calling env during w w.encoding.result
      (fun id => requestFrame id w.name args w.encoding.args) n r n' := by
  unfold call at h
  rcases Operation.runs_bind.1 h with ⟨e, he, rfl⟩ | ⟨id, n₁, ha, h⟩
  · rcases Endpoint.runs_allocate he with ⟨hr, rfl⟩ | ⟨hr, -⟩
    · cases hr
      exact .exhausted
    · cases hr
  · rcases Endpoint.runs_allocate ha with ⟨he, -⟩ | ⟨hid, hl, rfl⟩
    · cases he
    · cases hid
      cases hf : requestFrame n.state.calls.nextId w.name args w.encoding.args with
      | error e =>
        rw [hf] at h
        obtain ⟨rfl, rfl⟩ := h
        exact .unsent hf
      | ok frame =>
        rw [hf, Operation.runs_lift_ok_bind, Operation.runs_log_bind] at h
        obtain ⟨n₂, taken, he, h⟩ := Operation.runs_send_bind.1 h
        -- the call goes on whether or not the transport took its frame
        exact .sent hl hf he (Endpoint.runs_handOut (by cases taken <;> exact h))

theorem runs_receive {frame : List UInt8} {r : Except Error Unit}
    (h : Operation.Runs env during (receive frame) n r n') :
    (n' = n ∧ (∃ e, r = .error e) ∧
      ∀ id after, Reader.word.run (Cursor.start frame) = (.ok id, after) →
        Table.find? id n.state.calls.pending = none ∧ r = .error (.unknownCall id)) ∨
    ∃ id after result, Reader.word.run (Cursor.start frame) = (.ok id, after) ∧
      Table.find? id n.state.calls.pending = some result ∧
      Operation.Runs env during (Endpoint.succeed id (.wire after.rest result))
        (n.withCalls (n.state.calls.settle id)) r n' := by
  unfold receive at h
  rw [Operation.runs_log_bind] at h
  cases hw : Reader.word.run (Cursor.start frame) with
  | mk read after =>
    simp only [hw] at h
    cases read with
    | error e =>
      rw [Operation.runs_lift_error_bind] at h
      exact Or.inl ⟨h.2, ⟨e, h.1⟩, fun _ _ he => nomatch he⟩
    | ok id =>
      rw [Operation.runs_lift_ok_bind, Operation.runs_get_bind] at h
      cases hp : Table.find? id n.state.calls.pending with
      | none =>
        rw [hp] at h
        refine Or.inl ⟨h.2, ⟨_, h.1⟩, fun _ _ he => ?_⟩
        cases he
        exact ⟨hp, h.1⟩
      | some result =>
        rw [hp] at h
        rcases Operation.runs_bind.1 h with ⟨e, he, -⟩ | ⟨_, n₁, ht, h⟩
        · rcases Endpoint.runs_takePending he with ⟨hf, -⟩ | ⟨_, -, hr, -⟩
          · rw [hp] at hf
            cases hf
          · cases hr
        · rcases Endpoint.runs_takePending ht with ⟨-, hr, -⟩ | ⟨e, hf, hr, rfl⟩
          · cases hr
          · cases hr
            rw [hp] at hf
            cases hf
            rw [Operation.runs_log_bind] at h
            exact Or.inr ⟨id, after, result, rfl, hp, h⟩

end Caller

/-! ## Servers -/

namespace Server

variable {γ κ ι : Type}
  {env : Node (Server κ ι) γ (List UInt8) κ ι → Node (Server κ ι) γ (List UInt8) κ ι → Prop}
  {during : γ} {n n' : Node (Server κ ι) γ (List UInt8) κ ι}

/-- What a request asks for: its identifier, the name and, if a function of that name is served, the
function with arguments for it. -/
def request (terms : Registry ι) : Reader (Nat × String × Option (Registered ι × List Value)) := do
  let (id, name) ← header
  match terms.function? name with
  | none => return (id, name, none)
  | some f => return (id, name, some (f, ← decodeArguments f.encoding.args f.native.domain))

/-- Runs the function that a request asks for and answers. -/
def serve : Nat × String × Option (Registered ι × List Value) → Op κ ι Unit
  | (_, name, none) => throw (.unregistered name)
  | (id, name, some (f, args)) => do
    let job ← (f.native.job args).mapError Error.mismatch
    match ← Operation.invoke job with
    | .error exception =>
      Operation.log .error "native function raised an exception"
        [("call_id", .number id), ("name", .text name), ("exception", .text exception)]
    | .ok v =>
      if (← get).config.isOneWay name then return ()
      reply id v f.encoding.result

theorem run_request_eq_ok {terms : Registry ι} {id : Nat} {name : String} {f : Registered ι}
    {args : List Value} {c after : Cursor} :
    (request terms).run c = (.ok (id, name, some (f, args)), after) ↔ ∃ afterHeader,
      header.run c = (.ok (id, name), afterHeader) ∧ terms.function? name = some f ∧
      (decodeArguments f.encoding.args f.native.domain).run afterHeader = (.ok args, after) := by
  unfold request
  constructor
  · intro h
    obtain ⟨⟨id', name'⟩, afterHeader, hheader, h⟩ := Reader.of_run_bind h
    cases hf : terms.function? name' with
    | none =>
      simp only [hf] at h
      cases h
    | some g =>
      simp only [hf] at h
      obtain ⟨_, _, hargs, h⟩ := Reader.of_run_bind h
      cases h
      exact ⟨afterHeader, hheader, hf, hargs⟩
  · rintro ⟨afterHeader, hheader, hf, hargs⟩
    rw [Reader.run_bind hheader]
    simp only [hf]
    exact Reader.run_bind hargs _

theorem runs_receive_iff {frame : List UInt8} {r : Except Error Unit} :
    Operation.Runs env during (receive frame) n r n' ↔
      Operation.Runs env during
        (liftM ((request n.state.terms).run (Cursor.start frame)).1 >>= serve) n r n' := by
  unfold receive
  rw [Operation.runs_log_bind]
  cases hh : header.run (Cursor.start frame) with
  | mk read afterHeader =>
    cases read with
    | error e =>
      rw [request, Reader.run_bind_error hh]
      exact Iff.rfl
    | ok front =>
      obtain ⟨id, name⟩ := front
      rw [request, Reader.run_bind hh, Operation.runs_lift_ok_bind, Operation.runs_get_bind]
      cases hf : n.state.terms.function? name with
      | none =>
        simp only [hf]
        exact Iff.rfl
      | some f =>
        simp only [hf]
        cases ha : (decodeArguments f.encoding.args f.native.domain).run afterHeader with
        | mk read after =>
          cases read with
          | error e =>
            rw [Reader.run_bind_error ha]
            exact Iff.rfl
          | ok args =>
            rw [Reader.run_bind ha, Operation.runs_lift_ok_bind, Operation.runs_ite_log_bind,
              Operation.runs_log_bind]
            exact Iff.rfl

theorem runs_reply {id : Nat} {v : Value} {encoding : List Encoding} {r : Except Error Unit} :
    Operation.Runs env during (reply id v encoding) n r n' ↔
      match (encode encoding v).toExcept with
      | .error e => r = .error e ∧ n' = n
      | .ok encoded => r = .ok () ∧ env (n.note (.sent during (littleEndian 4 id ++ encoded))) n' := by
  unfold reply
  cases (encode encoding v).toExcept with
  | error e => exact Iff.rfl
  | ok encoded =>
    rw [Operation.runs_lift_ok_bind, Operation.runs_log_bind, Operation.runs_send_bind]
    constructor
    · rintro ⟨n₁, taken, he, h⟩
      obtain ⟨hr, rfl⟩ : r = .ok () ∧ n' = n₁ := by cases taken <;> exact h
      exact ⟨hr, he⟩
    · rintro ⟨rfl, he⟩
      exact ⟨n', true, he, rfl, rfl⟩

/-- The frame that a request is answered with once its function was run. An exception has none, nor
has a function that is called one way. -/
def answer (id : Nat) (oneWay : Bool) (encoding : List Encoding) :
    Except String Value → Except Error (Option (List UInt8))
  | .error _ => .ok none
  | .ok v =>
    if oneWay then .ok none
    else do return some (littleEndian 4 id ++ (← (encode encoding v).toExcept))

theorem answer_eq_some {id : Nat} {oneWay : Bool} {encoding : List Encoding}
    {outcome : Except String Value} {frame : List UInt8} :
    answer id oneWay encoding outcome = .ok (some frame) ↔ ∃ v encoded, outcome = .ok v ∧
      oneWay = false ∧ (encode encoding v).toExcept = .ok encoded ∧
        frame = littleEndian 4 id ++ encoded := by
  cases outcome with
  | error exception =>
    constructor
    · rintro ⟨⟩
    · rintro ⟨_, _, ⟨⟩, -⟩
  | ok v =>
    cases oneWay with
    | true =>
      constructor
      · rintro ⟨⟩
      · rintro ⟨_, _, -, ⟨⟩, -⟩
    | false =>
      refine bind_eq_ok.trans ⟨?_, ?_⟩
      · rintro ⟨encoded, hb, h⟩
        cases h
        exact ⟨v, encoded, rfl, rfl, hb, rfl⟩
      · rintro ⟨_, encoded, ⟨⟩, -, hb, rfl⟩
        exact ⟨encoded, hb, rfl⟩

theorem runs_serve {id : Nat} {name : String} {f : Registered ι} {args : List Value} {job : ι}
    (hj : f.native.job args = .ok job) {r : Except Error Unit} :
    Operation.Runs env during (serve (id, name, some (f, args))) n r n' ↔ ∃ n₁ outcome,
      env (n.note (.invoked during job)) n₁ ∧
        r = (answer id (n₁.state.config.isOneWay name) f.encoding.result outcome).map (fun _ => ()) ∧
        Replied env during
          (answer id (n₁.state.config.isOneWay name) f.encoding.result outcome).toOption.join
          (n₁.note (.returned during job outcome)) n' := by
  rw [serve, hj]
  refine Operation.runs_invoke_bind.trans ?_
  refine exists_congr fun n₁ => exists_congr fun outcome => and_congr_right fun _ => ?_
  cases outcome with
  | error exception => exact Iff.rfl
  | ok v =>
    simp only [Operation.runs_get_bind, answer]
    show Operation.Runs env during (if n₁.state.config.isOneWay name = true then _ else _) _ r n' ↔ _
    cases n₁.state.config.isOneWay name with
    | true => exact Iff.rfl
    | false =>
      refine runs_reply.trans ?_
      cases (encode f.encoding.result v).toExcept with
      | error e => exact Iff.rfl
      | ok encoded => exact Iff.rfl

/-- A request that names a function and has arguments for it is run; its result is answered. -/
theorem runs_receive {frame : List UInt8} {r : Except Error Unit}
    (h : Operation.Runs env during (receive frame) n r n') :
    n' = n ∨ ∃ id name afterHeader f args after job outcome n₁,
      header.run (Cursor.start frame) = (.ok (id, name), afterHeader) ∧
      n.state.terms.function? name = some f ∧
      (decodeArguments f.encoding.args f.native.domain).run afterHeader = (.ok args, after) ∧
      f.native.job args = .ok job ∧ env (n.note (.invoked during job)) n₁ ∧
      (n' = n₁.note (.returned during job outcome) ∨
        ∃ v encoded, outcome = .ok v ∧ (encode f.encoding.result v).toExcept = .ok encoded ∧
          env ((n₁.note (.returned during job outcome)).note
            (.sent during (littleEndian 4 id ++ encoded))) n') := by
  rw [runs_receive_iff] at h
  cases hrequest : (request n.state.terms).run (Cursor.start frame) with
  | mk read after =>
    rw [hrequest] at h
    rcases read with e | ⟨id, name, _ | ⟨f, args⟩⟩
    · exact Or.inl h.2
    · exact Or.inl h.2
    · rw [Operation.runs_lift_ok_bind] at h
      obtain ⟨afterHeader, hheader, hf, hargs⟩ := run_request_eq_ok.1 hrequest
      cases hj : f.native.job args with
      | error m =>
        rw [serve, hj] at h
        exact Or.inl h.2
      | ok job =>
        obtain ⟨n₁, outcome, he, -, h⟩ := (runs_serve hj).1 h
        refine Or.inr ⟨id, name, afterHeader, f, args, after, job, outcome, n₁, hheader, hf, hargs,
          hj, he, ?_⟩
        cases ha : answer id (n₁.state.config.isOneWay name) f.encoding.result outcome with
        | error e =>
          rw [ha] at h
          exact Or.inl h
        | ok reply =>
          rw [ha] at h
          cases reply with
          | none => exact Or.inl h
          | some frame =>
            obtain ⟨v, encoded, hv, -, hb, rfl⟩ := answer_eq_some.1 ha
            exact Or.inr ⟨v, encoded, hv, hb, h⟩

end Server

end Parley
