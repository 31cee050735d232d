import Parley.Proofs.Peers
import Parley.Proofs.Sessions
import Parley.Proofs.Soundness

/-!
# Served calls

A call that a peer or a server accepts runs the function it names once, on the data that the
arguments stand for, and is answered at most once. A call that is not accepted does nothing.

* `NativeFunction.Wraps`, `Wraps.exists_job` : values of the types of a function on native data are
  data, so the function always has a job for them.
* `Peer.Accepts`, `Server.Accepts` : the calls that are accepted.
* `Unseen` : whatever happens meanwhile, apart from what is seen of the call itself;
  `Peer.runs_unseen_iff`, `Server.runs_unseen_iff` : what is seen of a call that is accepted.
* `serves_once` : what a call does.
-/

namespace Parley

variable {γ κ ι : Type}

/-! ## Functions on native data -/

/-- The function is one on native data, and the records among its parameters have distinct
fields. -/
structure NativeFunction.Wraps (f : NativeFunction ι) (g : Ty.Tuple f.domain → ι) : Prop where
  eq_ofData : f = .ofData f.domain f.range g
  distinct : ∀ t ∈ f.domain, t.Distinct

theorem Ty.exists_decodeTuple {types : List Ty} {args : List Value}
    (hd : ∀ t ∈ types, t.Distinct) (h : List.Forall₂ Ty.Has types args) :
    ∃ x, Ty.decodeTuple types args = .ok x ∧ Ty.encodeTuple types x = args := by
  induction h with
  | nil => exact ⟨(), rfl, rfl⟩
  | @cons t v types args hv _ ih =>
    obtain ⟨x, hx, he⟩ := Ty.exists_decode_of_has (hd t List.mem_cons_self) hv
    obtain ⟨rest, hrest, hargs⟩ := ih fun u hu => hd u (List.mem_cons_of_mem _ hu)
    refine ⟨(x, rest), bind_eq_ok.2 ⟨x, hx, bind_eq_ok.2 ⟨rest, hrest, rfl⟩⟩, ?_⟩
    rw [Ty.encodeTuple, he, hargs]

/-- Values of the types of a function have a job: the one of their data. -/
theorem NativeFunction.Wraps.exists_job {f : NativeFunction ι} {g : Ty.Tuple f.domain → ι}
    (h : f.Wraps g) {args : List Value} (ha : List.Forall₂ Ty.Has f.domain args) :
    ∃ x, Ty.encodeTuple f.domain x = args ∧ f.job args = .ok (g x) := by
  obtain ⟨x, hx, he⟩ := Ty.exists_decodeTuple h.distinct ha
  refine ⟨x, he, ?_⟩
  rw [show f.job args = (Ty.decodeTuple f.domain args).map g from
    congrArg (fun f => f.job args) h.eq_ofData, hx]
  rfl

/-! ## Peers -/

namespace Peer

/-- The message calls a function of the registry under an identifier, with as many arguments as the
function takes, each of which is read as a value of its type. -/
def Accepts (registry : Registry ι) (message : String) (id : Nat) (name : String)
    (f : Registered ι) (args : List Value) : Prop :=
  id < idLimit ∧ registry.function? name = some f ∧ ∃ given,
    Json.parseArray? message = some (.string "call" :: numberJson id :: .string name :: given) ∧
    given.length = f.native.domain.length ∧
    List.Forall₂ (fun x v => Value.ofJsonAs x.1 x.2 = .ok v) (f.native.domain.zip given) args

theorem readArguments_eq_ok {types : List Ty} {given : List Json} {args : List Value} :
    readArguments types given = .ok args ↔
      List.Forall₂ (fun x v => Value.ofJsonAs x.1 x.2 = .ok v) (types.zip given) args := by
  unfold readArguments
  rw [mapM_eq_ok]
  simp only [mapError_eq_ok]

theorem has_of_readArguments {types : List Ty} {given : List Json} {args : List Value}
    (hd : ∀ t ∈ types, t.Distinct) (hl : given.length = types.length)
    (h : readArguments types given = .ok args) : List.Forall₂ Ty.Has types args := by
  rw [readArguments_eq_ok] at h
  induction types generalizing given args with
  | nil =>
    cases h
    exact .nil
  | cons t types ih =>
    obtain ⟨j, given, rfl⟩ := List.exists_cons_of_length_eq_add_one hl
    rw [List.zip_cons_cons] at h
    obtain ⟨v, rest, hv, hrest, rfl⟩ := List.forall₂_cons_left_iff.1 h
    exact .cons (has_of_cast (hd t List.mem_cons_self) hv)
      (ih (fun u hu => hd u (List.mem_cons_of_mem _ hu)) (Nat.succ.inj hl) hrest)

theorem accepts_iff {registry : Registry ι} {message : String} {id : Nat} {name : String}
    {f : Registered ι} {args : List Value} :
    Accepts registry message id name f args ↔ ∃ rest,
      Json.parseArray? message = some (.string "call" :: rest) ∧
        request registry rest = .ok (id, name, f, args) := by
  simp only [request_eq_ok, callId_eq_ok, readArguments_eq_ok]
  constructor
  · rintro ⟨hid, hf, given, hm, hl, hargs⟩
    exact ⟨_, hm, ⟨rfl, hid⟩, rfl, hf, hl, hargs⟩
  · rintro ⟨rest, hm, ⟨hnumber, hid⟩, hname, hf, hl, hargs⟩
    obtain ⟨k, hk, hname⟩ := Option.bind_eq_some_iff.1 hname
    obtain rfl : k = .string name := by
      cases k <;> cases hname
      rfl
    refine ⟨hid, hf, rest.drop 2, ?_, hl, hargs⟩
    rw [hm]
    rcases rest with _ | ⟨j, _ | ⟨k, given⟩⟩
    · cases hnumber
    · cases hk
    · cases hnumber
      cases hk
      rfl

theorem Accepts.has {registry : Registry ι} {message : String} {id : Nat} {name : String}
    {f : Registered ι} {args : List Value} (h : Accepts registry message id name f args)
    (hd : ∀ t ∈ f.native.domain, t.Distinct) : List.Forall₂ Ty.Has f.native.domain args := by
  obtain ⟨-, -, given, -, hl, hargs⟩ := h
  exact has_of_readArguments hd hl (readArguments_eq_ok.2 hargs)

/-- A call that is accepted and has a job runs it once, and is answered unless the function is
called one way. -/
theorem runs_of_accepts {env : Node (Peer κ ι) γ String κ ι → Node (Peer κ ι) γ String κ ι → Prop}
    {during : γ} {n n' : Node (Peer κ ι) γ String κ ι} {message : String} {id : Nat} {name : String}
    {f : Registered ι} {args : List Value} {job : ι}
    (ha : Accepts n.state.terms message id name f args) (hj : f.native.job args = .ok job)
    {r : Except Error Unit} :
    Operation.Runs env during (receive message) n r n' ↔ r = .ok () ∧ ∃ n₁ outcome,
      env (n.note (.invoked during job)) n₁ ∧
        Replied env during (if n₁.state.config.isOneWay name then none
            else some (Json.array (answer id f.native.range outcome)).text)
          (n₁.note (.returned during job outcome)) n' := by
  obtain ⟨rest, hm, hrequest⟩ := accepts_iff.1 ha
  rw [runs_receive_iff, dispatch_call hm, runs_receiveCall_iff, hrequest]
  exact runs_serve hj

theorem runs_of_not_accepts {message : String} {registry : Registry ι}
    (hreply : ∀ rest, Json.parseArray? message ≠ some (.string "call-reply" :: rest))
    (hno : ∀ id name f args, ¬Accepts registry message id name f args) :
    ∃ e, ∀ (env : Node (Peer κ ι) γ String κ ι → Node (Peer κ ι) γ String κ ι → Prop) (during : γ)
      (n n' : Node (Peer κ ι) γ String κ ι) (r : Except Error Unit), n.state.terms = registry →
      (Operation.Runs env during (receive message) n r n' ↔ r = .error e ∧ n' = n) := by
  rcases dispatch_cases (κ := κ) (ι := ι) message with
    ⟨rest, hm, -⟩ | ⟨rest, hm, hd⟩ | ⟨-, -, e, hd⟩
  · exact absurd hm (hreply rest)
  · cases hrequest : request registry rest with
    | error e =>
      refine ⟨e, fun env during n n' r ht => ?_⟩
      rw [runs_receive_iff, hd, runs_receiveCall_iff, ht, hrequest]
      exact Iff.rfl
    | ok asked => exact absurd (accepts_iff.2 ⟨rest, hm, hrequest⟩) (hno _ _ _ _)
  · refine ⟨e, fun env during n n' r _ => ?_⟩
    rw [runs_receive_iff, hd]
    exact Iff.rfl

end Peer

/-! ## Servers -/

namespace Server

/-- The frame calls a function of the registry under an identifier, and the arguments of the function
are read from it. -/
def Accepts (registry : Registry ι) (frame : List UInt8) (id : Nat) (name : String)
    (f : Registered ι) (args : List Value) : Prop :=
  ∃ afterHeader after, header.run (Cursor.start frame) = (.ok (id, name), afterHeader) ∧
    registry.function? name = some f ∧
    (decodeArguments f.encoding.args f.native.domain).run afterHeader = (.ok args, after)

theorem accepts_iff {registry : Registry ι} {frame : List UInt8} {id : Nat} {name : String}
    {f : Registered ι} {args : List Value} :
    Accepts registry frame id name f args ↔
      ((request registry).run (Cursor.start frame)).1 = .ok (id, name, some (f, args)) := by
  constructor
  · rintro ⟨afterHeader, after, hheader, hf, hargs⟩
    rw [run_request_eq_ok.2 ⟨afterHeader, hheader, hf, hargs⟩]
  · intro h
    obtain ⟨afterHeader, hheader, hf, hargs⟩ := run_request_eq_ok.1 (Prod.ext h rfl)
    exact ⟨afterHeader, _, hheader, hf, hargs⟩

theorem Accepts.has {registry : Registry ι} {frame : List UInt8} {id : Nat} {name : String}
    {f : Registered ι} {args : List Value} (h : Accepts registry frame id name f args)
    (hd : ∀ t ∈ f.native.domain, t.Distinct) : List.Forall₂ Ty.Has f.native.domain args := by
  obtain ⟨_, _, -, -, hargs⟩ := h
  exact has_of_decodeArguments hd hargs

theorem runs_of_accepts
    {env : Node (Server κ ι) γ (List UInt8) κ ι → Node (Server κ ι) γ (List UInt8) κ ι → Prop}
    {during : γ} {n n' : Node (Server κ ι) γ (List UInt8) κ ι} {frame : List UInt8} {id : Nat}
    {name : String} {f : Registered ι} {args : List Value} {job : ι}
    (ha : Accepts n.state.terms frame id name f args) (hj : f.native.job args = .ok job)
    {r : Except Error Unit} :
    Operation.Runs env during (receive frame) n r n' ↔ ∃ n₁ outcome,
      env (n.note (.invoked during job)) n₁ ∧
        r = (answer id (n₁.state.config.isOneWay name) f.encoding.result outcome).map (fun _ => ()) ∧
        Replied env during
          (answer id (n₁.state.config.isOneWay name) f.encoding.result outcome).toOption.join
          (n₁.note (.returned during job outcome)) n' := by
  rw [runs_receive_iff, accepts_iff.1 ha]
  exact runs_serve hj

theorem runs_of_not_accepts {frame : List UInt8} {registry : Registry ι}
    (hno : ∀ id name f args, ¬Accepts registry frame id name f args) :
    ∃ e, ∀ (env : Node (Server κ ι) γ (List UInt8) κ ι → Node (Server κ ι) γ (List UInt8) κ ι → Prop)
      (during : γ) (n n' : Node (Server κ ι) γ (List UInt8) κ ι) (r : Except Error Unit),
      n.state.terms = registry →
      (Operation.Runs env during (receive frame) n r n' ↔ r = .error e ∧ n' = n) := by
  cases hrequest : ((request registry).run (Cursor.start frame)).1 with
  | error e =>
    refine ⟨e, fun env during n n' r ht => ?_⟩
    rw [runs_receive_iff, ht, hrequest]
    exact Iff.rfl
  | ok asked =>
    obtain ⟨id, name, _ | ⟨f, args⟩⟩ := asked
    · refine ⟨.unregistered name, fun env during n n' r ht => ?_⟩
      rw [runs_receive_iff, ht, hrequest]
      exact Iff.rfl
    · exact absurd (accepts_iff.2 hrequest) (hno _ _ _ _)

end Server

/-! ## What is seen of a call itself -/

/-- What is seen of a call in the course of which a job was run and, perhaps, a reply was sent. -/
def served {μ : Type} (during : γ) (job : ι) (outcome : Except String Value) (reply : Option μ) :
    List (Occurrence γ μ κ ι) :=
  .invoked during job :: .returned during job outcome :: reply.toList.map (.sent during)

section

variable {ε ρ μ : Type}

/-- Anything may happen but what is seen here, and the settings stay. An environment that does this
leaves in the trace what is seen of a command itself, whichever other commands run meanwhile. -/
def Unseen (n n' : Node (Endpoint ε ρ κ) γ μ κ ι) : Prop :=
  n'.trace = n.trace ∧ n'.state.config = n.state.config

theorem Unseen.config_of_note {n n₁ : Node (Endpoint ε ρ κ) γ μ κ ι} {o : Occurrence γ μ κ ι}
    (h : Unseen (n.note o) n₁) : n₁.state.config = n.state.config :=
  h.2

theorem exists_unseen_replied {n n' : Node (Endpoint ε ρ κ) γ μ κ ι} {during : γ} {job : ι}
    {outcome : Except String Value} {reply : Option μ} :
    (∃ n₁, Unseen (n.note (.invoked during job)) n₁ ∧
      Replied Unseen during reply (n₁.note (.returned during job outcome)) n') ↔
    n'.state.config = n.state.config ∧ n'.trace = n.trace ++ served during job outcome reply := by
  constructor
  · rintro ⟨n₁, ⟨ht, hc⟩, h⟩
    cases reply with
    | none =>
      obtain rfl : n' = n₁.note (.returned during job outcome) := h
      refine ⟨hc, ?_⟩
      rw [Node.trace_note, ht, Node.trace_note, List.append_assoc]
      rfl
    | some m =>
      obtain ⟨ht', hc'⟩ := h
      refine ⟨hc'.trans hc, ?_⟩
      rw [ht', Node.trace_note, Node.trace_note, ht, Node.trace_note, List.append_assoc,
        List.append_assoc]
      rfl
  · rintro ⟨hc, ht⟩
    cases reply with
    | none =>
      refine ⟨⟨n'.state, n.trace ++ [.invoked during job]⟩, ⟨rfl, hc⟩, ?_⟩
      obtain ⟨state, trace⟩ := n'
      obtain rfl : trace = _ := ht
      show (⟨state, _⟩ : Node (Endpoint ε ρ κ) γ μ κ ι) = ⟨state, _⟩
      rw [List.append_assoc]
      rfl
    | some m =>
      refine ⟨n.note (.invoked during job), ⟨rfl, rfl⟩, ?_, hc⟩
      rw [ht, Node.trace_note, Node.trace_note, Node.trace_note, List.append_assoc,
        List.append_assoc]
      rfl

end

/-- Of a call that a peer accepts its job is seen once, and one reply unless the function is called
one way. -/
theorem Peer.runs_unseen_iff {during : γ} {n n' : Node (Peer κ ι) γ String κ ι} {message : String}
    {id : Nat} {name : String} {f : Registered ι} {args : List Value} {job : ι}
    (ha : Accepts n.state.terms message id name f args) (hj : f.native.job args = .ok job)
    {r : Except Error Unit} :
    Operation.Runs Unseen during (receive message) n r n' ↔
      r = .ok () ∧ n'.state.config = n.state.config ∧ ∃ outcome,
        n'.trace = n.trace ++ served during job outcome
          (if n.state.config.isOneWay name then none
            else some (Json.array (answer id f.native.range outcome)).text) := by
  rw [runs_of_accepts ha hj]
  refine and_congr_right fun _ => ?_
  constructor
  · rintro ⟨n₁, outcome, hu, h⟩
    rw [hu.config_of_note] at h
    obtain ⟨hc, ht⟩ := exists_unseen_replied.1 ⟨n₁, hu, h⟩
    exact ⟨hc, outcome, ht⟩
  · rintro ⟨hc, outcome, ht⟩
    obtain ⟨n₁, hu, h⟩ := exists_unseen_replied.2 ⟨hc, ht⟩
    rw [← hu.config_of_note] at h
    exact ⟨n₁, outcome, hu, h⟩

/-- Of a request that a server accepts its job is seen once, and one reply if it has an answer. -/
theorem Server.runs_unseen_iff {during : γ} {n n' : Node (Server κ ι) γ (List UInt8) κ ι}
    {frame : List UInt8} {id : Nat} {name : String} {f : Registered ι} {args : List Value} {job : ι}
    (ha : Accepts n.state.terms frame id name f args) (hj : f.native.job args = .ok job)
    {r : Except Error Unit} :
    Operation.Runs Unseen during (receive frame) n r n' ↔
      n'.state.config = n.state.config ∧ ∃ outcome answered,
        answer id (n.state.config.isOneWay name) f.encoding.result outcome = answered ∧
        r = answered.map (fun _ => ()) ∧
        n'.trace = n.trace ++ served during job outcome answered.toOption.join := by
  rw [runs_of_accepts ha hj]
  constructor
  · rintro ⟨n₁, outcome, hu, hr, h⟩
    rw [hu.config_of_note] at hr h
    obtain ⟨hc, ht⟩ := exists_unseen_replied.1 ⟨n₁, hu, h⟩
    exact ⟨hc, outcome, _, rfl, hr, ht⟩
  · rintro ⟨hc, outcome, _, rfl, hr, ht⟩
    obtain ⟨n₁, hu, h⟩ := exists_unseen_replied.2 ⟨hc, ht⟩
    rw [← hu.config_of_note] at hr h
    exact ⟨n₁, outcome, hu, hr, h⟩

/-- A call that is accepted runs its function once, on the values that its arguments were read as,
and is answered at most once. One that is not accepted runs nothing and fails. -/
theorem serves_once :
    (∀ (message : String) (during : γ) (n : Node (Peer κ ι) γ String κ ι),
      (∀ rest, Json.parseArray? message ≠ some (.string "call-reply" :: rest)) →
      (∀ id name f args g, Peer.Accepts n.state.terms message id name f args → f.native.Wraps g →
        ∃ x, Ty.encodeTuple f.native.domain x = args ∧
          ∀ r n', Operation.Runs Unseen during (Peer.receive message) n r n' ↔
            r = .ok () ∧ n'.state.config = n.state.config ∧ ∃ outcome,
              n'.trace = n.trace ++ served during (g x) outcome
                (if n.state.config.isOneWay name then none
                  else some (Json.array (.string "call-reply" :: Peer.numberJson id ::
                    .bool outcome.isOk :: (Peer.carried? f.native.range outcome).toList)).text)) ∧
      ((∀ id name f args, ¬Peer.Accepts n.state.terms message id name f args) →
        ∃ e, ∀ r n', Operation.Runs Unseen during (Peer.receive message) n r n' ↔
          r = .error e ∧ n' = n)) ∧
    ∀ (frame : List UInt8) (during : γ) (n : Node (Server κ ι) γ (List UInt8) κ ι),
      (∀ id name f args g, Server.Accepts n.state.terms frame id name f args → f.native.Wraps g →
        ∃ x, Ty.encodeTuple f.native.domain x = args ∧
          ∀ r n', Operation.Runs Unseen during (Server.receive frame) n r n' ↔
            n'.state.config = n.state.config ∧ ∃ outcome answered,
              Server.answer id (n.state.config.isOneWay name) f.encoding.result outcome = answered ∧
              r = answered.map (fun _ => ()) ∧
              n'.trace = n.trace ++ served during (g x) outcome answered.toOption.join) ∧
      ((∀ id name f args, ¬Server.Accepts n.state.terms frame id name f args) →
        ∃ e, ∀ r n', Operation.Runs Unseen during (Server.receive frame) n r n' ↔
          r = .error e ∧ n' = n) := by
  constructor
  · intro message during n hreply
    constructor
    · intro id name f args g ha hg
      obtain ⟨x, hx, hj⟩ := hg.exists_job (ha.has hg.distinct)
      refine ⟨x, hx, fun r n' => ?_⟩
      simp only [Peer.runs_unseen_iff ha hj, Peer.answer_eq]
    · intro hno
      obtain ⟨e, h⟩ := Peer.runs_of_not_accepts hreply hno
      exact ⟨e, fun r n' => h Unseen during n n' r rfl⟩
  · intro frame during n
    constructor
    · intro id name f args g ha hg
      obtain ⟨x, hx, hj⟩ := hg.exists_job (ha.has hg.distinct)
      exact ⟨x, hx, fun r n' => Server.runs_unseen_iff ha hj⟩
    · intro hno
      obtain ⟨e, h⟩ := Server.runs_of_not_accepts hno
      exact ⟨e, fun r n' => h Unseen during n n' r rfl⟩

/-- A call that leaves out the argument. -/
@[irreducible] def bareRequest : String :=
  (Json.array (Peer.callMessage 0 "flip" [])).text

theorem parseArray?_bareRequest :
    Json.parseArray? bareRequest = some (Peer.callMessage 0 "flip" []) :=
  Json.parseArray?_of_atoms (by decide +kernel)

/-- A peer and a server run their function once and answer; a call without its argument and a frame
without a name are refused. -/
theorem serves_once_flip :
    let peer : Node (Peer Unit Bool) (Command Unit String) String Unit Bool :=
      .start (.ofTerms .default (Link.flipRegistry true))
    let server : Node (Server Unit Bool) (ServerCommand (List UInt8)) (List UInt8) Unit Bool :=
      .start (.ofTerms .default Session.flipRegistry)
    (Peer.Accepts peer.state.terms Link.flipRequest 0 "flip" Link.flipFunction [.bool true] ∧
      Link.flipFunction.native.Wraps Prod.fst ∧
      Operation.Runs Unseen (.receive Link.flipRequest) (Peer.receive Link.flipRequest) peer (.ok ())
        Link.flipServed) ∧
    (∃ e, Operation.Runs Unseen (.receive bareRequest) (Peer.receive bareRequest) peer (.error e)
      peer) ∧
    (Server.Accepts server.state.terms Session.flipRequest 0 "flip" Session.flipFunction
        [.bool true] ∧
      Session.flipFunction.native.Wraps Prod.fst ∧
      Operation.Runs Unseen (.receive Session.flipRequest) (Server.receive Session.flipRequest) server
        (.ok ()) Session.flipServed) ∧
    ∃ e, Operation.Runs Unseen (.receive [0, 0, 0, 0, 7]) (Server.receive [0, 0, 0, 0, 7]) server
      (.error e) server := by
  intro peer server
  have hdomain : ∀ t ∈ [Ty.bool], t.Distinct := fun t ht => List.mem_singleton.1 ht ▸ trivial
  -- the data that stands for the argument
  have hdata (x : Ty.Tuple [.bool]) (hx : Ty.encodeTuple [.bool] x = [.bool true]) :
      x = (true, ()) := by
    obtain ⟨b, _⟩ := x
    cases hx
    rfl
  have hpeer : Peer.Accepts peer.state.terms Link.flipRequest 0 "flip" Link.flipFunction
      [.bool true] :=
    ⟨by decide, rfl, [.bool true], Link.parseArray?_flipRequest, rfl, .cons rfl .nil⟩
  have hserver : Server.Accepts server.state.terms Session.flipRequest 0 "flip" Session.flipFunction
      [.bool true] := by
    have hheader := @Server.run_header 0 "flip" (by decide) (by decide) [1]
    rw [← List.append_assoc] at hheader
    exact ⟨_, _, hheader, rfl, rfl⟩
  have hwraps : Link.flipFunction.native.Wraps Prod.fst := ⟨rfl, hdomain⟩
  have hwraps' : Session.flipFunction.native.Wraps Prod.fst := ⟨rfl, hdomain⟩
  refine ⟨⟨hpeer, hwraps, ?_⟩, ?_, ⟨hserver, hwraps', ?_⟩, ?_⟩
  · have hno : ∀ rest, Json.parseArray? Link.flipRequest ≠ some (.string "call-reply" :: rest) := by
      intro rest h
      exact Peer.callMessage_ne_reply (Link.parseArray?_flipRequest.symm.trans h)
    obtain ⟨x, hx, h⟩ := (serves_once.1 Link.flipRequest (.receive Link.flipRequest) peer hno).1
      0 "flip" Link.flipFunction [.bool true] Prod.fst hpeer hwraps
    obtain rfl := hdata x hx
    refine (h (.ok ()) Link.flipServed).2 ⟨rfl, rfl, .ok (.bool false), ?_⟩
    unfold Link.flipServed Link.flipReply
    rfl
  · have hno : ∀ rest, Json.parseArray? bareRequest ≠ some (.string "call-reply" :: rest) := by
      intro rest h
      exact Peer.callMessage_ne_reply (parseArray?_bareRequest.symm.trans h)
    obtain ⟨e, h⟩ := (serves_once.1 bareRequest (.receive bareRequest) peer hno).2 <| by
      rintro id name f args ⟨-, hf, given, hp, hl, -⟩
      have hitems := Option.some.inj (parseArray?_bareRequest.symm.trans hp)
      simp only [Peer.callMessage, List.map_nil, List.cons.injEq] at hitems
      obtain ⟨-, -, -, rfl⟩ := hitems
      rw [Link.eq_flipFunction hf] at hl
      cases hl
    exact ⟨e, (h _ _).2 ⟨rfl, rfl⟩⟩
  · obtain ⟨x, hx, h⟩ := (serves_once.2 Session.flipRequest (.receive Session.flipRequest) server).1
      0 "flip" Session.flipFunction [.bool true] Prod.fst hserver hwraps'
    obtain rfl := hdata x hx
    exact (h (.ok ()) Session.flipServed).2 ⟨rfl, .ok (.bool false), _, rfl, rfl, rfl⟩
  · obtain ⟨e, h⟩ := (serves_once.2 [0, 0, 0, 0, 7] (.receive [0, 0, 0, 0, 7]) server).2 <| by
      rintro id name f args ⟨_, _, hheader, -⟩
      cases hheader
    exact ⟨e, (h _ _).2 ⟨rfl, rfl⟩⟩

end Parley
