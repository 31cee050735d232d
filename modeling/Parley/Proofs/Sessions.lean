import Parley.Proofs.Accounts
import Parley.Proofs.Arguments
import Parley.Proofs.Pairs
import Parley.Proofs.Resolutions

/-!
# A caller and a server

A caller and a server exchange frames that arrive in any order, more than once or not at all, while
calls are made, handlers are registered and functions are run at any time.

* `Caller.CallFrame.names`, `run_header` : what a server reads of the front of a request.
* `Session.Suits` : a call of a function that is served with the encoding of the wrapper, which
  carries all of its arguments and of its result.
* `Suits.asks` : a request of such a call asks for nothing but its function on its arguments.
* `Session.exists_request`, `Session.exists_answer` : where frames come from.
* `Session.answered_of_call` : executions, deliveries and replies.
-/

namespace Parley

/-! ## Frames -/

theorem Emission.toExcept_eq_ok {a : Emission} {b : List UInt8} :
    a.toExcept = .ok b ↔ a = .ofBytes b := by
  obtain ⟨bytes, _ | e⟩ := a
  · simp [toExcept, ofBytes]
  · simp [toExcept, ofBytes]

theorem requestFrame_eq_ok {id : Nat} {name : String} {args : List Value}
    {encoding : List Encoding} {frame : List UInt8} :
    requestFrame id name args encoding = .ok frame ↔
      ∃ encoded, encodeArguments encoding args = .ofBytes encoded ∧
        frame = littleEndian 4 id ++ (zeroTerminated name ++ encoded) := by
  unfold requestFrame
  rw [bind_eq_ok]
  simp only [Emission.toExcept_eq_ok]
  constructor
  · rintro ⟨encoded, he, hf⟩
    cases hf
    exact ⟨encoded, he, List.append_assoc _ _ _⟩
  · rintro ⟨encoded, he, rfl⟩
    exact ⟨encoded, he, congrArg Except.ok (List.append_assoc _ _ _)⟩

namespace Caller

theorem run_word {id : Nat} (h : id < idLimit) (rest : List UInt8) :
    Reader.word.run (Cursor.start (littleEndian 4 id ++ rest)) = (.ok id, ⟨4, rest⟩) := by
  rw [Cursor.start, Reader.run_word h, Nat.zero_add]

theorem CallFrame.names {κ : Type} {id : Nat} {w : Wrapper κ} {args : List Value}
    {frame : List UInt8} (h : CallFrame id w args frame) : Names frame id := by
  obtain ⟨hid, hf⟩ := h
  obtain ⟨encoded, -, rfl⟩ := requestFrame_eq_ok.1 hf
  exact ⟨_, run_word hid _⟩

end Caller

namespace Server

theorem run_header {id : Nat} {name : String} (hid : id < idLimit) (hname : '\x00' ∉ name.toList)
    (rest : List UInt8) :
    header.run (Cursor.start (littleEndian 4 id ++ (zeroTerminated name ++ rest))) =
      (.ok (id, name), ⟨4 + (zeroTerminated name).length, rest⟩) := by
  unfold header
  rw [Reader.run_bind (Caller.run_word hid _), Reader.run_bind (Reader.run_zcstring hname rest 4)]
  rfl

/-- A frame whose front is read as a request names the call of that request. -/
theorem names_of_header {frame : List UInt8} {id : Nat} {name : String} {after : Cursor}
    (h : header.run (Cursor.start frame) = (.ok (id, name), after)) : Caller.Names frame id := by
  obtain ⟨_, after', hw, h⟩ := Reader.of_run_bind h
  obtain ⟨_, _, _, h⟩ := Reader.of_run_bind h
  cases h
  exact ⟨after', hw⟩

theorem Asks.names {ι : Type} {registry : Registry ι} {frame : List UInt8} {id : Nat}
    {name : String} {f : Registered ι} {job : ι} (h : Asks registry frame id name f job) :
    Caller.Names frame id := by
  obtain ⟨_, _, _, hh, -⟩ := h
  exact names_of_header hh

end Server

/-! ## Calls of served functions -/

namespace Session

variable {κ ι : Type}

/-- A call of a function that is served with the encoding of the wrapper. The encodings fit the
types of the function and carry all of them, and the arguments are of these types. -/
structure Suits (registry : Registry ι) (w : Wrapper κ) (args : List Value) (f : Registered ι) :
    Prop where
  name : '\x00' ∉ w.name.toList
  function : registry.function? w.name = some f
  encoding : f.encoding = w.encoding
  domain : ∀ t ∈ f.native.domain, t.Distinct
  range : f.native.range.Distinct
  typed : List.Forall₂ Ty.Has f.native.domain args
  conveyed : ∃ entries, w.encoding.args.mapM Encoding.splitParameter = .ok entries ∧
    Conveys entries f.native.domain ∧ ∀ i a, args[i]? = some a → Keyed (own entries i) a
  fits : Fits w.encoding.result f.native.range
  covered : f.native.range.Covered [] w.encoding.result

theorem Suits.asks {registry : Registry ι} {w : Wrapper κ} {args : List Value}
    {f f' : Registered ι} {id id' : Nat} {name : String} {frame : List UInt8} {job : ι}
    (h : Suits registry w args f) (hframe : Caller.CallFrame id w args frame)
    (ha : Server.Asks registry frame id' name f' job) : f' = f ∧ f.native.job args = .ok job := by
  obtain ⟨hid, hrequest⟩ := hframe
  obtain ⟨encoded, hb, rfl⟩ := requestFrame_eq_ok.1 hrequest
  obtain ⟨afterHeader, after, given, hh, hf, hargs, hjob⟩ := ha
  rw [Server.run_header hid h.name] at hh
  cases hh
  cases h.function.symm.trans hf
  obtain ⟨entries, hs, hc, hk⟩ := h.conveyed
  have hread := run_decodeArguments hs h.domain hc h.typed hk hb
    (4 + (zeroTerminated w.name).length) []
  rw [List.append_nil, ← h.encoding, hargs] at hread
  cases hread
  exact ⟨rfl, hjob⟩

/-! ## Both endpoints -/

/-- One endpoint is a caller and the other one a server. -/
abbrev State (κ ι : Type) : Bool → Type
  | false => Caller κ
  | true => Server κ ι

/-- What is done to either endpoint. -/
abbrev Doing (κ : Type) : Bool → Type
  | false => Command κ (List UInt8)
  | true => ServerCommand (List UInt8)

end Session

/-- A caller and a server, each with what was seen of it. -/
abbrev Session (κ ι : Type) := Pair (Session.State κ ι) (Session.Doing κ) (List UInt8) κ ι

namespace Session

open Pair

variable {κ ι : Type}

/-- The calling endpoint. -/
def caller (g : Session κ ι) : Node (Caller κ) (Command κ (List UInt8)) (List UInt8) κ ι :=
  g false

/-- The serving endpoint. -/
def server (g : Session κ ι) : Node (Server κ ι) (ServerCommand (List UInt8)) (List UInt8) κ ι :=
  g true

/-- How the two carry out commands. -/
def parties (κ ι : Type) : Parties (State κ ι) (Doing κ) (List UInt8) κ ι where
  perform
    | false => Caller.perform
    | true => Server.perform
  message?
    | false, .receive m => some m
    | true, .receive m => some m
    | _, _ => none

/-- One command to the caller or to the server. -/
def Acts (env : Session κ ι → Session κ ι → Prop) (g g' : Session κ ι) : Prop :=
  (parties κ ι).Acts env g g'

/-- The caller and the server when they come into being. -/
def start (config : Config) (mappings : Mappings) (serving : Config) (registry : Registry ι) :
    Session κ ι
  | false => .start (.ofTerms config mappings)
  | true => .start (.ofTerms serving registry)

/-- The server sent the reply in the course of the request, which the caller sent for the call. -/
structure Answers (g : Session κ ι) (id : Nat) (w : Wrapper κ) (args : List Value)
    (request reply : List UInt8) : Prop where
  called : .sent (.call w args) request ∈ g.caller.trace
  frame : Caller.CallFrame id w args request
  sent : .sent (.receive request) reply ∈ g.server.trace

section

variable {config serving : Config} {mappings : Mappings} {registry : Registry ι}
  {g g' : Session κ ι}

theorem accounted_of_reaches (h : Reaches Acts (start config mappings serving registry) g) :
    Accounted (Caller.protocol κ ι) g.caller := by
  obtain ⟨-, ha⟩ := Parties.guarantee (P := parties κ ι) false Preserves.refl
    Preserves.trans Caller.accounts h (accounted_start _ config mappings)
  exact ha

theorem coherent_of_reaches (h : Reaches Acts (start config mappings serving registry) g) :
    ∃ ledger, Coherent Caller.CallFrame [] ledger g.caller := by
  obtain ⟨-, ledger, hc⟩ := Parties.guarantee (P := parties κ ι) false Keeps.refl
    Keeps.trans Caller.keeps h [] [] (coherent_start config mappings)
  exact ⟨ledger, hc⟩

theorem served_of_reaches (h : Reaches Acts (start config mappings serving registry) g) :
    g.server.state.terms = registry ∧ Server.Served g.server := by
  obtain ⟨hg, hs⟩ := Parties.guarantee (P := parties κ ι) true Preserves.refl
    Preserves.trans Server.serves h (fun _ ho => nomatch ho)
  exact ⟨hg.terms, hs⟩

theorem blames_of_reaches (h : Reaches Acts g g') (id : Nat) :
    Blames Caller.Names id False g.caller g'.caller :=
  Parties.guarantee (P := parties κ ι) false Blames.refl Blames.trans
    (Caller.blames id) h

theorem carries_of_reaches (h : Reaches Acts (start config mappings serving registry) g) :
    (parties κ ι).Carries g :=
  Parties.carries h fun side _ ho => by cases side <;> cases ho

theorem sent_by_server (h : Reaches Acts (start config mappings serving registry) g)
    {o : Occurrence (Command κ (List UInt8)) (List UInt8) κ ι} {frame : List UInt8}
    (ho : o ∈ g.caller.trace) (hd : o.during = .receive frame) :
    ∃ c, .sent c frame ∈ g.server.trace :=
  carries_of_reaches h false o ho frame (by rw [hd]; rfl)

theorem sent_by_caller (h : Reaches Acts (start config mappings serving registry) g)
    {o : Occurrence (ServerCommand (List UInt8)) (List UInt8) κ ι} {frame : List UInt8}
    (ho : o ∈ g.server.trace) (hd : o.during = .receive frame) :
    ∃ c, .sent c frame ∈ g.caller.trace :=
  carries_of_reaches h true o ho frame (by rw [hd]; rfl)

theorem exists_request (h : Reaches Acts (start config mappings serving registry) g)
    {ledger : Ledger κ} (hc : Coherent Caller.CallFrame [] ledger g.caller)
    {c : Command κ (List UInt8)} {request : List UInt8} (hs : .sent c request ∈ g.caller.trace) :
    ∃ id w args, (id, w, args) ∈ ledger ∧ .sent (.call w args) request ∈ g.caller.trace ∧
      Caller.CallFrame id w args request := by
  have hacc := (accounted_of_reaches h).seen _ hs
  cases c with
  | call w args =>
    obtain ⟨id, he, hframe⟩ := hc.frames.entry hs
    exact ⟨id, w, args, he, hs, hframe⟩
  | receive m =>
    obtain ⟨_, _, -, ha⟩ := hacc
    exact ha.elim
  | _ => exact hacc.elim

/-- What a server sends are encoded results, each under the identifier of the call whose request
asked for it. -/
theorem exists_answer (h : Reaches Acts (start config mappings serving registry) g)
    {ledger : Ledger κ} (hc : Coherent Caller.CallFrame [] ledger g.caller)
    {c : ServerCommand (List UInt8)} {reply : List UInt8} (hs : .sent c reply ∈ g.server.trace) :
    ∃ id w args request name f job v encoded, c = .receive request ∧ (id, w, args) ∈ ledger ∧
      Answers g id w args request reply ∧ Server.Asks registry request id name f job ∧
      .returned (.receive request) job (.ok v) ∈ g.server.trace ∧
      encode f.encoding.result v = .ofBytes encoded ∧ reply = littleEndian 4 id ++ encoded := by
  obtain ⟨hterms, hserved⟩ := served_of_reaches h
  have hserving := hserved _ hs
  cases c with
  | receive request =>
    obtain ⟨id', name, f, job, v, encoded, hasks, hret, hb, rfl⟩ := hserving
    rw [hterms] at hasks
    obtain ⟨_, hsent⟩ := sent_by_caller h hs rfl
    obtain ⟨id, w, args, hl, hcalled, hframe⟩ := exists_request h hc hsent
    obtain rfl := hframe.names.unique hasks.names
    exact ⟨id, w, args, request, name, f, job, v, encoded, rfl, hl, ⟨hcalled, hframe, hs⟩, hasks,
      hret, Emission.toExcept_eq_ok.1 hb, rfl⟩
  | _ => exact hserving.elim

theorem Answers.names (h : Reaches Acts (start config mappings serving registry) g) {id : Nat}
    {w : Wrapper κ} {args : List Value} {request reply : List UInt8}
    (ha : Answers g id w args request reply) : Caller.Names reply id := by
  obtain ⟨ledger, hc⟩ := coherent_of_reaches h
  obtain ⟨id', _, _, _, _, _, _, _, encoded, he, -, ha', -, -, -, hreply⟩ :=
    exists_answer h hc ha.sent
  cases he
  obtain rfl := ha.frame.names.unique ha'.frame.names
  rw [hreply]
  exact ⟨_, Caller.run_word ha.frame.1 encoded⟩

/-- A handler is given what it reads of the result that the server encoded, or a reason. -/
theorem exists_result (h : Reaches Acts (start config mappings serving registry) g)
    {c : Command κ (List UInt8)} {id : Nat} {k : Handler κ} {d : Delivery}
    (hd : .delivered c id k d ∈ g.caller.trace) :
    ∃ w args, HandedOut g.caller w args id ∧ Handles g.caller w id k ∧
      ((∀ reply, c ≠ .receive reply) ∧ Explained k d ∨
        ∃ request reply name f job v encoded, c = .receive reply ∧
          Answers g id w args request reply ∧ Server.Asks registry request id name f job ∧
          .returned (.receive request) job (.ok v) ∈ g.server.trace ∧
          encode f.encoding.result v = .ofBytes encoded ∧
          (Explained k d ∨ Reads true (.wire encoded w.encoding.result) k d)) := by
  obtain ⟨ledger, hc⟩ := coherent_of_reaches h
  obtain ⟨⟨w, args, hw, hhandles⟩, hnotified⟩ := (accounted_of_reaches h).seen _ hd
  refine ⟨w, args, hw, hhandles, ?_⟩
  cases c with
  | receive reply =>
    obtain ⟨w', args', success, payload, hw', ⟨rfl, after, hword, rfl⟩, hread⟩ := hnotified
    obtain ⟨_, hsent⟩ := sent_by_server h hd rfl
    obtain ⟨id', w'', args'', request, name, f, job, v, encoded, rfl, hl, ha, hasks, hret, hb,
      hreply⟩ := exists_answer h hc hsent
    rw [hreply, Caller.run_word ha.frame.1] at hword
    cases hword
    -- the identifier has one entry in the ledger
    cases hc.unique hl (hc.handed w args id hw).2.1
    cases hc.unique hl (hc.handed w' args' id hw').2.1
    exact Or.inr ⟨request, reply, name, f, job, v, encoded, rfl, ha, hasks, hret, hb, hread⟩
  | close => exact Or.inl ⟨fun _ he => (nomatch he), hnotified⟩
  | fail reason => exact Or.inl ⟨fun _ he => (nomatch he), hnotified⟩
  | _ => exact hnotified.elim

theorem Suits.given {w : Wrapper κ} {args : List Value} {f : Registered ι} {v : Value}
    {encoded : List UInt8} {k : Handler κ} {d : Delivery} (hs : Suits registry w args f)
    (hb : encode w.encoding.result v = .ofBytes encoded) (hv : f.native.range.Has v)
    (hk : Keyed w.encoding.result v) (hr : Reads true (.wire encoded w.encoding.result) k d) :
    k.Given f.native.range d (.ok v) := by
  refine hr.given_ok hs.range hv ?_
  have hread := run_decode hs.range hs.fits hs.covered hv hk hb 0 []
  rw [List.append_nil] at hread
  rw [Payload.cast, Cursor.start, hread]

theorem exists_answer_of_names (h : Reaches Acts (start config mappings serving registry) g)
    {o : Occurrence (Command κ (List UInt8)) (List UInt8) κ ι} {reply : List UInt8} {id : Nat}
    (ho : o ∈ g.caller.trace) (hd : o.during = .receive reply) (hn : Caller.Names reply id) :
    ∃ w args request, Answers g id w args request reply := by
  obtain ⟨ledger, hc⟩ := coherent_of_reaches h
  obtain ⟨_, hsent⟩ := sent_by_server h ho hd
  obtain ⟨id', w, args, request, _, _, _, _, _, rfl, -, ha, -⟩ := exists_answer h hc hsent
  obtain rfl := (ha.names h).unique hn
  exact ⟨w, args, request, ha⟩

/-- Whatever the request of a call has the server run is its function on its arguments. -/
theorem Suits.job_of_invoked (h : Reaches Acts (start config mappings serving registry) g)
    {w : Wrapper κ} {args : List Value} {f : Registered ι} {id : Nat} {request : List UInt8}
    {job : ι} (hs : Suits registry w args f) (hframe : Caller.CallFrame id w args request)
    (hi : .invoked (.receive request) job ∈ g.server.trace) : f.native.job args = .ok job := by
  obtain ⟨hterms, hserved⟩ := served_of_reaches h
  obtain ⟨id', name, f', hasks⟩ := hserved _ hi
  rw [hterms] at hasks
  exact (hs.asks hframe hasks).2

theorem Suits.of_delivered (h : Reaches Acts (start config mappings serving registry) g)
    {w : Wrapper κ} {args : List Value} {f : Registered ι} {id : Nat} {request : List UInt8}
    {c : Command κ (List UInt8)} {k : Handler κ} {d : Delivery} (hs : Suits registry w args f)
    (hsent : .sent (.call w args) request ∈ g.caller.trace)
    (hframe : Caller.CallFrame id w args request)
    (htyped : ∀ job v, .returned (.receive request) job (.ok v) ∈ g.server.trace →
      f.native.range.Has v ∧ Keyed w.encoding.result v)
    (hd : .delivered c id k d ∈ g.caller.trace) :
    Handles g.caller w id k ∧ (Explained k d ∨ ∃ reply job v, c = .receive reply ∧
      Answers g id w args request reply ∧ f.native.job args = .ok job ∧
      .returned (.receive request) job (.ok v) ∈ g.server.trace ∧
      k.Given f.native.range d (.ok v)) := by
  obtain ⟨ledger, hc⟩ := coherent_of_reaches h
  obtain ⟨w', args', hw, hhandles, hcases⟩ := exists_result h hd
  -- the identifier has one entry in the ledger
  obtain ⟨id', hl, hframe'⟩ := hc.frames.entry hsent
  obtain rfl := hframe.names.unique hframe'.names
  cases hc.unique hl (hc.handed w' args' id hw).2.1
  refine ⟨hhandles, ?_⟩
  rcases hcases with ⟨-, he⟩ |
    ⟨request', reply, name, f', job, v, encoded, rfl, ha, hasks, hret, hb, hread⟩
  · exact Or.inl he
  · -- a call has one request
    obtain rfl : request = request' := Except.ok.inj (hframe.2.symm.trans ha.frame.2)
    obtain ⟨rfl, hjob⟩ := hs.asks hframe hasks
    obtain ⟨hv, hk⟩ := htyped job v hret
    rw [hs.encoding] at hb
    rcases hread with he | hread
    · exact Or.inl he
    · exact Or.inr ⟨reply, job, v, rfl, ha, hjob, hret, hs.given hb hv hk hread⟩

/-- A call is resolved by the end of the connection or by a reply to its own request. -/
theorem resolved_of_reaches (h : Reaches Acts (start config mappings serving registry) g)
    (h' : Reaches Acts g g') {id : Nat} (hr : Resolved g'.caller id) :
    Resolved g.caller id ∨
      ∃ more c r, g'.caller.trace = g.caller.trace ++ more ∧ .finished c r ∈ more ∧
        (c = .close ∨ (∃ reason, c = .fail reason) ∨
          ∃ w args request reply, c = .receive reply ∧ Answers g' id w args request reply) := by
  obtain ⟨more, ht, hb⟩ := (blames_of_reaches h' id).resolved
  have hfiled : Filed g.caller := fun j call hj => ((accounted_of_reaches h).calls j call hj).1
  rcases hb hfiled hr with hr | ⟨c, r, hends, hm⟩ | hfalse
  · exact Or.inl hr
  · refine Or.inr ⟨more, c, r, ht, hm, ?_⟩
    cases c with
    | receive reply =>
      have hm' : .finished (.receive reply) r ∈ g'.caller.trace := ht ▸ List.mem_append_right _ hm
      obtain ⟨w, args, request, ha⟩ := exists_answer_of_names (h.trans h') hm' rfl hends
      exact Or.inr (Or.inr ⟨w, args, request, reply, rfl, ha⟩)
    | close => exact Or.inl rfl
    | fail reason => exact Or.inr (Or.inl ⟨reason, rfl⟩)
    | _ => exact hends.elim
  · exact hfalse.elim

/-- The function that is run is the one of the wrapper on the arguments of the call. Handlers of its
results are given the very value that it returned, and its own reply alone resolves the call before
the connection ends. -/
theorem answered_of_call (h : Reaches Acts (start config mappings serving registry) g)
    (h' : Reaches Acts g g') :
    (∀ id w args f request, .sent (.call w args) request ∈ g.caller.trace →
      Caller.CallFrame id w args request → Suits registry w args f →
      (∀ job v, .returned (.receive request) job (.ok v) ∈ g.server.trace →
        f.native.range.Has v ∧ Keyed w.encoding.result v) →
      (∀ job, .invoked (.receive request) job ∈ g.server.trace → f.native.job args = .ok job) ∧
      ∀ c k d, .delivered c id k d ∈ g.caller.trace → Handles g.caller w id k ∧
        (Explained k d ∨ ∃ reply job v, c = .receive reply ∧ Answers g id w args request reply ∧
          f.native.job args = .ok job ∧
          .returned (.receive request) job (.ok v) ∈ g.server.trace ∧
          k.Given f.native.range d (.ok v))) ∧
    (∀ id, Resolved g'.caller id → Resolved g.caller id ∨
      ∃ more c r, g'.caller.trace = g.caller.trace ++ more ∧ .finished c r ∈ more ∧
        (c = .close ∨ (∃ reason, c = .fail reason) ∨
          ∃ w args request reply, c = .receive reply ∧ Answers g' id w args request reply)) ∧
    ∀ id id' w w' args args' request request' reply, Answers g id w args request reply →
      Answers g id' w' args' request' reply → id = id' := by
  refine ⟨?_, ?_, ?_⟩
  · intro id w args f request hsent hframe hs htyped
    constructor
    · intro job hinvoked
      exact hs.job_of_invoked h hframe hinvoked
    · intro c k d hd
      exact hs.of_delivered h hsent hframe htyped hd
  · intro id hr
    exact resolved_of_reaches h h' hr
  · intro id id' w w' args args' request request' reply ha ha'
    exact (ha.names h).unique (ha'.names h)

/-- The wrapper of a function that flips a truth value. -/
def flipWrapper : Wrapper Unit :=
  ⟨"flip", ⟨[.base .boolean [.index 0]], [.base .boolean []]⟩, [.result .bool ()]⟩

/-- The function, whose jobs are its arguments. -/
def flipFunction : Registered Bool :=
  ⟨.ofData [.bool] .bool Prod.fst, "", flipWrapper.encoding⟩

def flipRegistry : Registry Bool :=
  { (Registry.builtin : Registry Bool) with functions := [("flip", flipFunction)] }

def flipRequest : List UInt8 :=
  littleEndian 4 0 ++ zeroTerminated "flip" ++ [1]

def flipReply : List UInt8 :=
  littleEndian 4 0 ++ [0]

/-- The caller once its request is out. -/
def flipCalled : Node (Caller Unit) (Command Unit (List UInt8)) (List UInt8) Unit Bool :=
  ⟨⟨.default, [], ⟨1, [(0, flipWrapper.encoding.result)], [(0, ⟨0, false, [.result .bool ()]⟩)]⟩⟩,
    [.sent (.call flipWrapper [.bool true]) flipRequest]⟩

/-- The server once its reply is out. -/
def flipServed : Node (Server Unit Bool) (ServerCommand (List UInt8)) (List UInt8) Unit Bool :=
  ⟨⟨.default, flipRegistry, .empty⟩,
    [.invoked (.receive flipRequest) true,
      .returned (.receive flipRequest) true (.ok (.bool false)),
      .sent (.receive flipRequest) flipReply]⟩

/-- The request was served. -/
def flipSession : Session Unit Bool
  | false => flipCalled.note (.finished (.call flipWrapper [.bool true]) (.ok (some 0)))
  | true => flipServed.note (.finished (.receive flipRequest) (.ok none))

/-- The caller once its handler was given the result. -/
def flipResolved : Node (Caller Unit) (Command Unit (List UInt8)) (List UInt8) Unit Bool :=
  ⟨⟨.default, [], ⟨1, [], [(0, ⟨0, true, []⟩)]⟩⟩, flipSession.caller.trace ++
    [.delivered (.receive flipReply) 0 (.result .bool ()) (.value (.bool false))]⟩

/-- The reply arrived as well. -/
def flipAnswered : Session Unit Bool
  | false => flipResolved.note (.finished (.receive flipReply) (.ok none))
  | true => flipSession.server

theorem runs_flipCalled : (Caller.perform (.call flipWrapper [.bool true])).Runs Eq
    (.call flipWrapper [.bool true]) (.start (.ofTerms .default [])) (.ok (some 0)) flipCalled :=
  ⟨_, true, rfl, rfl, rfl⟩

theorem runs_flipServed : (Server.perform (.receive flipRequest)).Runs Eq (.receive flipRequest)
    (.start (.ofTerms .default flipRegistry)) (.ok none) flipServed := by
  have hrequest : flipRequest = littleEndian 4 0 ++ (zeroTerminated "flip" ++ [1]) :=
    List.append_assoc _ _ _
  simp only [Server.perform]
  unfold Server.receive
  rw [hrequest, Server.run_header (by decide) (by decide)]
  refine ⟨_, .ok (.bool false), rfl, ?_⟩
  rw [← hrequest]
  exact ⟨_, true, rfl, rfl, rfl⟩

theorem runs_flipResolved : (Caller.perform (.receive flipReply)).Runs Eq (.receive flipReply)
    flipSession.caller (.ok none) flipResolved :=
  ⟨_, .ok (), rfl, rfl, rfl⟩

theorem reaches_flipSession :
    Reaches Acts (start .default [] .default flipRegistry) flipSession := by
  let called : Session Unit Bool :=
    (site false).put (start .default [] .default flipRegistry) flipSession.caller
  have hcalled : Reaches Acts (start .default [] .default flipRegistry) called :=
    Parties.reaches_of_runs (P := parties Unit Bool) false (by rintro _ ⟨⟩) runs_flipCalled
  have hserved : Reaches Acts called ((site true).put called flipSession.server) := by
    refine Parties.reaches_of_runs (P := parties Unit Bool) (g := called) true ?_ runs_flipServed
    rintro _ ⟨⟩
    exact ⟨_, List.mem_cons_self⟩
  have hsession : flipSession = (site true).put called flipSession.server := by
    funext side
    cases side <;> rfl
  rw [hsession]
  exact hcalled.trans hserved

theorem reaches_flipAnswered : Reaches Acts flipSession flipAnswered := by
  have hanswered : flipAnswered = (site false).put flipSession flipAnswered.caller := by
    funext side
    cases side <;> rfl
  rw [hanswered]
  refine Parties.reaches_of_runs (P := parties Unit Bool) (g := flipSession) false ?_
    runs_flipResolved
  rintro _ ⟨⟩
  exact ⟨_, List.mem_cons_of_mem _ (List.mem_cons_of_mem _ List.mem_cons_self)⟩

theorem mem_flipAnswered_caller (o : Occurrence (Command Unit (List UInt8)) (List UInt8) Unit Bool) :
    o ∈ flipAnswered.caller.trace ↔ o = .sent (.call flipWrapper [.bool true]) flipRequest ∨
      o = .finished (.call flipWrapper [.bool true]) (.ok (some 0)) ∨
      o = .delivered (.receive flipReply) 0 (.result .bool ()) (.value (.bool false)) ∨
      o = .finished (.receive flipReply) (.ok none) := by
  show o ∈ [_, _, _, _] ↔ _
  simp only [List.mem_cons, List.not_mem_nil, or_false]

theorem mem_flipAnswered_server
    (o : Occurrence (ServerCommand (List UInt8)) (List UInt8) Unit Bool) :
    o ∈ flipAnswered.server.trace ↔ o = .invoked (.receive flipRequest) true ∨
      o = .returned (.receive flipRequest) true (.ok (.bool false)) ∨
      o = .sent (.receive flipRequest) flipReply ∨
      o = .finished (.receive flipRequest) (.ok none) := by
  show o ∈ [_, _, _, _] ↔ _
  simp only [List.mem_cons, List.not_mem_nil, or_false]

theorem suits_flip : Suits flipRegistry flipWrapper [.bool true] flipFunction where
  name := by decide
  function := rfl
  encoding := rfl
  domain t ht := List.mem_singleton.1 ht ▸ trivial
  range := trivial
  typed := .cons rfl .nil
  conveyed := by
    refine ⟨_, rfl, ⟨by decide, ?_, ?_⟩, ?_⟩ <;> rintro (_ | _) _ ht <;> cases ht <;> decide
  fits := by decide
  covered := by decide

/-- The handler is given what the server returned, and it is the reply to its own request that
resolves the call. -/
theorem answered_of_call_flip :
    Reaches Acts (start .default [] .default flipRegistry) flipSession ∧
      Reaches Acts flipSession flipAnswered ∧
      Suits flipRegistry flipWrapper [.bool true] flipFunction ∧
      .invoked (.receive flipRequest) true ∈ flipAnswered.server.trace ∧
      flipFunction.native.job [.bool true] = .ok true ∧ ¬ Resolved flipSession.caller 0 ∧
      Resolved flipAnswered.caller 0 ∧
      Answers flipAnswered 0 flipWrapper [.bool true] flipRequest flipReply ∧
      (Handler.result .bool ()).Given flipFunction.native.range (.value (.bool false))
        (.ok (.bool false)) := by
  -- the reply resolves the call
  have hpending : ¬ Resolved flipSession.caller 0 := by
    rintro ⟨_, hcall, hr⟩
    cases hcall
    cases hr
  have hdone : Resolved flipAnswered.caller 0 := ⟨⟨0, true, []⟩, rfl, rfl⟩
  obtain ⟨-, hresolves, -⟩ := answered_of_call reaches_flipSession reaches_flipAnswered
  obtain ⟨more, c, r, ht, hm, hby⟩ := (hresolves 0 hdone).resolve_left hpending
  have hm' : .finished c r ∈ flipAnswered.caller.trace := ht ▸ List.mem_append_right _ hm
  have hanswers : Answers flipAnswered 0 flipWrapper [.bool true] flipRequest flipReply := by
    simp only [mem_flipAnswered_caller, reduceCtorEq, false_or, Occurrence.finished.injEq] at hm'
    obtain rfl | ⟨reason, rfl⟩ | ⟨w, args, request, reply, rfl, ha⟩ := hby
    · simp at hm'
    · simp at hm'
    · simp only [reduceCtorEq, false_and, false_or, Command.receive.injEq] at hm'
      obtain ⟨rfl, -⟩ := hm'
      have hsent := ha.called
      simp only [mem_flipAnswered_caller, reduceCtorEq, or_false, Occurrence.sent.injEq,
        Command.call.injEq] at hsent
      obtain ⟨⟨rfl, rfl⟩, rfl⟩ := hsent
      exact ha
  -- the handler is given what the server returned
  obtain ⟨hcalls, -⟩ := answered_of_call (reaches_flipSession.trans reaches_flipAnswered) .refl
  obtain ⟨hinvoked, hdelivered⟩ := hcalls 0 flipWrapper [.bool true] flipFunction flipRequest
    hanswers.called hanswers.frame suits_flip fun job v hret => by
      simp only [mem_flipAnswered_server, reduceCtorEq, or_false, false_or,
        Occurrence.returned.injEq, Except.ok.injEq] at hret
      obtain ⟨-, -, rfl⟩ := hret
      exact ⟨rfl, by decide⟩
  have hinvocation : .invoked (.receive flipRequest) true ∈ flipAnswered.server.trace :=
    (mem_flipAnswered_server _).2 (Or.inl rfl)
  obtain ⟨-, ⟨herror, -⟩ | ⟨_, job, v, -, -, -, hret, hgiven⟩⟩ := hdelivered (.receive flipReply)
    (.result .bool ()) (.value (.bool false))
    ((mem_flipAnswered_caller _).2 (Or.inr (Or.inr (Or.inl rfl))))
  · cases herror
  · simp only [mem_flipAnswered_server, reduceCtorEq, or_false, false_or,
      Occurrence.returned.injEq, Except.ok.injEq] at hret
    obtain ⟨-, -, rfl⟩ := hret
    exact ⟨reaches_flipSession, reaches_flipAnswered, suits_flip, hinvocation,
      hinvoked true hinvocation, hpending, hdone, hanswers, hgiven⟩

end

end Session

end Parley
