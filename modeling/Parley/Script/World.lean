import Parley.Script.Failure
import Parley.Script.Step

/-!
# The world of a session

Endpoints are numbered as they are made and outlive their names; wrappers and calls remember the
number of theirs. An endpoint is alive while a name stands for it or while it is at work.

* `World` : endpoints, names, and what has happened so far.
* `Event`, `SessionAnswer`, `Report` : what a session shows.
* `World.perform` : an action is carried out, its requests being answered by the session.
-/

namespace Parley

/-- What goes over a transport. -/
inductive Packet where
  | text (s : String)
  | bytes (data : List UInt8)

/-- What a step yields. -/
inductive SessionAnswer where
  | done
  | oneWay
  | flag (b : Bool)
  | callId (id : Nat)
  | wrapper (w : Wrapper SessionTarget)
  | callState (c : Call SessionTarget)
  | function (found : Option (Registered Job)) (probes : Probes)
  | declaration (s : Signature)
  | encoding (e : FunctionEncoding) (probes : Probes)
  | type (t : Ty)
  | document (d : Document)
  | config (c : Config)

/-- What happens during a step. -/
inductive Event where
  | listen (endpoint : String)
  | send (endpoint : String) (p : Packet)
  | handler (label : String) (d : Delivery)
  | native (label : String) (args : List Value)
  | nested (verb : String) (answer : Except Failure SessionAnswer)
  | log (r : LogRecord)

/-- An endpoint with its transport: the label it goes by in events, how often it has sent, and its
state. -/
structure Attached (σ : Type) where
  label : String
  transport : Transport SessionStep
  sends : Nat
  state : σ

/-- The endpoint a wrapper or a call belongs to. -/
inductive Owner where
  | peer (id : Nat)
  | caller (id : Nat)

/-- The number of an endpoint. -/
def Owner.id : Owner → Nat
  | peer id => id
  | caller id => id

/-- What steps work on, and the events so far, the latest first. -/
structure World where
  peers : List (Nat × Attached (Peer SessionTarget Job))
  callers : List (Nat × Attached (Caller SessionTarget))
  servers : List (Nat × Attached (Server SessionTarget Job))
  peerNames : List (String × Nat)
  callerNames : List (String × Nat)
  serverNames : List (String × Nat)
  registries : List (String × Registry Job)
  wrappers : List (String × Owner × Wrapper SessionTarget)
  calls : List (String × Owner × Nat)
  sent : List (String × List Packet)
  atWork : List Nat
  nextId : Nat
  events : List Event

/-- What a step of the session itself shows: its answer, the events during it and, if there are
endpoints that call, the pending calls of each. -/
structure Report where
  answer : Except Failure SessionAnswer
  events : List Event
  active : Option (List (String × List Nat))

namespace World

/-- A world before its first step. -/
def empty : World :=
  ⟨[], [], [], [], [], [], [], [], [], [], [], 0, []⟩

/-- Notes an event. -/
def emit (e : Event) : StateM World Unit :=
  modify fun w => { w with events := e :: w.events }

/-- Whether a name stands for an endpoint or the endpoint is at work. -/
def isAlive (w : World) (id : Nat) : Bool :=
  w.atWork.contains id || w.peerNames.any (fun n => n.2 = id)
    || w.callerNames.any (fun n => n.2 = id)

/-- The pending calls of the endpoints that have names. -/
def active (w : World) : Option (List (String × List Nat)) :=
  let peers := w.peerNames.map fun (n, id) =>
    (n, ((Table.find? id w.peers).map fun a => a.state.calls.active).getD [])
  let callers := w.callerNames.map fun (n, id) =>
    (n, ((Table.find? id w.callers).map fun a => a.state.calls.active).getD [])
  if (peers ++ callers).isEmpty then none else some (peers ++ callers)

/-! ## Endpoints at work -/

/-- Where the world keeps an endpoint, and what its messages are as packets. -/
structure Place (σ μ : Type) where
  id : Nat
  find : World → Option (Attached σ)
  store : World → Attached σ → World
  packet : μ → Packet

/-- The place of a peer. -/
def peerPlace (id : Nat) : Place (Peer SessionTarget Job) String :=
  ⟨id, fun w => Table.find? id w.peers,
    fun w a => { w with peers := Table.insert id a w.peers }, .text⟩

/-- The place of a caller. -/
def callerPlace (id : Nat) : Place (Caller SessionTarget) (List UInt8) :=
  ⟨id, fun w => Table.find? id w.callers,
    fun w a => { w with callers := Table.insert id a w.callers }, .bytes⟩

/-- The place of a server. -/
def serverPlace (id : Nat) : Place (Server SessionTarget Job) (List UInt8) :=
  ⟨id, fun w => Table.find? id w.servers,
    fun w a => { w with servers := Table.insert id a w.servers }, .bytes⟩

/-- A target is notified: the event is noted and its steps run. -/
def notify (exec : List SessionStep → StateM World Unit) (t : SessionTarget) (d : Delivery) :
    StateM World (Except Error Unit) := do
  emit (.handler t.label d)
  exec t.steps
  match t.refusal with
  | some reason => return .error (.handlerFailed reason)
  | none => return .ok ()

/-- A job is run. -/
def runJob (exec : List SessionStep → StateM World Unit) :
    Job → StateM World (Except String Value)
  | .answer outcome => return outcome
  | .script n args => do
    emit (.native n.label args)
    exec n.steps
    match n.ending with
    | .exception message => return .error message
    | .argument i => return .ok (args[i]?.getD .nil)
    | .value v => return .ok v

/-- A message goes out: it is noted and kept, and the steps for this send run. -/
def transmit {σ μ : Type} (exec : List SessionStep → StateM World Unit) (place : Place σ μ)
    (a : Attached σ) (m : μ) : StateM World Bool := do
  let p := place.packet m
  emit (.send a.label p)
  modify fun w =>
    let w := place.store w { a with sends := a.sends + 1 }
    { w with sent := Table.insert a.label ((Table.find? a.label w.sent).getD [] ++ [p]) w.sent }
  exec (a.transport.duringSend[a.sends]?.getD [])
  return !a.transport.refuses

/-- Carries out an action of the endpoint at a place; `start` is how the endpoint was found. -/
def perform {σ μ α : Type} (exec : List SessionStep → StateM World Unit) (place : Place σ μ)
    (start : Attached σ) : Action σ μ SessionTarget Job α → StateM World α
  | .done a => return a
  | .read next => do
    perform exec place start (next ((place.find (← get)).getD start).state)
  | .write s next => do
    modify fun w => place.store w { (place.find w).getD start with state := s }
    perform exec place start next
  | .ask (.log r) next => do
    emit (.log r)
    perform exec place start (next ())
  | .ask .listen next => do
    emit (.listen start.label)
    perform exec place start (next ())
  | .ask (.send m) next => do
    let taken ← transmit exec place ((place.find (← get)).getD start) m
    perform exec place start (next taken)
  | .ask (.deliver _ h d) next => do
    let accepted ← notify exec h.target d
    perform exec place start (next accepted)
  | .ask (.invoke job) next => do
    let outcome ← runJob exec job
    perform exec place start (next outcome)

/-- Carries out an operation of an endpoint, which is at work meanwhile. -/
def operate {σ μ α : Type} (exec : List SessionStep → StateM World Unit) (place : Place σ μ)
    (start : Attached σ) (op : Operation σ μ SessionTarget Job α) :
    StateM World (Except Failure α) := do
  modify fun w => { w with atWork := place.id :: w.atWork }
  let outcome ← perform exec place start op.outcome
  modify fun w => { w with atWork := w.atWork.erase place.id }
  return Failure.ofError outcome

end World

end Parley
