import Parley.Script.World
import Parley.Text.Hex

/-!
# Running sessions

Each step is answered, together with the events during it. Steps that handlers, natives and
transports carry run in the middle of another step; how deep they may run in one another is bounded.

* `World.step` : one step.
* `runSession` : all steps.
-/

namespace Parley

namespace World

/-- A step of a session: what it did before it fails stays done. -/
abbrev Effect := ExceptT Failure (StateM World)

/-- Yields what a computation yields or fails with its error. -/
def attempt {α : Type} (x : Except Error α) : Effect α :=
  liftExcept (Failure.ofError x)

/-- What a name stands for. -/
def named {α : Type} (name : String) (table : List (String × α)) : Effect α :=
  match Table.find? name table with
  | some a => return a
  | none => throw (.error (.handlerFailed ("nothing goes by the name " ++ name)))

/-- Notes what a registry logged; yields the registry. -/
def logged (outcome : Except Error (Registry Job × List LogRecord)) : Effect (Registry Job) := do
  let (r, records) ← attempt outcome
  records.forM fun record => ExceptT.lift (emit (.log record))
  return r

/-- Makes a registry. -/
def setUp (s : Setup SessionStep) : Effect (Registry Job) := do
  let library : Library := if s.builtin then .builtin else []
  let library := s.documents.foldl (fun l d => Table.insert d.1 d.2 l) library
  let r ← s.load.foldlM (fun r uri => logged (r.load uri)) (Registry.ofLibrary library)
  let r := s.define.foldl (fun (r : Registry Job) d => r.define d.1 d.2) r
  s.register.foldlM (fun r f => logged (r.register f.1 f.2.2.function f.2.1)) r

/-- A new number for an endpoint. -/
def fresh : Effect Nat :=
  modifyGet fun w => (w.nextId, { w with nextId := w.nextId + 1 })

/-- An outcome as the end of a step. -/
def conclude {α : Type} (outcome : StateM World (Except Failure α)) : Effect α :=
  ExceptT.mk outcome

section Steps

variable (exec : List SessionStep → StateM World Unit)

/-- Carries out an operation of a peer. -/
def onPeer {α : Type} (id : Nat) (op : Peer.Op SessionTarget Job α) : Effect α := do
  match Table.find? id (← get).peers with
  | some a => conclude (operate exec (peerPlace id) a op)
  | none => throw (.error .connectionDropped)

/-- Carries out an operation of a caller. -/
def onCaller {α : Type} (id : Nat) (op : Caller.Op SessionTarget Job α) : Effect α := do
  match Table.find? id (← get).callers with
  | some a => conclude (operate exec (callerPlace id) a op)
  | none => throw (.error .connectionDropped)

/-- Carries out an operation of a server. -/
def onServer {α : Type} (id : Nat) (op : Server.Op SessionTarget Job α) : Effect α := do
  match Table.find? id (← get).servers with
  | some a => conclude (operate exec (serverPlace id) a op)
  | none => throw (.error .connectionDropped)

/-- Makes a peer. -/
def makePeer (name : String) (transport : Transport SessionStep) (plain : Bool)
    (setup : Setup SessionStep) (config : Except Error Config) : Effect Unit := do
  let registry ← if plain then pure .builtin else setUp setup
  let config ← if plain then pure .default else attempt config
  let id ← fresh
  modify fun w => (peerPlace id).store w ⟨name, transport, 0, .ofTerms config registry⟩
  onPeer exec id Peer.start
  modify fun w => { w with peerNames := Table.insert name id w.peerNames }

/-- Makes a caller. -/
def makeCaller (name : String) (transport : Transport SessionStep) (plain builtin : Bool)
    (define : List (String × TypeMapping)) (config : Except Error Config) : Effect Unit := do
  let mappings : Mappings := if plain || builtin then .builtin else []
  let mappings := if plain then mappings
    else define.foldl (fun (m : Mappings) d => m.define d.1 d.2) mappings
  let config ← if plain then pure .default else attempt config
  let id ← fresh
  modify fun w => (callerPlace id).store w ⟨name, transport, 0, .ofTerms config mappings⟩
  onCaller exec id Caller.start
  modify fun w => { w with callerNames := Table.insert name id w.callerNames }

/-- Makes a server. -/
def makeServer (name : String) (transport : Transport SessionStep) (plain : Bool)
    (setup : Setup SessionStep) (config : Except Error Config) : Effect Unit := do
  let registry ← setUp setup
  let config ← if plain then pure .default else attempt config
  let id ← fresh
  modify fun w => (serverPlace id).store w ⟨name, transport, 0, .ofTerms config registry⟩
  onServer exec id (Server.start transport.reliable)
  modify fun w => { w with serverNames := Table.insert name id w.serverNames }

/-- Changes a registry, or else the registry of a peer. -/
def changeRegistry (name : String)
    (change : Registry Job → Except Error (Registry Job × List LogRecord)) : Effect Unit := do
  let w ← get
  match Table.find? name w.registries with
  | some r =>
    let r' ← logged (change r)
    modify fun w => { w with registries := Table.insert name r' w.registries }
  | none =>
    let id ← named name w.peerNames
    match Table.find? id w.peers with
    | none => throw (.error .connectionDropped)
    | some a =>
      let r' ← logged (change a.state.terms)
      modify fun w => (peerPlace id).store w { a with state := { a.state with terms := r' } }

/-- What comes in, as text. -/
def incomingText : Incoming → Effect String
  | .given text => return text
  | .sent source i => do
    match ((Table.find? source (← get).sent).getD [])[i]? with
    | some (.text s) => return s
    | _ => throw (.error (.handlerFailed "no such message"))

/-- What comes in, as bytes. -/
def incomingBytes : Incoming → Effect (List UInt8)
  | .given text => return (Hex.decode? text).getD []
  | .sent source i => do
    match ((Table.find? source (← get).sent).getD [])[i]? with
    | some (.bytes data) => return data
    | _ => throw (.error (.handlerFailed "no such message"))

/-- An endpoint hears of something from its transport. -/
def hear (name : String) (e : TransportEvent) : Effect Unit := do
  let w ← get
  match Table.find? name w.peerNames, Table.find? name w.callerNames with
  | some id, _ =>
    match e with
    | .message m => do onPeer exec id (Peer.receive (← incomingText m))
    | .close => onPeer exec id Peer.close
    | .failure reason => onPeer exec id (Peer.fail reason)
  | none, some id =>
    match e with
    | .message m => do onCaller exec id (Caller.receive (← incomingBytes m))
    | .close => onCaller exec id Caller.close
    | .failure reason => onCaller exec id (Caller.fail reason)
  | none, none => do
    let id ← named name w.serverNames
    match e with
    | .message m => do onServer exec id (Server.receive (← incomingBytes m))
    | .close => onServer exec id Server.close
    | .failure reason => onServer exec id (Server.fail reason)

/-- Makes a wrapper of a caller, or else of a peer. -/
def makeWrapper (on function mapping : String) (defaults : List (Handler SessionTarget))
    (name : String) : Effect SessionAnswer := do
  let w ← get
  let (owner, made) ← match Table.find? on w.callerNames with
    | some id => do
      let a ← named' id w.callers
      pure (Owner.caller id, Caller.wrapper a.state function mapping defaults)
    | none => do
      let id ← named on w.peerNames
      let a ← named' id w.peers
      pure (Owner.peer id, Peer.wrapper a.state function mapping defaults)
  let wrapper ← attempt made
  modify fun w => { w with wrappers := Table.insert name (owner, wrapper) w.wrappers }
  return .wrapper wrapper
where
  /-- The endpoint with a number. -/
  named' {σ : Type} (id : Nat) (table : List (Nat × Attached σ)) : Effect (Attached σ) :=
    match Table.find? id table with
    | some a => return a
    | none => throw (.error .connectionDropped)

/-- Calls through a wrapper, if its endpoint is alive. -/
def callThrough (on : String) (args : List Value) (types : Option (List Ty))
    (name : Option String) : Effect SessionAnswer := do
  let w ← get
  let (owner, wrapper) ← named on w.wrappers
  let args ← match types with
    | none => pure args
    | some types => liftExcept (Failure.ofMismatch (Ty.conformAll types args))
  if !w.isAlive owner.id then throw (.error .connectionDropped)
  let made ← match owner with
    | .peer id => onPeer exec id (Peer.call wrapper args)
    | .caller id => onCaller exec id (Caller.call wrapper args)
  match made with
  | none => return .oneWay
  | some id =>
    if let some name := name then
      modify fun w => { w with calls := Table.insert name (owner, id) w.calls }
    return .callId id

/-- The state of a call. -/
def callState (owner : Owner) (id : Nat) : Effect (Call SessionTarget) := do
  let w ← get
  let found := match owner with
    | .peer p => (Table.find? p w.peers).bind fun a => a.state.calls.find? id
    | .caller p => (Table.find? p w.callers).bind fun a => a.state.calls.find? id
  match found with
  | some c => return c
  | none => throw (.error (.unknownCall id))

/-- Registers a handler for a call. -/
def registerFor (owner : Owner) (id : Nat) (event : String) (h : Handler SessionTarget) :
    Effect Unit :=
  match owner with
  | .peer p => onPeer exec p (Endpoint.register id event h)
  | .caller p => onCaller exec p (Endpoint.register id event h)

/-- Gives an endpoint another name. -/
def cloneName (on name : String) : Effect Unit := do
  let w ← get
  match Table.find? on w.peerNames with
  | some id => modify fun w => { w with peerNames := Table.insert name id w.peerNames }
  | none =>
    let id ← named on w.callerNames
    modify fun w => { w with callerNames := Table.insert name id w.callerNames }

/-- Forgets a name; yields whether it stood for an endpoint. -/
def dropName (name : String) : Effect Bool := do
  let w ← get
  set { w with
    peerNames := Table.erase name w.peerNames
    callerNames := Table.erase name w.callerNames
    serverNames := Table.erase name w.serverNames }
  return Table.contains name w.peerNames || Table.contains name w.callerNames
    || Table.contains name w.serverNames

/-- The registry that goes by a name. -/
def registry (name : String) : Effect (Registry Job) := do
  named name (← get).registries

/-- Carries out one step; `exec` runs the steps that others carry. -/
def carryOut : SessionStep → Effect SessionAnswer
  | .peer name transport plain setup config => do
    makePeer exec name transport plain setup config
    return .done
  | .caller name transport plain builtin define config => do
    makeCaller exec name transport plain builtin define config
    return .done
  | .server name transport plain setup config => do
    makeServer exec name transport plain setup config
    return .done
  | .registry name setup => do
    let r ← setUp setup
    modify fun w => { w with registries := Table.insert name r w.registries }
    return .done
  | .load on uri => do
    changeRegistry on fun r => r.load uri
    return .done
  | .register on function mapping native => do
    changeRegistry on fun r => r.register function native.function mapping
    return .done
  | .define on id mapping => do
    changeRegistry on fun r => .ok (r.define id mapping, [])
    return .done
  | .unregister on function => do
    changeRegistry on fun r => do return (← r.unregister function, [])
    return .done
  | .function on function probes => do
    return .function ((← registry on).function? function) probes
  | .declaration on function => do
    return .declaration (← attempt ((← registry on).declaration function))
  | .encoding on id probes => do
    return .encoding (← attempt ((← registry on).encoding id)) probes
  | .resolve on type => do
    return .type (← attempt ((← registry on).document.resolve type))
  | .document on => do
    return .document (← registry on).document
  | .wrapper on function mapping defaults name => makeWrapper on function mapping defaults name
  | .call on args types name => callThrough exec on args types name
  | .on call event handler => do
    let (owner, id) ← named call (← get).calls
    registerFor exec owner id event handler
    return .done
  | .state call => do
    let (owner, id) ← named call (← get).calls
    return .callState (← callState owner id)
  | .message on m => do
    hear exec on (.message m)
    return .done
  | .event on e => do
    hear exec on e
    return .done
  | .fail on reason => do
    hear exec on (.failure reason)
    return .done
  | .close on => do
    hear exec on .close
    return .done
  | .config on => do
    let w ← get
    let id ← named on w.peerNames
    return .config (((Table.find? id w.peers).map fun a => a.state.config).getD .default)
  | .clone on name => do
    cloneName on name
    return .done
  | .drop on => do
    return .flag (← dropName on)

end Steps

/-- One step, in which others may run at most `depth` deep. -/
def step : Nat → SessionStep → StateM World (Except Failure SessionAnswer)
  | 0, _ => return .error (.error (.handlerFailed "steps run too deep in one another"))
  | depth + 1, s =>
    let exec (steps : List SessionStep) : StateM World Unit := steps.forM fun t => do
      let answer ← step depth t
      emit (.nested t.verb answer)
    ExceptT.run (carryOut exec s)

/-- How deep steps may run in one another. -/
def maxDepth : Nat := 1000

/-- One step of the session itself. -/
def report (s : SessionStep) : StateM World Report := do
  modify fun w => { w with events := [] }
  let answer ← step maxDepth s
  let w ← get
  return ⟨answer, w.events.reverse, w.active⟩

end World

/-- What a session shows, step by step. -/
def runSession (steps : List SessionStep) : List Report :=
  ((steps.mapM World.report).run World.empty).1

end Parley
