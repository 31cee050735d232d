import Parley.Connection.Caller
import Parley.Connection.Peer
import Parley.Connection.Server
import Parley.Script.Natives

/-!
# Steps of scripted sessions

A session is a list of steps over named endpoints, registries, wrappers and calls. Handlers, native
functions and transports may carry steps of their own, which run when they are used.

* `Target`, `ScriptedNative`, `Transport` : what carries steps.
* `Setup` : what a registry starts with.
* `SessionStep` : the steps.
-/

namespace Parley

/-- Notes what it is given, runs its steps and then, if it is told to, refuses. -/
structure Target (s : Type) where
  label : String
  steps : List s
  refusal : Option String

/-- What a scripted native function does in the end. -/
inductive Ending where
  | exception (message : String)
  | argument (index : Nat)
  | value (v : Value)

/-- A native function that notes its arguments, runs its steps and ends as told; or one that cannot
read any arguments. -/
structure ScriptedNative (s : Type) where
  domain : List Ty
  range : Ty
  label : String
  steps : List s
  ending : Ending
  rejects : Bool

/-- A native function of a session. -/
inductive NativeSpec (s : Type) where
  | sample (n : Sample)
  | scripted (n : ScriptedNative s)

/-- A transport that notes what is sent; the n-th list of steps runs during the n-th send. -/
structure Transport (s : Type) where
  duringSend : List (List s)
  refuses : Bool
  reliable : Bool

/-- What a registry starts with: documents to load from, those to load, mappings and functions. -/
structure Setup (s : Type) where
  documents : List (String × Document)
  builtin : Bool
  load : List String
  define : List (String × TypeMapping)
  register : List (String × String × NativeSpec s)

/-- What comes in at an endpoint: a given text, or what another endpoint sent. -/
inductive Incoming where
  | given (text : String)
  | sent (source : String) (index : Nat)

/-- What a transport tells its endpoint. -/
inductive TransportEvent where
  | message (m : Incoming)
  | close
  | failure (reason : String)

/-- The keys and numbers that an encoding's enumerations are asked for when it is shown. -/
structure Probes where
  keys : List String
  numbers : List Int

/-- One step of a session. -/
inductive SessionStep where
  | peer (name : String) (transport : Transport SessionStep) (plain : Bool)
      (setup : Setup SessionStep) (config : Except Error Config)
  | caller (name : String) (transport : Transport SessionStep) (plain : Bool) (builtin : Bool)
      (define : List (String × TypeMapping)) (config : Except Error Config)
  | server (name : String) (transport : Transport SessionStep) (plain : Bool)
      (setup : Setup SessionStep) (config : Except Error Config)
  | registry (name : String) (setup : Setup SessionStep)
  | load (on uri : String)
  | register (on function mapping : String) (native : NativeSpec SessionStep)
  | define (on id : String) (mapping : TypeMapping)
  | unregister (on function : String)
  | function (on function : String) (probes : Probes)
  | declaration (on function : String)
  | encoding (on id : String) (probes : Probes)
  | resolve (on type : String)
  | document (on : String)
  | wrapper (on function mapping : String) (defaults : List (Handler (Target SessionStep)))
      (name : String)
  | call (on : String) (args : List Value) (types : Option (List Ty)) (name : Option String)
  | on (call event : String) (handler : Handler (Target SessionStep))
  | state (call : String)
  | message (on : String) (m : Incoming)
  | event (on : String) (e : TransportEvent)
  | fail (on reason : String)
  | close (on : String)
  | config (on : String)
  | clone (on name : String)
  | drop (on : String)

/-- The word a step goes by. -/
def SessionStep.verb : SessionStep → String
  | peer .. => "json"
  | caller .. => "client"
  | server .. => "server"
  | registry .. => "mapping"
  | load .. => "load_idl"
  | register .. => "register"
  | define .. => "define"
  | unregister .. => "unregister"
  | function .. => "function"
  | declaration .. => "declaration"
  | encoding .. => "encoding"
  | resolve .. => "resolve"
  | document .. => "idl"
  | wrapper .. => "wrapper"
  | call .. => "call"
  | on .. => "on"
  | state .. => "state"
  | message .. => "message"
  | event .. => "event"
  | fail .. => "fail"
  | close .. => "close"
  | config .. => "config"
  | clone .. => "clone"
  | drop .. => "drop"

/-- What the native functions of a session are asked to do. -/
inductive Job where
  | answer (outcome : Except String Value)
  | script (n : ScriptedNative SessionStep) (args : List Value)

/-- The targets of a session's handlers. -/
abbrev SessionTarget := Target SessionStep

/-- A native function of a session as one that can be registered. -/
def NativeSpec.function : NativeSpec SessionStep → NativeFunction Job
  | .sample n => .ofData n.domain n.range fun args => .answer (n.answer args)
  | .scripted n =>
    ⟨n.domain, n.range, fun args =>
      if n.rejects then .error (.unsuited (args.headD .nil) .nil) else .ok (.script n args)⟩

end Parley
