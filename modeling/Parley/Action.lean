import Parley.Call.Basic
import Parley.Log

/-!
# Actions of an endpoint

What an endpoint does is a finite tree of steps: it reads and writes its state and makes requests of
the world around it, each answered before it goes on. While the world answers it may let the same
endpoint act again, so state is read anew after a request.

* `Request`, `Request.Reply` : what an endpoint asks of the world, and the answers.
* `Action` : the trees, a monad.
* `Operation` : actions that may fail.
-/

namespace Parley

/-- What an endpoint asks of the world: messages `μ` go out, the targets `κ` of handlers are notified
of what becomes of a call, and jobs `ι` are run. -/
inductive Request (μ κ ι : Type) where
  | log (record : LogRecord)
  | listen
  | send (message : μ)
  | deliver (call : Nat) (handler : Handler κ) (d : Delivery)
  | invoke (job : ι)

/-- The answer to a request: whether a message was taken, whether a target accepts what it was
given, the result of a job or the message of its exception. -/
@[reducible] def Request.Reply {μ κ ι : Type} : Request μ κ ι → Type
  | log _ => Unit
  | listen => Unit
  | send _ => Bool
  | deliver .. => Except Error Unit
  | invoke _ => Except String Value

/-- What an endpoint with state `σ` does. -/
inductive Action (σ μ κ ι α : Type) where
  | done (a : α)
  | read (next : σ → Action σ μ κ ι α)
  | write (s : σ) (next : Action σ μ κ ι α)
  | ask (r : Request μ κ ι) (next : r.Reply → Action σ μ κ ι α)

namespace Action

variable {σ μ κ ι α β : Type}

/-- Goes on with what was done. -/
def andThen : Action σ μ κ ι α → (α → Action σ μ κ ι β) → Action σ μ κ ι β
  | done a, f => f a
  | read next, f => read fun s => (next s).andThen f
  | write s next, f => write s (next.andThen f)
  | ask r next, f => ask r fun x => (next x).andThen f

instance : Monad (Action σ μ κ ι) where
  pure := done
  bind := andThen

instance : MonadStateOf σ (Action σ μ κ ι) where
  get := read done
  set s := write s (done ())
  modifyGet f := read fun s => write (f s).2 (done (f s).1)

/-- Makes a request. -/
def request (r : Request μ κ ι) : Action σ μ κ ι r.Reply :=
  ask r done

end Action

/-- An action that may fail; what it did before stays done. -/
abbrev Operation (σ μ κ ι : Type) := ExceptT Error (Action σ μ κ ι)

namespace Operation

variable {σ μ κ ι α : Type}

/-- Yields what a computation yields or fails with its error. -/
def ofExcept (x : Except Error α) : Operation σ μ κ ι α :=
  Action.done x

instance : MonadLift (Except Error) (Operation σ μ κ ι) := ⟨ofExcept⟩

/-- Runs an operation to its outcome. -/
def outcome (op : Operation σ μ κ ι α) : Action σ μ κ ι (Except Error α) :=
  ExceptT.run op

/-- Writes to the log. -/
def log (level : LogLevel) (message : String) (fields : List (String × LogValue)) :
    Operation σ μ κ ι Unit :=
  ExceptT.lift (Action.request (.log ⟨level, message, fields⟩))

/-- Has the transport listen. -/
def listen : Operation σ μ κ ι Unit :=
  ExceptT.lift (Action.request .listen)

/-- Sends a message; yields whether the transport took it. -/
def send (message : μ) : Operation σ μ κ ι Bool :=
  ExceptT.lift (Action.request (.send message))

/-- Notifies the target of a handler of a call; yields whether it accepts. -/
def deliver (call : Nat) (h : Handler κ) (d : Delivery) : Operation σ μ κ ι (Except Error Unit) :=
  ExceptT.lift (Action.request (.deliver call h d))

/-- Has a job run. -/
def invoke (job : ι) : Operation σ μ κ ι (Except String Value) :=
  ExceptT.lift (Action.request (.invoke job))

end Operation

end Parley
