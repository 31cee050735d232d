import Parley.Connection.Caller
import Parley.Connection.Peer
import Parley.Connection.Server
import Parley.Proofs.Runs

/-!
# Commands to endpoints

All that can be done to an endpoint once it listens: its wrappers are called, handlers are
registered for its calls, and its transport hands it messages or tells it that the connection is
gone.

* `Command`, `ServerCommand` : the commands to endpoints that call and to those that only serve.
* `Peer.perform`, `Caller.perform`, `Server.perform` : what carries them out.
* `Site.Acts` : one command at a site, seen to its end; `Site.Acts.of_runs` : one that nothing
  interrupts.
* `Guarantees` : what every command does that is seen to its end, if the environment does.
-/

namespace Parley

/-- What is done to an endpoint that calls. -/
inductive Command (κ μ : Type) where
  | call (w : Wrapper κ) (args : List Value)
  | on (id : Nat) (event : String) (h : Handler κ)
  | receive (message : μ)
  | close
  | fail (reason : String)

/-- What is done to an endpoint that only serves. -/
inductive ServerCommand (μ : Type) where
  | receive (message : μ)
  | close
  | fail (reason : String)

variable {κ ι : Type}

/-- Carries out a command to a peer; yields the identifier of a call that is handed out. -/
def Peer.perform : Command κ String → Peer.Op κ ι (Option Nat)
  | .call w args => Peer.call w args
  | .on id event h => do
    Endpoint.register id event h
    return none
  | .receive message => do
    Peer.receive message
    return none
  | .close => do
    Peer.close
    return none
  | .fail reason => do
    Peer.fail reason
    return none

/-- Carries out a command to a caller; yields the identifier of a call that is handed out. -/
def Caller.perform : Command κ (List UInt8) → Caller.Op κ ι (Option Nat)
  | .call w args => Caller.call w args
  | .on id event h => do
    Endpoint.register id event h
    return none
  | .receive frame => do
    Caller.receive frame
    return none
  | .close => do
    Caller.close
    return none
  | .fail reason => do
    Caller.fail reason
    return none

/-- Carries out a command to a server. -/
def Server.perform : ServerCommand (List UInt8) → Server.Op κ ι (Option Nat)
  | .receive frame => do
    Server.receive frame
    return none
  | .close => do
    Server.close
    return none
  | .fail reason => do
    Server.fail reason
    return none

/-- One command at a site: one that is allowed there is carried out and seen to end, and the
environment acts while the world answers. -/
def Site.Acts {G σ γ μ : Type} (site : Site G (Node σ γ μ κ ι))
    (perform : γ → Operation σ μ κ ι (Option Nat)) (allowed : G → γ → Prop)
    (env : G → G → Prop) (g g' : G) : Prop :=
  ∃ c r g₁, allowed g c ∧ (perform c).outcome.Runs site env c g r g₁ ∧
    g' = site.note g₁ (.finished c r)

/-- Seen from its own node a command runs as it does alone. -/
theorem Site.Acts.local {G σ γ μ : Type} {site : Site G (Node σ γ μ κ ι)}
    {perform : γ → Operation σ μ κ ι (Option Nat)} {allowed : G → γ → Prop}
    {env : G → G → Prop} {g g' : G} (h : site.Acts perform allowed env g g') :
    ∃ c r n₁, allowed g c ∧ (perform c).Runs (site.Env env) c (site.node g) r n₁ ∧
      site.node g' = n₁.note (.finished c r) := by
  obtain ⟨c, r, g₁, ha, hr, rfl⟩ := h
  exact ⟨c, r, site.node g₁, ha, hr.local, site.node_put g₁ _⟩

theorem Site.Acts.of_runs {G σ γ μ : Type} {site : Site G (Node σ γ μ κ ι)}
    {perform : γ → Operation σ μ κ ι (Option Nat)} {allowed : G → γ → Prop} {g : G} {c : γ}
    {r : Except Error (Option Nat)} {n : Node σ γ μ κ ι} (ha : allowed g c)
    (h : (perform c).Runs Eq c (site.node g) r n) {env : G → G → Prop} (henv : ∀ g, env g g) :
    site.Acts perform allowed env g (site.put g (n.note (.finished c r))) := by
  have hrun : (perform c).outcome.Runs site env c (site.put g (site.node g)) r (site.put g n) :=
    h.put henv
  rw [site.put_node] at hrun
  refine ⟨c, r, site.put g n, ha, hrun, ?_⟩
  rw [Site.note, site.node_put, site.put_put]

/-- A command, too, does by itself nothing but change the state at its site, and there is seen what
is seen in its course. -/
theorem Site.Acts.frame {G σ γ μ : Type} {site : Site G (Node σ γ μ κ ι)}
    {perform : γ → Operation σ μ κ ι (Option Nat)} {allowed : G → γ → Prop}
    {env : G → G → Prop} {g g' : G} {R : G → G → Prop} (hrefl : ∀ g, R g g)
    (htrans : ∀ {g₁ g₂ g₃}, R g₁ g₂ → R g₂ g₃ → R g₁ g₃)
    (hmove : ∀ g s, R g (site.put g ((site.node g).move s)))
    (hnote : ∀ c, allowed g c → ∀ g₁ (o : Occurrence γ μ κ ι), o.during = c →
      R g₁ (site.note g₁ o))
    (henv : ∀ {g g'}, env g g' → R g g') (h : site.Acts perform allowed env g g') : R g g' := by
  obtain ⟨c, r, g₁, ha, hr, rfl⟩ := h
  exact htrans (hr.frame hrefl htrans hmove (hnote c ha) henv) (hnote c ha g₁ _ rfl)

/-- One command to a peer by itself. -/
def Peer.Acts : (Node (Peer κ ι) (Command κ String) String κ ι →
      Node (Peer κ ι) (Command κ String) String κ ι → Prop) →
    Node (Peer κ ι) (Command κ String) String κ ι →
      Node (Peer κ ι) (Command κ String) String κ ι → Prop :=
  (Site.self _).Acts Peer.perform fun _ _ => True

/-- One command to a caller by itself. -/
def Caller.Acts : (Node (Caller κ) (Command κ (List UInt8)) (List UInt8) κ ι →
      Node (Caller κ) (Command κ (List UInt8)) (List UInt8) κ ι → Prop) →
    Node (Caller κ) (Command κ (List UInt8)) (List UInt8) κ ι →
      Node (Caller κ) (Command κ (List UInt8)) (List UInt8) κ ι → Prop :=
  (Site.self _).Acts Caller.perform fun _ _ => True

/-- Every command, seen to its end, does what `R` allows, if the environment does. -/
def Guarantees {σ γ μ : Type} (perform : γ → Operation σ μ κ ι (Option Nat))
    (R : Node σ γ μ κ ι → Node σ γ μ κ ι → Prop) : Prop :=
  ∀ {env : Node σ γ μ κ ι → Node σ γ μ κ ι → Prop}, (∀ {n n'}, env n n' → R n n') →
    ∀ {c n r n'}, (perform c).Runs env c n r n' → R n (n'.note (.finished c r))

theorem Guarantees.acts {G σ γ μ : Type} {site : Site G (Node σ γ μ κ ι)}
    {perform : γ → Operation σ μ κ ι (Option Nat)} {allowed : G → γ → Prop}
    {R : Node σ γ μ κ ι → Node σ γ μ κ ι → Prop} (hR : Guarantees perform R)
    {env : G → G → Prop} (henv : ∀ {g g'}, env g g' → R (site.node g) (site.node g')) {g g' : G}
    (h : site.Acts perform allowed env g g') : R (site.node g) (site.node g') := by
  obtain ⟨c, r, n₁, -, hr, hn⟩ := h.local
  rw [hn]
  refine hR ?_ hr
  rintro n n' ⟨g, g', he, rfl, rfl⟩
  exact henv he

end Parley
