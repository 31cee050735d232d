import Mathlib.Logic.Relation
import Parley.Action

/-!
# Runs of actions

What an endpoint does is told by relations, since the world it asks is free in its answers and may
let endpoints act again before it answers a message, a delivery or a job.

* `Occurrence`, `Node` : what is seen of an endpoint, and an endpoint with what was seen of it.
* `Site` : where a larger system keeps a node.
* `Action.Runs` : an action from one state of the system to another; the environment acts while the
  world answers.
* `Runs.frame` : what an action does is a matter of its site, of its command and of the environment.
* `Runs.local` : seen from its own node an action runs as it does alone, with whatever the
  environment does to that node; `Runs.put` : an action that nothing interrupts runs so at any site.
* `Operation.Runs` and `runs_bind`, `runs_get_bind`, … : what the parts of an operation do.
* `Nested`, `Reaches` : commands that run in one another to any depth, one after the other;
  `Reaches.guarantee` : what every command guarantees, given that the commands inside it do, holds
  of all runs.
-/

namespace Parley

/-- What is seen of an endpoint: a message that goes out, a delivery to the handler of a call, a job
that is run and what comes of it, each in the course of a command; and the end of a command. -/
inductive Occurrence (γ μ κ ι : Type) where
  | sent (during : γ) (message : μ)
  | delivered (during : γ) (call : Nat) (handler : Handler κ) (d : Delivery)
  | invoked (during : γ) (job : ι)
  | returned (during : γ) (job : ι) (outcome : Except String Value)
  | finished (command : γ) (outcome : Except Error (Option Nat))

/-- The command in the course of which something is seen. -/
def Occurrence.during {γ μ κ ι : Type} : Occurrence γ μ κ ι → γ
  | sent c _ => c
  | delivered c _ _ _ => c
  | invoked c _ => c
  | returned c _ _ => c
  | finished c _ => c

/-- An endpoint with what was seen of it so far. -/
structure Node (σ γ μ κ ι : Type) where
  state : σ
  trace : List (Occurrence γ μ κ ι)

namespace Node

variable {σ γ μ κ ι : Type}

/-- An endpoint of which nothing was seen. -/
def start (s : σ) : Node σ γ μ κ ι :=
  ⟨s, []⟩

/-- Sees an occurrence. -/
def note (n : Node σ γ μ κ ι) (o : Occurrence γ μ κ ι) : Node σ γ μ κ ι :=
  { n with trace := n.trace ++ [o] }

/-- Changes the state. -/
def move (n : Node σ γ μ κ ι) (s : σ) : Node σ γ μ κ ι :=
  { n with state := s }

@[simp] theorem trace_note (n : Node σ γ μ κ ι) (o : Occurrence γ μ κ ι) :
    (n.note o).trace = n.trace ++ [o] := rfl

end Node

/-- Where a system keeps a node. -/
structure Site (G N : Type) where
  node : G → N
  put : G → N → G
  node_put : ∀ g n, node (put g n) = n
  put_node : ∀ g, put g (node g) = g
  put_put : ∀ g n n', put (put g n) n' = put g n'

/-- A system that is nothing but a node. -/
def Site.self (N : Type) : Site N N :=
  ⟨id, fun _ n => n, fun _ _ => rfl, fun _ => rfl, fun _ _ _ => rfl⟩

/-- Sees an occurrence at a site. -/
def Site.note {G σ γ μ κ ι : Type} (site : Site G (Node σ γ μ κ ι)) (g : G)
    (o : Occurrence γ μ κ ι) : G :=
  site.put g ((site.node g).note o)

/-! ## Actions -/

section Runs

variable {G σ γ μ κ ι α β : Type}

/-- An action from one state of the system to another. The environment acts after a message went
out, a handler was given something or a job was run, and the answer is any; logging and listening
pass unseen. -/
def Action.Runs (site : Site G (Node σ γ μ κ ι)) (env : G → G → Prop) (during : γ) :
    Action σ μ κ ι α → G → α → G → Prop
  | .done x, g, a, g' => a = x ∧ g' = g
  | .read next, g, a, g' => Runs site env during (next (site.node g).state) g a g'
  | .write s next, g, a, g' => Runs site env during next (site.put g ((site.node g).move s)) a g'
  | .ask (.log _) next, g, a, g' => Runs site env during (next ()) g a g'
  | .ask .listen next, g, a, g' => Runs site env during (next ()) g a g'
  | .ask (.send m) next, g, a, g' => ∃ g₁ taken, env (site.note g (.sent during m)) g₁ ∧
    Runs site env during (next taken) g₁ a g'
  | .ask (.deliver k h d) next, g, a, g' => ∃ g₁ accepted,
    env (site.note g (.delivered during k h d)) g₁ ∧ Runs site env during (next accepted) g₁ a g'
  | .ask (.invoke job) next, g, a, g' => ∃ g₁ outcome, env (site.note g (.invoked during job)) g₁ ∧
    Runs site env during (next outcome) (site.note g₁ (.returned during job outcome)) a g'

/-- What an environment does to one node. -/
def Site.Env (site : Site G (Node σ γ μ κ ι)) (env : G → G → Prop) :
    Node σ γ μ κ ι → Node σ γ μ κ ι → Prop :=
  fun n n' => ∃ g g', env g g' ∧ site.node g = n ∧ site.node g' = n'

namespace Action

theorem Runs.local {site : Site G (Node σ γ μ κ ι)} {env : G → G → Prop} {during : γ}
    {act : Action σ μ κ ι α} {g g' : G} {a : α} (h : act.Runs site env during g a g') :
    act.Runs (Site.self _) (site.Env env) during (site.node g) a (site.node g') := by
  induction act generalizing g with
  | done x => exact ⟨h.1, congrArg site.node h.2⟩
  | read next ih => exact ih _ h
  | write s next ih =>
    have h' := ih h
    rwa [site.node_put] at h'
  | ask r next ih =>
    have hnote (g : G) (o : Occurrence γ μ κ ι) :
        site.node (site.note g o) = (site.node g).note o :=
      site.node_put g _
    cases r with
    | log record => exact ih () h
    | listen => exact ih () h
    | send m =>
      obtain ⟨g₁, taken, he, h⟩ := h
      exact ⟨site.node g₁, taken, ⟨_, g₁, he, hnote g _, rfl⟩, ih taken h⟩
    | deliver k hd d =>
      obtain ⟨g₁, accepted, he, h⟩ := h
      exact ⟨site.node g₁, accepted, ⟨_, g₁, he, hnote g _, rfl⟩, ih accepted h⟩
    | invoke job =>
      obtain ⟨g₁, outcome, he, h⟩ := h
      have h' := ih outcome h
      rw [hnote] at h'
      exact ⟨site.node g₁, outcome, ⟨_, g₁, he, hnote g _, rfl⟩, h'⟩

/-- An action that nothing interrupts runs at a site as it does alone from the node there. -/
theorem Runs.put {site : Site G (Node σ γ μ κ ι)} {env : G → G → Prop} {during : γ}
    {act : Action σ μ κ ι α} {g : G} {n n' : Node σ γ μ κ ι} {a : α} (hrefl : ∀ g, env g g)
    (h : act.Runs (Site.self _) Eq during n a n') :
    act.Runs site env during (site.put g n) a (site.put g n') := by
  induction act generalizing n with
  | done x => exact ⟨h.1, congrArg (site.put g) h.2⟩
  | read next ih =>
    show (next (site.node (site.put g n)).state).Runs site env during _ a _
    rw [site.node_put]
    exact ih n.state h
  | write s next ih =>
    show next.Runs site env during (site.put (site.put g n) _) a _
    rw [site.node_put, site.put_put]
    exact ih h
  | ask r next ih =>
    have hnote (n : Node σ γ μ κ ι) (o : Occurrence γ μ κ ι) :
        site.note (site.put g n) o = site.put g (n.note o) := by
      rw [Site.note, site.node_put, site.put_put]
    cases r with
    | log record => exact ih () h
    | listen => exact ih () h
    | send m =>
      obtain ⟨_, taken, rfl, h⟩ := h
      exact ⟨_, taken, hrefl _, hnote n _ ▸ ih taken h⟩
    | deliver k hd d =>
      obtain ⟨_, accepted, rfl, h⟩ := h
      exact ⟨_, accepted, hrefl _, hnote n _ ▸ ih accepted h⟩
    | invoke job =>
      obtain ⟨_, outcome, rfl, h⟩ := h
      refine ⟨_, outcome, hrefl _, ?_⟩
      rw [hnote, hnote]
      exact ih outcome h

/-- By itself an action changes only the state at its site. -/
theorem Runs.frame {site : Site G (Node σ γ μ κ ι)} {env : G → G → Prop} {during : γ}
    {act : Action σ μ κ ι α} {g g' : G} {a : α} {R : G → G → Prop} (hrefl : ∀ g, R g g)
    (htrans : ∀ {g₁ g₂ g₃}, R g₁ g₂ → R g₂ g₃ → R g₁ g₃)
    (hmove : ∀ g s, R g (site.put g ((site.node g).move s)))
    (hnote : ∀ g (o : Occurrence γ μ κ ι), o.during = during → R g (site.note g o))
    (henv : ∀ {g g'}, env g g' → R g g') (h : act.Runs site env during g a g') : R g g' := by
  induction act generalizing g with
  | done x => exact h.2 ▸ hrefl g
  | read next ih => exact ih _ h
  | write s next ih => exact htrans (hmove g s) (ih h)
  | ask r next ih =>
    cases r with
    | log record => exact ih () h
    | listen => exact ih () h
    | send m =>
      obtain ⟨g₁, taken, he, h⟩ := h
      exact htrans (hnote g _ rfl) (htrans (henv he) (ih taken h))
    | deliver k hd d =>
      obtain ⟨g₁, accepted, he, h⟩ := h
      exact htrans (hnote g _ rfl) (htrans (henv he) (ih accepted h))
    | invoke job =>
      obtain ⟨g₁, outcome, he, h⟩ := h
      exact htrans (hnote g _ rfl) (htrans (henv he) (htrans (hnote g₁ _ rfl) (ih outcome h)))

/-- Every action runs to its end if the environment always lets it go on. -/
theorem exists_runs (site : Site G (Node σ γ μ κ ι)) {env : G → G → Prop}
    (henv : ∀ g, ∃ g', env g g') (during : γ) (act : Action σ μ κ ι α) (g : G) :
    ∃ a g', act.Runs site env during g a g' := by
  induction act generalizing g with
  | done x => exact ⟨x, g, rfl, rfl⟩
  | read next ih => exact ih _ g
  | write s next ih => exact ih _
  | ask r next ih =>
    cases r with
    | log record => exact ih () g
    | listen => exact ih () g
    | send m =>
      obtain ⟨g₁, he⟩ := henv (site.note g (.sent during m))
      obtain ⟨a, g', h⟩ := ih true g₁
      exact ⟨a, g', g₁, true, he, h⟩
    | deliver k h d =>
      obtain ⟨g₁, he⟩ := henv (site.note g (.delivered during k h d))
      obtain ⟨a, g', h⟩ := ih (.ok ()) g₁
      exact ⟨a, g', g₁, .ok (), he, h⟩
    | invoke job =>
      obtain ⟨g₁, he⟩ := henv (site.note g (.invoked during job))
      obtain ⟨a, g', h⟩ := ih (.error "") (site.note g₁ (.returned during job (.error "")))
      exact ⟨a, g', g₁, .error "", he, h⟩

theorem runs_andThen {site : Site G (Node σ γ μ κ ι)} {env : G → G → Prop} {during : γ}
    {act : Action σ μ κ ι α} {f : α → Action σ μ κ ι β} {g g' : G} {b : β} :
    (act.andThen f).Runs site env during g b g' ↔
      ∃ a g₁, act.Runs site env during g a g₁ ∧ (f a).Runs site env during g₁ b g' := by
  induction act generalizing g with
  | done x =>
    constructor
    · intro h
      exact ⟨x, g, ⟨rfl, rfl⟩, h⟩
    · rintro ⟨_, _, ⟨rfl, rfl⟩, h⟩
      exact h
  | read next ih => exact ih _
  | write s next ih => exact ih
  | ask r next ih =>
    cases r with
    | log record => exact ih ()
    | listen => exact ih ()
    | send m =>
      constructor
      · rintro ⟨g₁, taken, he, h⟩
        obtain ⟨a, g₂, h₁, h₂⟩ := (ih taken).1 h
        exact ⟨a, g₂, ⟨g₁, taken, he, h₁⟩, h₂⟩
      · rintro ⟨a, g₂, ⟨g₁, taken, he, h₁⟩, h₂⟩
        exact ⟨g₁, taken, he, (ih taken).2 ⟨a, g₂, h₁, h₂⟩⟩
    | deliver k hd d =>
      constructor
      · rintro ⟨g₁, accepted, he, h⟩
        obtain ⟨a, g₂, h₁, h₂⟩ := (ih accepted).1 h
        exact ⟨a, g₂, ⟨g₁, accepted, he, h₁⟩, h₂⟩
      · rintro ⟨a, g₂, ⟨g₁, accepted, he, h₁⟩, h₂⟩
        exact ⟨g₁, accepted, he, (ih accepted).2 ⟨a, g₂, h₁, h₂⟩⟩
    | invoke job =>
      constructor
      · rintro ⟨g₁, outcome, he, h⟩
        obtain ⟨a, g₂, h₁, h₂⟩ := (ih outcome).1 h
        exact ⟨a, g₂, ⟨g₁, outcome, he, h₁⟩, h₂⟩
      · rintro ⟨a, g₂, ⟨g₁, outcome, he, h₁⟩, h₂⟩
        exact ⟨g₁, outcome, he, (ih outcome).2 ⟨a, g₂, h₁, h₂⟩⟩

end Action

/-! ## Operations -/

/-- An operation of an endpoint by itself, with its outcome. -/
def Operation.Runs (env : Node σ γ μ κ ι → Node σ γ μ κ ι → Prop) (during : γ)
    (op : Operation σ μ κ ι α) (n : Node σ γ μ κ ι) (r : Except Error α) (n' : Node σ γ μ κ ι) :
    Prop :=
  op.outcome.Runs (Site.self _) env during n r n'

namespace Operation

variable {env : Node σ γ μ κ ι → Node σ γ μ κ ι → Prop} {during : γ} {n n' : Node σ γ μ κ ι}

/-! ### Single steps -/

theorem runs_bind {op : Operation σ μ κ ι α} {f : α → Operation σ μ κ ι β} {r : Except Error β} :
    Runs env during (op >>= f) n r n' ↔
      (∃ e, Runs env during op n (.error e) n' ∧ r = .error e) ∨
        ∃ a n₁, Runs env during op n (.ok a) n₁ ∧ Runs env during (f a) n₁ r n' := by
  unfold Runs
  rw [show (op >>= f).outcome = op.outcome.andThen fun x => ExceptT.bindCont f x from rfl,
    Action.runs_andThen]
  constructor
  · rintro ⟨x, n₁, h, h'⟩
    cases x with
    | error e =>
      obtain ⟨rfl, rfl⟩ := h'
      exact Or.inl ⟨e, h, rfl⟩
    | ok a => exact Or.inr ⟨a, n₁, h, h'⟩
  · rintro (⟨e, h, rfl⟩ | ⟨a, n₁, h, h'⟩)
    · exact ⟨.error e, n', h, rfl, rfl⟩
    · exact ⟨.ok a, n₁, h, h'⟩

/-! ### Steps in front of others -/

section Front

variable {f : α → Operation σ μ κ ι β} {r : Except Error β}

@[simp] theorem runs_pure_bind {a : α} :
    Runs env during (pure a >>= f) n r n' ↔ Runs env during (f a) n r n' := Iff.rfl

@[simp] theorem runs_lift_ok_bind {a : α} :
    Runs env during (liftM (.ok a : Except Error α) >>= f) n r n' ↔
      Runs env during (f a) n r n' := Iff.rfl

@[simp] theorem runs_lift_error_bind {e : Error} :
    Runs env during (liftM (.error e : Except Error α) >>= f) n r n' ↔
      r = .error e ∧ n' = n := Iff.rfl

@[simp] theorem runs_get_bind {f : σ → Operation σ μ κ ι β} :
    Runs env during (get >>= f) n r n' ↔ Runs env during (f n.state) n r n' := Iff.rfl

@[simp] theorem runs_log_bind {level : LogLevel} {message : String}
    {fields : List (String × LogValue)} {f : Unit → Operation σ μ κ ι β} :
    Runs env during (log level message fields >>= f) n r n' ↔ Runs env during (f ()) n r n' :=
  Iff.rfl

theorem runs_ite_log_bind {p : Prop} [Decidable p] {level : LogLevel} {message : String}
    {fields : List (String × LogValue)} {a : Operation σ μ κ ι β} :
    Runs env during (if p then log level message fields >>= fun _ => a else a) n r n' ↔
      Runs env during a n r n' := by
  split
  · exact Iff.rfl
  · exact Iff.rfl

theorem runs_send_bind {m : μ} {f : Bool → Operation σ μ κ ι β} :
    Runs env during (send m >>= f) n r n' ↔
      ∃ n₁ taken, env (n.note (.sent during m)) n₁ ∧ Runs env during (f taken) n₁ r n' := Iff.rfl

theorem runs_deliver_bind {k : Nat} {h : Handler κ} {d : Delivery}
    {f : Except Error Unit → Operation σ μ κ ι β} :
    Runs env during (deliver k h d >>= f) n r n' ↔ ∃ n₁ accepted,
      env (n.note (.delivered during k h d)) n₁ ∧ Runs env during (f accepted) n₁ r n' := Iff.rfl

theorem runs_invoke_bind {job : ι} {f : Except String Value → Operation σ μ κ ι β} :
    Runs env during (invoke job >>= f) n r n' ↔ ∃ n₁ outcome,
      env (n.note (.invoked during job)) n₁ ∧
        Runs env during (f outcome) (n₁.note (.returned during job outcome)) r n' := Iff.rfl

end Front

theorem runs_outcome_bind {op : Operation σ μ κ ι α} {f : Except Error α → Operation σ μ κ ι β}
    {r : Except Error β} :
    Runs env during (ExceptT.lift op.outcome >>= f) n r n' ↔
      ∃ x n₁, Runs env during op n x n₁ ∧ Runs env during (f x) n₁ r n' := by
  rw [runs_bind]
  unfold Runs
  rw [show outcome (ExceptT.lift op.outcome) = op.outcome.andThen fun x => Action.done (.ok x)
    from rfl]
  simp only [Action.runs_andThen]
  constructor
  · rintro (⟨e, ⟨_, _, _, h, -⟩, -⟩ | ⟨x, n₁, ⟨_, _, h, hx, rfl⟩, h'⟩)
    · cases h
    · cases hx
      exact ⟨x, n₁, h, h'⟩
  · rintro ⟨x, n₁, h, h'⟩
    exact Or.inr ⟨x, n₁, ⟨x, n₁, h, rfl, rfl⟩, h'⟩

end Operation

end Runs

/-! ## Commands in one another -/

section Nested

variable {G : Type}

/-- A command, with others inside it to the given depth. `Acts env` says what one command does in
an environment. -/
def Nested (Acts : (G → G → Prop) → G → G → Prop) : Nat → G → G → Prop
  | 0 => fun _ _ => False
  | depth + 1 => Acts (Relation.ReflTransGen (Nested Acts depth))

/-- Commands one after the other, with others inside them to any depth. -/
def Reaches (Acts : (G → G → Prop) → G → G → Prop) : G → G → Prop :=
  Relation.ReflTransGen fun g g' => ∃ depth, Nested Acts depth g g'

variable {Acts : (G → G → Prop) → G → G → Prop} {R : G → G → Prop}

theorem guarantee_of_reflTransGen {step : G → G → Prop} (hrefl : ∀ g, R g g)
    (htrans : ∀ {g₁ g₂ g₃}, R g₁ g₂ → R g₂ g₃ → R g₁ g₃) (hstep : ∀ {g g'}, step g g' → R g g')
    {g g' : G} (h : Relation.ReflTransGen step g g') : R g g' := by
  induction h with
  | refl => exact hrefl g
  | tail _ hs ih => exact htrans ih (hstep hs)

/-- What a command guarantees in any environment that guarantees it, commands in one another
guarantee. -/
theorem Nested.guarantee (hrefl : ∀ g, R g g)
    (htrans : ∀ {g₁ g₂ g₃}, R g₁ g₂ → R g₂ g₃ → R g₁ g₃)
    (hacts : ∀ {env : G → G → Prop}, (∀ {g g'}, env g g' → R g g') →
      ∀ {g g'}, Acts env g g' → R g g')
    {depth : Nat} {g g' : G} (h : Nested Acts depth g g') : R g g' := by
  induction depth generalizing g g' with
  | zero => exact h.elim
  | succ depth ih => exact hacts (guarantee_of_reflTransGen hrefl htrans ih) h

/-- What a command guarantees in any environment that guarantees it, every run guarantees. -/
theorem Reaches.guarantee (hrefl : ∀ g, R g g)
    (htrans : ∀ {g₁ g₂ g₃}, R g₁ g₂ → R g₂ g₃ → R g₁ g₃)
    (hacts : ∀ {env : G → G → Prop}, (∀ {g g'}, env g g' → R g g') →
      ∀ {g g'}, Acts env g g' → R g g')
    {g g' : G} (h : Reaches Acts g g') : R g g' :=
  guarantee_of_reflTransGen hrefl htrans (fun ⟨_, hn⟩ => Nested.guarantee hrefl htrans hacts hn) h

end Nested

end Parley
