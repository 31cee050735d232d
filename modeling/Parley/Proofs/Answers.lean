import Parley.Proofs.Endpoints

/-!
# What targets answer

A target may refuse what it is given. `Action.Runs` leaves its answer open; here the answers of the
targets are told, in the order in which they are given something, so that it can be said what an
operation makes of them.

* `Action.Hears` : an action runs and hears these answers; `Action.runs_iff_hears`.
* `Operation.Hears` and `hears_bind`, `hears_deliver_bind`, … : what the parts of an operation hear.
* `firstRefusal` : the first answer that refuses.
* `hears_resolve`, `hears_explain`, `hears_deliverAll`, `hears_fail` : what the ends of a call are
  made of.
-/

namespace Parley

section Hears

variable {σ γ μ κ ι α β : Type} {env : Node σ γ μ κ ι → Node σ γ μ κ ι → Prop} {during : γ}
  {n n' : Node σ γ μ κ ι} {answers : List (Except Error Unit)}

/-- An action of an endpoint by itself, which hears the answers of the targets one after the
other. -/
def Action.Hears (env : Node σ γ μ κ ι → Node σ γ μ κ ι → Prop) (during : γ) :
    Action σ μ κ ι α → Node σ γ μ κ ι → List (Except Error Unit) → α → Node σ γ μ κ ι → Prop
  | .done x, n, answers, a, n' => answers = [] ∧ a = x ∧ n' = n
  | .read next, n, answers, a, n' => Hears env during (next n.state) n answers a n'
  | .write s next, n, answers, a, n' => Hears env during next (n.move s) answers a n'
  | .ask (.log _) next, n, answers, a, n' => Hears env during (next ()) n answers a n'
  | .ask .listen next, n, answers, a, n' => Hears env during (next ()) n answers a n'
  | .ask (.send m) next, n, answers, a, n' => ∃ n₁ taken, env (n.note (.sent during m)) n₁ ∧
    Hears env during (next taken) n₁ answers a n'
  | .ask (.deliver k h d) next, n, answers, a, n' => ∃ n₁ answer rest, answers = answer :: rest ∧
    env (n.note (.delivered during k h d)) n₁ ∧ Hears env during (next answer) n₁ rest a n'
  | .ask (.invoke job) next, n, answers, a, n' => ∃ n₁ outcome,
    env (n.note (.invoked during job)) n₁ ∧
      Hears env during (next outcome) (n₁.note (.returned during job outcome)) answers a n'

theorem Action.runs_iff_hears {act : Action σ μ κ ι α} {a : α} :
    act.Runs (Site.self _) env during n a n' ↔ ∃ answers, act.Hears env during n answers a n' := by
  induction act generalizing n with
  | done x =>
    constructor
    · exact fun h => ⟨[], rfl, h⟩
    · exact fun ⟨_, _, h⟩ => h
  | read next ih => exact ih n.state
  | write s next ih => exact ih
  | ask r next ih =>
    cases r with
    | log record => exact ih ()
    | listen => exact ih ()
    | send m =>
      constructor
      · rintro ⟨n₁, taken, he, h⟩
        obtain ⟨answers, h⟩ := (ih taken).1 h
        exact ⟨answers, n₁, taken, he, h⟩
      · rintro ⟨answers, n₁, taken, he, h⟩
        exact ⟨n₁, taken, he, (ih taken).2 ⟨answers, h⟩⟩
    | deliver k hd d =>
      constructor
      · rintro ⟨n₁, answer, he, h⟩
        obtain ⟨rest, h⟩ := (ih answer).1 h
        exact ⟨answer :: rest, n₁, answer, rest, rfl, he, h⟩
      · rintro ⟨_, n₁, answer, rest, -, he, h⟩
        exact ⟨n₁, answer, he, (ih answer).2 ⟨rest, h⟩⟩
    | invoke job =>
      constructor
      · rintro ⟨n₁, outcome, he, h⟩
        obtain ⟨answers, h⟩ := (ih outcome).1 h
        exact ⟨answers, n₁, outcome, he, h⟩
      · rintro ⟨answers, n₁, outcome, he, h⟩
        exact ⟨n₁, outcome, he, (ih outcome).2 ⟨answers, h⟩⟩

theorem Action.hears_andThen {act : Action σ μ κ ι α} {f : α → Action σ μ κ ι β} {b : β} :
    (act.andThen f).Hears env during n answers b n' ↔
      ∃ first a n₁ rest, answers = first ++ rest ∧ act.Hears env during n first a n₁ ∧
        (f a).Hears env during n₁ rest b n' := by
  induction act generalizing n answers with
  | done x =>
    constructor
    · exact fun h => ⟨[], x, n, answers, rfl, ⟨rfl, rfl, rfl⟩, h⟩
    · rintro ⟨_, _, _, rest, rfl, ⟨rfl, rfl, rfl⟩, h⟩
      exact h
  | read next ih => exact ih n.state
  | write s next ih => exact ih
  | ask r next ih =>
    cases r with
    | log record => exact ih ()
    | listen => exact ih ()
    | send m =>
      constructor
      · rintro ⟨n₁, taken, he, h⟩
        obtain ⟨first, a, n₂, rest, rfl, h₁, h₂⟩ := (ih taken).1 h
        exact ⟨first, a, n₂, rest, rfl, ⟨n₁, taken, he, h₁⟩, h₂⟩
      · rintro ⟨first, a, n₂, rest, rfl, ⟨n₁, taken, he, h₁⟩, h₂⟩
        exact ⟨n₁, taken, he, (ih taken).2 ⟨first, a, n₂, rest, rfl, h₁, h₂⟩⟩
    | deliver k hd d =>
      constructor
      · rintro ⟨n₁, answer, others, rfl, he, h⟩
        obtain ⟨first, a, n₂, rest, rfl, h₁, h₂⟩ := (ih answer).1 h
        exact ⟨answer :: first, a, n₂, rest, rfl, ⟨n₁, answer, first, rfl, he, h₁⟩, h₂⟩
      · rintro ⟨_, a, n₂, rest, rfl, ⟨n₁, answer, first, rfl, he, h₁⟩, h₂⟩
        exact ⟨n₁, answer, first ++ rest, rfl, he, (ih answer).2 ⟨first, a, n₂, rest, rfl, h₁, h₂⟩⟩
    | invoke job =>
      constructor
      · rintro ⟨n₁, outcome, he, h⟩
        obtain ⟨first, a, n₂, rest, rfl, h₁, h₂⟩ := (ih outcome).1 h
        exact ⟨first, a, n₂, rest, rfl, ⟨n₁, outcome, he, h₁⟩, h₂⟩
      · rintro ⟨first, a, n₂, rest, rfl, ⟨n₁, outcome, he, h₁⟩, h₂⟩
        exact ⟨n₁, outcome, he, (ih outcome).2 ⟨first, a, n₂, rest, rfl, h₁, h₂⟩⟩

/-- An operation of an endpoint by itself, with the answers that it hears and its outcome. -/
def Operation.Hears (env : Node σ γ μ κ ι → Node σ γ μ κ ι → Prop) (during : γ)
    (op : Operation σ μ κ ι α) (n : Node σ γ μ κ ι) (answers : List (Except Error Unit))
    (r : Except Error α) (n' : Node σ γ μ κ ι) : Prop :=
  op.outcome.Hears env during n answers r n'

namespace Operation

theorem runs_iff_hears {op : Operation σ μ κ ι α} {r : Except Error α} :
    op.Runs env during n r n' ↔ ∃ answers, op.Hears env during n answers r n' :=
  Action.runs_iff_hears

theorem hears_bind {op : Operation σ μ κ ι α} {f : α → Operation σ μ κ ι β} {r : Except Error β} :
    Hears env during (op >>= f) n answers r n' ↔
      (∃ e, Hears env during op n answers (.error e) n' ∧ r = .error e) ∨
        ∃ first a n₁ rest, answers = first ++ rest ∧ Hears env during op n first (.ok a) n₁ ∧
          Hears env during (f a) n₁ rest r n' := by
  unfold Hears
  rw [show (op >>= f).outcome = op.outcome.andThen fun x => ExceptT.bindCont f x from rfl,
    Action.hears_andThen]
  constructor
  · rintro ⟨first, x, n₁, rest, rfl, h, h'⟩
    cases x with
    | error e =>
      obtain ⟨rfl, rfl, rfl⟩ := h'
      rw [List.append_nil]
      exact Or.inl ⟨e, h, rfl⟩
    | ok a => exact Or.inr ⟨first, a, n₁, rest, rfl, h, h'⟩
  · rintro (⟨e, h, rfl⟩ | ⟨first, a, n₁, rest, rfl, h, h'⟩)
    · exact ⟨answers, .error e, n', [], (List.append_nil _).symm, h, rfl, rfl, rfl⟩
    · exact ⟨first, .ok a, n₁, rest, rfl, h, h'⟩

theorem hears_deliver_bind {k : Nat} {h : Handler κ} {d : Delivery}
    {f : Except Error Unit → Operation σ μ κ ι β} {r : Except Error β} :
    Hears env during (deliver k h d >>= f) n answers r n' ↔ ∃ n₁ answer rest,
      answers = answer :: rest ∧ env (n.note (.delivered during k h d)) n₁ ∧
        Hears env during (f answer) n₁ rest r n' := Iff.rfl

end Operation

end Hears

/-- The first of some answers that refuses; none does if it is `.ok ()`. -/
def firstRefusal : List (Except Error Unit) → Except Error Unit
  | [] => .ok ()
  | .error e :: _ => .error e
  | .ok () :: rest => firstRefusal rest

theorem firstRefusal_eq_ok {answers : List (Except Error Unit)} :
    firstRefusal answers = .ok () ↔ ∀ a ∈ answers, a = .ok () := by
  induction answers with
  | nil => exact iff_of_true rfl fun _ h => nomatch h
  | cons a rest ih =>
    rw [List.forall_mem_cons]
    cases a with
    | error e => exact iff_of_false nofun fun h => nomatch h.1
    | ok u => exact ih.trans (and_iff_right rfl).symm

namespace Endpoint

variable {ε ρ γ μ κ ι : Type}
  {env : Node (Endpoint ε ρ κ) γ μ κ ι → Node (Endpoint ε ρ κ) γ μ κ ι → Prop} {during : γ}
  {n n' : Node (Endpoint ε ρ κ) γ μ κ ι} {id : Nat} {answers : List (Except Error Unit)}

theorem gives_nil : Gives env during id [] n n' ↔ n' = n := by
  constructor
  · rintro ⟨⟩
    rfl
  · rintro rfl
    exact .nil n'

theorem gives_cons {h : Handler κ} {d : Delivery} {given : List (Handler κ × Delivery)} :
    Gives env during id ((h, d) :: given) n n' ↔
      ∃ n₁, env (n.note (.delivered during id h d)) n₁ ∧ Gives env during id given n₁ n' := by
  constructor
  · rintro (_ | ⟨he, hrest⟩)
    exact ⟨_, he, hrest⟩
  · rintro ⟨n₁, he, hrest⟩
    exact .cons he hrest

theorem hears_call?_bind {α : Type} {f : Option (Call κ) → Operation (Endpoint ε ρ κ) μ κ ι α}
    {r : Except Error α} :
    Operation.Hears env during (call? id >>= f) n answers r n' ↔
      Operation.Hears env during (f (n.state.calls.find? id)) n answers r n' := Iff.rfl

theorem hears_resolve {r : Except Error (List (Handler κ))} :
    Operation.Hears env during (resolve id) n answers r n' ↔
      answers = [] ∧ r = .ok (n.state.calls.waiting id) ∧
        n' = n.withCalls (n.state.calls.close id) := by
  unfold resolve
  rw [hears_call?_bind]
  unfold Calls.waiting Calls.close
  cases n.state.calls.find? id with
  | none => exact Iff.rfl
  | some call => exact Iff.rfl

theorem hears_resolve_bind {α : Type} {f : List (Handler κ) → Operation (Endpoint ε ρ κ) μ κ ι α}
    {r : Except Error α} :
    Operation.Hears env during (resolve id >>= f) n answers r n' ↔
      Operation.Hears env during (f (n.state.calls.waiting id))
        (n.withCalls (n.state.calls.close id)) answers r n' := by
  simp only [Operation.hears_bind, hears_resolve]
  constructor
  · rintro (⟨e, ⟨-, ⟨⟩, -⟩, -⟩ | ⟨_, _, _, rest, rfl, ⟨rfl, ⟨⟩, rfl⟩, h⟩)
    exact h
  · intro h
    exact Or.inr ⟨[], _, _, answers, rfl, ⟨rfl, rfl, rfl⟩, h⟩

/-- Nothing depends on what the handlers that wait for errors answer. -/
theorem hears_explain {reason : String} {handlers : List (Handler κ)} {r : Except Error Unit} :
    Operation.Hears env during (explain id reason handlers) n answers r n' ↔
      r = .ok () ∧ answers.length = (explanations reason handlers).length ∧
        Gives env during id (explanations reason handlers) n n' := by
  induction handlers generalizing n answers with
  | nil =>
    rw [explanations, List.filter_nil, List.map_nil, List.length_nil, List.length_eq_zero_iff,
      gives_nil]
    exact and_left_comm
  | cons k rest ih =>
    rw [explain]
    by_cases hk : k.slot.isError = true
    · simp only [hk, if_true]
      rw [explanations_cons_error hk, gives_cons, List.length_cons]
      constructor
      · intro h
        obtain ⟨n₁, answer, others, rfl, he, h⟩ := Operation.hears_deliver_bind.1 h
        obtain ⟨hr, hlen, hg⟩ := ih.1 h
        exact ⟨hr, congrArg Nat.succ hlen, n₁, he, hg⟩
      · rintro ⟨rfl, hlen, n₁, he, hg⟩
        obtain ⟨answer, others, rfl⟩ := List.exists_cons_of_length_eq_add_one hlen
        exact ⟨n₁, answer, others, rfl, he, ih.2 ⟨rfl, Nat.succ.inj hlen, hg⟩⟩
    · simp only [hk]
      rw [explanations_cons_other hk]
      exact ih

/-- Yields the refusal of an answer that refuses, else what the answers after it come to. -/
def passRefusal (answer later : Except Error Unit) :
    Operation (Endpoint ε ρ κ) μ κ ι (Except Error Unit) :=
  match answer with
  | .error e => return .error e
  | .ok () => return later

/-- The first refusal of a handler counts; those after it are given their values all the same. -/
theorem hears_deliverAll {read : Handler κ → Value → Except TypeMismatch Delivery}
    {casts : List (Handler κ × Value)} (hread : ∀ c ∈ casts, ∃ d, read c.1 c.2 = .ok d)
    {r : Except Error (Except Error Unit)} :
    Operation.Hears env during (deliverAll id read casts) n answers r n' ↔
      r = .ok (firstRefusal answers) ∧ answers.length = (readings read casts).length ∧
        Gives env during id (readings read casts) n n' := by
  induction casts generalizing n n' answers r with
  | nil =>
    rw [show readings read [] = [] from rfl, List.length_nil, List.length_eq_zero_iff, gives_nil]
    constructor
    · rintro ⟨rfl, rfl, rfl⟩
      exact ⟨rfl, rfl, rfl⟩
    · rintro ⟨rfl, rfl, rfl⟩
      exact ⟨rfl, rfl, rfl⟩
  | cons cast rest ih =>
    obtain ⟨k, v⟩ := cast
    obtain ⟨⟨d, hd⟩, hrest⟩ := List.forall_mem_cons.1 hread
    have hnext {n₁ : Node (Endpoint ε ρ κ) γ μ κ ι} {answer : Except Error Unit}
        {others : List (Except Error Unit)} :
        Operation.Hears env during (deliverAll id read rest >>= passRefusal answer) n₁ others r n' ↔
        r = .ok (firstRefusal (answer :: others)) ∧
          others.length = (readings read rest).length ∧
            Gives env during id (readings read rest) n₁ n' := by
      simp only [Operation.hears_bind, ih hrest]
      constructor
      · rintro (⟨e, ⟨⟨⟩, -⟩, -⟩ | ⟨first, _, _, _, rfl, ⟨⟨⟩, hlen, hg⟩, h⟩)
        cases answer with
        | error e =>
          obtain ⟨rfl, rfl, rfl⟩ := h
          exact ⟨rfl, (List.append_nil first).symm ▸ hlen, hg⟩
        | ok u =>
          obtain ⟨rfl, rfl, rfl⟩ := h
          rw [List.append_nil]
          exact ⟨rfl, hlen, hg⟩
      · rintro ⟨rfl, hlen, hg⟩
        refine Or.inr ⟨others, _, n', [], (List.append_nil _).symm, ⟨rfl, hlen, hg⟩, ?_⟩
        cases answer <;> exact ⟨rfl, rfl, rfl⟩
    rw [deliverAll, readings_cons_ok hd, gives_cons, List.length_cons]
    simp only [hd]
    constructor
    · intro h
      obtain ⟨n₁, answer, others, rfl, he, h⟩ := Operation.hears_deliver_bind.1 h
      obtain ⟨hr, hlen, hg⟩ := hnext.1 h
      exact ⟨hr, congrArg Nat.succ hlen, n₁, he, hg⟩
    · rintro ⟨rfl, hlen, n₁, he, hg⟩
      obtain ⟨answer, others, rfl⟩ := List.exists_cons_of_length_eq_add_one hlen
      exact ⟨n₁, answer, others, rfl, he, hnext.2 ⟨rfl, Nat.succ.inj hlen, hg⟩⟩

/-! ## Ends of calls -/

theorem hears_fail {reason : String} {r : Except Error Unit} :
    Operation.Hears env during (fail id reason) n answers r n' ↔
      r = .ok () ∧
        answers.length = (explanations reason (n.state.calls.waiting id)).length ∧
        Gives env during id (explanations reason (n.state.calls.waiting id))
          (n.withCalls (n.state.calls.close id)) n' := by
  unfold fail
  rw [hears_resolve_bind, hears_explain]

section Finish

variable {call : Call κ} {payload : Payload} {slotType? : Slot → Option Ty}
  {read : Handler κ → Value → Except TypeMismatch Delivery} {r : Except Error Unit}

/-- A payload that is not cast for all handlers: those that wait for errors are told why, and the
call ends in that error. -/
theorem hears_finish_error {e : Error} (hw : n.state.calls.waiting id = call.handlers)
    (hcast : castAll payload slotType? call.handlers = .error e) :
    Operation.Hears env during (finish id call payload slotType? read) n answers r n' ↔
      r = .error e ∧ answers.length = (explanations e.message call.handlers).length ∧
        Gives env during id (explanations e.message call.handlers)
          (n.withCalls (n.state.calls.close id)) n' := by
  unfold finish
  simp only [hcast, Operation.hears_bind, hears_fail, hw]
  constructor
  · rintro (⟨_, ⟨⟨⟩, -⟩, -⟩ | ⟨first, _, _, _, rfl, ⟨-, hlen, hg⟩, rfl, rfl, rfl⟩)
    rw [List.append_nil]
    exact ⟨rfl, hlen, hg⟩
  · rintro ⟨rfl, hlen, hg⟩
    exact Or.inr ⟨answers, (), n', [], (List.append_nil _).symm, ⟨trivial, hlen, hg⟩, rfl, rfl, rfl⟩

theorem hears_finish_ok {casts : List (Handler κ × Value)}
    (hcast : castAll payload slotType? call.handlers = .ok casts)
    (hread : ∀ c ∈ casts, ∃ d, read c.1 c.2 = .ok d) :
    Operation.Hears env during (finish id call payload slotType? read) n answers r n' ↔
      r = firstRefusal answers ∧ answers.length = (readings read casts).length ∧
        Gives env during id (readings read casts) (n.withCalls (n.state.calls.close id)) n' := by
  unfold finish
  simp only [hcast]
  rw [hears_resolve_bind]
  simp only [Operation.hears_bind, hears_deliverAll hread]
  constructor
  · rintro (⟨_, ⟨⟨⟩, -⟩, -⟩ | ⟨first, _, _, _, rfl, ⟨⟨⟩, hlen, hg⟩, h⟩)
    cases hf : firstRefusal first with
    | error e =>
      rw [hf] at h
      obtain ⟨rfl, rfl, rfl⟩ := h
      rw [List.append_nil]
      exact ⟨hf.symm, hlen, hg⟩
    | ok u =>
      rw [hf] at h
      obtain ⟨rfl, rfl, rfl⟩ := h
      rw [List.append_nil]
      exact ⟨hf.symm, hlen, hg⟩
  · rintro ⟨rfl, hlen, hg⟩
    refine Or.inr ⟨answers, _, n', [], (List.append_nil _).symm, ⟨rfl, hlen, hg⟩, ?_⟩
    cases firstRefusal answers <;> exact ⟨rfl, rfl, rfl⟩

end Finish

end Endpoint

end Parley
