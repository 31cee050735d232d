import Parley.Proofs.Pending

/-!
# Moments

An endpoint is given commands one after the other and, while the world answers a request, also in
the middle of another command. The invariant of the calls holds at these moments, too. The proof
does not look into commands: if the invariant failed where a command waits, whatever happened there
would keep it, for want of anything to keep, and the command could end with two calls of one
identifier.

* `Action.Pauses` : an action waits for an answer, and the environment finds a node;
  `Pauses.escape` : the action comes to its end whatever happens there.
* `Moment` : a command can be given to an endpoint; `moment_of_reaches` : so it can after every run.
* `exists_coherent_of_pauses`, `Moment.exists_coherent` : the invariant of the calls holds at every
  moment.
-/

namespace Parley

section

variable {σ γ μ κ ι α : Type} {env : Node σ γ μ κ ι → Node σ γ μ κ ι → Prop} {during : γ}
  {n m : Node σ γ μ κ ι}

/-- In the course of an action a message went out, a handler was given something or a job is run,
and the environment, which acts now, finds the node `m`. -/
def Action.Pauses (env : Node σ γ μ κ ι → Node σ γ μ κ ι → Prop) (during : γ) :
    Action σ μ κ ι α → Node σ γ μ κ ι → Node σ γ μ κ ι → Prop
  | .done _, _, _ => False
  | .read next, n, m => Pauses env during (next n.state) n m
  | .write s next, n, m => Pauses env during next (n.move s) m
  | .ask (.log _) next, n, m => Pauses env during (next ()) n m
  | .ask .listen next, n, m => Pauses env during (next ()) n m
  | .ask (.send x) next, n, m => m = n.note (.sent during x) ∨ ∃ n₁ taken,
    env (n.note (.sent during x)) n₁ ∧ Pauses env during (next taken) n₁ m
  | .ask (.deliver k h d) next, n, m => m = n.note (.delivered during k h d) ∨ ∃ n₁ accepted,
    env (n.note (.delivered during k h d)) n₁ ∧ Pauses env during (next accepted) n₁ m
  | .ask (.invoke job) next, n, m => m = n.note (.invoked during job) ∨ ∃ n₁ outcome,
    env (n.note (.invoked during job)) n₁ ∧
      Pauses env during (next outcome) (n₁.note (.returned during job outcome)) m

namespace Action

/-- Every action comes to its end from every node if the environment may do nothing; what was seen
stays. -/
theorem exists_runs_idle (henv : ∀ n, env n n) (during : γ) (act : Action σ μ κ ι α)
    (n : Node σ γ μ κ ι) :
    ∃ a n', act.Runs (Site.self _) env during n a n' ∧ n.trace <+: n'.trace := by
  obtain ⟨a, n', h⟩ := exists_runs (Site.self (Node σ γ μ κ ι)) (fun n => ⟨n, rfl⟩) during act n
  refine ⟨a, n', Runs.put (g := n) henv h, ?_⟩
  exact h.frame (R := fun a b => a.trace <+: b.trace) (fun _ => List.prefix_rfl) List.IsPrefix.trans
    (fun _ _ => List.prefix_rfl) (fun _ _ _ => List.prefix_append _ _)
    fun he => he ▸ List.prefix_rfl

/-- The environment that may also do nothing, and may leave the endpoint with `x` where it finds
`m`. -/
def Escaping (env : Node σ γ μ κ ι → Node σ γ μ κ ι → Prop) (m x : Node σ γ μ κ ι) :
    Node σ γ μ κ ι → Node σ γ μ κ ι → Prop :=
  fun n₁ n₂ => env n₁ n₂ ∨ n₁ = n₂ ∨ n₁ = m ∧ n₂ = x

/-- An action that waits at `m` comes to its end also if it is left with any other node there. -/
theorem Pauses.escape {act : Action σ μ κ ι α} (h : act.Pauses env during n m)
    (x : Node σ γ μ κ ι) :
    ∃ a n', act.Runs (Site.self _) (Escaping env m x) during n a n' ∧ x.trace <+: n'.trace := by
  have hidle (n : Node σ γ μ κ ι) : Escaping env m x n n := Or.inr (Or.inl rfl)
  induction act generalizing n with
  | done a => exact h.elim
  | read next ih => exact ih n.state h
  | write s next ih => exact ih h
  | ask r next ih =>
    cases r with
    | log record => exact ih () h
    | listen => exact ih () h
    | send y =>
      rcases h with hm | ⟨n₁, taken, he, h⟩
      · obtain ⟨a, n', hr, ht⟩ := exists_runs_idle hidle during (next true) x
        exact ⟨a, n', ⟨x, true, Or.inr (Or.inr ⟨hm.symm, rfl⟩), hr⟩, ht⟩
      · obtain ⟨a, n', hr, ht⟩ := ih taken h
        exact ⟨a, n', ⟨n₁, taken, Or.inl he, hr⟩, ht⟩
    | deliver k hd d =>
      rcases h with hm | ⟨n₁, accepted, he, h⟩
      · obtain ⟨a, n', hr, ht⟩ := exists_runs_idle hidle during (next (.ok ())) x
        exact ⟨a, n', ⟨x, .ok (), Or.inr (Or.inr ⟨hm.symm, rfl⟩), hr⟩, ht⟩
      · obtain ⟨a, n', hr, ht⟩ := ih accepted h
        exact ⟨a, n', ⟨n₁, accepted, Or.inl he, hr⟩, ht⟩
    | invoke job =>
      rcases h with hm | ⟨n₁, outcome, he, h⟩
      · obtain ⟨a, n', hr, ht⟩ := exists_runs_idle hidle during (next (.error ""))
          (x.note (.returned during job (.error "")))
        exact ⟨a, n', ⟨x, .error "", Or.inr (Or.inr ⟨hm.symm, rfl⟩), hr⟩,
          (List.prefix_append _ _).trans ht⟩
      · obtain ⟨a, n', hr, ht⟩ := ih outcome h
        exact ⟨a, n', ⟨n₁, outcome, Or.inl he, hr⟩, ht⟩

end Action

/-- A command can be given to an endpoint that began as `n₀`: at its beginning, after a command, and
in the middle of one. -/
inductive Moment (perform : γ → Operation σ μ κ ι (Option Nat)) (n₀ : Node σ γ μ κ ι) :
    Node σ γ μ κ ι → Prop
  | start : Moment perform n₀ n₀
  | after {depth : Nat} {n n' : Node σ γ μ κ ι} (h : Moment perform n₀ n)
      (hc : Nested ((Site.self _).Acts perform fun _ _ => True) depth n n') : Moment perform n₀ n'
  | amid {depth : Nat} {n m : Node σ γ μ κ ι} (h : Moment perform n₀ n) (c : γ)
      (hp : (perform c).outcome.Pauses
        (Relation.ReflTransGen (Nested ((Site.self _).Acts perform fun _ _ => True) depth)) c n m) :
      Moment perform n₀ m

theorem moment_of_reaches {perform : γ → Operation σ μ κ ι (Option Nat)} {n₀ n : Node σ γ μ κ ι}
    (h : Reaches ((Site.self _).Acts perform fun _ _ => True) n₀ n) : Moment perform n₀ n := by
  induction h with
  | refl => exact .start
  | tail _ hc ih =>
    obtain ⟨depth, hc⟩ := hc
    exact .after ih hc

end

/-! ## The invariant of the calls -/

section

variable {ε ρ μ κ ι : Type} {frame : Nat → Wrapper κ → List Value → μ → Prop}
  {transit : List Nat} {ledger : Ledger κ} {n m : Node (Endpoint ε ρ κ) (Command κ μ) μ κ ι}
  {perform : Command κ μ → Operation (Endpoint ε ρ κ) μ κ ι (Option Nat)}

/-- Two calls that have one identifier. -/
def clash (κ μ ι : Type) : List (Occurrence (Command κ μ) μ κ ι) :=
  [.finished (.call ⟨"", ⟨[], []⟩, []⟩ []) (.ok (some 0)),
    .finished (.call ⟨"", ⟨[], []⟩, []⟩ [.nil]) (.ok (some 0))]

theorem Coherent.not_clash (h : Coherent frame transit ledger n) : ¬ clash κ μ ι <+: n.trace := by
  intro ht
  have hmem (args : List Value)
      (hc : .finished (.call ⟨"", ⟨[], []⟩, []⟩ args) (.ok (some 0)) ∈ clash κ μ ι) :
      (0, ⟨"", ⟨[], []⟩, []⟩, args) ∈ ledger :=
    (h.handed _ args 0 (ht.subset hc)).2.1
  cases h.unique (hmem [] List.mem_cons_self)
    (hmem [.nil] (List.mem_cons_of_mem _ List.mem_cons_self))

/-- The invariant holds in the middle of a command that keeps it whatever happens meanwhile, as long
as that keeps it. -/
theorem exists_coherent_of_pauses (hk : Guarantees perform (Keeps frame))
    {env : Node (Endpoint ε ρ κ) (Command κ μ) μ κ ι →
      Node (Endpoint ε ρ κ) (Command κ μ) μ κ ι → Prop}
    (henv : ∀ {n n'}, env n n' → Keeps frame n n') (hn : Coherent frame transit ledger n)
    {c : Command κ μ} (hp : (perform c).outcome.Pauses env c n m) :
    ∃ transit ledger, Coherent frame transit ledger m := by
  by_contra hno
  -- nothing is left to keep at `m`, so the environment may make two calls clash there
  obtain ⟨r, n', hr, ht⟩ := hp.escape ⟨m.state, clash κ μ ι⟩
  have hkeeps : Keeps frame n (n'.note (.finished c r)) := by
    refine hk ?_ hr
    rintro n₁ n₂ (he | rfl | ⟨rfl, -⟩)
    · exact henv he
    · exact Keeps.refl n₁
    · exact fun transit ledger h => absurd ⟨transit, ledger, h⟩ hno
  obtain ⟨-, more, hn'⟩ := hkeeps transit ledger hn
  exact hn'.not_clash (ht.trans (List.prefix_append _ _))

/-- The invariant of the calls holds at every moment. -/
theorem Moment.exists_coherent (hk : Guarantees perform (Keeps frame)) {config : Config} {terms : ρ}
    (h : Moment perform (.start (.ofTerms config terms)) n) :
    ∃ transit ledger, Coherent frame transit ledger n := by
  have hnested {depth : Nat} {n n' : Node (Endpoint ε ρ κ) (Command κ μ) μ κ ι}
      (hc : Nested ((Site.self _).Acts perform fun _ _ => True) depth n n') : Keeps frame n n' :=
    hc.guarantee Keeps.refl Keeps.trans fun henv _ _ ha => hk.acts henv ha
  induction h with
  | start => exact ⟨[], [], coherent_start config terms⟩
  | after _ hc ih =>
    obtain ⟨transit, ledger, hn⟩ := ih
    obtain ⟨-, more, hn'⟩ := hnested hc transit ledger hn
    exact ⟨transit, ledger ++ more, hn'⟩
  | amid _ c hp ih =>
    obtain ⟨transit, ledger, hn⟩ := ih
    exact exists_coherent_of_pauses hk
      (guarantee_of_reflTransGen Keeps.refl Keeps.trans hnested) hn hp

end

end Parley
