import Parley.Proofs.Pending

/-!
# What resolves a call

A call is resolved by a message that names it or by the end of the connection, and by nothing else.

* `Resolved`, `EndsCall` : the calls that are resolved, and the commands that may resolve a call.
* `Blames` : a call that is resolved afterwards was resolved before, or a command that may resolve
  it was carried out.
* `Caller.blames` : every command to a caller does so, if what happens meanwhile does.
-/

namespace Parley

variable {ε ρ μ κ ι : Type}

/-- Every call is entered under its own identifier. -/
def Filed (n : Node (Endpoint ε ρ κ) (Command κ μ) μ κ ι) : Prop :=
  ∀ id call, n.state.calls.find? id = some call → call.id = id

/-- The call is resolved. -/
def Resolved (n : Node (Endpoint ε ρ κ) (Command κ μ) μ κ ι) (id : Nat) : Prop :=
  ∃ call, n.state.calls.find? id = some call ∧ call.resolved = true

/-- A command that may resolve the call: a message that names it, or the end of the connection. -/
def EndsCall (names : μ → Nat → Prop) (id : Nat) : Command κ μ → Prop
  | .receive m => names m id
  | .close => True
  | .fail _ => True
  | _ => False

/-- A command that may resolve the call was carried out. -/
def Ended (names : μ → Nat → Prop) (id : Nat) (trace : List (Occurrence (Command κ μ) μ κ ι)) :
    Prop :=
  ∃ c r, EndsCall names id c ∧ .finished c r ∈ trace

/-- If the call is resolved, it was so before, or a command that may resolve it was carried out in
between, or `p` holds. -/
structure Blames (names : μ → Nat → Prop) (id : Nat) (p : Prop)
    (n n' : Node (Endpoint ε ρ κ) (Command κ μ) μ κ ι) : Prop where
  filed : Filed n → Filed n'
  resolved : ∃ more, n'.trace = n.trace ++ more ∧
    (Filed n → Resolved n' id → Resolved n id ∨ Ended names id more ∨ p)

namespace Blames

variable {names : μ → Nat → Prop} {id : Nat} {p q : Prop}
  {n n' n'' : Node (Endpoint ε ρ κ) (Command κ μ) μ κ ι}

theorem refl (n : Node (Endpoint ε ρ κ) (Command κ μ) μ κ ι) : Blames names id p n n :=
  ⟨fun h => h, [], (List.append_nil _).symm, fun _ h => Or.inl h⟩

theorem trans (h : Blames names id p n n') (h' : Blames names id p n' n'') :
    Blames names id p n n'' := by
  obtain ⟨more, ht, hb⟩ := h.resolved
  obtain ⟨more', ht', hb'⟩ := h'.resolved
  refine ⟨fun hf => h'.filed (h.filed hf), more ++ more', ?_, ?_⟩
  · rw [ht', ht, List.append_assoc]
  · intro hf hr
    rcases hb' (h.filed hf) hr with hr | ⟨c, r, hc, hm⟩ | hp
    · rcases hb hf hr with hr | ⟨c, r, hc, hm⟩ | hp
      · exact Or.inl hr
      · exact Or.inr (Or.inl ⟨c, r, hc, List.mem_append_left _ hm⟩)
      · exact Or.inr (Or.inr hp)
    · exact Or.inr (Or.inl ⟨c, r, hc, List.mem_append_right _ hm⟩)
    · exact Or.inr (Or.inr hp)

theorem mono (hpq : p → q) (h : Blames names id p n n') : Blames names id q n n' := by
  obtain ⟨more, ht, hb⟩ := h.resolved
  exact ⟨h.filed, more, ht, fun hf hr => (hb hf hr).imp_right (Or.imp_right hpq)⟩

theorem note (o : Occurrence (Command κ μ) μ κ ι) : Blames names id p n (n.note o) :=
  ⟨fun h => h, [o], rfl, fun _ h => Or.inl h⟩

theorem withCalls {calls : Calls ε κ} (h : calls.table = n.state.calls.table) :
    Blames names id p n (n.withCalls calls) := by
  have hfind (j : Nat) : calls.find? j = n.state.calls.find? j := congrArg (Table.find? j) h
  refine ⟨fun hf j call hc => hf j call ?_, [], (List.append_nil _).symm,
    fun _ ⟨call, hc, hr⟩ => Or.inl ⟨call, ?_, hr⟩⟩
  · rw [← hfind j]
    exact hc
  · rw [← hfind id]
    exact hc

theorem put {call : Call κ} {calls : Calls ε κ}
    (h : ∀ j, calls.find? j = (n.state.calls.put call).find? j)
    (ho : Filed n → call.id = id → call.resolved = true → p) :
    Blames names id p n (n.withCalls calls) := by
  refine ⟨?_, [], (List.append_nil _).symm, fun hf ⟨c, hc, hr⟩ => ?_⟩
  · intro hf j c hc
    exact Calls.Own.put hf call j c ((h j).symm.trans hc)
  · have hc' := (h id).symm.trans hc
    rw [Calls.find?_put] at hc'
    by_cases hj : call.id = id
    · rw [if_pos hj] at hc'
      cases hc'
      exact Or.inr (Or.inr (ho hf hj hr))
    · rw [if_neg hj] at hc'
      exact Or.inl ⟨c, hc', hr⟩

theorem put_open {call : Call κ} {calls : Calls ε κ}
    (h : ∀ j, calls.find? j = (n.state.calls.put call).find? j) (hr : call.resolved = false) :
    Blames names id p n (n.withCalls calls) :=
  put h fun _ _ ht => nomatch hr.symm.trans ht

/-- Resolving a call is to blame only for that call. -/
theorem close {j : Nat} (h : j = id → p) :
    Blames names id p n (n.withCalls (n.state.calls.close j)) := by
  cases hf : n.state.calls.find? j with
  | none =>
    rw [Calls.close, hf]
    exact withCalls rfl
  | some call =>
    rw [Calls.close_of_find? hf]
    refine put (fun _ => rfl) fun hfiled hid _ => h ?_
    exact (hfiled j call hf).symm.trans hid

variable {env : Node (Endpoint ε ρ κ) (Command κ μ) μ κ ι →
  Node (Endpoint ε ρ κ) (Command κ μ) μ κ ι → Prop} {during : Command κ μ}

theorem seen {kind : Occurrence (Command κ μ) μ κ ι → Prop}
    (henv : ∀ {n n'}, env n n' → Blames names id p n n') (hs : Seen env kind n n') :
    Blames names id p n n' :=
  hs.guarantee refl trans henv fun _ o _ => note o

theorem calling {w : Wrapper κ} {e : ε} {message : Nat → Except Error μ}
    {r : Except Error (Option Nat)} (henv : ∀ {n n'}, env n n' → Blames names id p n n')
    (h : Endpoint.Calling env during w e message n r n') : Blames names id p n n' := by
  have hallocate : Blames names id p n
      (n.withCalls { n.state.calls with nextId := n.state.calls.nextId + 1 }) := withCalls rfl
  cases h with
  | exhausted => exact refl n
  | unsent => exact hallocate
  | @sent m n₁ _ _ _ _ he h =>
    have hsent : Blames names id p n n₁ := (hallocate.trans (note _)).trans (henv he)
    cases h with
    | oneWay => exact hsent
    | refused => exact hsent
    | entered _ hc =>
      exact hsent.trans (put_open (fun _ => rfl) (Call.startWith_eq_ok hc ▸ rfl))

theorem register {j : Nat} {event : String} {hd : Handler κ} {r : Except Error Unit}
    (h : Operation.Runs env during (Endpoint.register j event hd) n r n') :
    Blames names id p n n' := by
  rcases Endpoint.runs_register h with ⟨_, -, rfl⟩ | ⟨call, changed, -, ho, -, rfl⟩
  · exact refl n'
  · obtain ⟨hu, rfl⟩ := Call.on_eq_ok ho
    exact put_open (fun _ => rfl) hu

theorem succeed {j : Nat} {payload : Payload} {r : Except Error Unit}
    (henv : ∀ {n n'}, env n n' → Blames names id p n n') (hp : j = id → p)
    (h : Operation.Runs env during (Endpoint.succeed j payload) n r n') :
    Blames names id p n n' := by
  rcases Endpoint.runs_succeed h with ⟨rfl, -⟩ | ⟨call, -, -, hs⟩
  · exact refl n'
  · exact (close hp).trans (seen henv hs.ends)

theorem failAll {reason : String} {r : Except Error Unit}
    (henv : ∀ {n n'}, env n n' → Blames names id p n n') (hp : p)
    (h : Operation.Runs env during (Endpoint.failAll reason) n r n') :
    Blames names id p n n' := by
  have h := Endpoint.runs_failAll h
  have hdrain : Blames names id p n (n.withCalls { n.state.calls with pending := [] }) :=
    withCalls rfl
  refine hdrain.trans ?_
  generalize n.state.calls.active = ids at h
  generalize n.withCalls { n.state.calls with pending := [] } = n₀ at h
  induction ids generalizing n₀ with
  | nil =>
    obtain ⟨-, rfl⟩ := h
    exact refl n'
  | cons j rest ih =>
    obtain ⟨n₁, hs, h⟩ := Endpoint.runs_failEach_cons h
    exact ((close fun _ => hp).trans (seen henv hs.explains)).trans (ih n₁ h)

theorem finished {c : Command κ μ} {r : Except Error (Option Nat)}
    (h : Blames names id (EndsCall names id c) n n') :
    Blames names id False n (n'.note (.finished c r)) := by
  obtain ⟨more, ht, hb⟩ := h.resolved
  refine ⟨h.filed, more ++ [.finished c r], ?_, ?_⟩
  · rw [Node.trace_note, ht, List.append_assoc]
  · intro hf hr
    rcases hb hf hr with hr | ⟨c', r', hc, hm⟩ | hc
    · exact Or.inl hr
    · exact Or.inr (Or.inl ⟨c', r', hc, List.mem_append_left _ hm⟩)
    · exact Or.inr (Or.inl ⟨c, r, hc, List.mem_append_right _ List.mem_cons_self⟩)

end Blames

/-! ## Callers -/

/-- The frame begins with the identifier. -/
def Caller.Names (frame : List UInt8) (id : Nat) : Prop :=
  ∃ after, Reader.word.run (Cursor.start frame) = (.ok id, after)

theorem Caller.Names.unique {frame : List UInt8} {id id' : Nat} (h : Names frame id)
    (h' : Names frame id') : id = id' := by
  obtain ⟨after, ha⟩ := h
  obtain ⟨after', ha'⟩ := h'
  rw [ha] at ha'
  cases ha'
  rfl

/-- Every command to a caller resolves a call only if it may, if what happens meanwhile does. -/
theorem Caller.blames (id : Nat) :
    Guarantees (Caller.perform (κ := κ) (ι := ι)) (Blames Names id False) := by
  intro env henv c n r n' h
  refine Blames.finished ?_
  have henv' {n n' : Node (Caller κ) (Command κ (List UInt8)) (List UInt8) κ ι} (he : env n n') :
      Blames Names id (EndsCall Names id c) n n' :=
    (henv he).mono False.elim
  cases c with
  | call w args =>
    exact Blames.calling henv' (runs_call h)
  | on j event hd =>
    obtain ⟨r', h, -⟩ := Operation.runs_as h
    exact Blames.register h
  | receive frame =>
    obtain ⟨r', h, -⟩ := Operation.runs_as h
    rcases runs_receive h with ⟨rfl, -⟩ | ⟨j, after, result, hw, -, h⟩
    · exact Blames.refl n'
    · have hsettle : Blames Names id (EndsCall Names id (.receive frame : Command κ (List UInt8))) n
          (n.withCalls (n.state.calls.settle j)) := Blames.withCalls rfl
      refine hsettle.trans (Blames.succeed henv' ?_ h)
      rintro rfl
      exact ⟨after, hw⟩
  | close =>
    obtain ⟨r', h, -⟩ := Operation.runs_as h
    exact Blames.failAll henv' trivial h
  | fail reason =>
    obtain ⟨r', h, -⟩ := Operation.runs_as h
    exact Blames.failAll henv' trivial h

end Parley
