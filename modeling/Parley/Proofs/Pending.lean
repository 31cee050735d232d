import Parley.Proofs.Adapters
import Parley.Proofs.Tables

/-!
# Pending calls

The calls of an endpoint that wait for a reply are exactly the ones it handed out and did not
resolve. The invariant is kept by every command, also while commands run inside others: an endpoint
that ends all its calls takes them off the list before it resolves them one by one, so the invariant
speaks of calls in transit.

* `callFrames`, `HandedOut` : the call messages that went out, and the calls that were handed out.
* `Coherent` : the invariant, with the calls in transit and a ledger of the calls that were sent.
* `Later` : what never changes back.
* `Keeps` : the invariant is kept, and nothing changes back; `Coherent.replace`, `Coherent.enter`, …
  say how each change of the calls keeps it.
* `Peer.keeps`, `Caller.keeps` : every command keeps the invariant in an environment that does.
-/

namespace Parley

/-- The messages that calls sent, each with the wrapper and the arguments of its call. -/
def callFrames {κ μ ι : Type} (trace : List (Occurrence (Command κ μ) μ κ ι)) :
    List (Wrapper κ × List Value × μ) :=
  trace.filterMap fun
    | .sent (.call w args) m => some (w, args, m)
    | _ => none

/-- The calls that were sent, in order, each with its identifier. -/
abbrev Ledger (κ : Type) := List (Nat × Wrapper κ × List Value)

/-- The ledger has an entry for each call message that went out, in order. `frame` says which
message carries a call. -/
def Records {κ μ ι : Type} (frame : Nat → Wrapper κ → List Value → μ → Prop) (ledger : Ledger κ)
    (trace : List (Occurrence (Command κ μ) μ κ ι)) : Prop :=
  List.Forall₂ (fun e f => e.2 = (f.1, f.2.1) ∧ frame e.1 f.1 f.2.1 f.2.2) ledger
    (callFrames trace)

section

variable {ε ρ μ κ ι : Type}

/-- A call of the wrapper with the arguments was handed out under the identifier. -/
def HandedOut (n : Node (Endpoint ε ρ κ) (Command κ μ) μ κ ι) (w : Wrapper κ) (args : List Value)
    (id : Nat) : Prop :=
  .finished (.call w args) (.ok (some id)) ∈ n.trace

/-- The invariant of the calls of an endpoint. Calls in transit are off the list and about to be
resolved. -/
structure Coherent (frame : Nat → Wrapper κ → List Value → μ → Prop) (transit : List Nat)
    (ledger : Ledger κ) (n : Node (Endpoint ε ρ κ) (Command κ μ) μ κ ι) : Prop where
  sorted : Table.Sorted n.state.calls.pending
  opened : ∀ id ∈ n.state.calls.active,
    ∃ c, n.state.calls.find? id = some c ∧ c.resolved = false
  listed : ∀ id c, n.state.calls.find? id = some c → c.resolved = false →
    id ∈ n.state.calls.active ∨ id ∈ transit
  moving : ∀ id ∈ transit, id ∉ n.state.calls.active ∧ ∃ c, n.state.calls.find? id = some c
  own : ∀ id c, n.state.calls.find? id = some c → c.id = id
  cleared : ∀ id c, n.state.calls.find? id = some c → c.resolved = true → c.handlers = []
  tabled : ∀ id c, n.state.calls.find? id = some c → ∃ w args, HandedOut n w args id
  handed : ∀ w args id, HandedOut n w args id → (∃ c, n.state.calls.find? id = some c) ∧
    (id, w, args) ∈ ledger ∧ n.state.config.isOneWay w.name = false
  increasing : (ledger.map Prod.fst).Pairwise (· < ·)
  below : ∀ e ∈ ledger, e.1 < n.state.calls.nextId
  frames : Records frame ledger n.trace

/-- What never changes back: settings, terms, identifiers given away, calls that were handed out or
resolved, and what was seen. -/
structure Later (n n' : Node (Endpoint ε ρ κ) (Command κ μ) μ κ ι) : Prop where
  config : n'.state.config = n.state.config
  terms : n'.state.terms = n.state.terms
  nextId : n.state.calls.nextId ≤ n'.state.calls.nextId
  absent : ∀ id < n.state.calls.nextId, n.state.calls.find? id = none →
    n'.state.calls.find? id = none
  resolved : ∀ id c, n.state.calls.find? id = some c →
    ∃ c', n'.state.calls.find? id = some c' ∧ (c.resolved = true → c'.resolved = true)
  trace : n.trace <+: n'.trace

theorem Later.refl (n : Node (Endpoint ε ρ κ) (Command κ μ) μ κ ι) : Later n n :=
  ⟨rfl, rfl, Nat.le_refl _, fun _ _ h => h, fun _ c h => ⟨c, h, fun hr => hr⟩, List.prefix_rfl⟩

theorem Later.trans {n₁ n₂ n₃ : Node (Endpoint ε ρ κ) (Command κ μ) μ κ ι} (h₁ : Later n₁ n₂)
    (h₂ : Later n₂ n₃) : Later n₁ n₃ where
  config := h₂.config.trans h₁.config
  terms := h₂.terms.trans h₁.terms
  nextId := Nat.le_trans h₁.nextId h₂.nextId
  absent id hlt h := h₂.absent id (Nat.lt_of_lt_of_le hlt h₁.nextId) (h₁.absent id hlt h)
  resolved id c hc := by
    obtain ⟨c₂, hc₂, hr₂⟩ := h₁.resolved id c hc
    obtain ⟨c₃, hc₃, hr₃⟩ := h₂.resolved id c₂ hc₂
    exact ⟨c₃, hc₃, hr₃ ∘ hr₂⟩
  trace := h₁.trace.trans h₂.trace

theorem Later.note (n : Node (Endpoint ε ρ κ) (Command κ μ) μ κ ι)
    (o : Occurrence (Command κ μ) μ κ ι) : Later n (n.note o) :=
  { Later.refl n with trace := List.prefix_append _ _ }

variable (frame : Nat → Wrapper κ → List Value → μ → Prop)

/-- The invariant is kept, whatever is in transit, and nothing changes back. -/
def Keeps (n n' : Node (Endpoint ε ρ κ) (Command κ μ) μ κ ι) : Prop :=
  ∀ transit ledger, Coherent frame transit ledger n →
    Later n n' ∧ ∃ more, Coherent frame transit (ledger ++ more) n'

/-- The invariant is kept, a call in transit leaves it, and nothing changes back. -/
def Closes (id : Nat) (n n' : Node (Endpoint ε ρ κ) (Command κ μ) μ κ ι) : Prop :=
  ∀ transit ledger, Coherent frame (id :: transit) ledger n →
    Later n n' ∧ ∃ more, Coherent frame transit (ledger ++ more) n'

variable {frame} {n n' n₁ n₂ n₃ : Node (Endpoint ε ρ κ) (Command κ μ) μ κ ι}
  {transit : List Nat} {ledger : Ledger κ} {id : Nat}

theorem Keeps.refl (n : Node (Endpoint ε ρ κ) (Command κ μ) μ κ ι) : Keeps frame n n :=
  fun _ _ h => ⟨Later.refl n, [], by rwa [List.append_nil]⟩

theorem Keeps.trans (h₁ : Keeps frame n₁ n₂) (h₂ : Keeps frame n₂ n₃) : Keeps frame n₁ n₃ := by
  intro transit ledger h
  obtain ⟨hl₁, more₁, hc₁⟩ := h₁ transit ledger h
  obtain ⟨hl₂, more₂, hc₂⟩ := h₂ transit _ hc₁
  exact ⟨hl₁.trans hl₂, more₁ ++ more₂, by rwa [← List.append_assoc]⟩

theorem Closes.trans (h₁ : Closes frame id n₁ n₂) (h₂ : Keeps frame n₂ n₃) :
    Closes frame id n₁ n₃ := by
  intro transit ledger h
  obtain ⟨hl₁, more₁, hc₁⟩ := h₁ transit ledger h
  obtain ⟨hl₂, more₂, hc₂⟩ := h₂ transit _ hc₁
  exact ⟨hl₁.trans hl₂, more₁ ++ more₂, by rwa [← List.append_assoc]⟩

/-! ## Occurrences -/

/-- An occurrence that neither sends a call nor hands one out. -/
def Quiet (o : Occurrence (Command κ μ) μ κ ι) : Prop :=
  callFrames [o] = [] ∧ ∀ w args id, o ≠ .finished (.call w args) (.ok (some id))

theorem callFrames_append (t t' : List (Occurrence (Command κ μ) μ κ ι)) :
    callFrames (t ++ t') = callFrames t ++ callFrames t' :=
  List.filterMap_append

theorem handedOut_note {o : Occurrence (Command κ μ) μ κ ι} {w : Wrapper κ} {args : List Value} :
    HandedOut (n.note o) w args id ↔
      HandedOut n w args id ∨ o = .finished (.call w args) (.ok (some id)) := by
  unfold HandedOut
  rw [Node.trace_note, List.mem_append, List.mem_singleton]
  exact or_congr_right eq_comm

theorem Coherent.note {o : Occurrence (Command κ μ) μ κ ι} (h : Coherent frame transit ledger n)
    (ho : Quiet o) : Coherent frame transit ledger (n.note o) :=
  { h with
    tabled := fun id c hc => by
      obtain ⟨w, args, hw⟩ := h.tabled id c hc
      exact ⟨w, args, handedOut_note.2 (Or.inl hw)⟩
    handed := fun w args id hw =>
      h.handed w args id ((handedOut_note.1 hw).resolve_right (ho.2 w args id))
    frames := by
      rw [Records, Node.trace_note, callFrames_append, ho.1, List.append_nil]
      exact h.frames }

theorem Keeps.note {o : Occurrence (Command κ μ) μ κ ι} (ho : Quiet o) : Keeps frame n (n.note o) :=
  fun _ _ h => ⟨Later.note n o, [], by rw [List.append_nil]; exact h.note ho⟩

theorem quiet_delivered (during : Command κ μ) (id : Nat) (h : Handler κ) (d : Delivery) :
    Quiet (.delivered during id h d : Occurrence (Command κ μ) μ κ ι) :=
  ⟨rfl, fun _ _ _ he => nomatch he⟩

theorem quiet_invoked (during : Command κ μ) (job : ι) :
    Quiet (.invoked during job : Occurrence (Command κ μ) μ κ ι) :=
  ⟨rfl, fun _ _ _ he => nomatch he⟩

theorem quiet_returned (during : Command κ μ) (job : ι) (outcome : Except String Value) :
    Quiet (.returned during job outcome : Occurrence (Command κ μ) μ κ ι) :=
  ⟨rfl, fun _ _ _ he => nomatch he⟩

theorem quiet_answer (message m : μ) :
    Quiet (.sent (.receive message) m : Occurrence (Command κ μ) μ κ ι) :=
  ⟨rfl, fun _ _ _ he => nomatch he⟩

theorem Keeps.seen {env : Node (Endpoint ε ρ κ) (Command κ μ) μ κ ι →
      Node (Endpoint ε ρ κ) (Command κ μ) μ κ ι → Prop}
    {kind : Occurrence (Command κ μ) μ κ ι → Prop} (henv : ∀ {n n'}, env n n' → Keeps frame n n')
    (hk : ∀ o, kind o → Quiet o) (h : Seen env kind n n') : Keeps frame n n' :=
  h.guarantee Keeps.refl Keeps.trans henv fun _ o ho => Keeps.note (hk o ho)

theorem Explains.quiet {during : Command κ μ} {handlers : List (Handler κ)}
    {o : Occurrence (Command κ μ) μ κ ι} (h : Explains during id handlers o) : Quiet o := by
  obtain ⟨k, -, -, reason, rfl⟩ := h
  exact quiet_delivered _ _ _ _

/-! ## Changes of the calls -/

/-- A call of the table replaced by another state of it, one that is not back from resolved. -/
theorem Later.put {call changed : Call κ} (hc : n.state.calls.find? id = some call)
    (hid : changed.id = id) (hr : call.resolved = true → changed.resolved = true) :
    Later n (n.withCalls (n.state.calls.put changed)) :=
  { Later.refl n with
    absent := fun j _ hj => by
      have hne : changed.id ≠ j := by
        rintro rfl
        rw [hid, hc] at hj
        cases hj
      exact (Calls.find?_put_ne hne n.state.calls).trans hj
    resolved := fun j c hj => by
      rw [Node.state_withCalls, Endpoint.calls_withCalls, Calls.find?_put]
      by_cases he : changed.id = j
      · rw [if_pos he]
        rw [← he, hid, hc] at hj
        cases hj
        exact ⟨changed, rfl, hr⟩
      · rw [if_neg he]
        exact ⟨c, hj, fun h => h⟩ }

/-- The state of a call may be replaced by one that is open just when the call is listed or in
transit. -/
theorem Coherent.replace {transit' : List Nat} {call changed : Call κ}
    (h : Coherent frame transit' ledger n) (hc : n.state.calls.find? id = some call)
    (hid : changed.id = id) (hopen : id ∈ n.state.calls.active → changed.resolved = false)
    (hlisted : changed.resolved = false → id ∈ n.state.calls.active ∨ id ∈ transit)
    (hcleared : changed.resolved = true → changed.handlers = [])
    (hout : ∀ j ∈ transit', id ≠ j → j ∈ transit) (hin : ∀ j ∈ transit, j ∈ transit') :
    Coherent frame transit ledger (n.withCalls (n.state.calls.put changed)) := by
  have hother {j : Nat} (hj : id ≠ j) :
      (n.state.calls.put changed).find? j = n.state.calls.find? j :=
    Calls.find?_put_ne (hid ▸ hj) n.state.calls
  subst hid
  refine { h with
    opened := ?opened, moving := ?moving, handed := ?handed
    listed := Calls.forall_put hlisted fun j c he hj hr =>
      (h.listed j c hj hr).imp_right fun ht => hout j ht he
    own := Calls.forall_put rfl fun j c _ hj => h.own j c hj
    cleared := Calls.forall_put hcleared fun j c _ hj => h.cleared j c hj
    tabled := Calls.forall_put (h.tabled changed.id call hc) fun j c _ hj => h.tabled j c hj }
  case opened =>
    intro j hj
    by_cases he : changed.id = j
    · subst he
      exact ⟨changed, Calls.find?_put_self _ _, hopen hj⟩
    · obtain ⟨c, hc, hr⟩ := h.opened j hj
      exact ⟨c, (hother he).trans hc, hr⟩
  case moving =>
    intro j hj
    obtain ⟨hno, hc⟩ := h.moving j (hin j hj)
    exact ⟨hno, Calls.exists_find?_put changed hc⟩
  case handed =>
    intro w args j hw
    obtain ⟨hc, hrest⟩ := h.handed w args j hw
    exact ⟨Calls.exists_find?_put changed hc, hrest⟩

theorem keeps_register {call changed : Call κ} {event : String} {hd : Handler κ}
    (hc : n.state.calls.find? id = some call) (ho : call.on event hd = .ok changed) :
    Keeps frame n (n.withCalls (n.state.calls.put changed)) := by
  intro transit ledger h
  obtain ⟨hu, hchanged⟩ := Call.on_eq_ok ho
  have hown : changed.id = id := hchanged ▸ h.own id call hc
  have hu' : changed.resolved = false := hchanged ▸ hu
  refine ⟨Later.put hc hown fun hr => ?_, [], ?_⟩
  · rw [hu] at hr
    cases hr
  · rw [List.append_nil]
    refine h.replace hc hown (fun _ => hu') (fun _ => h.listed id call hc hu) (fun hr => ?_)
      (fun _ hj _ => hj) fun _ hj => hj
    rw [hu'] at hr
    cases hr

theorem closes_close : Closes frame id n (n.withCalls (n.state.calls.close id)) := by
  intro transit ledger h
  obtain ⟨hnot, call, hc⟩ := h.moving id List.mem_cons_self
  have hown : call.resolve.id = id := h.own id call hc
  rw [Calls.close_of_find? hc]
  refine ⟨Later.put hc hown fun _ => rfl, [], ?_⟩
  rw [List.append_nil]
  exact h.replace hc hown (fun ha => absurd ha hnot) (fun hr => nomatch hr) (fun _ => rfl)
    (fun j hj he => List.mem_of_ne_of_mem (Ne.symm he) hj) fun j hj => List.mem_cons_of_mem _ hj

theorem Coherent.leave (h : Coherent frame (id :: transit) ledger n)
    (hr : ∀ c, n.state.calls.find? id = some c → c.resolved = true) :
    Coherent frame transit ledger n :=
  { h with
    moving := fun j hj => h.moving j (List.mem_cons_of_mem _ hj)
    listed := fun j c hj hu => by
      refine (h.listed j c hj hu).imp_right fun ht => ?_
      rcases List.mem_cons.1 ht with rfl | ht
      · rw [hr c hj] at hu
        cases hu
      · exact ht }

/-- A reply takes a call off the list; it is in transit until it is resolved. -/
theorem Coherent.settle (h : Coherent frame transit ledger n) (ha : id ∈ n.state.calls.active) :
    Coherent frame (id :: transit) ledger (n.withCalls (n.state.calls.settle id)) := by
  have hmem {j : Nat} : j ∈ (n.state.calls.settle id).active ↔ j ≠ id ∧ j ∈ n.state.calls.active :=
    Table.mem_keys_erase
  refine { h with
    sorted := h.sorted.erase id
    opened := fun j hj => h.opened j (hmem.1 hj).2
    listed := ?listed
    moving := ?moving }
  case listed =>
    intro j c hj hr
    by_cases he : j = id
    · exact Or.inr (he ▸ List.mem_cons_self)
    · exact (h.listed j c hj hr).imp (fun ha => hmem.2 ⟨he, ha⟩) (List.mem_cons_of_mem _)
  case moving =>
    intro j hj
    rcases List.mem_cons.1 hj with rfl | hj
    · obtain ⟨c, hc, -⟩ := h.opened j ha
      exact ⟨fun ha' => (hmem.1 ha').1 rfl, c, hc⟩
    · obtain ⟨hno, hc⟩ := h.moving j hj
      exact ⟨fun ha' => hno (hmem.1 ha').2, hc⟩

theorem Coherent.drain (h : Coherent frame transit ledger n) :
    Coherent frame (n.state.calls.active ++ transit) ledger
      (n.withCalls { n.state.calls with pending := [] }) := by
  refine { h with
    sorted := Table.sorted_nil
    opened := fun j hj => nomatch hj
    listed := fun j c hj hr => Or.inr (List.mem_append.2 (h.listed j c hj hr))
    moving := fun j hj => ⟨List.not_mem_nil, ?_⟩ }
  rcases List.mem_append.1 hj with hj | hj
  · obtain ⟨c, hc, -⟩ := h.opened j hj
    exact ⟨c, hc⟩
  · exact (h.moving j hj).2

theorem Later.settle (n : Node (Endpoint ε ρ κ) (Command κ μ) μ κ ι) (id : Nat) :
    Later n (n.withCalls (n.state.calls.settle id)) :=
  { Later.refl n with }

theorem Later.drain (n : Node (Endpoint ε ρ κ) (Command κ μ) μ κ ι) :
    Later n (n.withCalls { n.state.calls with pending := [] }) :=
  { Later.refl n with }

theorem keeps_allocate : Keeps frame n
    (n.withCalls { n.state.calls with nextId := n.state.calls.nextId + 1 }) := by
  intro transit ledger h
  refine ⟨{ Later.refl n with nextId := Nat.le_succ _ }, [], ?_⟩
  rw [List.append_nil]
  exact { h with below := fun e he => Nat.lt_succ_of_lt (h.below e he) }

/-- The message of a call goes out under the identifier that was just given away. -/
theorem Coherent.send {w : Wrapper κ} {args : List Value} {m : μ}
    (h : Coherent frame transit ledger n) (hm : frame n.state.calls.nextId w args m) :
    Coherent frame transit (ledger ++ [(n.state.calls.nextId, w, args)])
      ((n.withCalls { n.state.calls with nextId := n.state.calls.nextId + 1 }).note
        (.sent (.call w args) m)) := by
  refine { h with
    tabled := ?tabled, handed := ?handed, increasing := ?increasing, below := ?below,
    frames := ?frames }
  case tabled =>
    intro j c hj
    obtain ⟨w', args', hw⟩ := h.tabled j c hj
    exact ⟨w', args', handedOut_note.2 (Or.inl hw)⟩
  case handed =>
    intro w' args' j hw
    have hw' := (handedOut_note.1 hw).resolve_right fun he => nomatch he
    obtain ⟨hc, hl, ho⟩ := h.handed w' args' j hw'
    exact ⟨hc, List.mem_append_left _ hl, ho⟩
  case increasing =>
    rw [List.map_append, List.pairwise_append]
    refine ⟨h.increasing, List.pairwise_singleton _ _, ?_⟩
    intro a ha b hb
    obtain ⟨e, he, rfl⟩ := List.mem_map.1 ha
    rw [List.mem_singleton.1 hb]
    exact h.below e he
  case below =>
    intro e he
    rcases List.mem_append.1 he with he | he
    · exact Nat.lt_succ_of_lt (h.below e he)
    · rw [List.mem_singleton.1 he]
      exact Nat.lt_succ_self _
  case frames =>
    rw [Records, Node.trace_note, callFrames_append]
    exact List.rel_append h.frames (.cons ⟨rfl, hm⟩ .nil)

/-- A call that was sent is entered in the table and handed out. -/
theorem Coherent.enter {w : Wrapper κ} {args : List Value} {call : Call κ} {e : ε}
    (h : Coherent frame transit ledger n) (hl : (id, w, args) ∈ ledger)
    (hnew : n.state.calls.find? id = none) (ho : n.state.config.isOneWay w.name = false)
    (hid : call.id = id) (hu : call.resolved = false) :
    Coherent frame transit ledger ((n.withCalls (n.state.calls.enter call e)).note
      (.finished (.call w args) (.ok (some id)))) := by
  subst hid
  have hactive {j : Nat} : j ∈ (n.state.calls.enter call e).active ↔
      j = call.id ∨ j ∈ n.state.calls.active := Table.mem_keys_insert
  have hother {j : Nat} (hj : call.id ≠ j) :
      (n.state.calls.put call).find? j = n.state.calls.find? j :=
    Calls.find?_put_ne hj n.state.calls
  -- the call is listed and open; it was not in transit, as nothing was entered under it before
  refine { h with
    sorted := h.sorted.insert _ _, opened := ?opened, moving := ?moving, handed := ?handed,
    frames := ?frames
    listed := Calls.forall_put (fun _ => Or.inl (hactive.2 (Or.inl rfl))) fun j c _ hj hr =>
      (h.listed j c hj hr).imp_left fun ha => hactive.2 (Or.inr ha)
    own := Calls.forall_put rfl fun j c _ hj => h.own j c hj
    cleared := Calls.forall_put (fun hr => nomatch hu.symm.trans hr) fun j c _ hj =>
      h.cleared j c hj
    tabled := Calls.forall_put ⟨w, args, handedOut_note.2 (Or.inr rfl)⟩ fun j c _ hj => ?tabled }
  case opened =>
    intro j hj
    by_cases he : call.id = j
    · subst he
      exact ⟨call, Calls.find?_put_self _ _, hu⟩
    · obtain ⟨c, hc, hr⟩ := h.opened j ((hactive.1 hj).resolve_left (Ne.symm he))
      exact ⟨c, (hother he).trans hc, hr⟩
  case moving =>
    intro j hj
    obtain ⟨hno, c, hc⟩ := h.moving j hj
    refine ⟨fun ha => ?_, Calls.exists_find?_put call ⟨c, hc⟩⟩
    rcases hactive.1 ha with rfl | ha
    · cases hnew.symm.trans hc
    · exact hno ha
  case tabled =>
    obtain ⟨w', args', hw⟩ := h.tabled j c hj
    exact ⟨w', args', handedOut_note.2 (Or.inl hw)⟩
  case handed =>
    intro w' args' j hw
    rcases handedOut_note.1 hw with hw | he
    · obtain ⟨hc, hrest⟩ := h.handed w' args' j hw
      exact ⟨Calls.exists_find?_put call hc, hrest⟩
    · cases he
      exact ⟨⟨call, Calls.find?_put_self _ _⟩, hl, ho⟩
  case frames =>
    rw [Records, Node.trace_note, callFrames_append]
    exact (List.append_nil (callFrames n.trace)).symm ▸ h.frames

theorem Coherent.absent (h : Coherent frame transit ledger n) (hid : n.state.calls.nextId ≤ id) :
    n.state.calls.find? id = none := by
  cases hc : n.state.calls.find? id with
  | none => rfl
  | some c =>
    obtain ⟨w, args, hw⟩ := h.tabled id c hc
    have hlt := h.below _ (h.handed w args id hw).2.1
    exact absurd hlt (Nat.not_lt.2 hid)

theorem Later.enter {call : Call κ} {e : ε} (h : Later n n₁) (hid : n.state.calls.nextId ≤ call.id)
    (hnew : n₁.state.calls.find? call.id = none) :
    Later n (n₁.withCalls (n₁.state.calls.enter call e)) :=
  { h with
    absent := fun j hlt hj => by
      have hne : call.id ≠ j := by omega
      exact (Calls.find?_put_ne hne n₁.state.calls).trans (h.absent j hlt hj)
    resolved := fun j c hj => by
      obtain ⟨c', hc', hr⟩ := h.resolved j c hj
      have hne : call.id ≠ j := by
        rintro rfl
        rw [hnew] at hc'
        cases hc'
      exact ⟨c', (Calls.find?_put_ne hne n₁.state.calls).trans hc', hr⟩ }

theorem keeps_send {w : Wrapper κ} {args : List Value} {m : μ}
    (hm : frame n.state.calls.nextId w args m) :
    Keeps frame n ((n.withCalls { n.state.calls with nextId := n.state.calls.nextId + 1 }).note
      (.sent (.call w args) m)) :=
  fun _ _ h => ⟨{ Later.note n _ with nextId := Nat.le_succ _ }, _, h.send hm⟩

/-! ## Operations -/

variable {env : Node (Endpoint ε ρ κ) (Command κ μ) μ κ ι →
    Node (Endpoint ε ρ κ) (Command κ μ) μ κ ι → Prop} {during : Command κ μ}

theorem keeps_handOut {w : Wrapper κ} {args : List Value} {m : μ} {call : Call κ} {e : ε}
    (henv : ∀ {n n'}, env n n' → Keeps frame n n') (hm : frame n.state.calls.nextId w args m)
    (he : env ((n.withCalls { n.state.calls with nextId := n.state.calls.nextId + 1 }).note
      (.sent (.call w args) m)) n₁)
    (ho : n₁.state.config.isOneWay w.name = false)
    (hc : Call.startWith n.state.calls.nextId w.defaults = .ok call) :
    Keeps frame n ((n₁.withCalls (n₁.state.calls.enter call e)).note
      (.finished (.call w args) (.ok (some n.state.calls.nextId)))) := by
  intro transit ledger h
  have hcall := Call.startWith_eq_ok hc
  have hid : call.id = n.state.calls.nextId := hcall ▸ rfl
  have hu : call.resolved = false := hcall ▸ rfl
  have hfresh := h.absent (Nat.le_refl n.state.calls.nextId)
  obtain ⟨hl, more, h₁⟩ := henv he transit _ (h.send hm)
  -- the identifier was given away before the message, so nobody else enters a call under it
  have hnew := hl.absent n.state.calls.nextId (Nat.lt_succ_self _) hfresh
  have hsent : Later n ((n.withCalls { n.state.calls with nextId := n.state.calls.nextId + 1 }).note
      (.sent (.call w args) m)) := { Later.note n _ with nextId := Nat.le_succ _ }
  rw [List.append_assoc] at h₁
  refine ⟨?_, [(n.state.calls.nextId, w, args)] ++ more,
    h₁.enter (List.mem_append_right _ List.mem_cons_self) hnew ho hid hu⟩
  exact ((hsent.trans hl).enter (Nat.le_of_eq hid.symm) (hid ▸ hnew)).trans (Later.note _ _)

theorem keeps_runs_register {event : String} {hd : Handler κ} {r : Except Error Unit}
    (h : Operation.Runs env during (Endpoint.register id event hd) n r n') : Keeps frame n n' := by
  rcases Endpoint.runs_register h with ⟨_, -, rfl⟩ | ⟨call, changed, hc, ho, -, rfl⟩
  · exact Keeps.refl n'
  · exact keeps_register hc ho

theorem closes_told (success : Bool) {payload : Payload} {r : Except Error Unit}
    (henv : ∀ {n n'}, env n n' → Keeps frame n n')
    (h : Operation.Runs env during (if success then Endpoint.succeed id payload
      else Endpoint.raise id payload) n r n') : Closes frame id n n' := by
  rcases Endpoint.runs_told h with ⟨rfl, hr⟩ | ⟨call, -, -, hg⟩
  · exact fun _ _ h => ⟨Later.refl n', [], by rw [List.append_nil]; exact h.leave hr⟩
  · have hseen : Seen env Quiet (n.withCalls (n.state.calls.close id)) n' :=
      hg.seen fun h d _ => quiet_delivered during id h d
    exact closes_close.trans (Keeps.seen henv (fun _ ho => ho) hseen)

theorem keeps_settle {e : ε} (hp : Table.find? id n.state.calls.pending = some e)
    (h : Closes frame id (n.withCalls (n.state.calls.settle id)) n') : Keeps frame n n' := by
  intro transit ledger hn
  obtain ⟨hl, more, hm⟩ := h transit ledger (hn.settle (Table.mem_keys_of_find? hp))
  exact ⟨(Later.settle n id).trans hl, more, hm⟩

theorem keeps_failEach {reason : String} {ids : List Nat} {r : Except Error Unit}
    (henv : ∀ {n n'}, env n n' → Keeps frame n n')
    (h : Operation.Runs env during (Endpoint.failEach reason ids) n r n')
    (hn : Coherent frame (ids ++ transit) ledger n) :
    Later n n' ∧ ∃ more, Coherent frame transit (ledger ++ more) n' := by
  induction ids generalizing n ledger with
  | nil =>
    obtain ⟨-, rfl⟩ := h
    exact ⟨Later.refl n', [], by rwa [List.append_nil]⟩
  | cons id rest ih =>
    obtain ⟨n₁, hs, h⟩ := Endpoint.runs_failEach_cons h
    have hclose : Closes frame id n n₁ :=
      closes_close.trans (Keeps.seen henv (fun _ => Explains.quiet) hs.explains)
    obtain ⟨hl₁, more₁, h₁⟩ := hclose _ _ hn
    obtain ⟨hl₂, more₂, h₂⟩ := ih h h₁
    exact ⟨hl₁.trans hl₂, more₁ ++ more₂, by rwa [← List.append_assoc]⟩

theorem keeps_failAll {reason : String} {r : Except Error Unit}
    (henv : ∀ {n n'}, env n n' → Keeps frame n n')
    (h : Operation.Runs env during (Endpoint.failAll reason) n r n') : Keeps frame n n' := by
  intro transit ledger hn
  obtain ⟨hl, more, hm⟩ := keeps_failEach henv (Endpoint.runs_failAll h) hn.drain
  exact ⟨(Later.drain n).trans hl, more, hm⟩

theorem keeps_finished {c : Command κ μ} {r : Except Error (Option Nat)}
    (hc : ∀ w args id, c = .call w args → r ≠ .ok (some id)) (h : Keeps frame n n') :
    Keeps frame n (n'.note (.finished c r)) := by
  refine h.trans (Keeps.note ⟨rfl, ?_⟩)
  rintro w args id he
  cases he
  exact hc w args id rfl rfl

theorem keeps_calling {w : Wrapper κ} {args : List Value} {e : ε} {message : Nat → Except Error μ}
    {r : Except Error (Option Nat)} (henv : ∀ {n n'}, env n n' → Keeps frame n n')
    (hframe : ∀ m, n.state.calls.nextId < idLimit → message n.state.calls.nextId = .ok m →
      frame n.state.calls.nextId w args m)
    (h : Endpoint.Calling env (.call w args) w e message n r n') :
    Keeps frame n (n'.note (.finished (.call w args) r)) := by
  cases h with
  | exhausted => exact keeps_finished (fun _ _ _ _ hr => by cases hr) (Keeps.refl _)
  | unsent hm => exact keeps_finished (fun _ _ _ _ hr => by cases hr) keeps_allocate
  | @sent m n₁ _ _ hl hm he h =>
    have hsent : Keeps frame n n₁ := (keeps_send (hframe m hl hm)).trans (henv he)
    cases h with
    | oneWay => exact keeps_finished (fun _ _ _ _ hr => by cases hr) hsent
    | refused => exact keeps_finished (fun _ _ _ _ hr => by cases hr) hsent
    | entered ho hc => exact keeps_handOut henv (hframe m hl hm) he ho hc

end

/-! ## Commands -/

section

variable {κ ι : Type}

/-- The message of a call of a peer; its identifier has four bytes. -/
def Peer.CallFrame (id : Nat) (w : Wrapper κ) (args : List Value) (m : String) : Prop :=
  id < idLimit ∧ m = (Json.array (callMessage id w.name args)).text

/-- The frame of a call of a caller; its identifier has four bytes. -/
def Caller.CallFrame (id : Nat) (w : Wrapper κ) (args : List Value) (m : List UInt8) : Prop :=
  id < idLimit ∧ requestFrame id w.name args w.encoding.args = .ok m

/-- Every command to a peer keeps the invariant, if what happens meanwhile does. -/
theorem Peer.keeps : Guarantees (Peer.perform (κ := κ) (ι := ι)) (Keeps CallFrame) := by
  intro env henv c n r n' h
  cases c with
  | call w args =>
    exact keeps_calling henv (fun m hl hm => ⟨hl, (Except.ok.inj hm).symm⟩) (runs_call h)
  | on id event hd =>
    obtain ⟨r', h, -⟩ := Operation.runs_as h
    exact keeps_finished (fun _ _ _ h => nomatch h) (keeps_runs_register h)
  | receive message =>
    obtain ⟨r', h, -⟩ := Operation.runs_as h
    refine keeps_finished (fun _ _ _ h => nomatch h) ?_
    rcases runs_receive h with ⟨rfl, -⟩ | ⟨rest, ⟨-, h⟩ | ⟨-, h⟩⟩
    · exact Keeps.refl _
    · rcases runs_receiveReply h with ⟨rfl, -⟩ | ⟨id, success, -, -, hp, h⟩
      · exact Keeps.refl _
      · exact keeps_settle hp (closes_told success henv h)
    · rcases runs_receiveCall h with ⟨rfl, -⟩ |
        ⟨-, id, name, f, args, job, outcome, n₁, -, -, -, -, -, -, he, h⟩
      · exact Keeps.refl _
      · have hreturned : Keeps CallFrame n (n₁.note (.returned (.receive message) job outcome)) :=
          ((Keeps.note (quiet_invoked _ _)).trans (henv he)).trans
            (Keeps.note (quiet_returned _ _ _))
        rcases h with rfl | he
        · exact hreturned
        · exact hreturned.trans ((Keeps.note (quiet_answer _ _)).trans (henv he))
  | close =>
    obtain ⟨r', h, -⟩ := Operation.runs_as h
    exact keeps_finished (fun _ _ _ h => nomatch h) (keeps_failAll henv h)
  | fail reason =>
    obtain ⟨r', h, -⟩ := Operation.runs_as h
    exact keeps_finished (fun _ _ _ h => nomatch h) (keeps_failAll henv h)

theorem Caller.keeps : Guarantees (Caller.perform (κ := κ) (ι := ι)) (Keeps CallFrame) := by
  intro env henv c n r n' h
  cases c with
  | call w args =>
    exact keeps_calling henv (fun m hl hm => ⟨hl, hm⟩) (runs_call h)
  | on id event hd =>
    obtain ⟨r', h, -⟩ := Operation.runs_as h
    exact keeps_finished (fun _ _ _ h => nomatch h) (keeps_runs_register h)
  | receive message =>
    obtain ⟨r', h, -⟩ := Operation.runs_as h
    refine keeps_finished (fun _ _ _ h => nomatch h) ?_
    rcases runs_receive h with ⟨rfl, -⟩ | ⟨id, after, result, -, hp, h⟩
    · exact Keeps.refl _
    · exact keeps_settle hp (closes_told true henv h)
  | close =>
    obtain ⟨r', h, -⟩ := Operation.runs_as h
    exact keeps_finished (fun _ _ _ h => nomatch h) (keeps_failAll henv h)
  | fail reason =>
    obtain ⟨r', h, -⟩ := Operation.runs_as h
    exact keeps_finished (fun _ _ _ h => nomatch h) (keeps_failAll henv h)

/-! ## Runs -/

theorem coherent_start {ε ρ μ : Type} {frame : Nat → Wrapper κ → List Value → μ → Prop}
    (config : Config) (terms : ρ) :
    Coherent frame [] [] (.start (.ofTerms config terms) :
      Node (Endpoint ε ρ κ) (Command κ μ) μ κ ι) where
  sorted := Table.sorted_nil
  opened _ h := nomatch h
  listed _ _ h := nomatch h
  moving _ h := nomatch h
  own _ _ h := nomatch h
  cleared _ _ h := nomatch h
  tabled _ _ h := nomatch h
  handed _ _ _ h := nomatch h
  increasing := .nil
  below _ h := nomatch h
  frames := .nil

theorem Peer.keeps_of_reaches {n n' : Node (Peer κ ι) (Command κ String) String κ ι}
    (h : Reaches Peer.Acts n n') : Keeps Peer.CallFrame n n' :=
  h.guarantee Keeps.refl Keeps.trans fun henv _ _ ha => Peer.keeps.acts henv ha

theorem Caller.keeps_of_reaches
    {n n' : Node (Caller κ) (Command κ (List UInt8)) (List UInt8) κ ι}
    (h : Reaches Caller.Acts n n') : Keeps Caller.CallFrame n n' :=
  h.guarantee Keeps.refl Keeps.trans fun henv _ _ ha => Caller.keeps.acts henv ha

theorem mem_callFrames {μ : Type} {trace : List (Occurrence (Command κ μ) μ κ ι)} {w : Wrapper κ}
    {args : List Value} {m : μ} :
    (w, args, m) ∈ callFrames trace ↔ .sent (.call w args) m ∈ trace := by
  unfold callFrames
  rw [List.mem_filterMap]
  constructor
  · rintro ⟨o, ho, he⟩
    split at he
    · cases he
      exact ho
    · cases he
  · intro h
    exact ⟨_, h, rfl⟩

/-- Each entry of the ledger is a message that went out. -/
theorem Records.sent {μ : Type} {frame : Nat → Wrapper κ → List Value → μ → Prop}
    {ledger : Ledger κ} {trace : List (Occurrence (Command κ μ) μ κ ι)}
    (h : Records frame ledger trace) {id : Nat} {w : Wrapper κ} {args : List Value}
    (he : (id, w, args) ∈ ledger) : ∃ m, frame id w args m ∧ .sent (.call w args) m ∈ trace := by
  obtain ⟨⟨w', args', m⟩, hf, heq, hm⟩ := exists_mem_of_forall₂ h he
  cases heq
  exact ⟨m, hm, mem_callFrames.1 hf⟩

/-- Each call message that went out is in the ledger. -/
theorem Records.entry {μ : Type} {frame : Nat → Wrapper κ → List Value → μ → Prop}
    {ledger : Ledger κ} {trace : List (Occurrence (Command κ μ) μ κ ι)}
    (h : Records frame ledger trace) {w : Wrapper κ} {args : List Value} {m : μ}
    (hs : .sent (.call w args) m ∈ trace) : ∃ id, (id, w, args) ∈ ledger ∧ frame id w args m := by
  obtain ⟨⟨id, w', args'⟩, he, heq, hm⟩ :=
    exists_mem_of_forall₂ (List.Forall₂.flip h) (mem_callFrames.2 hs)
  cases heq
  exact ⟨id, he, hm⟩

theorem Coherent.unique {ε ρ μ : Type} {frame : Nat → Wrapper κ → List Value → μ → Prop}
    {transit : List Nat} {ledger : Ledger κ} {n : Node (Endpoint ε ρ κ) (Command κ μ) μ κ ι}
    (h : Coherent frame transit ledger n) {id : Nat} {a b : Wrapper κ × List Value}
    (ha : (id, a) ∈ ledger) (hb : (id, b) ∈ ledger) : a = b := by
  have hsorted : Table.Sorted ledger := h.increasing
  have hfa := Table.find?_of_mem hsorted.nodup ha
  rw [Table.find?_of_mem hsorted.nodup hb] at hfa
  exact (Option.some.inj hfa).symm

/-- What holds of the calls of an endpoint between two commands. -/
structure WellKept {ε ρ μ : Type} (frame : Nat → Wrapper κ → List Value → μ → Prop)
    (n : Node (Endpoint ε ρ κ) (Command κ μ) μ κ ι) : Prop where
  /-- The list of pending calls increases strictly. -/
  increasing : n.state.calls.active.Pairwise (· < ·)
  /-- It lists the calls that were handed out and are not resolved. -/
  listed : ∀ id, id ∈ n.state.calls.active ↔ ∃ w args call, HandedOut n w args id ∧
    n.state.calls.find? id = some call ∧ call.resolved = false
  /-- Every identifier on it was given away. -/
  below : ∀ id ∈ n.state.calls.active, id < n.state.calls.nextId
  /-- The identifiers in the call messages that went out increase strictly, and one whose function
  is called one way belongs to no call of the table. -/
  sent : ∃ ledger : Ledger κ, (ledger.map Prod.fst).Pairwise (· < ·) ∧
    Records frame ledger n.trace ∧ ∀ id w args, (id, w, args) ∈ ledger →
      id < n.state.calls.nextId ∧ (n.state.config.isOneWay w.name = true →
        n.state.calls.find? id = none)
  /-- A call of the table was handed out, sent its message and is not called one way. -/
  tabled : ∀ id call, n.state.calls.find? id = some call → ∃ w args m, HandedOut n w args id ∧
    frame id w args m ∧ .sent (.call w args) m ∈ n.trace ∧ n.state.config.isOneWay w.name = false
  /-- A call that no message carries sends nothing and is not handed out. -/
  unsent : ∀ w args, (∀ id m, ¬ frame id w args m) →
    (∀ m, .sent (.call w args) m ∉ n.trace) ∧ ∀ id, ¬ HandedOut n w args id
  /-- A resolved call has no handlers. -/
  cleared : ∀ id call, n.state.calls.find? id = some call → call.resolved = true →
    call.handlers = []

theorem Coherent.wellKept {ε ρ μ : Type} {frame : Nat → Wrapper κ → List Value → μ → Prop}
    {ledger : Ledger κ} {n : Node (Endpoint ε ρ κ) (Command κ μ) μ κ ι}
    (h : Coherent frame [] ledger n) : WellKept frame n where
  increasing := h.sorted
  listed id := by
    constructor
    · intro hid
      obtain ⟨call, hc, hu⟩ := h.opened id hid
      obtain ⟨w, args, hw⟩ := h.tabled id call hc
      exact ⟨w, args, call, hw, hc, hu⟩
    · rintro ⟨w, args, call, -, hc, hu⟩
      exact (h.listed id call hc hu).resolve_right List.not_mem_nil
  below id hid := by
    obtain ⟨call, hc, -⟩ := h.opened id hid
    obtain ⟨w, args, hw⟩ := h.tabled id call hc
    exact h.below _ (h.handed w args id hw).2.1
  sent := by
    refine ⟨ledger, h.increasing, h.frames, fun id w args he => ⟨h.below _ he, fun ho => ?_⟩⟩
    -- a call of the table under the identifier would be the one in the ledger
    cases hc : n.state.calls.find? id with
    | none => rfl
    | some call =>
      obtain ⟨w', args', hw⟩ := h.tabled id call hc
      obtain ⟨-, hl, ho'⟩ := h.handed w' args' id hw
      cases h.unique he hl
      rw [ho] at ho'
      cases ho'
  tabled id call hc := by
    obtain ⟨w, args, hw⟩ := h.tabled id call hc
    obtain ⟨-, hl, ho⟩ := h.handed w args id hw
    obtain ⟨m, hm, hs⟩ := h.frames.sent hl
    exact ⟨w, args, m, hw, hm, hs, ho⟩
  unsent w args hno := by
    constructor
    · intro m hs
      obtain ⟨id, -, hm⟩ := h.frames.entry hs
      exact hno id m hm
    · intro id hw
      obtain ⟨m, hm, -⟩ := h.frames.sent (h.handed w args id hw).2.1
      exact hno id m hm
  cleared := h.cleared

/-- Arguments that cannot be encoded make no request, whatever its identifier. -/
theorem requestFrame_ne_ok {id : Nat} {name : String} {args : List Value}
    {encoding : List Encoding} {e : Error}
    (h : (encodeArguments encoding args).toExcept = .error e) (m : List UInt8) :
    requestFrame id name args encoding ≠ .ok m := by
  intro hm
  obtain ⟨encoded, hb, -⟩ := bind_eq_ok.1 hm
  rw [h] at hb
  cases hb

/-- A call that is resolved stays resolved, and has no handlers. -/
def StaysResolved {ε ρ μ : Type} (n n' : Node (Endpoint ε ρ κ) (Command κ μ) μ κ ι) : Prop :=
  ∀ id call, n.state.calls.find? id = some call → call.resolved = true →
    ∃ call', n'.state.calls.find? id = some call' ∧ call'.resolved = true ∧ call'.handlers = []

theorem Coherent.wellKept_and_stays {ε ρ μ : Type}
    {frame : Nat → Wrapper κ → List Value → μ → Prop} {ledger : Ledger κ}
    {n n' : Node (Endpoint ε ρ κ) (Command κ μ) μ κ ι} (h : Coherent frame [] ledger n)
    (hk : Keeps frame n n') : WellKept frame n ∧ StaysResolved n n' := by
  refine ⟨h.wellKept, ?_⟩
  intro id call hc hr
  obtain ⟨hl, more, h'⟩ := hk [] ledger h
  obtain ⟨call', hc', hr'⟩ := hl.resolved id call hc
  exact ⟨call', hc', hr' hr, h'.cleared id call' hc' (hr' hr)⟩

/-- The calls of every peer and of every caller are well kept after any commands. A call whose
arguments cannot be encoded sends nothing and is not handed out. -/
theorem calls_wellKept :
    (∀ (config : Config) (registry : Registry ι)
      (n n' : Node (Peer κ ι) (Command κ String) String κ ι),
      Reaches Peer.Acts (.start (.ofTerms config registry)) n → Reaches Peer.Acts n n' →
        WellKept Peer.CallFrame n ∧ StaysResolved n n') ∧
    ∀ (config : Config) (mappings : Mappings)
      (n n' : Node (Caller κ) (Command κ (List UInt8)) (List UInt8) κ ι),
      Reaches Caller.Acts (.start (.ofTerms config mappings)) n → Reaches Caller.Acts n n' →
        (WellKept Caller.CallFrame n ∧ StaysResolved n n') ∧
          ∀ w args e, (encodeArguments w.encoding.args args).toExcept = .error e →
            (∀ m, .sent (.call w args) m ∉ n.trace) ∧ ∀ id, ¬ HandedOut n w args id := by
  constructor
  · intro config registry n n' h h'
    obtain ⟨-, ledger, hn⟩ := Peer.keeps_of_reaches h [] [] (coherent_start config registry)
    exact hn.wellKept_and_stays (Peer.keeps_of_reaches h')
  · intro config mappings n n' h h'
    obtain ⟨-, ledger, hn⟩ := Caller.keeps_of_reaches h [] [] (coherent_start config mappings)
    refine ⟨hn.wellKept_and_stays (Caller.keeps_of_reaches h'), ?_⟩
    intro w args e he
    exact hn.wellKept.unsent w args fun id m hm => requestFrame_ne_ok he m hm.2

/-- A caller calls a function, and its transport closes. -/
theorem calls_wellKept_until_close :
    ∃ n n' : Node (Caller Unit) (Command Unit (List UInt8)) (List UInt8) Unit Unit,
      Reaches Caller.Acts (.start (.ofTerms .default [])) n ∧ Reaches Caller.Acts n n' ∧
        n.state.calls.active = [0] ∧ n'.state.calls.active = [] ∧
        n'.state.calls.table.map (fun e => (e.1, e.2.resolved)) = [(0, true)] ∧
        WellKept Caller.CallFrame n ∧ StaysResolved n n' := by
  let w : Wrapper Unit := ⟨"f", ⟨[], []⟩, [.error ()]⟩
  let called : Node (Caller Unit) (Command Unit (List UInt8)) (List UInt8) Unit Unit :=
    ⟨⟨.default, [], ⟨1, [(0, [])], [(0, ⟨0, false, [.error ()]⟩)]⟩⟩,
      [.sent (.call w []) (littleEndian 4 0 ++ zeroTerminated w.name ++ [])]⟩
  let n := called.note (.finished (.call w []) (.ok (some 0)))
  let closed : Node (Caller Unit) (Command Unit (List UInt8)) (List UInt8) Unit Unit :=
    ⟨⟨.default, [], ⟨1, [], [(0, ⟨0, true, []⟩)]⟩⟩,
      n.trace ++ [.delivered .close 0 (.error ()) (.reason "Connection closed.")]⟩
  let n' := closed.note (.finished .close (.ok none))
  have hn : Reaches Caller.Acts (.start (.ofTerms .default [])) n := by
    refine .single ⟨1, .call w [], .ok (some 0), called, trivial, ?_, rfl⟩
    exact ⟨_, true, .refl, rfl, rfl⟩
  have hn' : Reaches Caller.Acts n n' := by
    refine .single ⟨1, .close, .ok none, closed, trivial, ?_, rfl⟩
    exact ⟨_, .ok (), .refl, rfl, rfl⟩
  exact ⟨n, n', hn, hn', rfl, rfl, rfl, (calls_wellKept.2 .default [] n n' hn hn').1⟩

end

end Parley
