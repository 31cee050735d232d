import Parley.Proofs.Accounts
import Parley.Proofs.Fates
import Parley.Proofs.Peers
import Parley.Proofs.Resolutions

/-!
# One outcome for each call

However messages, calls, registrations and the end of the connection follow one another and run in
one another, a call ends at most once, in one outcome, and its handlers learn of it from what ended
it.

* `Outcome`, `Delivery.outcome?` : the three outcomes, and the one a handler is told of.
* `Peer.replies`, `Caller.replies` : the messages that end calls of peers and of callers.
* `Peer.passes`, `Caller.passes` : every command to one of them keeps the invariant of each call.
* `OneOutcome` : what holds of all that was seen of a call; `Stands.oneOutcome` : the invariant says so
  between commands.
* `calls_end_once` : it holds after any commands.
-/

namespace Parley

variable {ε ρ μ κ ι : Type}

/-! ## Outcomes -/

/-- How a call ends. -/
inductive Outcome where
  | result
  | exception
  | error
  deriving DecidableEq, Repr

/-- The outcome that a reply tells. -/
def Outcome.ofReply (success : Bool) : Outcome :=
  if success then result else exception

theorem Outcome.ofReply_inj {success success' : Bool} :
    ofReply success = ofReply success' ↔ success = success' := by
  cases success <;> cases success' <;> decide

theorem Outcome.ofReply_ne_error (success : Bool) : ofReply success ≠ error := by
  cases success <;> decide

/-- The outcome that a handler of a slot learns of from what it is given. -/
def Delivery.outcome? (slot : Slot) (d : Delivery) : Option Outcome :=
  match slot, d with
  | .result _, .value _ => some .result
  | .exception _, .value _ => some .exception
  | .either .., .either none (some _) => some .result
  | .either .., .either (some _) none => some .exception
  | .error, .reason _ => some .error
  | _, _ => none

/-- The type a slot gives to what a reply tells. -/
def Slot.replyType? (success : Bool) (s : Slot) : Option Ty :=
  if success then s.resultType? else s.exceptionType?

theorem outcome?_resultFor {h : Handler κ} {v : Value} {t : Ty} {d : Delivery}
    (ht : h.slot.resultType? = some t) (hd : Endpoint.resultFor h v = .ok d) :
    d.outcome? h.slot = some .result := by
  unfold Endpoint.resultFor at hd
  obtain ⟨w, -, hd⟩ := bind_eq_ok.1 hd
  cases hs : h.slot with
  | result =>
    rw [hs] at hd
    cases hd
    rfl
  | either =>
    rw [hs] at hd
    cases hd
    rfl
  | _ =>
    rw [hs] at ht
    cases ht

theorem outcome?_exceptionFor {h : Handler κ} {v : Value} {t : Ty} {d : Delivery}
    (ht : h.slot.exceptionType? = some t) (hd : Endpoint.exceptionFor h v = .ok d) :
    d.outcome? h.slot = some .exception := by
  unfold Endpoint.exceptionFor at hd
  obtain ⟨w, -, hd⟩ := bind_eq_ok.1 hd
  cases hs : h.slot with
  | exception =>
    rw [hs] at hd
    cases hd
    rfl
  | either =>
    rw [hs] at hd
    cases hd
    rfl
  | _ =>
    rw [hs] at ht
    cases ht

theorem outcome?_explanations {reason : String} {handlers : List (Handler κ)} {h : Handler κ}
    {d : Delivery} (hm : (h, d) ∈ Endpoint.explanations reason handlers) :
    d.outcome? h.slot = some .error := by
  obtain ⟨-, he, rfl⟩ := Endpoint.mem_explanations.1 hm
  cases hs : h.slot with
  | error => rfl
  | _ =>
    rw [hs] at he
    cases he

/-- The handlers of a call are told all of what the reply tells, or all of an error. -/
theorem outcome?_endings {payload : Payload} {slotType? : Slot → Option Ty}
    {read : Handler κ → Value → Except TypeMismatch Delivery} {handlers : List (Handler κ)}
    {outcome : Outcome} (hread : ∀ h v t d, slotType? h.slot = some t → read h v = .ok d →
      d.outcome? h.slot = some outcome) :
    (∀ h d, (h, d) ∈ Endpoint.endings payload slotType? read handlers →
      d.outcome? h.slot = some outcome) ∨
    (∃ h ∈ handlers, ∃ t e, slotType? h.slot = some t ∧ payload.cast t = .error e) ∧
      ∀ h d, (h, d) ∈ Endpoint.endings payload slotType? read handlers →
        d.outcome? h.slot = some .error := by
  unfold Endpoint.endings
  cases hcast : Endpoint.castAll payload slotType? handlers with
  | error e =>
    obtain ⟨h, hm, t, ht, hv⟩ := Endpoint.exists_of_castAll_eq_error hcast
    exact Or.inr ⟨⟨h, hm, t, e, ht, hv⟩, fun _ _ => outcome?_explanations⟩
  | ok casts =>
    refine Or.inl fun h d hm => ?_
    obtain ⟨v, hv, hd⟩ := Endpoint.mem_readings.1 hm
    obtain ⟨-, t, ht, -⟩ := Endpoint.mem_castAll hcast hv
    exact hread h v t d ht hd

theorem outcome?_told (success : Bool) (payload : Payload) (handlers : List (Handler κ)) :
    (∀ h d, (h, d) ∈ Endpoint.told success payload handlers →
      d.outcome? h.slot = some (.ofReply success)) ∨
    (∃ h ∈ handlers, ∃ t e, h.slot.replyType? success = some t ∧ payload.cast t = .error e) ∧
      ∀ h d, (h, d) ∈ Endpoint.told success payload handlers →
        d.outcome? h.slot = some .error := by
  cases success with
  | true => exact outcome?_endings fun _ _ _ _ => outcome?_resultFor
  | false => exact outcome?_endings fun _ _ _ _ => outcome?_exceptionFor

theorem Takes.sublist {R : Replies ε μ} {k : Nat} {c : Occasion ε ρ μ κ}
    {ends : List (Handler κ) → List (Handler κ × Delivery)} (h : Takes R k c ends)
    (handlers : List (Handler κ)) : ((ends handlers).map Prod.fst).Sublist handlers := by
  cases h with
  | @reply success payload _ =>
    cases success with
    | true => exact Endpoint.endings_sublist payload Slot.resultType? Endpoint.resultFor handlers
    | false =>
      exact Endpoint.endings_sublist payload Slot.exceptionType? Endpoint.exceptionFor handlers
  | sweep => exact Endpoint.explanations_sublist _ handlers

/-! ## Peers -/

/-- The message is a reply to the call. -/
def Peer.Names (m : String) (id : Nat) : Prop :=
  ∃ rest, Json.parseArray? m = some (.string "call-reply" :: rest) ∧ callId rest[0]? = .ok id

/-- Replies to peers. -/
def Peer.replies : Replies Unit String where
  names := Names
  tells _ := Tells
  names_of_tells := fun ⟨rest, hm, hid, _⟩ => ⟨rest, hm, hid⟩
  names_unique := by
    rintro m i j ⟨rest, hm, hi⟩ ⟨rest', hm', hj⟩
    cases hm.symm.trans hm'
    cases hi.symm.trans hj
    rfl
  tells_unique := by
    rintro _ m id success success' _ _ ⟨rest, hm, -, hs, rfl⟩ ⟨rest', hm', -, hs', rfl⟩
    cases hm.symm.trans hm'
    exact ⟨Option.some.inj (hs.symm.trans hs'), rfl⟩

/-- Every command to a peer keeps the invariant of a call, if what happens meanwhile does. -/
theorem Peer.passes (k : Nat)
    {env : History Unit (Registry ι) String κ ι → History Unit (Registry ι) String κ ι → Prop}
    (henv : ∀ {n n'}, env n n' → Passes replies k n n')
    {n n' : History Unit (Registry ι) String κ ι} (hacts : Occasion.Acts perform env n n') :
    Passes replies k n n' := by
  obtain ⟨command, r, n₁, h, rfl⟩ := hacts.runs
  cases command with
  | call w args => exact passes_calling henv (runs_call h)
  | on id event hd => exact passes_on h
  | receive m =>
    obtain ⟨r', hrun, rfl⟩ := Operation.runs_as h
    rcases runs_receive hrun with ⟨rfl, -, hno⟩ | ⟨rest, ⟨hm, h⟩ | ⟨hm, h⟩⟩
    · exact passes_refused (fun _ _ _ _ ⟨rest, hm, _⟩ => hno rest hm)
        fun ⟨rest, hm, _⟩ => absurd hm (hno rest)
    · -- a reply that names the call takes it; one that names no pending call is refused
      rcases runs_receiveReply h with ⟨rfl, ⟨e, rfl, he⟩, hno⟩ | ⟨id, success, hid, hf, hp, h⟩
      · refine passes_refused ?_ fun _ => ⟨e, rfl, he⟩
        rintro _ success payload hp ⟨rest', hm', hid, hf, -⟩
        cases hm.symm.trans hm'
        exact nomatch (hno k success hid hf).symm.trans hp
      · exact passes_reply henv hp ⟨rest, hm, hid, hf, rfl⟩ h
    · -- a call that comes in names no call of this endpoint, whatever runs in its course
      have hno : ¬ Names m k := by
        rintro ⟨rest', hm', -⟩
        exact absurd (hm.symm.trans hm') (by simp)
      have hnote {o : Occurrence (Occasion Unit (Registry ι) String κ) String κ ι}
          {a : History Unit (Registry ι) String κ ι} (ho : o.during = ⟨.receive m, n.state⟩)
          (hg : o.gives? k = none) (hr : o.registers k = []) :
          Passes replies k a (a.note o) :=
        (Goes.note ho hr hg).passes fun f => Fate.allows_receive hno n.state
      have hrun : Passes replies k n n₁ := by
        rcases runs_receiveCall h with ⟨rfl, -⟩ |
          ⟨-, id, name, f, args, job, outcome, n₂, -, -, -, -, -, -, he, h⟩
        · exact Passes.refl _
        · have hinvoked : Passes replies k n n₂ :=
            (hnote (o := .invoked ⟨.receive m, n.state⟩ job) rfl rfl rfl).trans (henv he)
          have hreturned :=
            hinvoked.trans (hnote (o := .returned ⟨.receive m, n.state⟩ job outcome) rfl rfl rfl)
          rcases h with rfl | he'
          · exact hreturned
          · exact (hreturned.trans (hnote rfl rfl rfl)).trans (henv he')
      exact hrun.trans (hnote rfl rfl rfl)
  | close =>
    obtain ⟨r', h, -⟩ := Operation.runs_as h
    exact passes_failAll henv (.close n.state) rfl h
  | fail reason =>
    obtain ⟨r', h, -⟩ := Operation.runs_as h
    exact passes_failAll henv (.fail reason n.state) rfl h

/-! ## Callers -/

/-- The frame brings the result of a call whose result has the encoding. -/
def Caller.Brings (encoding : List Encoding) (frame : List UInt8) (id : Nat) (success : Bool)
    (payload : Payload) : Prop :=
  success = true ∧ ∃ after, Reader.word.run (Cursor.start frame) = (.ok id, after) ∧
    payload = .wire after.rest encoding

/-- Replies to callers. -/
def Caller.replies : Replies (List Encoding) (List UInt8) where
  names := Names
  tells := Brings
  names_of_tells := fun ⟨_, after, hw, _⟩ => ⟨after, hw⟩
  names_unique := Names.unique
  tells_unique := by
    rintro _ m id _ _ _ _ ⟨rfl, after, hw, rfl⟩ ⟨rfl, after', hw', rfl⟩
    cases hw.symm.trans hw'
    exact ⟨rfl, rfl⟩

theorem Caller.passes (k : Nat) {env : History (List Encoding) Mappings (List UInt8) κ ι →
      History (List Encoding) Mappings (List UInt8) κ ι → Prop}
    (henv : ∀ {n n'}, env n n' → Passes replies k n n')
    {n n' : History (List Encoding) Mappings (List UInt8) κ ι}
    (hacts : Occasion.Acts perform env n n') : Passes replies k n n' := by
  obtain ⟨command, r, n₁, h, rfl⟩ := hacts.runs
  cases command with
  | call w args => exact passes_calling henv (runs_call h)
  | on id event hd => exact passes_on h
  | receive frame =>
    obtain ⟨r', hrun, rfl⟩ := Operation.runs_as h
    rcases runs_receive hrun with ⟨rfl, -, hno⟩ | ⟨id, after, encoding, hw, hp, h⟩
    · refine passes_refused ?_ ?_
      · rintro encoding success payload hp ⟨-, after, hw, -⟩
        exact nomatch (hno k after hw).1.symm.trans hp
      · rintro ⟨after, hw⟩
        obtain ⟨-, rfl⟩ := hno k after hw
        exact ⟨_, rfl, rfl⟩
    · have hbrings : Brings encoding frame id true (.wire after.rest encoding) :=
        ⟨rfl, after, hw, rfl⟩
      exact passes_reply henv hp hbrings h
  | close =>
    obtain ⟨r', h, -⟩ := Operation.runs_as h
    exact passes_failAll henv (.close n.state) rfl h
  | fail reason =>
    obtain ⟨r', h, -⟩ := Operation.runs_as h
    exact passes_failAll henv (.fail reason n.state) rfl h

/-! ## All that was seen of a call -/

/-- What holds of a call in all that was seen of its endpoint. -/
structure OneOutcome (R : Replies ε μ) (k : Nat)
    (trace : List (Occurrence (Occasion ε ρ μ κ) μ κ ι)) : Prop where
  /-- Every handler that was registered for the call is invoked at most once. -/
  once : ((deliveries k trace).map Prod.fst).Sublist (registered k trace)
  /-- Its handlers are invoked for one outcome. -/
  single : ∃ outcome : Outcome, ∀ h d, (h, d) ∈ deliveries k trace →
    d.outcome? h.slot = some outcome
  /-- They learn of a result or of an exception from a reply to the call while it is pending. -/
  replied : ∀ c h d success, .delivered c k h d ∈ trace →
    d.outcome? h.slot = some (.ofReply success) → ∃ payload, c.Tells R k success payload
  /-- They learn of an error from such a reply if its payload does not cast for one of them, or from
  the end of the connection while the call is pending. -/
  failed : ∀ c h d, .delivered c k h d ∈ trace → d.outcome? h.slot = some .error →
    (∃ success payload, c.Tells R k success payload ∧ ∃ w ∈ Call.inForce (registered k trace),
      ∃ t e, w.slot.replyType? success = some t ∧ payload.cast t = .error e) ∨
    ∃ reason, c.Sweeps reason ∧ k ∈ c.state.calls.active
  /-- A reply that is dealt with while the call is pending gives the handlers in force what it tells
  them; that is all that they are given, and every other message that names the call is refused. -/
  settled : ∀ c r success payload, .finished c r ∈ trace → c.Tells R k success payload →
    deliveries k trace = Endpoint.told success payload (Call.inForce (registered k trace)) ∧
    (∀ c' h d, .delivered c' k h d ∈ trace → c' = c) ∧
    ∀ o ∈ trace, ∀ m, o.during.command = .receive m → R.names m k → o.during ≠ c → o.Refused
  /-- If the connection ends while the call is pending, the handler for errors that was registered
  last is given the reason, that is all that its handlers are given, and every message that names
  the call is refused. -/
  swept : ∀ c r reason, .finished c r ∈ trace → c.Sweeps reason → k ∈ c.state.calls.active →
    deliveries k trace = (((registered k trace).filter fun h => h.slot.isError).getLast?.toList.map
      fun h => (h, .reason reason)) ∧
    (∀ c' h d, .delivered c' k h d ∈ trace → c' = c) ∧
    ∀ o ∈ trace, ∀ m, o.during.command = .receive m → R.names m k → o.Refused
  /-- A message that names the call while it is not pending is refused. -/
  refused : ∀ o ∈ trace, ∀ m, o.during.command = .receive m → R.names m k →
    k ∉ o.during.state.calls.active → o.Refused

section

variable {R : Replies ε μ} {k : Nat} {f : Fate ε ρ μ κ} {c : Occasion ε ρ μ κ}
  {n : History ε ρ μ κ ι} {ends : List (Handler κ) → List (Handler κ × Delivery)}

/-- An occasion that takes a call tells its handlers of one outcome: of the one that it is a reply
with, or of an error. -/
theorem Takes.outcome (h : Takes R k c ends) (handlers : List (Handler κ)) :
    ∃ outcome : Outcome,
      (∀ h d, (h, d) ∈ ends handlers → d.outcome? h.slot = some outcome) ∧
      (∀ success, outcome = .ofReply success → ∃ payload, c.Tells R k success payload) ∧
      (outcome = .error → (∃ success payload, c.Tells R k success payload ∧ ∃ w ∈ handlers,
          ∃ t e, w.slot.replyType? success = some t ∧ payload.cast t = .error e) ∨
        ∃ reason, c.Sweeps reason ∧ k ∈ c.state.calls.active) := by
  cases h with
  | @reply success payload htells =>
    rcases outcome?_told success payload handlers with htold | ⟨hcast, herror⟩
    · refine ⟨.ofReply success, htold, fun success' he => ?_, fun he => ?_⟩
      · cases Outcome.ofReply_inj.1 he
        exact ⟨payload, htells⟩
      · exact absurd he (Outcome.ofReply_ne_error success)
    · refine ⟨.error, herror, fun success' he => ?_, fun _ => ?_⟩
      · exact absurd he.symm (Outcome.ofReply_ne_error success')
      · exact Or.inl ⟨success, payload, htells, hcast⟩
  | @sweep reason hc ha =>
    refine ⟨.error, fun _ _ => outcome?_explanations, fun success he => ?_, fun _ => ?_⟩
    · exact absurd he.symm (Outcome.ofReply_ne_error success)
    · exact Or.inr ⟨reason, hc, ha⟩

/-- Between commands nothing was given to the handlers of a call, or one occasion took it and gave
them all that was due. -/
theorem Stands.idle (h : Stands R k f n) (hi : f.Idle) :
    (f.holder = none ∧ deliveries k n.trace = []) ∨ ∃ c ends, f.holder = some c ∧
      Takes R k c ends ∧ deliveries k n.trace = ends (Call.inForce (registered k n.trace)) := by
  have hgiven := h.given
  cases f with
  | taken => exact hi.elim
  | ended c ends left =>
    cases hi
    exact Or.inr ⟨c, ends, rfl, h.lawful, (List.append_nil _).symm.trans hgiven⟩
  | _ => exact Or.inl ⟨rfl, (List.append_nil _).symm.trans hgiven⟩

theorem Stands.during (h : Stands R k f n) {hd : Handler κ} {d : Delivery}
    (hm : .delivered c k hd d ∈ n.trace) : (hd, d) ∈ deliveries k n.trace ∧ f.holder = some c := by
  refine ⟨mem_deliveries.2 ⟨c, hm⟩, (h.seen _ hm).giving ?_⟩
  simp [Occurrence.gives?]

/-- The occasion that took a call gave its handlers all that is due; other messages that name the
call were refused. -/
theorem Stands.of_taken (h : Stands R k f n) (hi : f.Idle)
    {o : Occurrence (Occasion ε ρ μ κ) μ κ ι} (ho : o ∈ n.trace) (ht : Takes R k o.during ends) :
    deliveries k n.trace = ends (Call.inForce (registered k n.trace)) ∧
      (∀ c h d, .delivered c k h d ∈ n.trace → c = o.during) ∧
      ∀ o' ∈ n.trace, ∀ m, o'.during.command = .receive m → R.names m k →
        o'.during ≠ o.during → o'.Refused := by
  have hheld := (h.seen o ho).taking ends ht
  have hsame {c : Occasion ε ρ μ κ} (hc : f.holder = some c) : c = o.during :=
    Option.some.inj (hc.symm.trans hheld)
  refine ⟨?_, fun c _ _ hm => hsame (h.during hm).2, fun o' ho' m hm hn hne => ?_⟩
  · rcases h.idle hi with ⟨hfree, -⟩ | ⟨c, ends', hc, ht', hdue⟩
    · cases hfree.symm.trans hheld
    · cases hsame hc
      rw [hdue, ht.unique ht']
  · exact (h.seen o' ho').late
      ⟨⟨m, hm, hn⟩, fun ends' ht' => hne (hsame ((h.seen o' ho').taking ends' ht'))⟩

/-- Whatever gives the handlers of a call something is what their one outcome comes of. -/
theorem Stands.exists_outcome (h : Stands R k f n) (hi : f.Idle) :
    ((deliveries k n.trace).map Prod.fst).Sublist (registered k n.trace) ∧
      ∃ outcome : Outcome,
        (∀ hd d, (hd, d) ∈ deliveries k n.trace → d.outcome? hd.slot = some outcome) ∧
        ∀ c hd d, .delivered c k hd d ∈ n.trace →
          (∀ success, outcome = .ofReply success → ∃ payload, c.Tells R k success payload) ∧
          (outcome = .error → (∃ success payload, c.Tells R k success payload ∧
              ∃ w ∈ Call.inForce (registered k n.trace), ∃ t e,
                w.slot.replyType? success = some t ∧ payload.cast t = .error e) ∨
            ∃ reason, c.Sweeps reason ∧ k ∈ c.state.calls.active) := by
  rcases h.idle hi with ⟨hfree, hnone⟩ | ⟨c, ends, hheld, ht, hdue⟩
  · rw [hnone]
    exact ⟨List.nil_sublist _, .error, fun _ _ hm => absurd hm List.not_mem_nil,
      fun _ _ _ hm => nomatch hfree.symm.trans (h.during hm).2⟩
  · obtain ⟨outcome, hall, hwhy⟩ := ht.outcome (Call.inForce (registered k n.trace))
    rw [hdue]
    refine ⟨(ht.sublist _).trans (Call.inForce_sublist _), outcome, hall, fun c' _ _ hm => ?_⟩
    obtain rfl : c' = c := Option.some.inj ((h.during hm).2.symm.trans hheld)
    exact hwhy

theorem Stands.oneOutcome (h : Stands R k f n) (hi : f.Idle) : OneOutcome R k n.trace := by
  obtain ⟨honce, outcome, hall, hwhy⟩ := h.exists_outcome hi
  have hsame {c : Occasion ε ρ μ κ} {hd : Handler κ} {d : Delivery} {o : Outcome}
      (hm : .delivered c k hd d ∈ n.trace) (ho : d.outcome? hd.slot = some o) : outcome = o :=
    Option.some.inj ((hall hd d (h.during hm).1).symm.trans ho)
  refine {
    once := honce, single := ⟨outcome, hall⟩
    replied := fun c hd d success hm ho => (hwhy c hd d hm).1 success (hsame hm ho)
    failed := fun c hd d hm ho => (hwhy c hd d hm).2 (hsame hm ho)
    settled := fun c r success payload hm ht => h.of_taken hi hm (.reply ht)
    swept := ?swept
    refused := fun o ho m hc hn ha => (h.seen o ho).late ⟨⟨m, hc, hn⟩, fun _ ht => ha ht.active⟩ }
  case swept =>
    intro c r reason hm hc ha
    obtain ⟨hdue, honly, hlate⟩ := h.of_taken hi hm (.sweep hc ha)
    refine ⟨?_, honly, fun o ho m hm' hn => hlate o ho m hm' hn fun he => ?_⟩
    · rw [hdue, Endpoint.explanations, Call.filter_inForce]
    · exact hc.not_receive (he ▸ hm')

theorem stands_start (R : Replies ε μ) (k : Nat) (config : Config) (terms : ρ) :
    Stands R k .future (.start (.ofTerms config terms) : History ε ρ μ κ ι) where
  own _ _ h := nomatch h
  future := iff_of_true (Nat.zero_le k) rfl
  listed := iff_of_false List.not_mem_nil nofun
  entry := rfl
  unregistered _ := rfl
  given := rfl
  lawful := trivial
  seen _ h := nomatch h

theorem oneOutcome_of_reaches
    {Acts : (History ε ρ μ κ ι → History ε ρ μ κ ι → Prop) →
      History ε ρ μ κ ι → History ε ρ μ κ ι → Prop} {config : Config} {terms : ρ}
    (hacts : ∀ {env : History ε ρ μ κ ι → History ε ρ μ κ ι → Prop},
      (∀ {n n'}, env n n' → Passes R k n n') → ∀ {n n'}, Acts env n n' → Passes R k n n')
    (h : Reaches Acts (.start (.ofTerms config terms)) n) : OneOutcome R k n.trace := by
  obtain ⟨f, hf, hn⟩ := h.guarantee Passes.refl Passes.trans hacts _
    (stands_start R k config terms)
  exact hn.oneOutcome (hf.idle trivial)

end

/-- After any commands, in one another to any depth, every call has had one outcome at most, and
every command can be given and comes to its end. -/
theorem calls_end_once :
    (∀ (config : Config) (registry : Registry ι) (n : History Unit (Registry ι) String κ ι),
      Reaches (Occasion.Acts Peer.perform) (.start (.ofTerms config registry)) n →
        (∀ k, OneOutcome Peer.replies k n.trace) ∧ ∀ command, ∃ r n',
          Reaches (Occasion.Acts Peer.perform) n n' ∧
            .finished ⟨command, n.state⟩ r ∈ n'.trace) ∧
    ∀ (config : Config) (mappings : Mappings)
      (n : History (List Encoding) Mappings (List UInt8) κ ι),
      Reaches (Occasion.Acts Caller.perform) (.start (.ofTerms config mappings)) n →
        (∀ k, OneOutcome Caller.replies k n.trace) ∧ ∀ command, ∃ r n',
          Reaches (Occasion.Acts Caller.perform) n n' ∧
            .finished ⟨command, n.state⟩ r ∈ n'.trace := by
  constructor
  · intro config registry n h
    exact ⟨fun k => oneOutcome_of_reaches (Peer.passes k) h, Occasion.exists_reaches _ n⟩
  · intro config mappings n h
    exact ⟨fun k => oneOutcome_of_reaches (Caller.passes k) h, Occasion.exists_reaches _ n⟩

/-- The wrapper of a function that returns nothing. -/
def pingWrapper : Wrapper Nat :=
  ⟨"ping", ⟨[], []⟩, [.error 0]⟩

/-- A caller that called the function. -/
def pingCalled : History (List Encoding) Mappings (List UInt8) Nat Unit :=
  ⟨⟨.default, [], ⟨1, [(0, [])], [(0, ⟨0, false, [.error 0]⟩)]⟩⟩,
    [.sent ⟨.call pingWrapper [], .ofTerms .default []⟩
        (littleEndian 4 0 ++ zeroTerminated "ping" ++ []),
      .finished ⟨.call pingWrapper [], .ofTerms .default []⟩ (.ok (some 0))]⟩

/-- The handler for errors is replaced. -/
def pingReplaced : History (List Encoding) Mappings (List UInt8) Nat Unit :=
  ⟨⟨.default, [], ⟨1, [(0, [])], [(0, ⟨0, false, [.error 1]⟩)]⟩⟩,
    pingCalled.trace ++ [.finished ⟨.on 0 "error" (.error 1), pingCalled.state⟩ (.ok none)]⟩

/-- The connection is closed. -/
def pingClosed : History (List Encoding) Mappings (List UInt8) Nat Unit :=
  ⟨⟨.default, [], ⟨1, [], [(0, ⟨0, true, []⟩)]⟩⟩, pingReplaced.trace ++
    [.delivered ⟨.close, pingReplaced.state⟩ 0 (.error 1) (.reason "Connection closed."),
      .finished ⟨.close, pingReplaced.state⟩ (.ok none)]⟩

/-- A peer that called a function. -/
def flipWaiting : History Unit (Registry Bool) String Unit Bool :=
  ⟨Link.flipCalled.state,
    [.sent ⟨.call Link.flipWrapper [.bool true], .ofTerms .default .builtin⟩ Link.flipRequest,
      .finished ⟨.call Link.flipWrapper [.bool true], .ofTerms .default .builtin⟩ (.ok (some 0))]⟩

/-- The reply came. -/
def flipReplied : History Unit (Registry Bool) String Unit Bool :=
  ⟨Link.flipResolved.state, flipWaiting.trace ++
    [.delivered ⟨.receive Link.flipReply, flipWaiting.state⟩ 0 (.result .bool ())
        (.value (.bool false)),
      .finished ⟨.receive Link.flipReply, flipWaiting.state⟩ (.ok none)]⟩

theorem reaches_pingClosed :
    Reaches (Occasion.Acts Caller.perform) (.start (.ofTerms .default [])) pingClosed := by
  have hcalled : Reaches (Occasion.Acts Caller.perform) (.start (.ofTerms .default []))
      pingCalled :=
    Occasion.reaches_of_runs (m := ⟨pingCalled.state, [_]⟩) (c := .call pingWrapper [])
      ⟨_, true, rfl, rfl, rfl⟩
  have hreplaced : Reaches (Occasion.Acts Caller.perform) pingCalled pingReplaced :=
    Occasion.reaches_of_runs (m := ⟨pingReplaced.state, pingCalled.trace⟩)
      (c := .on 0 "error" (.error 1)) ⟨rfl, rfl⟩
  have hclosed : Reaches (Occasion.Acts Caller.perform) pingReplaced pingClosed :=
    Occasion.reaches_of_runs (n := pingReplaced) (m := ⟨pingClosed.state, pingClosed.trace.take 4⟩)
      (c := .close) ⟨_, .ok (), rfl, rfl, rfl⟩
  exact (hcalled.trans hreplaced).trans hclosed

theorem reaches_flipReplied :
    Reaches (Occasion.Acts Peer.perform) (.start (.ofTerms .default .builtin)) flipReplied := by
  have hcalled : Reaches (Occasion.Acts Peer.perform) (.start (.ofTerms .default .builtin))
      flipWaiting := by
    refine Occasion.reaches_of_runs (m := ⟨flipWaiting.state, [_]⟩)
      (c := .call Link.flipWrapper [.bool true]) ?_
    unfold Link.flipRequest
    exact ⟨_, true, rfl, rfl, rfl⟩
  have hreplied : Reaches (Occasion.Acts Peer.perform) flipWaiting flipReplied := by
    refine Occasion.reaches_of_runs (m := ⟨flipReplied.state, flipWaiting.trace ++ [_]⟩)
      (c := .receive Link.flipReply) ?_
    simp only [Peer.perform]
    unfold Peer.receive Peer.dispatch
    rw [Link.parseArray?_flipReply]
    exact ⟨_, .ok (), rfl, rfl, rfl⟩
  exact hcalled.trans hreplied

/-- The transport of a caller closes, and a reply comes too late; a reply ends the call of a peer,
and comes once more. -/
theorem calls_end_once_late_reply :
    (∃ n : History (List Encoding) Mappings (List UInt8) Nat Unit,
      Reaches (Occasion.Acts Caller.perform) (.start (.ofTerms .default [])) n ∧
        registered 0 n.trace = [.error 0, .error 1] ∧
        deliveries 0 n.trace = [(.error 1, .reason "Connection closed.")] ∧
        (∃ s, .finished ⟨.receive [0, 0, 0, 0], s⟩ (.error (.unknownCall 0)) ∈ n.trace) ∧
        OneOutcome Caller.replies 0 n.trace) ∧
    ∃ n : History Unit (Registry Bool) String Unit Bool,
      Reaches (Occasion.Acts Peer.perform) (.start (.ofTerms .default .builtin)) n ∧
        registered 0 n.trace = [.result .bool ()] ∧
        deliveries 0 n.trace = [(.result .bool (), .value (.bool false))] ∧
        (∃ s, .finished ⟨.receive Link.flipReply, s⟩ (.ok none) ∈ n.trace) ∧
        (∃ s, .finished ⟨.receive Link.flipReply, s⟩ (.error (.unknownCall 0)) ∈ n.trace) ∧
        OneOutcome Peer.replies 0 n.trace := by
  constructor
  · have h : Reaches (Occasion.Acts Caller.perform) (.start (.ofTerms .default []))
        (pingClosed.note (.finished ⟨.receive [0, 0, 0, 0], pingClosed.state⟩
          (.error (.unknownCall 0)))) :=
      reaches_pingClosed.trans (Occasion.reaches_of_runs (m := pingClosed) ⟨rfl, rfl⟩)
    exact ⟨_, h, rfl, rfl, ⟨_, List.mem_append_right _ List.mem_cons_self⟩,
      (calls_end_once.2 .default [] _ h).1 0⟩
  · have h : Reaches (Occasion.Acts Peer.perform) (.start (.ofTerms .default .builtin))
        (flipReplied.note (.finished ⟨.receive Link.flipReply, flipReplied.state⟩
          (.error (.unknownCall 0)))) := by
      refine reaches_flipReplied.trans (Occasion.reaches_of_runs (m := flipReplied) ?_)
      simp only [Peer.perform]
      unfold Peer.receive Peer.dispatch
      rw [Link.parseArray?_flipReply]
      exact ⟨rfl, rfl⟩
    exact ⟨_, h, rfl, rfl, ⟨flipWaiting.state, by simp [flipReplied]⟩,
      ⟨_, List.mem_append_right _ List.mem_cons_self⟩,
      (calls_end_once.1 .default .builtin _ h).1 0⟩

end Parley
