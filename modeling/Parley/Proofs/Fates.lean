import Parley.Proofs.Adapters
import Parley.Proofs.Occasions

/-!
# What becomes of a call

A call waits until one command takes it off the list, and that command ends it: it alone gives the
handlers of the call anything, while other commands run in between.

* `Fate`, `Fate.Follows` : where a call stands, and how that changes between commands.
* `Stands` : the invariant that ties the fate of a call to the state of its endpoint and to what was
  seen of it.
* `Passes`, `Goes` : the invariant is kept by what others do, and in the course of an occasion.
* `stands_gives`, `stands_end` : the occasion that took a call ends it, whatever runs meanwhile.
* `passes_calling`, `passes_on`, `passes_reply`, `passes_failAll`, … : every command keeps it.
-/

namespace Parley

variable {ε ρ μ κ ι : Type}

/-! ## Fates -/

/-- Where a call stands: its identifier is not given away yet; it is, but no call is entered under
it; the call waits; an occasion took it off the list; the occasion resolved it, and has still to
give its handlers what is left. -/
inductive Fate (ε ρ μ κ : Type) where
  | future
  | absent
  | waiting
  | taken (c : Occasion ε ρ μ κ) (ends : List (Handler κ) → List (Handler κ × Delivery))
  | ended (c : Occasion ε ρ μ κ) (ends : List (Handler κ) → List (Handler κ × Delivery))
      (left : List (Handler κ × Delivery))

namespace Fate

/-- The occasion that took the call. -/
def holder : Fate ε ρ μ κ → Option (Occasion ε ρ μ κ)
  | taken c _ => some c
  | ended c .. => some c
  | _ => none

/-- The state of the call, with the handlers that wait as long as it is not resolved. -/
def entry (k : Nat) (handlers : List (Handler κ)) : Fate ε ρ μ κ → Option (Call κ)
  | future => none
  | absent => none
  | waiting => some ⟨k, false, handlers⟩
  | taken .. => some ⟨k, false, handlers⟩
  | ended .. => some ⟨k, true, []⟩

/-- All that the handlers are given in the end. -/
def due (handlers : List (Handler κ)) : Fate ε ρ μ κ → List (Handler κ × Delivery)
  | ended _ ends _ => ends handlers
  | _ => []

/-- What the handlers have still to be given. -/
def left : Fate ε ρ μ κ → List (Handler κ × Delivery)
  | ended _ _ left => left
  | _ => []

/-- The call is ended as the occasion that took it does. -/
def Lawful (R : Replies ε μ) (k : Nat) : Fate ε ρ μ κ → Prop
  | taken c ends => Takes R k c ends
  | ended c ends _ => Takes R k c ends
  | _ => True

/-- No command is about to do something with the call. -/
def Idle : Fate ε ρ μ κ → Prop
  | taken .. => False
  | ended _ _ left => left = []
  | _ => True

/-- How the fate of a call may change between commands: what one of them does with it it does to the
end, and what others are at is left to them. -/
inductive Follows : Fate ε ρ μ κ → Fate ε ρ μ κ → Prop
  | same (f : Fate ε ρ μ κ) : Follows f f
  | given {f : Fate ε ρ μ κ} (hi : f.Idle) : Follows .future f
  | ended (c : Occasion ε ρ μ κ) (ends : List (Handler κ) → List (Handler κ × Delivery)) :
      Follows .waiting (.ended c ends [])

/-- What is seen in the course of the occasion fits the fate: if the occasion takes the call it is
the one that took it, and it is not refused for the call. -/
structure Allows (R : Replies ε μ) (k : Nat) (f : Fate ε ρ μ κ) (c : Occasion ε ρ μ κ) :
    Prop where
  taking : ∀ ends, Takes R k c ends → f.holder = some c
  prompt : ¬ Late R k c

variable {R : Replies ε μ} {k : Nat} {f f' f'' : Fate ε ρ μ κ} {c : Occasion ε ρ μ κ}

theorem Follows.idle (h : Follows f f') (hi : f.Idle) : f'.Idle := by
  cases h with
  | same => exact hi
  | given hi' => exact hi'
  | ended => rfl

theorem Follows.trans (h : Follows f f') (h' : Follows f' f'') : Follows f f'' := by
  cases h with
  | same => exact h'
  | given hi => exact .given (h'.idle hi)
  | ended c ends =>
    cases h'
    exact .ended c ends

theorem Follows.eq_of_held (h : Follows f f') (hc : f.holder = some c) : f' = f := by
  cases h with
  | same => rfl
  | given => cases hc
  | ended => cases hc

theorem Allows.follows (h : f.Allows R k c) (hf : Follows f f') : f'.Allows R k c where
  taking ends ht := by
    have hc := h.taking ends ht
    rw [hf.eq_of_held hc, hc]
  prompt := h.prompt

/-- As long as the call is not resolved its handlers wait and are given nothing. -/
theorem open_of_entry {handlers : List (Handler κ)} {call : Call κ}
    (he : f.entry k handlers = some call) (hu : call.resolved = false) :
    call = ⟨k, false, handlers⟩ ∧ ∀ others : List (Handler κ),
      f.entry k others = some ⟨k, false, others⟩ ∧ f.due others = f.due handlers := by
  cases f with
  | future => cases he
  | absent => cases he
  | waiting =>
    cases he
    exact ⟨rfl, fun _ => ⟨rfl, rfl⟩⟩
  | taken =>
    cases he
    exact ⟨rfl, fun _ => ⟨rfl, rfl⟩⟩
  | ended =>
    cases he
    cases hu

/-- An occasion that takes the call fits the fate it made of it. -/
theorem allows_of_takes {ends : List (Handler κ) → List (Handler κ × Delivery)}
    (ht : Takes R k c ends) (hc : f.holder = some c) : f.Allows R k c :=
  ⟨fun _ _ => hc, fun hl => hl.2 ends ht⟩

theorem allows_of_not (hm : ∀ m, c.command = .receive m → ¬ R.names m k)
    (hs : ∀ reason, ¬ c.Sweeps reason) : f.Allows R k c where
  taking _ ht := by
    rcases ht.names_or_sweeps with ⟨m, hc, hn⟩ | ⟨reason, hc⟩
    · exact absurd hn (hm m hc)
    · exact absurd hc (hs reason)
  prompt := fun ⟨⟨m, hc, hn⟩, _⟩ => hm m hc hn

theorem allows_call (w : Wrapper κ) (args : List Value) (s : Endpoint ε ρ κ) :
    f.Allows R k ⟨.call w args, s⟩ :=
  allows_of_not nofun nofun

theorem allows_on (id : Nat) (event : String) (h : Handler κ) (s : Endpoint ε ρ κ) :
    f.Allows R k ⟨.on id event h, s⟩ :=
  allows_of_not nofun nofun

theorem allows_receive {m : μ} (hno : ¬ R.names m k) (s : Endpoint ε ρ κ) :
    f.Allows R k ⟨.receive m, s⟩ := by
  refine allows_of_not (fun m' hm => ?_) nofun
  cases hm
  exact hno

theorem allows_sweep {reason : String} (hc : c.Sweeps reason) (hno : k ∉ c.state.calls.active) :
    f.Allows R k c where
  taking _ ht := absurd ht.active hno
  prompt := fun ⟨⟨_, hm, _⟩, _⟩ => hc.not_receive hm

end Fate

/-! ## The invariant -/

/-- An occurrence fits the fate of a call: only the occasion that took the call takes it and gives
its handlers anything, and other messages that name the call are refused. -/
structure Fate.Fits (R : Replies ε μ) (k : Nat) (f : Fate ε ρ μ κ)
    (o : Occurrence (Occasion ε ρ μ κ) μ κ ι) : Prop where
  taking : ∀ ends, Takes R k o.during ends → f.holder = some o.during
  giving : o.gives? k ≠ none → f.holder = some o.during
  late : Late R k o.during → o.Refused

namespace Fate.Fits

variable {R : Replies ε μ} {k : Nat} {f f' : Fate ε ρ μ κ}
  {o : Occurrence (Occasion ε ρ μ κ) μ κ ι}

theorem of_free (h : f.Fits R k o) (hf : f.holder = none) : f'.Fits R k o where
  taking ends ht := nomatch hf.symm.trans (h.taking ends ht)
  giving hg := nomatch hf.symm.trans (h.giving hg)
  late := h.late

theorem congr (h : f.Fits R k o) (hf : f'.holder = f.holder) : f'.Fits R k o where
  taking ends ht := hf.trans (h.taking ends ht)
  giving hg := hf.trans (h.giving hg)
  late := h.late

theorem of_allows (ha : f.Allows R k o.during) (hg : o.gives? k = none) : f.Fits R k o where
  taking := ha.taking
  giving hne := absurd hg hne
  late hl := absurd hl ha.prompt

end Fate.Fits

/-- The invariant of one call: its fate, the state of its endpoint and what was seen of it agree. -/
structure Stands (R : Replies ε μ) (k : Nat) (f : Fate ε ρ μ κ) (n : History ε ρ μ κ ι) : Prop where
  own : n.state.calls.Own
  future : n.state.calls.nextId ≤ k ↔ f = .future
  listed : k ∈ n.state.calls.active ↔ f = .waiting
  entry : n.state.calls.find? k = f.entry k (Call.inForce (registered k n.trace))
  unregistered : n.state.calls.find? k = none → registered k n.trace = []
  given : deliveries k n.trace ++ f.left = f.due (Call.inForce (registered k n.trace))
  lawful : f.Lawful R k
  seen : ∀ o ∈ n.trace, f.Fits R k o

/-- The invariant of a call is kept by what other commands do. -/
def Passes (R : Replies ε μ) (k : Nat) (n n' : History ε ρ μ κ ι) : Prop :=
  ∀ f, Stands R k f n → ∃ f', f.Follows f' ∧ Stands R k f' n'

/-- The invariant of a call is kept in the course of an occasion that fits its fate. -/
def Goes (R : Replies ε μ) (k : Nat) (c : Occasion ε ρ μ κ) (n n' : History ε ρ μ κ ι) : Prop :=
  ∀ f : Fate ε ρ μ κ, f.Allows R k c → Stands R k f n → ∃ f', f.Follows f' ∧ Stands R k f' n'

section

variable {R : Replies ε μ} {k : Nat} {f : Fate ε ρ μ κ} {c : Occasion ε ρ μ κ}
  {n n' n'' : History ε ρ μ κ ι}

theorem Passes.refl (n : History ε ρ μ κ ι) : Passes R k n n :=
  fun f h => ⟨f, .same f, h⟩

theorem Passes.trans (h : Passes R k n n') (h' : Passes R k n' n'') : Passes R k n n'' := by
  intro f hf
  obtain ⟨f', hff', hf'⟩ := h f hf
  obtain ⟨f'', hff'', hf''⟩ := h' f' hf'
  exact ⟨f'', hff'.trans hff'', hf''⟩

theorem Passes.goes (h : Passes R k n n') : Goes R k c n n' :=
  fun f _ hf => h f hf

theorem Goes.refl (n : History ε ρ μ κ ι) : Goes R k c n n :=
  (Passes.refl n).goes

theorem Goes.trans (h : Goes R k c n n') (h' : Goes R k c n' n'') : Goes R k c n n'' := by
  intro f ha hf
  obtain ⟨f', hff', hf'⟩ := h f ha hf
  obtain ⟨f'', hff'', hf''⟩ := h' f' (ha.follows hff') hf'
  exact ⟨f'', hff'.trans hff'', hf''⟩

/-- What an occasion does that fits every fate keeps the invariant. -/
theorem Goes.passes (h : Goes R k c n n') (ha : ∀ f : Fate ε ρ μ κ, f.Allows R k c) :
    Passes R k n n' :=
  fun f hf => h f (ha f) hf

/-- In the course of the occasion that took a call its fate stays as it is. -/
theorem Goes.stands_of_held (h : Goes R k c n n') (hc : f.holder = some c) (ha : f.Allows R k c)
    (hf : Stands R k f n) : Stands R k f n' := by
  obtain ⟨f', hff', hf'⟩ := h f ha hf
  rwa [hff'.eq_of_held hc] at hf'

/-! ### Steps that leave the call alone -/

theorem forall_mem_note {p : Occurrence (Occasion ε ρ μ κ) μ κ ι → Prop}
    {o : Occurrence (Occasion ε ρ μ κ) μ κ ι} (h : ∀ q ∈ n.trace, p q) (ho : p o) :
    ∀ q ∈ (n.note o).trace, p q := by
  intro q hq
  rcases List.mem_append.1 hq with hq | hq
  · exact h q hq
  · exact List.mem_singleton.1 hq ▸ ho

theorem Stands.note {o : Occurrence (Occasion ε ρ μ κ) μ κ ι} (h : Stands R k f n)
    (hf : f.Fits R k o) (hr : o.registers k = []) (hg : o.gives? k = none) :
    Stands R k f (n.note o) := by
  have hreg : registered k (n.note o).trace = registered k n.trace := by
    rw [registered_note, hr, List.append_nil]
  have hdel : deliveries k (n.note o).trace = deliveries k n.trace := by
    rw [deliveries_note, hg]
    exact List.append_nil _
  refine { h with
    entry := hreg ▸ h.entry, unregistered := hreg ▸ h.unregistered, given := ?given,
    seen := forall_mem_note h.seen hf }
  rw [hreg, hdel]
  exact h.given

theorem Stands.withCalls {calls : Calls ε κ} (h : Stands R k f n) (hown : calls.Own)
    (hnext : calls.nextId ≤ k ↔ n.state.calls.nextId ≤ k)
    (hactive : k ∈ calls.active ↔ k ∈ n.state.calls.active)
    (hfind : calls.find? k = n.state.calls.find? k) : Stands R k f (n.withCalls calls) :=
  { h with
    own := hown
    future := hnext.trans h.future
    listed := hactive.trans h.listed
    entry := hfind.trans h.entry
    unregistered := fun hn => h.unregistered (hfind.symm.trans hn) }

theorem Goes.note {o : Occurrence (Occasion ε ρ μ κ) μ κ ι} (ho : o.during = c)
    (hr : o.registers k = []) (hg : o.gives? k = none) : Goes R k c n (n.note o) := by
  subst ho
  exact fun f ha h => ⟨f, .same f, h.note (.of_allows ha hg) hr hg⟩

theorem Stands.allocate (h : Stands R k .future n) (he : n.state.calls.nextId = k) :
    Stands R k .absent
      (n.withCalls { n.state.calls with nextId := n.state.calls.nextId + 1 }) :=
  { h with
    future := ⟨fun hle => absurd he (Nat.ne_of_lt hle), nofun⟩
    listed := h.listed.trans ⟨nofun, nofun⟩
    seen := fun o ho => (h.seen o ho).of_free rfl }

theorem passes_allocate : Passes R k n
    (n.withCalls { n.state.calls with nextId := n.state.calls.nextId + 1 }) := by
  intro f h
  by_cases he : n.state.calls.nextId = k
  · have hf : f = .future := h.future.1 (Nat.le_of_eq he)
    subst hf
    exact ⟨.absent, .given trivial, h.allocate he⟩
  · refine ⟨f, .same f, h.withCalls h.own ⟨fun hle => Nat.le_of_succ_le hle, fun hle => ?_⟩
      Iff.rfl rfl⟩
    exact Nat.lt_of_le_of_ne hle he

theorem passes_settle {j : Nat} (hj : j ≠ k) :
    Passes R k n (n.withCalls (n.state.calls.settle j)) := by
  refine fun f h => ⟨f, .same f, h.withCalls h.own Iff.rfl ?_ rfl⟩
  exact Table.mem_keys_erase.trans (and_iff_right hj.symm)

theorem passes_close {j : Nat} (hj : j ≠ k) :
    Passes R k n (n.withCalls (n.state.calls.close j)) := by
  refine fun f h => ⟨f, .same f, h.withCalls (h.own.close j) ?_ ?_ (Calls.find?_close_ne h.own hj)⟩
  · rw [Calls.nextId_close]
  · rw [Calls.active_close]

/-- All pending calls are taken off the list, but not this one, which is not on it. -/
theorem passes_drain (hk : k ∉ n.state.calls.active) :
    Passes R k n (n.withCalls { n.state.calls with pending := [] }) :=
  fun f h => ⟨f, .same f, h.withCalls h.own Iff.rfl ⟨nofun, fun hm => absurd hm hk⟩
    rfl⟩

theorem passes_enter {call : Call κ} {e : ε} (hid : call.id ≠ k) :
    Passes R k n (n.withCalls (n.state.calls.enter call e)) := by
  refine fun f h => ⟨f, .same f, h.withCalls (h.own.put call) Iff.rfl ?_ ?_⟩
  · exact Table.mem_keys_insert.trans (or_iff_right hid.symm)
  · exact Calls.find?_put_ne hid n.state.calls

theorem passes_put {call : Call κ} (hid : call.id ≠ k) :
    Passes R k n (n.withCalls (n.state.calls.put call)) :=
  fun f h => ⟨f, .same f, h.withCalls (h.own.put call) Iff.rfl Iff.rfl
    (Calls.find?_put_ne hid n.state.calls)⟩

/-! ### Steps of the call -/

/-- A call is entered under its identifier and handed out: it waits. -/
theorem Stands.enter {w : Wrapper κ} {args : List Value} {s : Endpoint ε ρ κ} {e : ε}
    (h : Stands R k .absent n) :
    Stands R k .waiting
      ((n.withCalls (n.state.calls.enter ⟨k, false, Call.inForce w.defaults⟩ e)).note
        (.finished ⟨.call w args, s⟩ (.ok (some k)))) := by
  have hfind : (n.state.calls.enter ⟨k, false, Call.inForce w.defaults⟩ e).find? k =
      some ⟨k, false, Call.inForce w.defaults⟩ :=
    Calls.find?_put_self n.state.calls ⟨k, false, Call.inForce w.defaults⟩
  have hreg : registered k (n.trace ++ [.finished ⟨.call w args, s⟩ (.ok (some k))]) =
      w.defaults := by
    have hnone := h.unregistered h.entry
    refine (registered_note k n _).trans ?_
    rw [hnone, List.nil_append]
    exact if_pos rfl
  have hdel : deliveries k (n.trace ++ [.finished ⟨.call w args, s⟩ (.ok (some k))]) = [] := by
    refine (deliveries_note k n _).trans ?_
    exact (List.append_nil _).trans ((List.append_nil _).symm.trans h.given)
  refine {
    own := h.own.put _
    future := h.future.trans ⟨nofun, nofun⟩
    listed := iff_of_true (Table.mem_keys_insert.2 (Or.inl rfl)) rfl
    entry := ?entry
    unregistered := fun hn => nomatch hfind.symm.trans hn
    given := (List.append_nil _).trans hdel
    lawful := trivial
    seen := forall_mem_note (fun o ho => (h.seen o ho).of_free rfl)
      (.of_allows (Fate.allows_call w args s) rfl) }
  rw [Node.trace_note]
  exact hreg ▸ hfind

theorem Stands.register {event : String} {hd : Handler κ} {s : Endpoint ε ρ κ}
    {call changed : Call κ} (h : Stands R k f n) (hc : n.state.calls.find? k = some call)
    (ho : call.on event hd = .ok changed) :
    Stands R k f ((n.withCalls (n.state.calls.put changed)).note
      (.finished ⟨.on k event hd, s⟩ (.ok none))) := by
  obtain ⟨hu, hchanged⟩ := Call.on_eq_ok ho
  obtain ⟨hcall, hopen⟩ := Fate.open_of_entry (h.entry.symm.trans hc) hu
  have hreg : registered k (n.trace ++ [.finished ⟨.on k event hd, s⟩ (.ok none)]) =
      registered k n.trace ++ [hd] := by
    refine (registered_note k n _).trans ?_
    rw [Occurrence.registers, if_pos rfl]
  have hdel : deliveries k (n.trace ++ [.finished ⟨.on k event hd, s⟩ (.ok none)]) =
      deliveries k n.trace :=
    (deliveries_note k n _).trans (List.append_nil _)
  have hput : changed = ⟨k, false, Call.inForce (registered k n.trace ++ [hd])⟩ := by
    rw [hchanged, hcall, Call.inForce_append]
  have hfind : (n.state.calls.put changed).find? k = some changed := by
    rw [Calls.find?_put, if_pos (by rw [hput])]
  refine { h with
    own := h.own.put _, entry := ?entry, unregistered := fun hn => (nomatch hfind.symm.trans hn),
    given := ?given, seen := forall_mem_note h.seen (.of_allows (Fate.allows_on k event hd s) rfl) }
  case entry =>
    rw [Node.trace_note]
    refine hfind.trans ?_
    rw [hput, ← (hopen _).1]
    exact congrArg (fun l => f.entry k (Call.inForce l)) hreg.symm
  case given =>
    rw [Node.trace_note]
    refine (congrArg (· ++ f.left) hdel).trans (h.given.trans ?_)
    exact (hopen _).2.symm

/-- An occasion takes a call that waits off the list. -/
theorem Stands.take {ends : List (Handler κ) → List (Handler κ × Delivery)} {calls : Calls ε κ}
    (h : Stands R k .waiting n) (ht : Takes R k c ends) (hno : k ∉ calls.active)
    (hnext : calls.nextId = n.state.calls.nextId) (htable : calls.table = n.state.calls.table) :
    Stands R k (.taken c ends) (n.withCalls calls) := by
  have hfind (j : Nat) : calls.find? j = n.state.calls.find? j := congrArg (Table.find? j) htable
  refine {
    own := fun j call hc => h.own j call ((hfind j).symm.trans hc)
    future := ?future
    listed := iff_of_false hno nofun
    entry := (hfind k).trans h.entry
    unregistered := fun hn => h.unregistered ((hfind k).symm.trans hn)
    given := h.given
    lawful := ht
    seen := fun o ho => (h.seen o ho).of_free rfl }
  rw [Node.state_withCalls, Endpoint.calls_withCalls, hnext]
  exact h.future.trans ⟨nofun, nofun⟩

/-- The occasion that took the call resolves it. -/
theorem Stands.close {ends : List (Handler κ) → List (Handler κ × Delivery)}
    (h : Stands R k (.taken c ends) n) :
    Stands R k (.ended c ends (ends (n.state.calls.waiting k)))
      (n.withCalls (n.state.calls.close k)) := by
  have hwaiting := Calls.waiting_of_find? h.entry rfl
  have hclose := Calls.close_of_find? h.entry
  have hdel : deliveries k n.trace = [] := (List.append_nil _).symm.trans h.given
  have hfind : (n.state.calls.close k).find? k = some ⟨k, true, []⟩ := by
    rw [hclose, Calls.find?_put]
    exact if_pos rfl
  refine {
    own := h.own.close k
    future := ?future
    listed := ?listed
    entry := hfind
    unregistered := fun hn => nomatch hfind.symm.trans hn
    given := ?given
    lawful := h.lawful
    seen := fun o ho => (h.seen o ho).congr rfl }
  case future =>
    rw [Node.state_withCalls, Endpoint.calls_withCalls, Calls.nextId_close]
    exact h.future.trans ⟨nofun, nofun⟩
  case listed =>
    rw [Node.state_withCalls, Endpoint.calls_withCalls, Calls.active_close]
    exact h.listed.trans ⟨nofun, nofun⟩
  case given =>
    rw [hwaiting]
    exact congrArg (· ++ _) hdel

/-- Resolving a call that is resolved changes nothing, and no handler of it waits. -/
theorem Stands.close_ended {ends : List (Handler κ) → List (Handler κ × Delivery)}
    {left : List (Handler κ × Delivery)} (h : Stands R k (.ended c ends left) n) :
    n.state.calls.waiting k = [] ∧
      Stands R k (.ended c ends left) (n.withCalls (n.state.calls.close k)) := by
  have hentry : n.state.calls.find? k = some ⟨k, true, []⟩ := h.entry
  refine ⟨by rw [Calls.waiting, hentry]; rfl, h.withCalls (h.own.close k) ?_ ?_ ?_⟩
  · rw [Calls.nextId_close]
  · rw [Calls.active_close]
  · rw [Calls.close_of_find? hentry, Calls.find?_put, hentry]
    exact if_pos rfl

theorem Stands.give {ends : List (Handler κ) → List (Handler κ × Delivery)} {hd : Handler κ}
    {d : Delivery} {left : List (Handler κ × Delivery)}
    (h : Stands R k (.ended c ends ((hd, d) :: left)) n) :
    Stands R k (.ended c ends left) (n.note (.delivered c k hd d)) := by
  have hreg : registered k (n.note (.delivered c k hd d)).trace = registered k n.trace :=
    (registered_note k n _).trans (List.append_nil _)
  have hdel : deliveries k (n.note (.delivered c k hd d)).trace =
      deliveries k n.trace ++ [(hd, d)] := by
    rw [deliveries_note, Occurrence.gives?, if_pos rfl]
    rfl
  refine {
    own := h.own
    future := h.future.trans (by simp)
    listed := h.listed.trans (by simp)
    entry := h.entry
    unregistered := fun hn => absurd (h.entry.symm.trans hn) (by simp [Fate.entry])
    given := ?given
    lawful := h.lawful
    seen := forall_mem_note (fun o ho => (h.seen o ho).congr rfl)
      ⟨fun _ _ => rfl, fun _ => rfl, fun hl => absurd h.lawful (hl.2 ends)⟩ }
  rw [hdel, hreg, List.append_assoc]
  exact h.given

/-! ## Operations -/

variable {env : History ε ρ μ κ ι → History ε ρ μ κ ι → Prop}
  {ends : List (Handler κ) → List (Handler κ × Delivery)}

theorem goes_gives {j : Nat} {given : List (Handler κ × Delivery)} (hj : j ≠ k)
    (henv : ∀ {n n'}, env n n' → Passes R k n n') (hg : Gives env c j given n n') :
    Goes R k c n n' := by
  induction hg with
  | nil n => exact Goes.refl n
  | @cons h d _ n _ _ he _ ih =>
    have hnote : Goes R k c n (n.note (.delivered c j h d)) := Goes.note rfl rfl (if_neg hj)
    exact (hnote.trans (henv he).goes).trans ih

/-- The occasion that ends the call gives its handlers all that is due. -/
theorem stands_gives {given : List (Handler κ × Delivery)}
    (henv : ∀ {n n'}, env n n' → Passes R k n n') (hg : Gives env c k given n n')
    (hf : Stands R k (.ended c ends given) n) : Stands R k (.ended c ends []) n' := by
  induction hg with
  | nil n => exact hf
  | cons he _ ih =>
    obtain ⟨f', hff', hf'⟩ := henv he _ hf.give
    rw [hff'.eq_of_held rfl] at hf'
    exact ih hf'

theorem goes_end {j : Nat} {given : List (Handler κ × Delivery)} (hj : j ≠ k)
    (henv : ∀ {n n'}, env n n' → Passes R k n n')
    (hg : Gives env c j given (n.withCalls (n.state.calls.close j)) n') : Goes R k c n n' :=
  (passes_close hj).goes.trans (goes_gives hj henv hg)

theorem stands_end (henv : ∀ {n n'}, env n n' → Passes R k n n')
    (hf : Stands R k (.taken c ends) n)
    (hg : Gives env c k (ends (n.state.calls.waiting k)) (n.withCalls (n.state.calls.close k)) n') :
    Stands R k (.ended c ends []) n' :=
  stands_gives henv hg hf.close

theorem passes_calling {w : Wrapper κ} {args : List Value} {s : Endpoint ε ρ κ} {e : ε}
    {message : Nat → Except Error μ} {r : Except Error (Option Nat)}
    (henv : ∀ {n n'}, env n n' → Passes R k n n')
    (h : Endpoint.Calling env ⟨.call w args, s⟩ w e message n r n') :
    Passes R k n (n'.note (.finished ⟨.call w args, s⟩ r)) := by
  have hfits (f : Fate ε ρ μ κ) {o : Occurrence (Occasion ε ρ μ κ) μ κ ι}
      (ho : o.during = ⟨.call w args, s⟩) (hg : o.gives? k = none) : f.Fits R k o :=
    .of_allows (ho ▸ Fate.allows_call w args s) hg
  have hfinished {n : History ε ρ μ κ ι} {r : Except Error (Option Nat)}
      (hr : ∀ id, r = .ok (some id) → id ≠ k) :
      Passes R k n (n.note (.finished ⟨.call w args, s⟩ r)) := by
    refine fun f hf => ⟨f, .same f, hf.note (hfits f rfl rfl) ?_ rfl⟩
    match r with
    | .ok (some id) => exact if_neg (hr id rfl)
    | .ok none => rfl
    | .error _ => rfl
  cases h with
  | exhausted => exact hfinished nofun
  | unsent => exact passes_allocate.trans (hfinished nofun)
  | @sent m n₁ _ _ hl hm he h =>
    have hsent : Passes R k n n₁ := by
      refine passes_allocate.trans (Passes.trans (fun f hf => ?_) (henv he))
      exact ⟨f, .same f, hf.note (hfits f rfl rfl) rfl rfl⟩
    cases h with
    | oneWay => exact hsent.trans (hfinished nofun)
    | refused => exact hsent.trans (hfinished nofun)
    | @entered call ho hc =>
      cases Call.startWith_eq_ok hc
      by_cases hid : n.state.calls.nextId = k
      · -- the identifier was given away to this call, and nobody else enters one under it
        subst hid
        intro f hf
        have hfuture : f = .future := hf.future.1 (Nat.le_refl _)
        subst hfuture
        have hsent :=
          (hf.allocate rfl).note (o := .sent ⟨.call w args, s⟩ m) (hfits _ rfl rfl) rfl rfl
        obtain ⟨f', hff', hf'⟩ := henv he _ hsent
        cases hff'
        exact ⟨.waiting, .given trivial, hf'.enter⟩
      · refine (hsent.trans (passes_enter hid)).trans (hfinished ?_)
        intro id he
        cases he
        exact hid

theorem passes_on {id : Nat} {event : String} {hd : Handler κ} {s : Endpoint ε ρ κ}
    {r : Except Error (Option Nat)} (h : Operation.Runs env ⟨.on id event hd, s⟩ (do
      Endpoint.register id event hd
      return none) n r n') : Passes R k n (n'.note (.finished ⟨.on id event hd, s⟩ r)) := by
  intro f hf
  have hfits (r : Except Error (Option Nat)) :
      f.Fits R k (.finished ⟨.on id event hd, s⟩ r : Occurrence (Occasion ε ρ μ κ) μ κ ι) :=
    .of_allows (Fate.allows_on id event hd s) rfl
  rcases Operation.runs_bind.1 h with ⟨e, hr, rfl⟩ | ⟨_, n₁, hr, rfl, rfl⟩
  · rcases Endpoint.runs_register hr with ⟨_, -, rfl⟩ | ⟨_, _, -, -, hr, -⟩
    · exact ⟨f, .same f, hf.note (hfits _) rfl rfl⟩
    · cases hr
  · rcases Endpoint.runs_register hr with ⟨_, hr, -⟩ | ⟨call, changed, hc, ho, -, rfl⟩
    · cases hr
    · by_cases hid : id = k
      · subst hid
        exact ⟨f, .same f, hf.register hc ho⟩
      · obtain ⟨-, hchanged⟩ := Call.on_eq_ok ho
        have hne : changed.id ≠ k := by
          rw [hchanged]
          exact (hf.own id call hc).trans_ne hid
        obtain ⟨f', hff', hf'⟩ := passes_put hne f hf
        exact ⟨f', hff', hf'.note (.of_allows (Fate.allows_on id event hd s) rfl)
          (if_neg hid) rfl⟩

/-! ### The end of the connection -/

theorem goes_failEach {reason : String} {ids : List Nat} {r : Except Error Unit} (hk : k ∉ ids)
    (henv : ∀ {n n'}, env n n' → Passes R k n n')
    (h : Operation.Runs env c (Endpoint.failEach reason ids) n r n') : Goes R k c n n' := by
  induction ids generalizing n with
  | nil =>
    obtain ⟨-, rfl⟩ := h
    exact Goes.refl n'
  | cons j rest ih =>
    obtain ⟨n₁, hg, h⟩ := Endpoint.runs_failEach_cons h
    obtain ⟨hj, hrest⟩ := not_or.1 (mt List.mem_cons.2 hk)
    exact (goes_end (Ne.symm hj) henv hg).trans (ih hrest h)

/-- The occasion that took the call ends it when its turn comes, and then leaves it alone. -/
theorem stands_failEach {reason : String} {ids : List Nat} {r : Except Error Unit}
    (henv : ∀ {n n'}, env n n' → Passes R k n n')
    (ht : Takes R k c (Endpoint.explanations reason))
    (h : Operation.Runs env c (Endpoint.failEach reason ids) n r n') :
    (Stands R k (.ended c (Endpoint.explanations reason) []) n →
      Stands R k (.ended c (Endpoint.explanations reason) []) n') ∧
    (k ∈ ids → Stands R k (.taken c (Endpoint.explanations reason)) n →
      Stands R k (.ended c (Endpoint.explanations reason) []) n') := by
  induction ids generalizing n with
  | nil =>
    obtain ⟨-, rfl⟩ := h
    exact ⟨fun hf => hf, fun hk => nomatch hk⟩
  | cons j rest ih =>
    obtain ⟨n₁, hg, h⟩ := Endpoint.runs_failEach_cons h
    obtain ⟨hended, htaken⟩ := ih h
    by_cases hj : j = k
    · subst hj
      constructor
      · intro hf
        obtain ⟨hw, hclosed⟩ := hf.close_ended
        rw [hw] at hg
        exact hended (stands_gives henv hg hclosed)
      · exact fun _ hf => hended (stands_end henv hf hg)
    · have hgoes : Goes R k c n n₁ := goes_end hj henv hg
      refine ⟨fun hf => hended ?_, fun hk hf => htaken (List.mem_of_ne_of_mem (Ne.symm hj) hk) ?_⟩
      · exact hgoes.stands_of_held rfl (Fate.allows_of_takes ht rfl) hf
      · exact hgoes.stands_of_held rfl (Fate.allows_of_takes ht rfl) hf

theorem passes_failAll {reason : String} {r : Except Error Unit} {x : Except Error (Option Nat)}
    (henv : ∀ {n n'}, env n n' → Passes R k n n') (hc : c.Sweeps reason) (hs : c.state = n.state)
    (h : Operation.Runs env c (Endpoint.failAll reason) n r n') :
    Passes R k n (n'.note (.finished c x)) := by
  have h := Endpoint.runs_failAll h
  have hreg : (.finished c x : Occurrence (Occasion ε ρ μ κ) μ κ ι).registers k = [] := by
    cases hc <;> rfl
  by_cases ha : k ∈ n.state.calls.active
  · intro f hf
    have hwaiting : f = .waiting := hf.listed.1 ha
    subst hwaiting
    have ht : Takes R k c (Endpoint.explanations reason) := .sweep hc (hs ▸ ha)
    have hended := (stands_failEach henv ht h).2 ha (hf.take ht List.not_mem_nil rfl rfl)
    exact ⟨_, .ended c _, hended.note (.of_allows (Fate.allows_of_takes ht rfl) rfl) hreg rfl⟩
  · have hgoes : Goes R k c n n' := (passes_drain ha).goes.trans (goes_failEach ha henv h)
    exact (hgoes.trans (Goes.note rfl hreg rfl)).passes fun f => Fate.allows_sweep hc (hs ▸ ha)

/-! ### Messages -/

theorem passes_reply {m : μ} {j : Nat} {e : ε} {success : Bool} {payload : Payload}
    {r : Except Error Unit} {x : Except Error (Option Nat)}
    (henv : ∀ {n n'}, env n n' → Passes R k n n')
    (hp : Table.find? j n.state.calls.pending = some e) (ht : R.tells e m j success payload)
    (h : Operation.Runs env ⟨.receive m, n.state⟩ (if success then Endpoint.succeed j payload
      else Endpoint.raise j payload) (n.withCalls (n.state.calls.settle j)) r n') :
    Passes R k n (n'.note (.finished ⟨.receive m, n.state⟩ x)) := by
  by_cases hj : j = k
  · subst hj
    intro f hf
    have hwaiting : f = .waiting := hf.listed.1 (Table.mem_keys_of_find? hp)
    subst hwaiting
    have htakes : Takes R j ⟨.receive m, n.state⟩ (Endpoint.told success payload) :=
      .reply ⟨m, e, rfl, hp, ht⟩
    have htaken : Stands R j (.taken ⟨.receive m, n.state⟩ (Endpoint.told success payload))
        (n.withCalls (n.state.calls.settle j)) :=
      hf.take htakes (fun hm => (Table.mem_keys_erase.1 hm).1 rfl) rfl rfl
    rcases Endpoint.runs_told h with ⟨-, hr⟩ | ⟨call, hcall, hu, hg⟩
    · cases hr _ htaken.entry
    · have hended := stands_end henv htaken (Calls.waiting_of_find? hcall hu ▸ hg)
      exact ⟨_, .ended _ _, hended.note (.of_allows (Fate.allows_of_takes htakes rfl) rfl) rfl rfl⟩
  · have hno : ¬ R.names m k := fun hn => hj (R.names_unique (R.names_of_tells ht) hn)
    have hgoes : Goes R k ⟨.receive m, n.state⟩ n n' := by
      refine (passes_settle hj).goes.trans ?_
      rcases Endpoint.runs_told h with ⟨rfl, -⟩ | ⟨call, -, -, hg⟩
      · exact Goes.refl _
      · exact goes_end hj henv hg
    exact (hgoes.trans (Goes.note rfl rfl rfl)).passes fun f => Fate.allows_receive hno n.state

theorem passes_refused {m : μ} {x : Except Error (Option Nat)}
    (hno : ∀ e success payload, Table.find? k n.state.calls.pending = some e →
      ¬ R.tells e m k success payload)
    (hx : R.names m k → ∃ e, x = .error e ∧ e.family = .connection) :
    Passes R k n (n.note (.finished ⟨.receive m, n.state⟩ x)) := by
  refine fun f hf => ⟨f, .same f, hf.note ⟨?_, fun hg => absurd rfl hg, ?_⟩ rfl rfl⟩
  · intro ends ht
    cases ht with
    | reply hc =>
      obtain ⟨_, e, hm, hp, ht⟩ := hc
      cases hm
      exact absurd ht (hno e _ _ hp)
    | sweep hc _ => cases hc
  · rintro ⟨⟨_, hm, hn⟩, -⟩
    cases hm
    obtain ⟨e, rfl, he⟩ := hx hn
    exact he

end

end Parley
