import Parley.Proofs.Adapters
import Parley.Proofs.Delimiting

/-!
# Frames delimit themselves

A frame is processed by what its front says. Whatever follows a request or a reply that is whole
makes no difference.

* `Server.delimited_request` : what a request asks for; `Server.runs_receive_append` : one that is
  whole may be followed by anything.
* `Caller.Whole` : a frame that has all the bytes its reply is read from, for every handler that
  waits; `Caller.runs_receive_append` : such a frame may be followed by anything.
* `reads_own_bytes` : values, argument lists, requests and replies.
-/

namespace Parley

/-! ## Requests -/

namespace Server

variable {κ ι : Type}

theorem delimited_request (terms : Registry ι) : (request terms).Delimited := by
  have hheader : header.Delimited := by
    refine Reader.delimited_bind Reader.taking_word.toDelimited fun id => ?_
    exact Reader.delimited_bind Reader.taking_zcstring.toDelimited fun name =>
      Reader.delimited_pure _
  refine Reader.delimited_bind hheader fun front => ?_
  obtain ⟨id, name⟩ := front
  cases hf : terms.function? name with
  | none =>
    simp only [hf]
    exact Reader.delimited_pure _
  | some f =>
    simp only [hf]
    exact Reader.delimited_bind (delimited_decodeArguments _ _) fun args => Reader.delimited_pure _

section

variable {γ : Type}
  {env : Node (Server κ ι) γ (List UInt8) κ ι → Node (Server κ ι) γ (List UInt8) κ ι → Prop}
  {during : γ} {n n' : Node (Server κ ι) γ (List UInt8) κ ι}

/-- A request that is whole may be followed by anything. -/
theorem runs_receive_append {frame : List UInt8} {r : Except Error Unit}
    (h : ¬ (request n.state.terms).RunsOut (Cursor.start frame)) (more : List UInt8) :
    Operation.Runs env during (receive (frame ++ more)) n r n' ↔
      Operation.Runs env during (receive frame) n r n' := by
  have hsame := ((delimited_request n.state.terms).stable (Cursor.start frame) more).resolve_left h
  rw [runs_receive_iff, runs_receive_iff, show Cursor.start (frame ++ more) =
    (Cursor.start frame).extend more from rfl, hsame]

end

end Server

/-! ## Replies -/

namespace Endpoint

variable {ε ρ μ κ ι γ : Type}
  {env : Node (Endpoint ε ρ κ) γ μ κ ι → Node (Endpoint ε ρ κ) γ μ κ ι → Prop}
  {during : γ} {n n' : Node (Endpoint ε ρ κ) γ μ κ ι}

theorem castAll_congr {p q : Payload} {slotType? : Slot → Option Ty} {handlers : List (Handler κ)}
    (h : ∀ x ∈ handlers, ∀ t, slotType? x.slot = some t → p.cast t = q.cast t) :
    castAll p slotType? handlers = castAll q slotType? handlers := by
  induction handlers with
  | nil => rfl
  | cons x rest ih =>
    have hrest := ih fun y hy => h y (List.mem_cons_of_mem _ hy)
    rw [castAll, castAll]
    cases ht : slotType? x.slot with
    | none => exact hrest
    | some t =>
      simp only
      rw [h x List.mem_cons_self t ht, hrest]

theorem runs_succeed_congr {id : Nat} {p q : Payload} {r : Except Error Unit}
    (h : ∀ call, n.state.calls.find? id = some call → ∀ x ∈ call.handlers,
      ∀ t, x.slot.resultType? = some t → p.cast t = q.cast t) :
    Operation.Runs env during (succeed id p) n r n' ↔
      Operation.Runs env during (succeed id q) n r n' := by
  unfold succeed
  rw [runs_call?_bind, runs_call?_bind]
  cases hc : n.state.calls.find? id with
  | none => exact Iff.rfl
  | some call =>
    simp only
    rw [finish, finish, castAll_congr (h call hc)]

end Endpoint

namespace Caller

variable {κ ι γ : Type}
  {env : Node (Caller κ) γ (List UInt8) κ ι → Node (Caller κ) γ (List UInt8) κ ι → Prop}
  {during : γ} {n n' : Node (Caller κ) γ (List UInt8) κ ι}

/-- The frame has all the bytes that the reply in it is read from: those of the identifier and, for
every handler that waits for the result of the call it names, those of the result. -/
def Whole (s : Caller κ) (frame : List UInt8) : Prop :=
  ¬ Reader.word.RunsOut (Cursor.start frame) ∧
    ∀ id after encoding call, Reader.word.run (Cursor.start frame) = (.ok id, after) →
      Table.find? id s.calls.pending = some encoding → s.calls.find? id = some call →
        ∀ h ∈ call.handlers, ∀ t, h.slot.resultType? = some t →
          ¬ (decode encoding t).RunsOut (Cursor.start after.rest)

/-- A reply that is whole may be followed by anything. -/
theorem runs_receive_append {frame : List UInt8} {r : Except Error Unit}
    (h : Whole n.state frame) (more : List UInt8) :
    Operation.Runs env during (receive (frame ++ more)) n r n' ↔
      Operation.Runs env during (receive frame) n r n' := by
  obtain ⟨hword, hcasts⟩ := h
  have hsame := (Reader.taking_word.stable (Cursor.start frame) more).resolve_left hword
  have hstart : Cursor.start (frame ++ more) = (Cursor.start frame).extend more := rfl
  unfold receive
  rw [Operation.runs_log_bind, Operation.runs_log_bind, hstart, hsame]
  cases hw : Reader.word.run (Cursor.start frame) with
  | mk read after =>
    cases read with
    | error e =>
      simp only
      rw [Operation.runs_lift_error_bind, Operation.runs_lift_error_bind]
    | ok id =>
      simp only
      rw [Operation.runs_lift_ok_bind, Operation.runs_lift_ok_bind, Operation.runs_get_bind,
        Operation.runs_get_bind]
      cases hp : Table.find? id n.state.calls.pending with
      | none => simp only
      | some encoding =>
        simp only
        rw [Operation.runs_bind, Operation.runs_bind]
        refine or_congr Iff.rfl (exists_congr fun result => exists_congr fun n₁ =>
          and_congr_right fun ht => ?_)
        rw [Operation.runs_log_bind, Operation.runs_log_bind]
        rcases Endpoint.runs_takePending ht with ⟨-, hr, -⟩ | ⟨e, he, hr, rfl⟩
        · cases hr
        · cases hr
          cases hp.symm.trans he
          -- the call is told the same of both frames if its handlers read the same of them
          refine Endpoint.runs_succeed_congr fun call hc x hx t hxt => ?_
          have hout := hcasts id after encoding call hw hp hc x hx t hxt
          have hread := ((delimited_decode encoding t).stable (Cursor.start after.rest)
            more).resolve_left hout
          have hcast : ((decode encoding t).run ((Cursor.start after.rest).extend more)).1 =
              ((decode encoding t).run (Cursor.start after.rest)).1 := by rw [hread]
          exact hcast

end Caller

/-- The binary format delimits itself: what is read is told by the bytes it takes, data that ends
before they do runs out, and bytes after a whole frame do not matter. -/
theorem reads_own_bytes {κ ι γ : Type} :
    (∀ (encoding : List Encoding) (t : Ty), (decode encoding t).SelfDelimiting) ∧
      (∀ (encoding : List Encoding) (types : List Ty),
        (decodeArguments encoding types).SelfDelimiting) ∧
      (∀ terms : Registry ι, (Server.request terms).SelfDelimiting) ∧
      (∀ {env} {during : γ} {n n' : Node (Server κ ι) γ (List UInt8) κ ι} {r} {frame},
        ¬ (Server.request n.state.terms).RunsOut (Cursor.start frame) → ∀ more,
          (Operation.Runs env during (Server.receive (frame ++ more)) n r n' ↔
            Operation.Runs env during (Server.receive frame) n r n')) ∧
      ∀ {env} {during : γ} {n n' : Node (Caller κ) γ (List UInt8) κ ι} {r} {frame},
        Caller.Whole n.state frame → ∀ more,
          (Operation.Runs env during (Caller.receive (frame ++ more)) n r n' ↔
            Operation.Runs env during (Caller.receive frame) n r n') :=
  ⟨fun encoding t => (delimited_decode encoding t).selfDelimiting,
    fun encoding types => (delimited_decodeArguments encoding types).selfDelimiting,
    fun terms => (Server.delimited_request terms).selfDelimiting,
    fun h more => Server.runs_receive_append h more,
    fun h more => Caller.runs_receive_append h more⟩

/-- An array of one item with a byte after it; without its item it is noticed to be cut short. -/
theorem reads_own_bytes_rows :
    let t : Ty := .array (.int .u8)
    let rows : List Encoding := [.array [] [.base .u8 []]]
    let args : List Encoding := [.array [.index 0] [.base .u8 []]]
    let v : Value := .array [.int ⟨.u8, 7, by decide⟩]
    let server : Server Unit Unit := .ofTerms .default ⟨.builtin, [], .empty, .builtin,
      [("a", ⟨⟨[t], .nil, fun _ => .ok ()⟩, "rows", ⟨args, []⟩⟩)]⟩
    let caller : Caller Unit := ⟨.default, .builtin,
      ⟨6, [(5, rows)], [(5, ⟨5, false, [.bare (.result t) ()]⟩)]⟩⟩
    let request : List UInt8 := [5, 0, 0, 0, 97, 0, 0, 0, 1, 0, 0, 0, 7]
    let reply : List UInt8 := [5, 0, 0, 0, 1, 0, 0, 0, 7]
    ((decode rows t).run ⟨0, [1, 0, 0, 0, 7, 9]⟩ = (.ok v, ⟨5, [9]⟩) ∧
      (decode rows t).run ⟨0, [1, 0, 0, 0, 7]⟩ = (.ok v, ⟨5, []⟩) ∧
      (decode rows t).RunsOut ⟨0, [1, 0, 0, 0]⟩) ∧
    ((decodeArguments args [t]).run ⟨8, [1, 0, 0, 0, 7, 9]⟩ = (.ok [v], ⟨13, [9]⟩) ∧
      (decodeArguments args [t]).RunsOut ⟨8, [1, 0, 0, 0]⟩) ∧
    (¬ (Server.request server.terms).RunsOut (Cursor.start request) ∧ ∀ r n',
      Operation.Runs Eq () (Server.receive (request ++ [9])) (Node.start server) r n' ↔
        Operation.Runs Eq () (Server.receive request) (Node.start server) r n') ∧
    (Caller.Whole caller reply ∧ ∀ r n',
      Operation.Runs (ι := Unit) Eq () (Caller.receive (reply ++ [9])) (Node.start caller) r n' ↔
        Operation.Runs Eq () (Caller.receive reply) (Node.start caller) r n') := by
  intro t rows args v server caller request reply
  obtain ⟨hvalue, hargs, -, hserver, hcaller⟩ := @reads_own_bytes Unit Unit Unit
  have hread : (decode rows t).run ⟨0, [1, 0, 0, 0, 7, 9]⟩ = (.ok v, ⟨5, [9]⟩) := rfl
  have hlist : (decodeArguments args [t]).run ⟨8, [1, 0, 0, 0, 7, 9]⟩ = (.ok [v], ⟨13, [9]⟩) := rfl
  obtain ⟨n, -, hn, hprefix, hcut⟩ := hvalue rows t hread
  obtain ⟨m, -, hm, -, hcut'⟩ := hargs args [t] hlist
  obtain rfl : 5 = n := (congrArg Cursor.offset hn).trans (Nat.zero_add n)
  obtain rfl : 5 = m := Nat.add_left_cancel (congrArg Cursor.offset hm)
  have hwhole : ¬ (Server.request server.terms).RunsOut (Cursor.start request) := by
    rintro ⟨_, _, h⟩
    cases h
  have hreply : Caller.Whole caller reply := by
    constructor
    · rintro ⟨_, _, h⟩
      cases h
    · rintro _ _ _ _ ⟨⟩ ⟨⟩ ⟨⟩ h hh t ht ⟨_, _, hout⟩
      obtain rfl := List.mem_singleton.1 hh
      cases ht
      cases hout
  refine ⟨⟨hread, hprefix [1, 0, 0, 0, 7] rfl, hcut 4 (by decide)⟩, ⟨hlist, hcut' 4 (by decide)⟩,
    ⟨hwhole, fun r n' => ?_⟩, hreply, fun r n' => ?_⟩
  · exact @hserver Eq () (Node.start server) n' r request hwhole [9]
  · exact @hcaller Eq () (Node.start caller) n' r reply hreply [9]

end Parley
