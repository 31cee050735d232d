import Parley.Proofs.Deliveries

/-!
# Accounts of peers, callers and servers

* `Peer.Asks`, `Peer.protocol` : the messages that ask a peer for a job; `Peer.accounts` : every
  command to a peer keeps its account.
* `Caller.protocol`, `Caller.accounts` : the same for a caller, which runs no jobs.
* `Server.Asks`, `Server.Served` : a server runs jobs and answers them; `Server.serves` : every
  command to a server keeps it so.
-/

namespace Parley

variable {κ ι : Type}

/-! ## Peers -/

/-- The message calls a function of the registry under an identifier, and its arguments make the
job. -/
def Peer.Asks (registry : Registry ι) (m : String) (id : Nat) (name : String) (f : Registered ι)
    (job : ι) : Prop :=
  ∃ rest args, Json.parseArray? m = some (.string "call" :: rest) ∧ callId rest[0]? = .ok id ∧
    rest[1]?.bind Json.string? = some name ∧ registry.function? name = some f ∧
    (rest.drop 2).length = f.native.domain.length ∧
    readArguments f.native.domain (rest.drop 2) = .ok args ∧ f.native.job args = .ok job

/-- The message is a reply to a call, with the outcome. -/
def Peer.Tells (m : String) (id : Nat) (success : Bool) (payload : Payload) : Prop :=
  ∃ rest, Json.parseArray? m = some (.string "call-reply" :: rest) ∧ callId rest[0]? = .ok id ∧
    rest[1]?.bind Json.bool? = some success ∧ payload = .json rest[2]?

/-- Peers call and serve. -/
def Peer.protocol (κ ι : Type) : Protocol Unit (Registry ι) String κ ι where
  entry _ := ()
  tells _ := Peer.Tells
  serves registry m job := ∃ id name f, Asks registry m id name f job
  answers registry m job outcome a := ∃ id name f, Asks registry m id name f job ∧
    a = (Json.array (answer id f.native.range outcome)).text

/-- Every command to a peer keeps the account, if what happens meanwhile does. -/
theorem Peer.accounts : Guarantees (Peer.perform (κ := κ) (ι := ι)) (Accounts (protocol κ ι)) := by
  intro env henv c n r n' h
  cases c with
  | call w args =>
    exact accounts_calling henv (runs_call h)
  | on id event hd => exact accounts_on h
  | receive message =>
    obtain ⟨r', h, -⟩ := Operation.runs_as h
    refine Accounts.finished ?_
    rcases runs_receive h with ⟨rfl, -⟩ | ⟨rest, ⟨hm, h⟩ | ⟨hm, h⟩⟩
    · exact Preserves.refl _
    · rcases runs_receiveReply h with ⟨rfl, -⟩ | ⟨id, success, hid, hs, hp, h⟩
      · exact Preserves.refl _
      · refine fun ha => (accounts_settle.trans (accounts_receive _ henv (fun _ => ?_) h)) ha
        obtain ⟨w, args, hw, -⟩ := ha.pending id () hp
        exact ⟨w, args, hw, rest, hm, hid, hs, rfl⟩
    · rcases runs_receiveCall h with ⟨rfl, -⟩ |
        ⟨-, id, name, f, args, job, outcome, n₁, hid, hname, hf, hl, hargs, hjob, he, h⟩
      · exact Preserves.refl _
      · have hasks : Asks n.state.terms message id name f job :=
          ⟨rest, args, hm, hid, hname, hf, hl, hargs, hjob⟩
        have hreturned : Accounts (protocol κ ι) n
            (n₁.note (.returned (.receive message) job outcome)) :=
          Accounts.invoke ⟨id, name, f, hasks⟩ (henv he)
        rcases h with rfl | he'
        · exact hreturned
        · intro ha
          obtain ⟨hg, ha'⟩ := hreturned ha
          have hanswer : Accountable (protocol κ ι)
              (n₁.note (.returned (.receive message) job outcome))
              (.sent (.receive message) (Json.array (answer id f.native.range outcome)).text) :=
            ⟨job, outcome, List.mem_append_right _ List.mem_cons_self, id, name, f,
              hg.terms ▸ hasks, rfl⟩
          obtain ⟨hg', ha''⟩ := ((Accounts.note hanswer).trans (henv he')) ha'
          exact ⟨hg.trans hg', ha''⟩
  | close =>
    obtain ⟨r', h, -⟩ := Operation.runs_as h
    exact (accounts_failAll henv (Or.inl rfl) h).finished
  | fail reason =>
    obtain ⟨r', h, -⟩ := Operation.runs_as h
    exact (accounts_failAll henv (Or.inr ⟨reason, rfl⟩) h).finished

/-! ## Callers -/

/-- The frame is a reply to a call of the wrapper, with the bytes after the identifier as its
result. -/
def Caller.Tells (w : Wrapper κ) (frame : List UInt8) (id : Nat) (success : Bool)
    (payload : Payload) : Prop :=
  success = true ∧ ∃ after, Reader.word.run (Cursor.start frame) = (.ok id, after) ∧
    payload = .wire after.rest w.encoding.result

/-- Callers call and do not serve. -/
def Caller.protocol (κ ι : Type) : Protocol (List Encoding) Mappings (List UInt8) κ ι where
  entry w := w.encoding.result
  tells := Caller.Tells
  serves _ _ _ := False
  answers _ _ _ _ _ := False

theorem Caller.accounts :
    Guarantees (Caller.perform (κ := κ) (ι := ι)) (Accounts (protocol κ ι)) := by
  intro env henv c n r n' h
  cases c with
  | call w args =>
    exact accounts_calling henv (runs_call h)
  | on id event hd => exact accounts_on h
  | receive frame =>
    obtain ⟨r', h, -⟩ := Operation.runs_as h
    refine Accounts.finished ?_
    rcases runs_receive h with ⟨rfl, -⟩ | ⟨id, after, result, hw, hp, h⟩
    · exact Preserves.refl _
    · refine fun ha => (accounts_settle.trans
        (accounts_receive true henv (fun _ => ?_) h)) ha
      obtain ⟨w, args, hout, rfl⟩ := ha.pending id result hp
      exact ⟨w, args, hout, rfl, after, hw, rfl⟩
  | close =>
    obtain ⟨r', h, -⟩ := Operation.runs_as h
    exact (accounts_failAll henv (Or.inl rfl) h).finished
  | fail reason =>
    obtain ⟨r', h, -⟩ := Operation.runs_as h
    exact (accounts_failAll henv (Or.inr ⟨reason, rfl⟩) h).finished

/-! ## Servers -/

/-- The frame calls a function of the registry under an identifier, and its arguments make the
job. -/
def Server.Asks (registry : Registry ι) (frame : List UInt8) (id : Nat) (name : String)
    (f : Registered ι) (job : ι) : Prop :=
  ∃ afterHeader after args, header.run (Cursor.start frame) = (.ok (id, name), afterHeader) ∧
    registry.function? name = some f ∧
    (decodeArguments f.encoding.args f.native.domain).run afterHeader = (.ok args, after) ∧
    f.native.job args = .ok job

/-- What is seen of a server that runs jobs for frames and answers those that succeed. -/
def Server.Serving (n : Node (Server κ ι) (ServerCommand (List UInt8)) (List UInt8) κ ι) :
    Occurrence (ServerCommand (List UInt8)) (List UInt8) κ ι → Prop
  | .sent (.receive frame) reply => ∃ id name f job v encoded,
    Asks n.state.terms frame id name f job ∧ .returned (.receive frame) job (.ok v) ∈ n.trace ∧
    (encode f.encoding.result v).toExcept = .ok encoded ∧ reply = littleEndian 4 id ++ encoded
  | .invoked (.receive frame) job => ∃ id name f, Asks n.state.terms frame id name f job
  | .returned (.receive frame) job _ => ∃ id name f, Asks n.state.terms frame id name f job
  | .finished _ _ => True
  | _ => False

/-- All that was seen of the server is serving. -/
def Server.Served (n : Node (Server κ ι) (ServerCommand (List UInt8)) (List UInt8) κ ι) : Prop :=
  ∀ o ∈ n.trace, Serving n o

theorem Server.Serving.grows
    {n n' : Node (Server κ ι) (ServerCommand (List UInt8)) (List UInt8) κ ι}
    {o : Occurrence (ServerCommand (List UInt8)) (List UInt8) κ ι} (h : Serving n o)
    (hg : Grows n n') : Serving n' o := by
  have ht := hg.terms
  cases o with
  | sent c m =>
    cases c with
    | receive frame =>
      obtain ⟨id, name, f, job, v, encoded, ha, hr, hb, rfl⟩ := h
      exact ⟨id, name, f, job, v, encoded, ht ▸ ha, hg.mem hr, hb, rfl⟩
    | _ => exact h
  | invoked c job =>
    cases c with
    | receive frame =>
      obtain ⟨id, name, f, ha⟩ := h
      exact ⟨id, name, f, ht ▸ ha⟩
    | _ => exact h
  | returned c job outcome =>
    cases c with
    | receive frame =>
      obtain ⟨id, name, f, ha⟩ := h
      exact ⟨id, name, f, ht ▸ ha⟩
    | _ => exact h
  | delivered c id k d => exact h
  | finished c r => trivial

theorem Server.Serving.note {n : Node (Server κ ι) (ServerCommand (List UInt8)) (List UInt8) κ ι}
    {o : Occurrence (ServerCommand (List UInt8)) (List UInt8) κ ι} (ho : Serving n o) :
    Preserves Served n (n.note o) := by
  refine fun hs => ⟨Grows.note n o, fun o' ho' => ?_⟩
  rcases List.mem_append.1 ho' with ho' | ho'
  · exact (hs o' ho').grows (Grows.note n o)
  · exact List.mem_singleton.1 ho' ▸ ho.grows (Grows.note n o)

theorem Server.serves : Guarantees (Server.perform (κ := κ) (ι := ι)) (Preserves Served) := by
  intro env henv c n r n' h
  have hfinished (hs : Preserves Served n n') : Preserves Served n (n'.note (.finished c r)) :=
    hs.trans (Serving.note trivial)
  cases c with
  | receive frame =>
    obtain ⟨r', h, -⟩ := Operation.runs_as h
    refine hfinished ?_
    rcases runs_receive h with rfl |
      ⟨id, name, afterHeader, f, args, after, job, outcome, n₁, hh, hf, hargs, hjob, he, h⟩
    · exact Preserves.refl _
    · have hasks : Asks n.state.terms frame id name f job :=
        ⟨afterHeader, after, args, hh, hf, hargs, hjob⟩
      have hinvoked : Serving n (.invoked (.receive frame) job) := ⟨id, name, f, hasks⟩
      intro hs
      obtain ⟨hg, hs₁⟩ := ((hinvoked.note).trans (henv he)) hs
      have hreturned : Serving n₁ (.returned (.receive frame) job outcome) := hinvoked.grows hg
      obtain ⟨hg', hs'⟩ := hreturned.note hs₁
      rcases h with rfl | ⟨v, encoded, rfl, hb, he'⟩
      · exact ⟨hg.trans hg', hs'⟩
      · have hanswer : Serving (n₁.note (.returned (.receive frame) job (.ok v)))
            (.sent (.receive frame) (littleEndian 4 id ++ encoded)) :=
          ⟨id, name, f, job, v, encoded, hg.terms ▸ hasks,
            List.mem_append_right _ List.mem_cons_self, hb, rfl⟩
        obtain ⟨hg'', hs''⟩ := ((hanswer.note).trans (henv he')) hs'
        exact ⟨(hg.trans hg').trans hg'', hs''⟩
  | close =>
    obtain ⟨r', h, -⟩ := Operation.runs_as h
    obtain ⟨-, rfl⟩ := h
    exact hfinished (Preserves.refl n')
  | fail reason =>
    obtain ⟨r', h, -⟩ := Operation.runs_as h
    obtain ⟨-, rfl⟩ := h
    exact hfinished (Preserves.refl n')

end Parley
