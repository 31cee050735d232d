import Parley.Proofs.Accounts
import Parley.Proofs.Lossless
import Parley.Proofs.Pairs

/-!
# Two peers

Two peers exchange messages that arrive in any order, more than once or not at all, while they are
called, and call each other back, at any time.

* `Json.parseArray?_of_atoms` : when a text is read as given items.
* `Peer.callMessage_inj`, `Peer.answer_eq` : what tells one message from another.
* `Link` : two peers; `Link.Regular` : what is taken for granted of a run.
* `Link.Answers` : a message answers a call; `Link.exists_answers` : where replies come from.
* `Link.delivered_of_call` : what handlers are given.
-/

namespace Parley

/-! ## Texts of scalars -/

namespace Json

/-- A logical value, a whole number or a text. -/
def atom? : Json → Option (Bool ⊕ Int ⊕ String)
  | bool b => some (.inl b)
  | whole n _ => some (.inr (.inl n))
  | string s => some (.inr (.inr s))
  | _ => none

theorem atom?_inj {j k : Json} {x : Bool ⊕ Int ⊕ String} (hj : j.atom? = some x)
    (hk : k.atom? = some x) : j = k := by
  rcases j with _ | _ | _ | _ | _ | _ | _ <;> cases hj <;>
    rcases k with _ | _ | _ | _ | _ | _ | _ <;> cases hk <;> rfl

theorem eq_of_map_atom? {items read : List Json} (hs : ∀ j ∈ items, j.atom?.isSome)
    (h : read.map atom? = items.map atom?) : read = items := by
  induction items generalizing read with
  | nil => exact List.map_eq_nil_iff.1 h
  | cons j items ih =>
    obtain ⟨k, read, rfl, hk, hr⟩ := List.map_eq_cons_iff.1 h
    obtain ⟨x, hx⟩ := Option.isSome_iff_exists.1 (hs j List.mem_cons_self)
    rw [atom?_inj (hk.trans hx) hx, ih (fun i hi => hs i (List.mem_cons_of_mem _ hi)) hr]

/-- A text is read as items that are all logical values, whole numbers or texts, if what is read has
the same ones. -/
theorem parseArray?_of_atoms {text : String} {items : List Json}
    (h : (∀ j ∈ items, j.atom?.isSome) ∧
      (parseArray? text).map (List.map atom?) = some (items.map atom?)) :
    parseArray? text = some items := by
  obtain ⟨read, hr, hm⟩ := Option.map_eq_some_iff.1 h.2
  rw [hr, eq_of_map_atom? h.1 hm]

end Json

/-! ## Messages -/

namespace Peer

theorem holds_of_lt {id : Nat} (h : id < idLimit) : IntKind.u32.Holds id := by
  have hi : idLimit = 4294967296 := rfl
  unfold IntKind.Holds
  rw [show IntKind.u32.min = 0 from rfl, show IntKind.u32.max = 4294967295 from rfl]
  omega

theorem numberJson_of_lt {id : Nat} (h : id < idLimit) :
    numberJson id = .whole id (IntKind.isWhole_of_holds (holds_of_lt h)) :=
  dif_pos _

theorem callId_numberJson {id : Nat} (h : id < idLimit) :
    callId (some (numberJson id)) = .ok id := by
  rw [numberJson_of_lt h]
  exact if_pos (holds_of_lt h)

theorem callId_eq_ok {found : Option Json} {id : Nat} :
    callId found = .ok id ↔ found = some (numberJson id) ∧ id < idLimit := by
  constructor
  · intro h
    unfold callId at h
    split at h
    · rename_i n hn
      obtain ⟨j, rfl, hj⟩ := Option.bind_eq_some_iff.1 hn
      split at h
      · rename_i hu
        cases h
        have hnat : (n.toNat : Int) = n := Int.toNat_of_nonneg hu.1
        have hlt : n.toNat < idLimit := by
          have hle : n ≤ 4294967295 := hu.2
          have hi : idLimit = 4294967296 := rfl
          omega
        refine ⟨?_, hlt⟩
        rw [numberJson_of_lt hlt]
        cases j with
        | whole m hm =>
          cases hj
          simp only [hnat]
        | _ => cases hj
      · cases h
    · cases h
  · rintro ⟨rfl, h⟩
    exact callId_numberJson h

/-- Calls of a function on the same arguments differ in their texts. -/
theorem callMessage_inj {id id' : Nat} {name : String} {args : List Value} (h : id < idLimit)
    (h' : id' < idLimit)
    (ht : (Json.array (callMessage id name args)).text =
      (Json.array (callMessage id' name args)).text) : id = id' := by
  have hrepr (n : Nat) : toString (n : Int) = n.repr := rfl
  unfold callMessage at ht
  rw [numberJson_of_lt h, numberJson_of_lt h'] at ht
  simp only [Json.text, Json.texts, hrepr, String.intercalate_cons_cons, String.append_left_inj,
    String.append_right_inj, String.append_assoc] at ht
  have hdigits := congrArg String.toList ht
  rw [Nat.toList_repr, Nat.toList_repr] at hdigits
  rw [← Nat.ofDigitChars_ten_toDigits (n := id), hdigits, Nat.ofDigitChars_ten_toDigits]

theorem callMessage_ne_reply {rest rest' : List Json} :
    some (Json.string "call" :: rest) ≠ some (.string "call-reply" :: rest') := by
  intro h
  have := Json.string.inj (List.cons.inj (Option.some.inj h)).1
  exact absurd this (by decide)

/-- A message that is a call asks for nothing but what the call says. -/
theorem Asks.of_call {ι : Type} {registry : Registry ι} {m : String} {id id' : Nat}
    {name name' : String} {args : List Value} {f : Registered ι} {job : ι} (hid : id < idLimit)
    (hm : Json.parseArray? m = some (callMessage id name args))
    (h : Asks registry m id' name' f job) :
    id' = id ∧ name' = name ∧ registry.function? name = some f ∧ ∃ given,
      readArguments f.native.domain (args.map Value.toJson) = .ok given ∧
        f.native.job given = .ok job := by
  obtain ⟨rest, given, hp, hc, hn, hf, -, hg, hj⟩ := h
  rw [hm] at hp
  cases hp
  have he : .ok id = Except.ok id' := (callId_numberJson hid).symm.trans hc
  cases he
  cases hn
  exact ⟨rfl, rfl, hf, given, hg, hj⟩

theorem readArguments_toJson {types : List Ty} {args : List Value}
    (ht : List.Forall₂ Ty.Has types args) (hd : ∀ t ∈ types, t.Distinct)
    (hf : ∀ v ∈ args, v.Finite) : readArguments types (args.map Value.toJson) = .ok args := by
  unfold readArguments
  induction ht with
  | nil => rfl
  | cons hv _ ih =>
    rename_i t v types args _
    have hfirst : Value.ofJsonAs t v.toJson = .ok v :=
      cast_untyped (hd t List.mem_cons_self) hv (hf v List.mem_cons_self)
    have hrest := ih (fun u hu => hd u (List.mem_cons_of_mem _ hu))
      (fun x hx => hf x (List.mem_cons_of_mem _ hx))
    exact mapM_cons_eq_ok.2 ⟨v, args, mapError_eq_ok.2 hfirst, hrest, rfl⟩

/-- What an answer carries: nothing if the function returns nothing. -/
def carried? : Ty → Except String Value → Option Json
  | .nil, .ok _ => none
  | _, .ok v => some v.toJson
  | _, .error exception => some (exceptionValue exception).toJson

theorem answer_eq (id : Nat) (range : Ty) (outcome : Except String Value) :
    answer id range outcome = .string "call-reply" :: numberJson id :: .bool outcome.isOk ::
      (carried? range outcome).toList := by
  cases outcome with
  | error exception =>
    cases range with
    | scalar t => cases t <;> rfl
    | _ => rfl
  | ok v =>
    cases range with
    | scalar t => cases t <;> rfl
    | _ => rfl

theorem Tells.of_answer {m : String} {id id' : Nat} {range : Ty} {outcome : Except String Value}
    {success : Bool} {payload : Payload} (hid : id < idLimit)
    (hm : Json.parseArray? m = some (answer id range outcome)) (h : Tells m id' success payload) :
    id' = id ∧ success = outcome.isOk ∧ payload = .json (carried? range outcome) := by
  obtain ⟨rest, hp, hc, hs, rfl⟩ := h
  rw [hm, answer_eq] at hp
  cases hp
  have he : .ok id = Except.ok id' := (callId_numberJson hid).symm.trans hc
  cases he
  cases hs
  refine ⟨rfl, rfl, ?_⟩
  cases carried? range outcome <;> rfl

theorem given_of_reads {κ : Type} {range : Ty} {outcome : Except String Value} {h : Handler κ}
    {d : Delivery} (hd : range.Distinct)
    (hv : ∀ v, outcome = .ok v → range.Has v ∧ v.Finite)
    (hr : Reads outcome.isOk (.json (carried? range outcome)) h d) : h.Given range d outcome := by
  cases outcome with
  | error message =>
    refine Reads.given_error hr ?_
    have hc : carried? range (.error message) = some (exceptionValue message).toJson := by
      cases range with
      | scalar t => cases t <;> rfl
      | _ => rfl
    rw [hc, Payload.cast]
    exact mapError_eq_ok.2 (cast_untyped distinct_exceptionTy (has_exceptionValue message)
      (finite_exceptionValue message))
  | ok v =>
    obtain ⟨ht, hf⟩ := hv v rfl
    refine Reads.given_ok hr hd ht ?_
    have hsome : (Payload.json (some v.toJson)).cast range = .ok v :=
      mapError_eq_ok.2 (cast_untyped hd ht hf)
    cases range with
    | scalar t =>
      cases t with
      | nil =>
        -- nothing is carried, and the default of nothing is all there is
        obtain ⟨s, rfl, hs⟩ := Ty.has_scalar.1 ht
        cases s <;> cases hs
        rfl
      | _ => exact hsome
    | _ => exact hsome

end Peer

/-- Two peers, each with what was seen of it. -/
abbrev Link (κ ι : Type) := Pair (fun _ => Peer κ ι) (fun _ => Command κ String) String κ ι

namespace Link

open Pair

variable {κ ι : Type}

/-- Both are peers. -/
def parties (κ ι : Type) :
    Parties (fun _ => Peer κ ι) (fun _ => Command κ String) String κ ι where
  perform _ := Peer.perform
  message? _ c :=
    match c with
    | .receive m => some m
    | _ => none

/-- One command to one of the peers. -/
def Acts (env : Link κ ι → Link κ ι → Prop) (g g' : Link κ ι) : Prop :=
  (parties κ ι).Acts env g g'

/-- The peers when they come into being. -/
def start (config : Bool → Config) (registry : Bool → Registry ι) : Link κ ι :=
  fun side => .start (.ofTerms (config side) (registry side))

/-! ## Outcomes -/

/-- What is taken for granted of a run of two peers that serve what their registries hold. -/
structure Regular (registry : Bool → Registry ι) (g : Link κ ι) : Prop where
  /-- A call that was sent is read as it was printed. -/
  calls : ∀ side w args m id, .sent (.call w args) m ∈ (g side).trace →
    Peer.CallFrame id w args m → Json.parseArray? m = some (Peer.callMessage id w.name args)
  /-- An answer that was sent is read as it was printed. -/
  answers : ∀ side request m id name f job outcome, .sent (.receive request) m ∈ (g side).trace →
    Peer.Asks (registry side) request id name f job →
    .returned (.receive request) job outcome ∈ (g side).trace →
    m = (Json.array (Peer.answer id f.native.range outcome)).text →
    Json.parseArray? m = some (Peer.answer id f.native.range outcome)
  /-- Functions take and return native types. -/
  distinct : ∀ side name f, (registry side).function? name = some f →
    (∀ t ∈ f.native.domain, t.Distinct) ∧ f.native.range.Distinct
  /-- Calls have arguments of the types that the function takes. -/
  args : ∀ side w args m f, .sent (.call w args) m ∈ (g side).trace →
    (registry !side).function? w.name = some f →
      List.Forall₂ Ty.Has f.native.domain args ∧ ∀ v ∈ args, v.Finite
  /-- Functions return values of the type that they return. -/
  results : ∀ side m id name f job v, .returned (.receive m) job (.ok v) ∈ (g side).trace →
    Peer.Asks (registry side) m id name f job → f.native.range.Has v ∧ v.Finite

/-- The message answers a call of a peer: the other peer received the call, ran its function on
exactly the arguments of the call, and sent what came of that. -/
structure Answers (registry : Bool → Registry ι) (g : Link κ ι) (side : Bool) (id : Nat)
    (w : Wrapper κ) (args : List Value) (f : Registered ι) (outcome : Except String Value)
    (m : String) : Prop where
  function : (registry !side).function? w.name = some f
  ran : ∃ request job, .sent (.call w args) request ∈ (g side).trace ∧
    Peer.CallFrame id w args request ∧ f.native.job args = .ok job ∧
    .returned (.receive request) job outcome ∈ (g !side).trace ∧
    .sent (.receive request) m ∈ (g !side).trace
  message : m = (Json.array (Peer.answer id f.native.range outcome)).text

section

variable {config : Bool → Config} {registry : Bool → Registry ι} {g : Link κ ι} {side : Bool}
  {id : Nat}

theorem accounted_of_reaches (h : Reaches Acts (start config registry) g) (side : Bool) :
    (g side).state.terms = registry side ∧ Accounted (Peer.protocol κ ι) (g side) := by
  obtain ⟨hg, ha⟩ := Parties.guarantee (P := parties κ ι) side Preserves.refl
    Preserves.trans Peer.accounts h (accounted_start _ (config side) (registry side))
  exact ⟨hg.terms, ha⟩

theorem coherent_of_reaches (h : Reaches Acts (start config registry) g) (side : Bool) :
    ∃ ledger, Coherent Peer.CallFrame [] ledger (g side) := by
  obtain ⟨-, ledger, hc⟩ := Parties.guarantee (P := parties κ ι) side Keeps.refl
    Keeps.trans Peer.keeps h [] [] (coherent_start (config side) (registry side))
  exact ⟨ledger, hc⟩

theorem sent_of_during (h : Reaches Acts (start config registry) g) {side : Bool}
    {o : Occurrence (Command κ String) String κ ι} {m : String} (ho : o ∈ (g side).trace)
    (hm : o.during = .receive m) : Sent g (!side) m :=
  Parties.carries (P := parties κ ι) h (Parties.carries_start _) side o ho m (by rw [hm]; rfl)

/-- A message that was sent is that of a call, which is in the ledger, or answers a message. -/
theorem sent_cases {m : String} (h : Reaches Acts (start config registry) g)
    (hr : Regular registry g) {ledger : Ledger κ}
    (hc : Coherent Peer.CallFrame [] ledger (g side)) (hm : Sent g side m) :
    (∃ id w args, (id, w, args) ∈ ledger ∧ .sent (.call w args) m ∈ (g side).trace ∧
      Peer.CallFrame id w args m ∧ Json.parseArray? m = some (Peer.callMessage id w.name args)) ∨
    ∃ request id name f job outcome, Peer.Asks (registry side) request id name f job ∧
      .returned (.receive request) job outcome ∈ (g side).trace ∧
      .sent (.receive request) m ∈ (g side).trace ∧
      m = (Json.array (Peer.answer id f.native.range outcome)).text ∧
      Json.parseArray? m = some (Peer.answer id f.native.range outcome) := by
  obtain ⟨ht, ha⟩ := accounted_of_reaches h side
  obtain ⟨c, hs⟩ := hm
  have hacc := ha.seen _ hs
  cases c with
  | call w args =>
    obtain ⟨id, he, hframe⟩ := hc.frames.entry hs
    exact Or.inl ⟨id, w, args, he, hs, hframe, hr.calls side w args m id hs hframe⟩
  | receive request =>
    obtain ⟨job, outcome, hret, id, name, f, hasks, hm⟩ := hacc
    rw [ht] at hasks
    exact Or.inr ⟨request, id, name, f, job, outcome, hasks, hret, hs, hm,
      hr.answers side request m id name f job outcome hs hasks hret hm⟩
  | _ => exact hacc.elim

theorem exists_answers {m : String} {success : Bool} {payload : Payload} {w : Wrapper κ}
    {args : List Value} (h : Reaches Acts (start config registry) g) (hr : Regular registry g)
    (hm : Sent g (!side) m) (hw : HandedOut (g side) w args id)
    (ht : Peer.Tells m id success payload) :
    ∃ f outcome, Answers registry g side id w args f outcome m ∧ success = outcome.isOk ∧
      payload = .json (Peer.carried? f.native.range outcome) ∧ f.native.range.Distinct ∧
      ∀ v, outcome = .ok v → f.native.range.Has v ∧ v.Finite := by
  obtain ⟨ledger, hc⟩ := coherent_of_reaches h side
  obtain ⟨ledger', hc'⟩ := coherent_of_reaches h (!side)
  rcases sent_cases h hr hc' hm with ⟨_, _, _, -, -, -, hp⟩ |
    ⟨request, id', name, f, job, outcome, hasks, hret, hsent, hmessage, hp⟩
  · -- a call is no reply
    obtain ⟨rest, hp', -⟩ := ht
    exact absurd (hp.symm.trans hp') Peer.callMessage_ne_reply
  · have hasks' := hasks
    obtain ⟨rest, _, hp', hid', -⟩ := hasks'
    obtain ⟨rfl, rfl, rfl⟩ := ht.of_answer (Peer.callId_eq_ok.1 hid').2 hp
    have hrequest : Sent g side request := by
      have := sent_of_during h hsent rfl
      rwa [Bool.not_not] at this
    rcases sent_cases h hr hc hrequest with ⟨id'', w', args', hl, hsent', hframe, hcall⟩ |
      ⟨_, _, _, _, _, _, -, -, -, -, hanswer⟩
    · obtain ⟨rfl, rfl, hf, given, hgiven, hjob⟩ := hasks.of_call hframe.1 hcall
      -- the identifier has one entry in the ledger
      have he := hc.unique hl (hc.handed w args id hw).2.1
      cases he
      obtain ⟨hdomain, hrange⟩ := hr.distinct _ _ _ hf
      obtain ⟨hargs, hfinite⟩ := hr.args side w args request f hsent' hf
      rw [Peer.readArguments_toJson hargs hdomain hfinite] at hgiven
      cases hgiven
      refine ⟨f, outcome, ⟨hf, ⟨request, job, hsent', hframe, hjob, hret, hsent⟩, hmessage⟩, rfl,
        rfl, hrange, ?_⟩
      rintro v rfl
      exact hr.results _ _ _ _ f job v hret hasks
    · rw [Peer.answer_eq] at hanswer
      exact absurd (hp'.symm.trans hanswer) Peer.callMessage_ne_reply

theorem Answers.parsed {m : String} {w : Wrapper κ} {args : List Value} {f : Registered ι}
    {outcome : Except String Value} (hr : Regular registry g)
    (ha : Answers registry g side id w args f outcome m) :
    Json.parseArray? m = some (Peer.answer id f.native.range outcome) := by
  obtain ⟨request, job, hsent, hframe, hjob, hret, hanswer⟩ := ha.ran
  obtain ⟨hargs, hfinite⟩ := hr.args side w args request f hsent ha.function
  obtain ⟨hdomain, -⟩ := hr.distinct _ _ _ ha.function
  have hlength : (args.map Value.toJson).length = f.native.domain.length := by
    rw [List.length_map]
    exact hargs.length_eq.symm
  have hasks : Peer.Asks (registry !side) request id w.name f job :=
    ⟨_, args, hr.calls side w args request id hsent hframe, Peer.callId_numberJson hframe.1, rfl,
      ha.function, hlength, Peer.readArguments_toJson hargs hdomain hfinite, hjob⟩
  exact hr.answers (!side) request m id w.name f job outcome hanswer hasks hret ha.message

theorem Answers.unique {m : String} {id' : Nat} {w w' : Wrapper κ} {args args' : List Value}
    {f f' : Registered ι} {outcome outcome' : Except String Value} (hr : Regular registry g)
    (ha : Answers registry g side id w args f outcome m)
    (ha' : Answers registry g side id' w' args' f' outcome' m) : id = id' := by
  obtain ⟨_, _, -, hframe, -⟩ := ha.ran
  obtain ⟨_, _, -, hframe', -⟩ := ha'.ran
  have hp := (ha.parsed hr).symm.trans (ha'.parsed hr)
  rw [Peer.answer_eq, Peer.answer_eq] at hp
  have hnumber : Peer.numberJson id = Peer.numberJson id' := by
    simp only [Option.some.injEq, List.cons.injEq] at hp
    exact hp.2.1
  have hid := Peer.callId_numberJson hframe.1
  rw [hnumber, Peer.callId_numberJson hframe'.1] at hid
  exact (Except.ok.inj hid).symm

/-- Whatever is delivered to a handler of a call comes with an answer to this call or at the end of
the connection; results and exceptions are the very ones of the function on the arguments of the
call. -/
theorem delivered_of_call {c : Command κ String} {k : Handler κ} {d : Delivery}
    (h : Reaches Acts (start config registry) g) (hr : Regular registry g)
    (hd : .delivered c id k d ∈ (g side).trace) :
    ∃ w args, HandedOut (g side) w args id ∧ Handles (g side) w id k ∧
      (((∀ m, c ≠ .receive m) ∧ Explained k d) ∨
        ∃ m f outcome, c = .receive m ∧ Answers registry g side id w args f outcome m ∧
          (∀ id' w' args' f' outcome', Answers registry g side id' w' args' f' outcome' m →
            id' = id) ∧
          (Explained k d ∨ k.Given f.native.range d outcome)) := by
  obtain ⟨-, ha⟩ := accounted_of_reaches h side
  obtain ⟨⟨w, args, hw, hhandles⟩, hnotified⟩ := ha.seen _ hd
  refine ⟨w, args, hw, hhandles, ?_⟩
  cases c with
  | receive m =>
    obtain ⟨w', args', success, payload, -, htells, hread⟩ := hnotified
    obtain ⟨f, outcome, hanswers, rfl, rfl, hrange, htyped⟩ :=
      exists_answers h hr (sent_of_during h hd rfl) hw htells
    refine Or.inr ⟨m, f, outcome, rfl, hanswers, fun _ _ _ _ _ ha' => ha'.unique hr hanswers, ?_⟩
    exact hread.imp_right fun hread => Peer.given_of_reads hrange htyped hread
  | close => exact Or.inl ⟨fun m hm => (nomatch hm), hnotified⟩
  | fail reason => exact Or.inl ⟨fun m hm => (nomatch hm), hnotified⟩
  | _ => exact hnotified.elim

/-- The wrapper of a function that flips a truth value. -/
def flipWrapper : Wrapper Unit :=
  ⟨"flip", ⟨[], []⟩, [.result .bool ()]⟩

/-- The function, whose jobs are its arguments. -/
def flipFunction : Registered Bool :=
  ⟨.ofData [.bool] .bool Prod.fst, "", ⟨[], []⟩⟩

/-- One of two peers serves the function. -/
def flipRegistry (side : Bool) : Registry Bool :=
  if side then { (Registry.builtin : Registry Bool) with functions := [("flip", flipFunction)] }
  else .builtin

-- the texts are never computed but by the kernel
@[irreducible] def flipRequest : String :=
  (Json.array (Peer.callMessage 0 "flip" [.bool true])).text

@[irreducible] def flipReply : String :=
  (Json.array (Peer.answer 0 .bool (.ok (.bool false)))).text

/-- The calling peer once its call is out. -/
def flipCalled : Node (Peer Unit Bool) (Command Unit String) String Unit Bool :=
  ⟨⟨.default, .builtin, ⟨1, [(0, ())], [(0, ⟨0, false, [.result .bool ()]⟩)]⟩⟩,
    [.sent (.call flipWrapper [.bool true]) flipRequest]⟩

/-- The serving peer once its reply is out. -/
def flipServed : Node (Peer Unit Bool) (Command Unit String) String Unit Bool :=
  ⟨⟨.default, flipRegistry true, .empty⟩,
    [.invoked (.receive flipRequest) true,
      .returned (.receive flipRequest) true (.ok (.bool false)),
      .sent (.receive flipRequest) flipReply]⟩

/-- The calling peer once its handler was given the result. -/
def flipResolved : Node (Peer Unit Bool) (Command Unit String) String Unit Bool :=
  ⟨⟨.default, .builtin, ⟨1, [], [(0, ⟨0, true, []⟩)]⟩⟩, flipCalled.trace ++
    [.finished (.call flipWrapper [.bool true]) (.ok (some 0)),
      .delivered (.receive flipReply) 0 (.result .bool ()) (.value (.bool false))]⟩

/-- The reply arrived. -/
def flipAnswered : Link Unit Bool
  | false => flipResolved.note (.finished (.receive flipReply) (.ok none))
  | true => flipServed.note (.finished (.receive flipRequest) (.ok none))

theorem parseArray?_flipRequest :
    Json.parseArray? flipRequest = some (Peer.callMessage 0 "flip" [.bool true]) :=
  Json.parseArray?_of_atoms (by decide +kernel)

theorem parseArray?_flipReply :
    Json.parseArray? flipReply = some (Peer.answer 0 .bool (.ok (.bool false))) :=
  Json.parseArray?_of_atoms (by decide +kernel)

theorem runs_flipCalled : (Peer.perform (.call flipWrapper [.bool true])).Runs Eq
    (.call flipWrapper [.bool true]) (.start (.ofTerms .default .builtin)) (.ok (some 0))
    flipCalled := by
  unfold flipCalled flipRequest
  exact ⟨_, true, rfl, rfl, rfl⟩

theorem runs_flipServed : (Peer.perform (.receive flipRequest)).Runs Eq (.receive flipRequest)
    (.start (.ofTerms .default (flipRegistry true))) (.ok none) flipServed := by
  simp only [Peer.perform]
  unfold Peer.receive Peer.dispatch
  rw [parseArray?_flipRequest]
  refine ⟨_, .ok (.bool false), rfl, ?_⟩
  unfold flipServed flipReply
  exact ⟨_, true, rfl, rfl, rfl⟩

theorem runs_flipResolved : (Peer.perform (.receive flipReply)).Runs Eq (.receive flipReply)
    (flipCalled.note (.finished (.call flipWrapper [.bool true]) (.ok (some 0)))) (.ok none)
    flipResolved := by
  simp only [Peer.perform]
  unfold Peer.receive Peer.dispatch
  rw [parseArray?_flipReply]
  exact ⟨_, .ok (), rfl, rfl, rfl⟩

theorem reaches_flipAnswered :
    Reaches Acts (start (fun _ => .default) flipRegistry) flipAnswered := by
  let called : Link Unit Bool := (site false).put (start (fun _ => .default) flipRegistry)
    (flipCalled.note (.finished (.call flipWrapper [.bool true]) (.ok (some 0))))
  let served : Link Unit Bool := (site true).put called (flipAnswered true)
  have hcalled : Reaches Acts (start (fun _ => .default) flipRegistry) called :=
    Parties.reaches_of_runs (P := parties Unit Bool) false (by rintro _ ⟨⟩) runs_flipCalled
  have hserved : Reaches Acts called served := by
    refine Parties.reaches_of_runs (P := parties Unit Bool) (g := called) true ?_ runs_flipServed
    rintro _ ⟨⟩
    exact ⟨_, List.mem_cons_self⟩
  have hresolved : Reaches Acts served ((site false).put served (flipAnswered false)) := by
    refine Parties.reaches_of_runs (P := parties Unit Bool) (g := served) false ?_
      runs_flipResolved
    rintro _ ⟨⟩
    exact ⟨_, List.mem_cons_of_mem _ (List.mem_cons_of_mem _ List.mem_cons_self)⟩
  have hanswered : flipAnswered = (site false).put served (flipAnswered false) := by
    funext side
    cases side <;> rfl
  rw [hanswered]
  exact (hcalled.trans hserved).trans hresolved

theorem mem_flipAnswered_false (o : Occurrence (Command Unit String) String Unit Bool) :
    o ∈ (flipAnswered false).trace ↔ o = .sent (.call flipWrapper [.bool true]) flipRequest ∨
      o = .finished (.call flipWrapper [.bool true]) (.ok (some 0)) ∨
      o = .delivered (.receive flipReply) 0 (.result .bool ()) (.value (.bool false)) ∨
      o = .finished (.receive flipReply) (.ok none) := by
  show o ∈ [_, _, _, _] ↔ _
  simp only [List.mem_cons, List.not_mem_nil, or_false]

theorem mem_flipAnswered_true (o : Occurrence (Command Unit String) String Unit Bool) :
    o ∈ (flipAnswered true).trace ↔ o = .invoked (.receive flipRequest) true ∨
      o = .returned (.receive flipRequest) true (.ok (.bool false)) ∨
      o = .sent (.receive flipRequest) flipReply ∨
      o = .finished (.receive flipRequest) (.ok none) := by
  show o ∈ [_, _, _, _] ↔ _
  simp only [List.mem_cons, List.not_mem_nil, or_false]

theorem eq_flipFunction {name : String} {f : Registered Bool}
    (hf : (flipRegistry true).function? name = some f) : f = flipFunction := by
  have hmem : (name, f) ∈ [("flip", flipFunction)] := Table.mem_of_find? hf
  exact congrArg Prod.snd (List.mem_singleton.1 hmem)

theorem regular_flip : Regular flipRegistry flipAnswered := by
  have htyped (b : Bool) : Ty.bool.Has (.bool b) ∧ (Value.bool b).Finite :=
    ⟨rfl, .scalar trivial⟩
  constructor
  case calls =>
    rintro (_ | _) w args m id hm ⟨hid, hm'⟩
    · simp only [mem_flipAnswered_false, reduceCtorEq, or_false, Occurrence.sent.injEq,
        Command.call.injEq] at hm
      obtain ⟨⟨rfl, rfl⟩, rfl⟩ := hm
      unfold flipRequest at hm'
      obtain rfl : id = 0 := Peer.callMessage_inj hid (by decide) hm'.symm
      exact parseArray?_flipRequest
    · simp [mem_flipAnswered_true] at hm
  case answers =>
    rintro (_ | _) request m id name f job outcome hm hasks hret -
    · simp [mem_flipAnswered_false] at hm
    · simp only [mem_flipAnswered_true, reduceCtorEq, or_false, false_or, Occurrence.sent.injEq,
        Occurrence.returned.injEq, Command.receive.injEq] at hm hret
      obtain ⟨rfl, rfl⟩ := hm
      obtain ⟨-, -, rfl⟩ := hret
      obtain ⟨rfl, rfl, hf, -⟩ := hasks.of_call (by decide) parseArray?_flipRequest
      rw [eq_flipFunction hf]
      exact parseArray?_flipReply
  case distinct =>
    rintro (_ | _) name f hf
    · cases hf
    · rw [eq_flipFunction hf]
      exact ⟨fun t ht => List.mem_singleton.1 ht ▸ trivial, trivial⟩
  case args =>
    rintro (_ | _) w args m f hm hf
    · simp only [mem_flipAnswered_false, reduceCtorEq, or_false, Occurrence.sent.injEq,
        Command.call.injEq] at hm
      obtain ⟨⟨rfl, rfl⟩, rfl⟩ := hm
      rw [eq_flipFunction hf]
      exact ⟨.cons (htyped true).1 .nil, fun v hv => List.mem_singleton.1 hv ▸ (htyped true).2⟩
    · simp [mem_flipAnswered_true] at hm
  case results =>
    rintro (_ | _) m id name f job v hret hasks
    · simp [mem_flipAnswered_false] at hret
    · simp only [mem_flipAnswered_true, reduceCtorEq, or_false, false_or,
        Occurrence.returned.injEq, Except.ok.injEq] at hret
      obtain ⟨-, -, rfl⟩ := hret
      obtain ⟨_, _, _, _, _, hf, -⟩ := hasks
      rw [eq_flipFunction hf]
      exact htyped false

/-- One peer asks the other one to flip a truth value, and its handler is given what the function
returned. -/
theorem delivered_of_call_flip :
    Reaches Acts (start (fun _ => .default) flipRegistry) flipAnswered ∧
      Regular flipRegistry flipAnswered ∧
      .delivered (.receive flipReply) 0 (.result .bool ()) (.value (.bool false)) ∈
        (flipAnswered false).trace ∧
      ∃ w args, HandedOut (flipAnswered false) w args 0 ∧
        Handles (flipAnswered false) w 0 (.result .bool ()) ∧
        Answers flipRegistry flipAnswered false 0 w args flipFunction (.ok (.bool false))
          flipReply := by
  have hdelivered := (mem_flipAnswered_false (.delivered (.receive flipReply) 0 (.result .bool ())
    (.value (.bool false)))).2 (Or.inr (Or.inr (Or.inl rfl)))
  obtain ⟨w, args, hw, hhandles, hcases⟩ :=
    delivered_of_call reaches_flipAnswered regular_flip hdelivered
  rcases hcases with ⟨hno, -⟩ | ⟨m, f, outcome, hm, hanswers, -, ⟨herror, -⟩ | hgiven⟩
  · exact absurd rfl (hno flipReply)
  · cases herror
  · cases hm
    obtain rfl := eq_flipFunction hanswers.function
    refine ⟨reaches_flipAnswered, regular_flip, hdelivered, w, args, hw, hhandles, ?_⟩
    -- the handler was given false, so that is what the function returned
    cases outcome with
    | error message => cases hgiven.1
    | ok v =>
      obtain ⟨-, x, hx, hsame⟩ := hgiven
      cases hx
      rwa [hsame (readsResult_result .bool ())]

end

end Link

end Parley
