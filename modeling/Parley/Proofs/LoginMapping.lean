import Parley.Login
import Parley.Native.Records
import Parley.Proofs.Sending

/-!
# The login mapping loses nothing

The entries of the login mapping carry all of a login request and all of the response to it. A
request is written and read back; so is a response whose time fits in four bytes, but for an access
type that the mapping does not list.

* `encoding` : the mapping once it is compiled; `argumentEntries` : its entries about the request.
* `conveys_request`, `exact_request` : what the entries of a request are.
* `fits_response`, `covered_response`, `exact_response` : what the entries of a response are.
* `inRange_response_iff`, `run_decode_response` : when a response is written, and what is read.
* `login_mapping_lossless` : both of them.
-/

namespace Parley.Login

/-- The encodings of the login mapping. -/
def encoding : FunctionEncoding :=
  ((Mappings.builtin.compile mappingId).toOption).getD ⟨[], []⟩

theorem compile_builtin : Mappings.builtin.compile mappingId = .ok encoding := by
  rfl

/-! ## Requests -/

/-- The entries of a request, each about the one argument. -/
def argumentEntries : List (Nat × Encoding) :=
  (encoding.args.mapM Encoding.splitParameter).toOption.getD []

theorem splitParameter_args :
    encoding.args.mapM Encoding.splitParameter = .ok argumentEntries := by
  rfl

theorem distinct_request : loginRequestTy.Distinct := by
  decide

theorem conveys_request : Conveys argumentEntries [loginRequestTy] where
  taken := by decide
  fits := by
    rintro (_ | i) t ht
    · cases ht
      decide +kernel
    · cases ht
  covered := by
    rintro (_ | i) t ht
    · cases ht
      decide +kernel
    · cases ht

theorem exact_request : Exact (own argumentEntries 0) loginRequestTy := by
  decide +kernel

theorem named_request : Named (own argumentEntries 0) := by
  decide

theorem keyless_request : Keyless (own argumentEntries 0) := by
  decide

theorem run_decodeArguments_request {v : Value} (hv : loginRequestTy.Has v) (hs : v.Sendable) :
    ∃ b, encodeArguments encoding.args [v] = .ofBytes b ∧
      (decodeArguments encoding.args [loginRequestTy]).run (Cursor.start b) =
        (.ok [v], ⟨b.length, []⟩) := by
  have hwrite : ∀ e ∈ own argumentEntries 0, ∃ b, e.write v = .ofBytes b := by
    have hf := conveys_request.fits 0 _ rfl
    intro e he
    exact (Encoding.exists_write_iff (hf.of_mem he) (named_iff.1 named_request e he) hv hs).2
      (inRange_iff.1 (exact_request.inRange hv) e he)
  obtain ⟨b, hb⟩ : ∃ b, encodeArguments encoding.args [v] = .ofBytes b :=
      (exists_encodeArguments_iff splitParameter_args).2 fun e he => by
    have hzero : e.1 = 0 := Nat.lt_one_iff.1 (conveys_request.taken e he)
    refine ⟨v, by rw [hzero]; rfl, hwrite e.2 (List.mem_map.2 ⟨e, ?_, rfl⟩)⟩
    exact List.mem_filter.2 ⟨he, decide_eq_true hzero⟩
  have hkeyed : ∀ i a, [v][i]? = some a → Keyed (own argumentEntries i) a := by
    rintro (_ | i) a ha
    · exact keyless_request.keyed a
    · cases ha
  have hrun := run_decodeArguments splitParameter_args
    (List.forall_mem_singleton.2 distinct_request) conveys_request (.cons hv .nil) hkeyed hb 0 []
  rw [List.append_nil, Nat.zero_add] at hrun
  exact ⟨b, hb, hrun⟩

/-! ## Responses -/

/-- The path of the time. -/
def timePath : Path := [.name "seconds_since_epoch"]

/-- The path of the access type. -/
def accessPath : Path := [.name "agent_access"]

/-- The access types that the mapping lists. -/
def accessTable : EnumTable := ⟨"Mature", 0, [("Mature", 0), ("Teen", 1)]⟩

theorem distinct_response : loginResponseTy.Distinct := by
  decide

theorem fits_response : Fits encoding.result loginResponseTy := by
  decide +kernel

theorem covered_response : loginResponseTy.Covered [] encoding.result := by
  decide +kernel

theorem named_response : Named encoding.result := by
  decide

theorem time_mem : Encoding.base .u32 timePath ∈ encoding.result :=
  List.mem_of_getElem? (i := 5) rfl

theorem access_mem : Encoding.enum accessPath accessTable ∈ encoding.result :=
  List.mem_of_getElem? (i := 16) rfl

theorem exact_response :
    ∀ e ∈ encoding.result, e.path ≠ timePath → e.Exact loginResponseTy := by
  decide +kernel

theorem keyless_response : ∀ e ∈ encoding.result, e.path ≠ accessPath → e.Keyless := by
  decide +kernel

theorem eq_of_path_eq {e e' : Encoding} (he : e ∈ encoding.result) (he' : e' ∈ encoding.result)
    (h : e.path = e'.path) : e = e' :=
  (fits_response.eq_or_apart he he').resolve_right fun hapart => hapart.1 (h ▸ List.prefix_rfl)

/-- Of the numbers of a response all but the time travel as the kind that they have. -/
theorem inRange_response_iff {v : Value} {seconds : Integer} (hv : loginResponseTy.Has v)
    (ht : v.get timePath = .ok (.int seconds)) :
    InRange encoding.result v ↔ seconds.val < 4294967296 := by
  obtain ⟨_, ⟨⟩, hkind⟩ := Ty.has_scalar.1 (hv.get (u := .int .u64) rfl ht)
  have hnonneg : 0 ≤ seconds.val := by
    have := seconds.inRange.1
    rwa [ScalarTy.int.inj hkind] at this
  have htime : (Encoding.base .u32 timePath).InRange v ↔ seconds.val < 4294967296 := by
    rw [Encoding.InRange, ht]
    show 0 ≤ seconds.val ∧ seconds.val ≤ 4294967295 ↔ _
    omega
  rw [inRange_iff, ← htime]
  refine ⟨fun h => h _ time_mem, fun h e he => ?_⟩
  by_cases hpath : e.path = timePath
  · exact eq_of_path_eq time_mem he hpath.symm ▸ h
  · exact (exact_response e he hpath).inRange hv

/-- The access type that is read is one of the two that the mapping lists. -/
theorem key_number_access (access : String) :
    accessTable.number access =
      accessTable.number (if access = "Teen" then "Teen" else "Mature") := by
  by_cases hteen : access = "Teen"
  · rw [if_pos hteen, hteen]
  · rw [if_neg hteen, EnumTable.number]
    by_cases hmature : access = "Mature"
    · rw [hmature]
      rfl
    · rw [List.find?_eq_none.2]
      · rfl
      · simp [accessTable, Ne.symm hteen, Ne.symm hmature]

/-- A response is read back as it was, but for an access type that is not listed. -/
theorem run_decode_response {v : Value} {access : String} {b : List UInt8}
    (hv : loginResponseTy.Has v) (ha : v.get accessPath = .ok (.string access))
    (hb : encode encoding.result v = .ofBytes b) :
    ∃ w, v.set (.string (if access = "Teen" then "Teen" else "Mature")) accessPath = .ok w ∧
      (decode encoding.result loginResponseTy).run (Cursor.start b) = (.ok w, ⟨b.length, []⟩) := by
  obtain ⟨w, hw⟩ :=
    Value.exists_set ha (.string (if access = "Teen" then "Teen" else "Mature"))
  have hhas : loginResponseTy.Has w :=
    hv.set distinct_response (u := .string) rfl (Ty.has_scalar.2 ⟨_, rfl, rfl⟩) hw
  have hkeyed : Keyed encoding.result w := by
    refine keyed_iff.2 fun e he => ?_
    by_cases hpath : e.path = accessPath
    · obtain rfl := eq_of_path_eq access_mem he hpath.symm
      rw [Encoding.Keyed, Value.get_set_self hw]
      show (if access = "Teen" then "Teen" else "Mature") ∈ ["Mature", "Teen"]
      split <;> decide
    · exact (keyless_response e he hpath).keyed w
  rw [encode_set fits_response named_response hv access_mem ha hw (key_number_access access)] at hb
  have hrun := run_decode distinct_response fits_response covered_response hhas hkeyed hb 0 []
  rw [List.append_nil, Nat.zero_add] at hrun
  exact ⟨w, hw, hrun⟩

/-! ## What the mapping keeps -/

/-- Requests and responses of the login mapping are read back as they were, from all of their bytes;
of the access types, all but `Teen` are read as `Mature`. -/
theorem login_mapping_lossless :
    ∃ enc, Mappings.builtin.compile mappingId = .ok enc ∧
      (∀ v, loginRequestTy.Has v → v.Sendable →
        ∃ b, encodeArguments enc.args [v] = .ofBytes b ∧
          (decodeArguments enc.args [loginRequestTy]).run (Cursor.start b) =
            (.ok [v], ⟨b.length, []⟩)) ∧
      ∀ v, loginResponseTy.Has v → v.Sendable →
        ∃ seconds access, v.get [.name "seconds_since_epoch"] = .ok (.int seconds) ∧
          v.get [.name "agent_access"] = .ok (.string access) ∧
          ((∃ b, encode enc.result v = .ofBytes b) ↔ seconds.val < 4294967296) ∧
          ∀ b, encode enc.result v = .ofBytes b →
            ∃ w, v.set (.string (if access = "Teen" then "Teen" else "Mature"))
                [.name "agent_access"] = .ok w ∧
              (decode enc.result loginResponseTy).run (Cursor.start b) =
                (.ok w, ⟨b.length, []⟩) := by
  refine ⟨encoding, compile_builtin, fun v hv hs => run_decodeArguments_request hv hs,
    fun v hv hs => ?_⟩
  obtain ⟨_, hseconds⟩ := hv.exists_get (p := timePath) (u := .int .u64) (by decide) rfl
  obtain ⟨time, rfl, htime⟩ := Ty.has_scalar.1 (hv.get (u := .int .u64) rfl hseconds)
  obtain ⟨seconds, rfl, -⟩ := Scalar.exists_int htime
  obtain ⟨_, haccess⟩ := hv.exists_get (p := accessPath) (u := .string) (by decide) rfl
  obtain ⟨key, rfl, hkey⟩ := Ty.has_scalar.1 (hv.get (u := .string) rfl haccess)
  obtain ⟨access, rfl⟩ := Scalar.exists_string hkey
  refine ⟨seconds, access, hseconds, haccess, ?_, fun b hb => run_decode_response hv haccess hb⟩
  rw [exists_encode_iff fits_response named_response hv hs]
  exact inRange_response_iff hv hseconds

/-- The name of a guest. -/
def guestName : Value :=
  .record .value [("first", .string "Test"), ("last", .string "User")]

/-- A request with two options. -/
def guestRequest : Value :=
  .record .value [("agree_to_tos", .string "true"), ("channel", .string "viewer"),
    ("id0", .string ""), ("mac", .string "00:00"), ("name", guestName),
    ("options", .array [.string "inventory-root", .string "login-flags"]),
    ("platform", .string "Lin"), ("pwdHash", .string "$1$"), ("read_critical", .string "true"),
    ("start", .string "last"), ("version", .string "1.23"), ("viewer_digest", .string "")]

/-- A response at a time, with an access type. -/
def guestResponse (seconds : Integer) (access : String) : Value :=
  .record .value [("agent_access", .string access), ("agent_id", .string ""),
    ("circuit_code", .int ⟨.u32, 41, by decide⟩), ("inventory_host", .string ""),
    ("login", .string "true"), ("look_at", .string "[1,0,0]"), ("message", .string "Hello"),
    ("name", guestName), ("region_x", .int ⟨.i32, 256, by decide⟩),
    ("region_y", .int ⟨.i32, -256, by decide⟩),
    ("seconds_since_epoch", .int seconds),
    ("secure_session_id", .string ""), ("seed_capability", .string ""), ("session_id", .string ""),
    ("sim_ip", .string "127.0.0.1"), ("sim_port", .int ⟨.u16, 13000, by decide⟩),
    ("start_location", .string "last")]

theorem get_time_guestResponse (seconds : Integer) (access : String) :
    (guestResponse seconds access).get timePath = .ok (.int seconds) := by
  rfl

theorem get_access_guestResponse (seconds : Integer) (access : String) :
    (guestResponse seconds access).get accessPath = .ok (.string access) := by
  rfl

theorem set_access_guestResponse (seconds : Integer) (access key : String) :
    (guestResponse seconds access).set (.string key) accessPath =
      .ok (guestResponse seconds key) := by
  rfl

/-- The response is read back with another access type, and at a later time it is not written. -/
theorem login_mapping_lossless_guest :
    let now : Integer := ⟨.u64, 1244603509, by decide⟩
    let late : Integer := ⟨.u64, 4294967296, by decide⟩
    loginRequestTy.Has guestRequest ∧ guestRequest.Sendable ∧
      (loginResponseTy.Has (guestResponse now "Adult") ∧
        (guestResponse now "Adult").Sendable) ∧
      (loginResponseTy.Has (guestResponse late "Adult") ∧
        (guestResponse late "Adult").Sendable) ∧
      ∃ enc, Mappings.builtin.compile mappingId = .ok enc ∧
        (∃ b, encodeArguments enc.args [guestRequest] = .ofBytes b ∧
          (decodeArguments enc.args [loginRequestTy]).run (Cursor.start b) =
            (.ok [guestRequest], ⟨b.length, []⟩)) ∧
        (∃ b, encode enc.result (guestResponse now "Adult") = .ofBytes b ∧
          (decode enc.result loginResponseTy).run (Cursor.start b) =
            (.ok (guestResponse now "Mature"), ⟨b.length, []⟩)) ∧
        ¬∃ b, encode enc.result (guestResponse late "Adult") = .ofBytes b := by
  intro now late
  have hrequest : loginRequestTy.Has guestRequest ∧ guestRequest.Sendable := by decide +kernel
  have hnow : loginResponseTy.Has (guestResponse now "Adult") ∧
      (guestResponse now "Adult").Sendable := by decide +kernel
  have hlate : loginResponseTy.Has (guestResponse late "Adult") ∧
      (guestResponse late "Adult").Sendable := by decide +kernel
  obtain ⟨enc, henc, hargs, hresult⟩ := login_mapping_lossless
  refine ⟨hrequest.1, hrequest.2, hnow, hlate, enc, henc, hargs _ hrequest.1 hrequest.2, ?_, ?_⟩
  · obtain ⟨seconds, access, ht, ha, hiff, hread⟩ := hresult _ hnow.1 hnow.2
    cases ht.symm.trans (get_time_guestResponse now "Adult")
    cases ha.symm.trans (get_access_guestResponse now "Adult")
    obtain ⟨b, hb⟩ := hiff.2 (by decide)
    obtain ⟨w, hw, hrun⟩ := hread b hb
    cases hw.symm.trans (set_access_guestResponse now "Adult" "Mature")
    exact ⟨b, hb, hrun⟩
  · obtain ⟨seconds, access, ht, -, hiff, -⟩ := hresult _ hlate.1 hlate.2
    cases ht.symm.trans (get_time_guestResponse late "Adult")
    exact fun h => absurd (hiff.1 h) (by decide)

end Parley.Login
