import Mathlib.Data.List.TakeWhile
import Parley.Proofs.Sessions

/-!
# What a request says

A request is the identifier of its call, the name of its function as a closed text, and its
arguments. A text closes at its first zero unit. Arguments that hold the character of that unit are
refused, names are not: of a name with a zero character a server reads what stands before it, and
takes the rest of the name for the front of the arguments.

* `heard`, `unheard` : a text up to its first zero character, and the bytes after it;
  `zeroTerminated_eq` : how the bytes of a text fall apart.
* `Server.run_header_of_frame` : what is read of the front of a request, and what is left.
* `request_read_back` : requests and what servers make of them.
-/

namespace Parley

/-! ## Closed texts -/

/-- A text up to its first zero character. -/
def heard (s : String) : String :=
  String.ofList (s.toList.takeWhile (· ≠ '\x00'))

/-- The bytes of a text that come after its first zero unit, unless that is what closes it. -/
def unheard (s : String) : List UInt8 :=
  match s.toList.dropWhile (· ≠ '\x00') with
  | [] => []
  | _ :: after => zeroTerminated (String.ofList after)

theorem heard_eq_self {s : String} (h : '\x00' ∉ s.toList) : heard s = s := by
  have hall : ∀ c ∈ s.toList, decide (c ≠ '\x00') = true :=
    fun c hc => decide_eq_true fun he => h (he ▸ hc)
  rw [heard, List.takeWhile_eq_self_iff.2 hall, String.ofList_toList]

theorem unheard_eq_nil {s : String} (h : '\x00' ∉ s.toList) : unheard s = [] := by
  have hall : ∀ c ∈ s.toList, decide (c ≠ '\x00') = true :=
    fun c hc => decide_eq_true fun he => h (he ▸ hc)
  rw [unheard, List.dropWhile_eq_nil_iff.2 hall]

theorem zero_not_mem_heard (s : String) : '\x00' ∉ (heard s).toList := by
  rw [heard, String.toList_ofList]
  intro h
  have := List.mem_takeWhile_imp h
  exact of_decide_eq_true this rfl

/-- A zero character closes the text before it. -/
theorem zeroTerminated_append (front after : List Char) :
    zeroTerminated (String.ofList (front ++ '\x00' :: after)) =
      zeroTerminated (String.ofList front) ++ zeroTerminated (String.ofList after) := by
  have hzero : (Utf16.units '\x00').flatMap (fun u => littleEndian 2 u.toNat) = [0, 0] := rfl
  simp only [zeroTerminated, Utf16.encode, String.toList_ofList, List.flatMap_append,
    List.flatMap_cons, hzero, List.append_assoc]

theorem zeroTerminated_eq (s : String) :
    zeroTerminated s = zeroTerminated (heard s) ++ unheard s := by
  have hsplit := List.takeWhile_append_dropWhile (p := (· ≠ '\x00')) (l := s.toList)
  rw [heard, unheard]
  cases hback : s.toList.dropWhile (· ≠ '\x00') with
  | nil =>
    rw [hback, List.append_nil] at hsplit
    rw [hsplit, String.ofList_toList, List.append_nil]
  | cons c after =>
    have hc : c = '\x00' := by
      have := List.head?_dropWhile_not (fun x : Char => decide (x ≠ '\x00')) s.toList
      rw [hback] at this
      simpa using this
    rw [hback, hc] at hsplit
    rw [← zeroTerminated_append, hsplit, String.ofList_toList]

/-! ## Requests -/

/-- The arguments come after the rest of the name, as much of which as is heard is read. -/
theorem Server.run_header_of_frame {id : Nat} {name : String} {args : List Value}
    {encoding : List Encoding} {frame : List UInt8} (hid : id < idLimit)
    (h : requestFrame id name args encoding = .ok frame) :
    ∃ encoded, encodeArguments encoding args = .ofBytes encoded ∧
      header.run (Cursor.start frame) = (.ok (id, heard name),
        ⟨4 + (zeroTerminated (heard name)).length, unheard name ++ encoded⟩) := by
  obtain ⟨encoded, he, rfl⟩ := requestFrame_eq_ok.1 h
  refine ⟨encoded, he, ?_⟩
  rw [zeroTerminated_eq, List.append_assoc, run_header hid (zero_not_mem_heard name)]

/-- A request of a name without zero characters is read as it was made, up to its arguments. Two
requests are read alike exactly if they have one identifier and the same is heard of their names. -/
theorem request_read_back {id : Nat} {name : String} {args : List Value}
    {encoding : List Encoding} {frame : List UInt8} (hid : id < idLimit)
    (h : requestFrame id name args encoding = .ok frame) :
    (∃ encoded after, encodeArguments encoding args = .ofBytes encoded ∧
      Server.header.run (Cursor.start frame) = (.ok (id, heard name), after) ∧
      after.rest = unheard name ++ encoded ∧
      ('\x00' ∉ name.toList → heard name = name ∧ unheard name = [])) ∧
    ∀ {id' : Nat} {name' : String} {args' : List Value} {encoding' : List Encoding}
      {frame' : List UInt8}, id' < idLimit → requestFrame id' name' args' encoding' = .ok frame' →
      ((Server.header.run (Cursor.start frame)).1 = (Server.header.run (Cursor.start frame')).1 ↔
        id = id' ∧ heard name = heard name') := by
  obtain ⟨encoded, he, hread⟩ := Server.run_header_of_frame hid h
  refine ⟨⟨encoded, _, he, hread, rfl, fun hz => ⟨heard_eq_self hz, unheard_eq_nil hz⟩⟩, ?_⟩
  intro id' name' args' encoding' frame' hid' h'
  obtain ⟨encoded', -, hread'⟩ := Server.run_header_of_frame hid' h'
  rw [hread, hread', Except.ok.injEq, Prod.mk.injEq]

/-- The request of a name with a surrogate pair, and an argument. -/
theorem request_read_back_pair :
    ∃ frame after, requestFrame 7 "svc.𝄞" [.bool true] [.base .boolean [.index 0]] = .ok frame ∧
      Server.header.run (Cursor.start frame) = (.ok (7, "svc.𝄞"), after) ∧ after.rest = [1] := by
  have hframe : requestFrame 7 "svc.𝄞" [.bool true] [.base .boolean [.index 0]] =
      .ok (littleEndian 4 7 ++ (zeroTerminated "svc.𝄞" ++ [1])) :=
    requestFrame_eq_ok.2 ⟨[1], rfl, rfl⟩
  obtain ⟨⟨encoded, after, he, hread, hrest, hplain⟩, -⟩ := request_read_back (by decide) hframe
  cases he
  obtain ⟨hheard, hunheard⟩ := hplain (by decide)
  rw [hheard] at hread
  rw [hunheard] at hrest
  exact ⟨_, after, hframe, hread, hrest⟩

/-- A wrapper is made for a name that holds a zero character, and a server reads another name of its
request. -/
theorem request_not_read_back :
    let c : Caller Unit := .ofTerms .default [("none", ⟨[], []⟩)]
    ∃ w frame frame', Caller.wrapper c "svc.ping\x00x" "none" [] = .ok w ∧
      w.name = "svc.ping\x00x" ∧ "svc.ping" ≠ w.name ∧
      requestFrame 7 w.name [] w.encoding.args = .ok frame ∧
      requestFrame 7 "svc.ping" [] w.encoding.args = .ok frame' ∧
      encodeArguments w.encoding.args [] = .ofBytes [] ∧
      Server.header.run (Cursor.start frame) = (.ok (7, "svc.ping"), ⟨22, [0x78, 0, 0, 0]⟩) ∧
      Server.header.run (Cursor.start frame') = (.ok (7, "svc.ping"), ⟨22, []⟩) :=
  ⟨⟨"svc.ping\x00x", ⟨[], []⟩, []⟩,
    [7, 0, 0, 0, 115, 0, 118, 0, 99, 0, 46, 0, 112, 0, 105, 0, 110, 0, 103, 0, 0, 0, 120, 0, 0, 0],
    [7, 0, 0, 0, 115, 0, 118, 0, 99, 0, 46, 0, 112, 0, 105, 0, 110, 0, 103, 0, 0, 0],
    rfl, rfl, by decide, rfl, rfl, rfl, rfl, rfl⟩

end Parley
