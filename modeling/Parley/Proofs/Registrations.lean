import Parley.Proofs.Soundness
import Parley.Registry

/-!
# What a registry admits

A function is admitted when it is declared, its mapping compiles, it takes as many arguments as it is
declared to take and the path of every entry leads somewhere in the type it is relative to. Entries
of the elements of an array are not looked at: that one of them leads nowhere shows when the function
is called.

* `exists_ofEncoding_iff` : the paths of which encodings merge.
* `Registry.checkPaths_eq_ok` : what is checked of the paths of a function.
* `Registry.Admits`, `Registry.register_iff` : which functions are admitted, and what changes.
* `Encoding.ResolvesDeeply` : an entry leads somewhere, and so do those of the elements it is about.
* `Encoding.exists_element_of_read` : an array is only read if the entries of its elements resolve.
* `register_stray` : a function is admitted though an entry of an element leads nowhere.
-/

namespace Parley

/-! ## Sketches of encodings -/

/-- The paths of an encoding merge exactly when each of them leads somewhere in the type. -/
theorem exists_ofEncoding_iff {encoding : List Encoding} {t : Ty} :
    (∃ s, Sketch.ofEncoding encoding t = .ok s) ↔ ∀ e ∈ encoding, e.Resolves t := by
  constructor
  · rintro ⟨s, hs⟩
    exact resolves_of_addAll (.leaf t) hs
  · intro h
    obtain ⟨s, hs, -⟩ := exists_addAll (.leaf t) h
    exact ⟨s, hs⟩

theorem discard_eq_ok {ε α : Type} {x : Except ε α} {u : Unit} :
    discard x = .ok u ↔ ∃ a, x = .ok a := by
  cases x with
  | error e => constructor <;> rintro ⟨_, ⟨⟩⟩
  | ok a =>
    constructor
    · intro _
      exact ⟨a, rfl⟩
    · intro _
      rfl

theorem forM_eq_ok {ε α : Type} {f : α → Except ε Unit} {as : List α} {u : Unit} :
    as.forM f = .ok u ↔ ∀ a ∈ as, f a = .ok () := by
  induction as with
  | nil =>
    constructor
    · exact fun _ _ ha => absurd ha List.not_mem_nil
    · exact fun _ => rfl
  | cons a as ih =>
    rw [List.forall_mem_cons, ← ih]
    exact bind_eq_ok.trans ⟨fun ⟨_, ha, hrest⟩ => ⟨ha, hrest⟩, fun ⟨ha, hrest⟩ => ⟨(), ha, hrest⟩⟩

namespace Registry

variable {ι : Type}

/-! ## The paths of a function -/

theorem byParameter_eq_ok {mapping name : String} {count : Nat} {args : List Encoding}
    {entries : List (Nat × Encoding)} :
    byParameter mapping name count args = .ok entries ↔
      List.Forall₂ (fun e x => e.splitParameter = .ok x ∧ x.1 < count) args entries := by
  unfold byParameter
  rw [mapM_eq_ok]
  refine Iff.of_eq (congrArg (List.Forall₂ · args entries) (funext₂ fun e x => propext ?_))
  rw [bind_eq_ok]
  constructor
  · rintro ⟨⟨i, own⟩, hsplit, h⟩
    by_cases hi : i < count
    · simp only [hi, if_true] at h
      cases h
      exact ⟨hsplit, hi⟩
    · simp only [hi, if_false] at h
      cases h
  · rintro ⟨hsplit, hi⟩
    refine ⟨x, hsplit, ?_⟩
    simp only [hi, if_true]
    rfl

/-- An entry of an argument list is about a parameter and resolves in its type. -/
def ArgumentResolves (domain : List Ty) (e : Encoding) : Prop :=
  ∃ i entry t, e.splitParameter = .ok (i, entry) ∧ domain[i]? = some t ∧ entry.Resolves t

/-- The paths of the arguments lead somewhere in the types of their parameters, those of the result
in the type that is returned. -/
theorem checkPaths_eq_ok {mapping name : String} {native : NativeFunction ι}
    {encoding : FunctionEncoding} {u : Unit} :
    checkPaths mapping name native encoding = .ok u ↔
      (∀ e ∈ encoding.args, ArgumentResolves native.domain e) ∧
        ∀ e ∈ encoding.result, e.Resolves native.range := by
  unfold checkPaths
  simp only [bind_eq_ok, byParameter_eq_ok, forM_eq_ok, discard_eq_ok, exists_ofEncoding_iff]
  constructor
  · rintro ⟨entries, hsplit, _, hargs, hresult⟩
    refine ⟨fun e he => ?_, hresult⟩
    obtain ⟨⟨i, entry⟩, hmem, hentry, hi⟩ := exists_mem_of_forall₂ hsplit he
    have ht : native.domain[i]? = some native.domain[i] := List.getElem?_eq_getElem hi
    refine ⟨i, entry, _, hentry, ht, ?_⟩
    refine hargs (_, i) (List.mem_zipIdx_iff_getElem?.2 ht) entry ?_
    exact List.mem_map.2 ⟨(i, entry), List.mem_filter.2 ⟨hmem, decide_eq_true rfl⟩, rfl⟩
  · rintro ⟨hargs, hresult⟩
    obtain ⟨entries, -, hsplit⟩ := exists_mapM_forall₂ (f := Encoding.splitParameter)
      (P := fun e x => e.splitParameter = .ok x ∧ x.1 < native.domain.length) fun e he => by
        obtain ⟨i, entry, t, hentry, ht, -⟩ := hargs e he
        obtain ⟨hi, -⟩ := List.getElem?_eq_some_iff.1 ht
        exact ⟨(i, entry), hentry, hentry, hi⟩
    refine ⟨entries, hsplit, (), ?_, hresult⟩
    rintro ⟨t, i⟩ ht entry hentry
    obtain ⟨⟨j, _⟩, hfilter, rfl⟩ := List.mem_map.1 hentry
    obtain ⟨hmem, hj⟩ := List.mem_filter.1 hfilter
    obtain rfl : j = i := of_decide_eq_true hj
    -- the entry comes from one of the list, which resolves in the type of its parameter
    obtain ⟨e, he, hsame, -⟩ := exists_mem_of_forall₂ hsplit.flip hmem
    obtain ⟨_, _, t', hentry, ht', hresolves⟩ := hargs e he
    cases hsame.symm.trans hentry
    cases (List.mem_zipIdx_iff_getElem?.1 ht).symm.trans ht'
    exact hresolves

/-! ## Admission -/

/-- A function can be registered under a name and a mapping, with the encoding of the mapping. -/
structure Admits (r : Registry ι) (name : String) (native : NativeFunction ι) (mapping : String)
    (encoding : FunctionEncoding) : Prop where
  declared : ∃ signature, r.declaration name = .ok signature ∧
    native.domain.length = signature.params.length
  compiled : r.encoding mapping = .ok encoding
  args : ∀ e ∈ encoding.args, ArgumentResolves native.domain e
  result : ∀ e ∈ encoding.result, e.Resolves native.range

/-- What a registration that goes through was admitted with, and what it makes of the registry. -/
theorem admits_of_register {r r' : Registry ι} {name : String} {native : NativeFunction ι}
    {mapping : String} {records : List LogRecord}
    (h : r.register name native mapping = .ok (r', records)) :
    ∃ encoding, r.Admits name native mapping encoding ∧
      r' = { r with functions := Table.insert name ⟨native, mapping, encoding⟩ r.functions } := by
  obtain ⟨signature, hdeclared, h⟩ := bind_eq_ok.1 h
  obtain ⟨encoding, hcompiled, h⟩ := bind_eq_ok.1 h
  by_cases harity : native.domain.length = signature.params.length
  · simp only [harity, ne_eq, not_true_eq_false, if_false] at h
    obtain ⟨_, hpaths, h⟩ := bind_eq_ok.1 h
    obtain ⟨hargs, hresult⟩ := checkPaths_eq_ok.1 hpaths
    cases h
    exact ⟨encoding, ⟨⟨signature, hdeclared, harity⟩, hcompiled, hargs, hresult⟩, rfl⟩
  · simp only [ne_eq, harity, not_false_eq_true, if_true] at h
    cases h

/-- A function is registered exactly when the registry admits it, in the place of whatever was
registered under its name. -/
theorem register_iff (r r' : Registry ι) (name : String) (native : NativeFunction ι)
    (mapping : String) :
    (∃ records, r.register name native mapping = .ok (r', records)) ↔
      ∃ encoding, r.Admits name native mapping encoding ∧
        r' = { r with functions := Table.insert name ⟨native, mapping, encoding⟩ r.functions } := by
  constructor
  · rintro ⟨records, h⟩
    exact admits_of_register h
  · rintro ⟨encoding, ⟨⟨signature, hdeclared, harity⟩, hcompiled, hargs, hresult⟩, rfl⟩
    have hpaths : checkPaths mapping name native encoding = .ok () :=
      checkPaths_eq_ok.2 ⟨hargs, hresult⟩
    unfold register
    rw [bind_of_ok hdeclared, bind_of_ok hcompiled, if_neg (not_not.2 harity), bind_of_ok hpaths]
    exact ⟨_, rfl⟩

end Registry

/-! ## The entries of elements -/

mutual

/-- The entry leads somewhere in the type; if it is about an array, to an array, and the entries of
the elements do the same in the type of the elements. -/
def Encoding.ResolvesDeeply : Encoding → Ty → Prop
  | .base _ path, t => ∃ u, t.follow path = .ok u
  | .array path element, t => ∃ u, t.follow path = .ok (.array u) ∧ ResolveDeeply element u
  | .enum path _, t => ∃ u, t.follow path = .ok u

/-- All entries do. -/
def ResolveDeeply : List Encoding → Ty → Prop
  | [], _ => True
  | e :: rest, t => e.ResolvesDeeply t ∧ ResolveDeeply rest t

end

/-- An array is read only if the entries of its elements lead somewhere in their type, however many
elements there are. -/
theorem Encoding.exists_element_of_read {path : Path} {element : List Encoding} {t : Ty}
    {v w : Value} {c c' : Cursor}
    (h : ((Encoding.array path element).read t v).run c = (.ok w, c')) :
    ∃ u, t.follow path = .ok (.array u) ∧ ∀ e ∈ element, e.Resolves u := by
  obtain ⟨u, _, _, _, _, ht, -, -, hitems, -⟩ := run_read_array.1 h
  exact ⟨u, ht, resolves_of_constructItems hitems⟩

theorem exists_element_of_fillArguments {entries : List (Nat × Encoding)} {types : List Ty}
    {zs args : List Value} {c c' : Cursor} {i : Nat} {path : Path} {element : List Encoding}
    (hmem : (i, .array path element) ∈ entries)
    (h : (fillArguments types entries zs).run c = (.ok args, c')) :
    ∃ t u, types[i]? = some t ∧ t.follow path = .ok (.array u) ∧ ∀ e ∈ element, e.Resolves u := by
  induction entries generalizing zs c with
  | nil => exact absurd hmem List.not_mem_nil
  | cons entry entries ih =>
    obtain ⟨j, e⟩ := entry
    rw [fillArguments] at h
    split at h
    · rename_i arg t harg ht
      obtain ⟨w, c₁, hw, h⟩ := Reader.of_run_bind h
      rcases List.mem_cons.1 hmem with hfirst | hmem
      · cases hfirst
        obtain ⟨_, _, hread, -⟩ := Reader.of_run_bind hw
        obtain ⟨u, hu, hall⟩ := Encoding.exists_element_of_read hread
        exact ⟨t, u, ht, hu, hall⟩
      · exact ih hmem h
    · cases h

theorem exists_element_of_decodeArguments {encoding : List Encoding} {types : List Ty}
    {args : List Value} {c c' : Cursor}
    (h : (decodeArguments encoding types).run c = (.ok args, c')) {e : Encoding} {i : Nat}
    {path : Path} {element : List Encoding} (he : e ∈ encoding)
    (hsplit : e.splitParameter = .ok (i, .array path element)) :
    ∃ t u, types[i]? = some t ∧ t.follow path = .ok (.array u) ∧ ∀ e ∈ element, e.Resolves u := by
  rw [decodeArguments] at h
  obtain ⟨entries, _, hentries, h⟩ := Reader.of_run_bind h
  obtain ⟨zs, _, -, h⟩ := Reader.of_run_bind h
  obtain ⟨entry, hmem, hentry⟩ :=
    exists_mem_of_forall₂ (mapM_eq_ok.1 (congrArg Prod.fst hentries)) he
  cases hsplit.symm.trans hentry
  exact exists_element_of_fillArguments hmem h

/-- A function of points. -/
def plot : NativeFunction Unit :=
  .ofData [.array (.record .value "Point" [("x", .int .i32), ("y", .int .i32)])] .nil fun _ => ()

/-- A registry that declares the function, and a mapping for it that takes a third coordinate. -/
def plotRegistry : Registry Unit :=
  { (Registry.builtin.define "plot"
      ⟨[.array [.index 0] [.base .i32 [.name "x"], .base .i32 [.name "z"]]], []⟩ :
        Registry Unit) with
    document := (Document.empty.declare "svc.Point" (.struct [("x", "i32"), ("y", "i32")])).serve
      "svc" "JSON" "ws://localhost/svc" [("plot", ⟨"void", [("points", "svc.Point[]")]⟩)] }

/-- The encoding of that mapping. -/
def plotEncoding : FunctionEncoding :=
  ⟨[.array [.index 0] [.base .i32 [.name "x"], .base .i32 [.name "z"]]], []⟩

/-- The function is registered, though an entry of the elements leads nowhere; no bytes are read as
its arguments then. -/
theorem register_stray :
    (∃ r records, plotRegistry.register "svc.plot" plot "plot" = .ok (r, records) ∧
      r.function? "svc.plot" = some ⟨plot, "plot", plotEncoding⟩) ∧
    (∃ e ∈ plotEncoding.args, ∃ i entry t, e.splitParameter = .ok (i, entry) ∧
      plot.domain[i]? = some t ∧ ¬entry.ResolvesDeeply t) ∧
    ∀ c, ∀ args, ((decodeArguments plotEncoding.args plot.domain).run c).1 ≠ .ok args := by
  refine ⟨⟨_, _, rfl, rfl⟩, ⟨_, List.mem_singleton_self _, 0, _, _, rfl, rfl, ?_⟩, ?_⟩
  · rintro ⟨u, hu, -, ⟨_, hz⟩, -⟩
    cases hu
    cases hz
  · intro c args h
    obtain ⟨t, u, ht, hu, hall⟩ := exists_element_of_decodeArguments (Prod.ext h rfl)
      (List.mem_singleton_self _) rfl
    cases ht
    cases hu
    obtain ⟨-, _, hz⟩ := hall (.base .i32 [.name "z"]) (by simp)
    cases hz

end Parley
