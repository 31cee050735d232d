import Parley.Proofs.Histories

/-!
# Documents that are loaded one after the other

Addresses are asked for in any order, some of them again and some of them in vain. What a registry
has declared afterwards is told by the documents that were found, in the order in which they were
first asked for: of the declarations of a name the last one stands.

* `Document.Tabular`, `LastDeclares` : documents as tables, and the last that has a say about a name.
* `Document.Overrides` : what a document says about a name, when it is merged over another.
* `Library.firsts`, `Library.documents` : the addresses with a document, each where it came first.
* `Registry.Merged` : what a history of loads leaves; `merged_step`, `merged_after`.
* `loads_merge_in_order` : the declarations after a history, and what one more load does.
-/

namespace Parley

/-! ## Documents over documents -/

/-- A document declares no type twice and no service twice. -/
structure Document.Tabular (d : Document) : Prop where
  types : (Table.keys d.types).Nodup
  services : (Table.keys d.services).Nodup

instance (d : Document) : Decidable d.Tabular :=
  decidable_of_iff ((Table.keys d.types).Nodup ∧ (Table.keys d.services).Nodup)
    ⟨fun h => ⟨h.1, h.2⟩, fun h => ⟨h.types, h.services⟩⟩

variable {α : Type} {declared : Document → Option α} {docs : List Document} {a : α}

/-- This is what the last of the documents that declares something declares. -/
def LastDeclares (declared : Document → Option α) (docs : List Document) (a : α) : Prop :=
  ∃ before d later, docs = before ++ d :: later ∧ declared d = some a ∧
    ∀ d' ∈ later, declared d' = none

theorem lastDeclares_iff :
    LastDeclares declared docs a ↔ docs.reverse.findSome? declared = some a := by
  rw [List.findSome?_eq_some_iff]
  constructor
  · rintro ⟨before, d, later, rfl, hd, hlater⟩
    exact ⟨later.reverse, d, before.reverse, by simp, hd, fun d' hd' =>
      hlater d' (List.mem_reverse.1 hd')⟩
  · rintro ⟨later, d, before, hdocs, hd, hlater⟩
    refine ⟨before.reverse, d, later.reverse, ?_, hd, fun d' hd' =>
      hlater d' (List.mem_reverse.1 hd')⟩
    rw [← List.reverse_reverse docs, hdocs]
    simp

namespace Document

/-- What a document says about one thing: nothing if it is empty, and of two documents that are
merged the later has the say. -/
structure Overrides (declared : Document → Option α) : Prop where
  empty : declared .empty = none
  merge : ∀ d later : Document, later.Tabular →
    declared (d.merge later) = (declared later).or (declared d)

theorem overrides_type (name : String) : Overrides fun d => Table.find? name d.types where
  empty := rfl
  merge d _ h := Table.find?_foldl_insert h.types name d.types

/-- A service is replaced as a whole. -/
theorem overrides_service (name : String) : Overrides fun d => Table.find? name d.services where
  empty := rfl
  merge d _ h := Table.find?_foldl_insert h.services name d.services

theorem Overrides.foldl_merge (h : Overrides declared) (hd : ∀ d ∈ docs, d.Tabular)
    (d₀ : Document) :
    declared (docs.foldl Document.merge d₀) = (docs.reverse.findSome? declared).or (declared d₀) := by
  induction docs generalizing d₀ with
  | nil => rfl
  | cons d docs ih =>
    rw [List.foldl_cons, ih fun d' hd' => hd d' (List.mem_cons_of_mem _ hd'),
      h.merge d₀ d (hd d List.mem_cons_self), List.reverse_cons, List.findSome?_append,
      Option.or_assoc]
    cases hdeclared : declared d <;> simp [hdeclared]

theorem Overrides.merged_eq_some (h : Overrides declared) (hd : ∀ d ∈ docs, d.Tabular) :
    declared (docs.foldl Document.merge .empty) = some a ↔ LastDeclares declared docs a := by
  rw [h.foldl_merge hd, h.empty, Option.or_none, lastDeclares_iff]

theorem Overrides.merged_eq_none (h : Overrides declared) (hd : ∀ d ∈ docs, d.Tabular) :
    declared (docs.foldl Document.merge .empty) = none ↔ ∀ d ∈ docs, declared d = none := by
  rw [h.foldl_merge hd, h.empty, Option.or_none, List.findSome?_eq_none_iff]
  simp only [List.mem_reverse]

theorem function?_eq_some {d : Document} {q service : String} {signature : Signature} :
    d.function? q = some (service, signature) ↔ ∃ function s,
      splitQualified q = some (service, function) ∧ Table.find? service d.services = some s ∧
        Table.find? function s.functions = some signature := by
  unfold function?
  constructor
  · intro h
    obtain ⟨⟨service', function⟩, hq, h⟩ := Option.bind_eq_some_iff.1 h
    obtain ⟨s, hs, h⟩ := Option.bind_eq_some_iff.1 h
    obtain ⟨signature', hf, h⟩ := Option.bind_eq_some_iff.1 h
    cases h
    exact ⟨function, s, hq, hs, hf⟩
  · rintro ⟨function, s, hq, hs, hf⟩
    simp [hq, hs, hf]

end Document

/-! ## The addresses of a library -/

namespace Library

variable {library : Library} {uris : List String} {uri : String}

/-- The addresses with a document, each where it came first. -/
def firsts (library : Library) (uris : List String) : List String :=
  (uris.filter (Table.contains · library)).eraseDups

/-- The documents at some addresses, each where its address came first. -/
def documents (library : Library) (uris : List String) : List Document :=
  (library.firsts uris).filterMap (Table.find? · library)

theorem mem_firsts :
    uri ∈ library.firsts uris ↔ uri ∈ uris ∧ ∃ d, Table.find? uri library = some d := by
  rw [firsts, List.mem_eraseDups, List.mem_filter, Table.contains, Option.isSome_iff_exists]

theorem mem_documents {d : Document} :
    d ∈ library.documents uris ↔ ∃ uri ∈ uris, Table.find? uri library = some d := by
  simp only [documents, List.mem_filterMap, mem_firsts]
  constructor
  · rintro ⟨uri, ⟨huri, -⟩, hd⟩
    exact ⟨uri, huri, hd⟩
  · rintro ⟨uri, huri, hd⟩
    exact ⟨uri, ⟨huri, d, hd⟩, hd⟩

theorem tabular_documents (hl : ∀ e ∈ library, e.2.Tabular) :
    ∀ d ∈ library.documents uris, d.Tabular := by
  intro d hd
  obtain ⟨uri, -, hfind⟩ := mem_documents.1 hd
  exact hl (uri, d) (Table.mem_of_find? hfind)

/-- One more address is one more if it has a document and did not come up before. -/
theorem firsts_concat_new {d : Document} (hd : Table.find? uri library = some d)
    (hnew : uri ∉ library.firsts uris) :
    library.firsts (uris ++ [uri]) = library.firsts uris ++ [uri] := by
  have hknown : Table.contains uri library = true := Option.isSome_iff_exists.2 ⟨d, hd⟩
  have hmem : uri ∉ uris := fun h => hnew (mem_firsts.2 ⟨h, d, hd⟩)
  simp [firsts, List.eraseDups_append, List.eraseDups_cons, List.removeAll, hknown, hmem]

theorem firsts_concat_old (h : (∃ d, Table.find? uri library = some d) → uri ∈ library.firsts uris) :
    library.firsts (uris ++ [uri]) = library.firsts uris := by
  rw [firsts, List.filter_append, List.eraseDups_append]
  cases hknown : Table.contains uri library with
  | false => simp [List.removeAll, hknown, firsts]
  | true =>
    have hmem := h (Option.isSome_iff_exists.1 hknown)
    simp [List.removeAll, hknown, (mem_firsts.1 hmem).1, firsts]

end Library

/-! ## Loading -/

namespace Registry

variable {ι : Type} {library : Library} {uris : List String} {uri : String} {r : Registry ι}

theorem load_loaded (h : uri ∈ r.loaded) : r.load uri = .ok (r, []) := by
  unfold load
  rw [if_pos (List.contains_iff_mem.2 h)]

theorem load_unknown (h : uri ∉ r.loaded) (hd : Table.find? uri r.library = none) :
    r.load uri = .error (.unknownDocument uri) := by
  unfold load Library.load
  rw [if_neg fun hm => h (List.contains_iff_mem.1 hm), hd]
  rfl

theorem exists_load_new {d : Document} (h : uri ∉ r.loaded)
    (hd : Table.find? uri r.library = some d) : ∃ record,
      r.load uri = .ok ({ r with document := r.document.merge d, loaded := uri :: r.loaded },
        [record]) := by
  unfold load Library.load
  rw [if_neg fun hm => h (List.contains_iff_mem.1 hm), hd]
  exact ⟨_, rfl⟩

/-- What a history of loads from a library leaves. -/
structure Merged (library : Library) (uris : List String) (r : Registry ι) : Prop where
  source : r.library = library
  loaded : r.loaded = (library.firsts uris).reverse
  document : r.document = (library.documents uris).foldl Document.merge .empty

theorem Merged.mem_loaded (h : r.Merged library uris) :
    uri ∈ r.loaded ↔ uri ∈ uris ∧ ∃ d, Table.find? uri library = some d := by
  rw [h.loaded, List.mem_reverse, Library.mem_firsts]

theorem Merged.perform_load (h : r.Merged library uris) :
    r.perform (.load library uri) = (r.load uri).map Prod.fst := by
  obtain ⟨rfl, -, -⟩ := h
  rfl

/-- A load that fails leaves everything as it was, and so does one that was made before. -/
theorem Merged.step_old (h : r.Merged library uris)
    (ho : (∃ d, Table.find? uri library = some d) → uri ∈ r.loaded) :
    r.step (.load library uri) = r := by
  rw [step, h.perform_load]
  by_cases hl : uri ∈ r.loaded
  · rw [load_loaded hl]
    rfl
  · have hd : Table.find? uri r.library = none := by
      rw [h.source, ← Option.not_isSome_iff_eq_none, Option.isSome_iff_exists]
      exact fun hd => hl (ho hd)
    rw [load_unknown hl hd]
    rfl

theorem merged_step (h : r.Merged library uris) (uri : String) :
    (r.step (.load library uri)).Merged library (uris ++ [uri]) := by
  by_cases ho : (∃ d, Table.find? uri library = some d) → uri ∈ r.loaded
  · have hfirsts : library.firsts (uris ++ [uri]) = library.firsts uris := by
      apply Library.firsts_concat_old
      rwa [h.loaded, List.mem_reverse] at ho
    rw [h.step_old ho]
    constructor
    · exact h.source
    · rw [hfirsts, h.loaded]
    · rw [Library.documents, hfirsts, h.document, Library.documents]
  · obtain ⟨⟨d, hd⟩, hl⟩ := Classical.not_imp.1 ho
    have hfirsts : library.firsts (uris ++ [uri]) = library.firsts uris ++ [uri] := by
      apply Library.firsts_concat_new hd
      rwa [h.loaded, List.mem_reverse] at hl
    obtain ⟨record, hload⟩ := exists_load_new hl (h.source.symm ▸ hd)
    rw [step, h.perform_load, hload]
    constructor
    · exact h.source
    · rw [hfirsts, List.reverse_append, ← h.loaded]
      rfl
    · rw [Library.documents, hfirsts, List.filterMap_append, List.foldl_append,
        ← Library.documents, ← h.document]
      simp [Except.map, hd]

theorem merged_after (library : Library) (uris : List String) :
    ((ofLibrary library : Registry ι).after (uris.map (.load library))).Merged library uris := by
  induction uris using List.reverseRecOn with
  | nil => exact ⟨rfl, rfl, rfl⟩
  | append_singleton uris uri ih =>
    rw [List.map_append]
    exact (after_append _ _ _).symm ▸ merged_step ih uri

theorem Merged.declared_eq_some (hr : r.Merged library uris) (hl : ∀ e ∈ library, e.2.Tabular)
    (h : Document.Overrides declared) :
    declared r.document = some a ↔ LastDeclares declared (library.documents uris) a := by
  rw [hr.document]
  exact h.merged_eq_some (Library.tabular_documents hl)

theorem Merged.declared_eq_none (hr : r.Merged library uris) (hl : ∀ e ∈ library, e.2.Tabular)
    (h : Document.Overrides declared) : declared r.document = none ↔
      ∀ uri ∈ uris, ∀ d, Table.find? uri library = some d → declared d = none := by
  rw [hr.document, h.merged_eq_none (Library.tabular_documents hl)]
  constructor
  · exact fun h uri huri d hfind => h d (Library.mem_documents.2 ⟨uri, huri, hfind⟩)
  · intro h d hdoc
    obtain ⟨uri, huri, hfind⟩ := Library.mem_documents.1 hdoc
    exact h uri huri d hfind

/-- After any loads a name stands for what the last document that declares it says, in the order in
which they were first found. To load one again, or one that is not there, changes nothing. -/
theorem loads_merge_in_order (library : Library) (hl : ∀ e ∈ library, e.2.Tabular)
    (uris : List String) :
    let r : Registry ι := (ofLibrary library).after (uris.map (.load library))
    let docs := library.documents uris
    (∀ name declaration, Table.find? name r.document.types = some declaration ↔
      LastDeclares (fun d => Table.find? name d.types) docs declaration) ∧
    (∀ name service, Table.find? name r.document.services = some service ↔
      LastDeclares (fun d => Table.find? name d.services) docs service) ∧
    (∀ name, Table.find? name r.document.types = none ↔
      ∀ uri ∈ uris, ∀ d, Table.find? uri library = some d → Table.find? name d.types = none) ∧
    (∀ name, Table.find? name r.document.services = none ↔
      ∀ uri ∈ uris, ∀ d, Table.find? uri library = some d → Table.find? name d.services = none) ∧
    (∀ q service signature, r.document.function? q = some (service, signature) ↔
      ∃ function s, splitQualified q = some (service, function) ∧
        LastDeclares (fun d => Table.find? service d.services) docs s ∧
        Table.find? function s.functions = some signature) ∧
    r.loaded = (library.firsts uris).reverse ∧
    (∀ uri ∈ uris, ∀ d, Table.find? uri library = some d → r.load uri = .ok (r, [])) ∧
    (∀ uri, Table.find? uri library = none → r.load uri = .error (.unknownDocument uri) ∧
      (Error.unknownDocument uri).family = .document ∧ r.step (.load library uri) = r) ∧
    ∀ uri d, Table.find? uri library = some d → uri ∉ uris → ∃ record, r.load uri =
      .ok ({ r with document := r.document.merge d, loaded := uri :: r.loaded }, [record]) := by
  intro r docs
  have hmerged : r.Merged library uris := merged_after library uris
  refine ⟨fun name _ => hmerged.declared_eq_some hl (Document.overrides_type name),
    fun name _ => hmerged.declared_eq_some hl (Document.overrides_service name),
    fun name => hmerged.declared_eq_none hl (Document.overrides_type name),
    fun name => hmerged.declared_eq_none hl (Document.overrides_service name), ?_,
    hmerged.loaded, ?_, ?_, ?_⟩
  · intro q service signature
    rw [Document.function?_eq_some]
    simp only [hmerged.declared_eq_some hl (Document.overrides_service service)]
    rfl
  · exact fun uri huri d hfind => load_loaded (hmerged.mem_loaded.2 ⟨huri, d, hfind⟩)
  · intro uri hfind
    have hunknown : ¬ ∃ d, Table.find? uri library = some d := by simp [hfind]
    refine ⟨?_, rfl, hmerged.step_old fun h => absurd h hunknown⟩
    exact load_unknown (fun h => hunknown (hmerged.mem_loaded.1 h).2) (hmerged.source ▸ hfind)
  · intro uri d hfind hnew
    exact exists_load_new (fun h => hnew (hmerged.mem_loaded.1 h).1) (hmerged.source ▸ hfind)

/-- Documents that declare a type and a service in common. -/
def harbourLibrary : Library :=
  [("a.idl", (Document.empty.declare "Berth" (.struct [("deck", "u8")])).serve "port" "JSON"
      "ws://localhost/a" [("dock", ⟨"void", []⟩), ("sail", ⟨"void", []⟩)]),
    ("b.idl", ((Document.empty.declare "Berth" (.enum [("low", 0)])).declare "Crew"
      (.array "Berth")).serve "port" "JSON" "ws://localhost/b"
      [("dock", ⟨"void", [("berth", "Berth")]⟩)]),
    ("c.idl", Document.empty.serve "yard" "JSON" "ws://localhost/c" [])]

/-- The first document is asked for again after the second one, whose service has one function only.
-/
theorem loads_merge_in_order_harbour :
    let uris := ["a.idl", "lost.idl", "b.idl", "a.idl", "c.idl", "b.idl"]
    let r : Registry Unit := (ofLibrary harbourLibrary).after (uris.map (.load harbourLibrary))
    (∀ e ∈ harbourLibrary, e.2.Tabular) ∧
      LastDeclares (fun d => Table.find? "Berth" d.types) (harbourLibrary.documents uris)
        (.enum [("low", 0)]) ∧
      (∃ s, LastDeclares (fun d => Table.find? "port" d.services) (harbourLibrary.documents uris) s ∧
        Table.find? "dock" s.functions = some ⟨"void", [("berth", "Berth")]⟩) ∧
      r.document.function? "port.sail" = none ∧ Table.find? "Dock" r.document.types = none ∧
      r.loaded = ["c.idl", "b.idl", "a.idl"] ∧ r.load "a.idl" = .ok (r, []) ∧
      r.load "lost.idl" = .error (.unknownDocument "lost.idl") := by
  intro uris r
  have hl : ∀ e ∈ harbourLibrary, e.2.Tabular := by decide
  obtain ⟨htypes, hservices, hnotypes, -, hfunction, hloaded, hagain, hlost, -⟩ :=
    loads_merge_in_order (ι := Unit) harbourLibrary hl uris
  have hdock : r.document.function? "port.dock" = some ("port", ⟨"void", [("berth", "Berth")]⟩) :=
    rfl
  obtain ⟨function, s, hsplit, hs, hf⟩ := (hfunction _ _ _).1 hdock
  cases hsplit
  exact ⟨hl, (htypes _ _).1 rfl, ⟨s, hs, hf⟩, rfl, (hnotypes "Dock").2 (by decide), hloaded,
    hagain "a.idl" (by decide) _ rfl, (hlost "lost.idl" rfl).1⟩

end Registry

end Parley
