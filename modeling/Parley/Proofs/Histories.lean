import Mathlib.Data.List.Induction
import Parley.Proofs.Registrations

/-!
# Histories of a registry

A registry is asked for one change after the other, and some of them fail. What is registered under
a name is a matter of the last change that went through and was about that name.

* `Change`, `Registry.perform` : what a registry is asked for; `Registry.after` : what becomes of
  it.
* `Registry.Last` : the last change about a name that could be made.
* `function?_step_self`, `function?_step_other` : what one change does to what is registered;
  `accepts_unregister_iff` : what can be withdrawn.
* `function?_after_iff` : what is registered after a history; `mappings_after` : what an identifier
  stands for.
* `Registered.Resolves` : the paths of a function lead somewhere in its types; `Resolves.after`.
* `registered_iff_last` : all of it, for every history of a new registry.
-/

namespace Parley

/-! ## Changes -/

/-- What a registry is asked for. Documents come and go, so whoever loads one says what there is to
be loaded at that moment. -/
inductive Change (ι : Type) where
  | load (library : Library) (uri : String)
  | define (id : String) (mapping : TypeMapping)
  | register (name : String) (native : NativeFunction ι) (mapping : String)
  | unregister (name : String)

namespace Change

variable {ι : Type}

/-- The change is about what is registered under the name. -/
def Concerns (name : String) : Change ι → Prop
  | load .. | define .. => False
  | register n .. | unregister n => n = name

/-- The mapping that a change defines for an identifier. -/
def definition? (id : String) : Change ι → Option TypeMapping
  | define n mapping => if n = id then some mapping else none
  | _ => none

/-- The mapping that the last of these changes to define one for an identifier gave it. -/
def defined? (id : String) (changes : List (Change ι)) : Option TypeMapping :=
  (changes.filterMap (definition? id)).getLast?

end Change

namespace Registry

variable {ι : Type} {r r' : Registry ι} {c d : Change ι} {name : String}
  {changes before : List (Change ι)}

/-- The registry with a change made, if it can be. -/
def perform (r : Registry ι) : Change ι → Except Error (Registry ι)
  | .load library uri => ({ r with library := library }.load uri).map Prod.fst
  | .define id mapping => .ok (r.define id mapping)
  | .register name native mapping => (r.register name native mapping).map Prod.fst
  | .unregister name => r.unregister name

/-- The change can be made. -/
def Accepts (r : Registry ι) (c : Change ι) : Prop :=
  ∃ r', r.perform c = .ok r'

/-- The registry once it was asked for a change; if that fails it is as it was. -/
def step (r : Registry ι) (c : Change ι) : Registry ι :=
  match r.perform c with
  | .ok r' => r'
  | .error _ => r

/-- The registry once it was asked for some changes. -/
def after (r : Registry ι) (changes : List (Change ι)) : Registry ι :=
  changes.foldl step r

/-- The last of the changes that was about the name and could be made is `c`; those `before` it came
first. -/
def Last (r : Registry ι) (changes : List (Change ι)) (name : String) (before : List (Change ι))
    (c : Change ι) : Prop :=
  ∃ later, changes = before ++ c :: later ∧ c.Concerns name ∧ (r.after before).Accepts c ∧
    ∀ between d rest, later = between ++ d :: rest → d.Concerns name →
      ¬ (r.after (before ++ c :: between)).Accepts d

theorem after_append (r : Registry ι) (changes : List (Change ι)) (c : Change ι) :
    r.after (changes ++ [c]) = (r.after changes).step c := by
  rw [after, List.foldl_append]
  rfl

theorem step_of_perform (h : r.perform c = .ok r') : r.step c = r' := by
  rw [step, h]

theorem step_of_not_accepts (h : ¬ r.Accepts c) : r.step c = r := by
  unfold step
  cases hp : r.perform c with
  | ok r' => exact absurd ⟨r', hp⟩ h
  | error e => rfl

/-! ## The last change -/

theorem append_singleton_eq_append {α : Type} {as front rest : List α} {a b : α} :
    as ++ [a] = front ++ b :: rest ↔
      (front = as ∧ b = a ∧ rest = []) ∨
        ∃ rest', rest = rest' ++ [a] ∧ as = front ++ b :: rest' := by
  constructor
  · intro h
    rcases List.eq_nil_or_concat rest with rfl | ⟨rest', x, rfl⟩
    · obtain ⟨rfl, hb⟩ := List.append_inj' h rfl
      exact Or.inl ⟨rfl, (List.singleton_inj.1 hb).symm, rfl⟩
    · rw [List.concat_eq_append, ← List.cons_append, ← List.append_assoc] at h
      obtain ⟨rfl, hx⟩ := List.append_inj' h rfl
      obtain rfl := List.singleton_inj.1 hx
      exact Or.inr ⟨rest', List.concat_eq_append, rfl⟩
  · rintro (⟨rfl, rfl, rfl⟩ | ⟨rest', rfl, rfl⟩)
    · rfl
    · rw [List.append_assoc, List.cons_append]

theorem last_append_self (hc : c.Concerns name) (ha : (r.after changes).Accepts c) :
    r.Last (changes ++ [c]) name before d ↔ before = changes ∧ d = c := by
  constructor
  · rintro ⟨later, he, -, -, hlater⟩
    rcases append_singleton_eq_append.1 he with ⟨hb, hd, -⟩ | ⟨later', rfl, rfl⟩
    · exact ⟨hb, hd⟩
    · exact absurd ha (hlater later' c [] rfl hc)
  · rintro ⟨rfl, rfl⟩
    exact ⟨[], rfl, hc, ha, fun between e rest he => absurd he (by simp)⟩

theorem last_append_other (h : ¬ (c.Concerns name ∧ (r.after changes).Accepts c)) :
    r.Last (changes ++ [c]) name before d ↔ r.Last changes name before d := by
  constructor
  · rintro ⟨later, he, hd, ha, hlater⟩
    rcases append_singleton_eq_append.1 he with ⟨rfl, rfl, -⟩ | ⟨later', rfl, rfl⟩
    · exact absurd ⟨hd, ha⟩ h
    · refine ⟨later', rfl, hd, ha, fun between e rest he => hlater between e (rest ++ [c]) ?_⟩
      exact append_singleton_eq_append.2 (Or.inr ⟨rest, rfl, he⟩)
  · rintro ⟨later, rfl, hd, ha, hlater⟩
    refine ⟨later ++ [c], append_singleton_eq_append.2 (Or.inr ⟨later, rfl, rfl⟩), hd, ha, ?_⟩
    intro between e rest he hcon hacc
    rcases append_singleton_eq_append.1 he with ⟨rfl, rfl, -⟩ | ⟨rest', rfl, hl⟩
    · exact h ⟨hcon, hacc⟩
    · exact hlater between e rest' hl hcon hacc

/-! ## What a change does -/

theorem of_perform_load {library : Library} {uri : String}
    (h : r.perform (.load library uri) = .ok r') :
    r'.functions = r.functions ∧ r'.mappings = r.mappings := by
  obtain ⟨⟨_, records⟩, hl, rfl⟩ := map_eq_ok.1 h
  unfold Registry.load at hl
  split at hl
  · cases hl
    exact ⟨rfl, rfl⟩
  · obtain ⟨d, -, hl⟩ := bind_eq_ok.1 hl
    cases hl
    exact ⟨rfl, rfl⟩

theorem of_perform_register {native : NativeFunction ι} {mapping : String}
    (h : r.perform (.register name native mapping) = .ok r') :
    ∃ encoding, r.Admits name native mapping encoding ∧
      r' = { r with functions := Table.insert name ⟨native, mapping, encoding⟩ r.functions } := by
  obtain ⟨⟨_, records⟩, hr, rfl⟩ := map_eq_ok.1 h
  exact admits_of_register hr

theorem of_perform_unregister (h : r.perform (.unregister name) = .ok r') :
    r' = { r with functions := Table.erase name r.functions } := by
  rw [perform, unregister] at h
  split at h
  · cases h
    rfl
  · cases h

/-- A change that can be made and is about the name settles what is registered there. -/
theorem function?_step_self {f : Registered ι} (hc : c.Concerns name) (ha : r.Accepts c) :
    (r.step c).function? name = some f ↔
      c = .register name f.native f.mapping ∧ r.encoding f.mapping = .ok f.encoding := by
  obtain ⟨r', h⟩ := ha
  rw [step_of_perform h]
  cases c with
  | load library uri => exact hc.elim
  | define id mapping => exact hc.elim
  | register n native mapping =>
    obtain rfl : n = name := hc
    obtain ⟨encoding, hadmits, rfl⟩ := of_perform_register h
    rw [function?, Table.find?_insert, if_pos rfl]
    constructor
    · rintro ⟨⟩
      exact ⟨rfl, hadmits.compiled⟩
    · rintro ⟨he, hf⟩
      cases he
      cases hadmits.compiled.symm.trans hf
      rfl
  | unregister n =>
    obtain rfl : n = name := hc
    obtain rfl := of_perform_unregister h
    rw [function?, Table.find?_erase, if_pos rfl]
    constructor
    · rintro ⟨⟩
    · rintro ⟨⟨⟩, -⟩

theorem accepts_unregister_iff :
    r.Accepts (.unregister name) ↔ ∃ f, r.function? name = some f := by
  rw [← Option.isSome_iff_exists]
  constructor
  · rintro ⟨r', h⟩
    rw [perform, unregister] at h
    split at h
    · assumption
    · cases h
  · intro h
    exact ⟨_, if_pos h⟩

theorem function?_step_unregister (ha : r.Accepts (.unregister name)) :
    (r.step (.unregister name)).function? name = none := by
  have hc : (Change.unregister name : Change ι).Concerns name := rfl
  rw [Option.eq_none_iff_forall_ne_some]
  intro f hf
  cases ((function?_step_self hc ha).1 hf).1

theorem function?_step_other (h : ¬ (c.Concerns name ∧ r.Accepts c)) :
    (r.step c).function? name = r.function? name := by
  by_cases ha : r.Accepts c
  · have hc : ¬ c.Concerns name := fun hc => h ⟨hc, ha⟩
    obtain ⟨r', hp⟩ := ha
    rw [step_of_perform hp]
    cases c with
    | load library uri => rw [function?, (of_perform_load hp).1, function?]
    | define id mapping =>
      cases hp
      rfl
    | register n native mapping =>
      obtain ⟨encoding, -, rfl⟩ := of_perform_register hp
      exact Table.find?_insert_ne hc _ _
    | unregister n =>
      obtain rfl := of_perform_unregister hp
      exact (Table.find?_erase n name _).trans (if_neg hc)
  · rw [step_of_not_accepts ha]

/-! ## What is registered after a history -/

/-- The last change about the name that could be made decides; where there was none, what was
registered from the first. -/
theorem function?_after_iff (r : Registry ι) (changes : List (Change ι)) (name : String)
    (f : Registered ι) :
    (r.after changes).function? name = some f ↔
      (∃ before, r.Last changes name before (.register name f.native f.mapping) ∧
        (r.after before).encoding f.mapping = .ok f.encoding) ∨
      (∀ before c, ¬ r.Last changes name before c) ∧ r.function? name = some f := by
  induction changes using List.reverseRecOn with
  | nil =>
    have hlast (before : List (Change ι)) (c : Change ι) : ¬ r.Last [] name before c := by
      rintro ⟨later, he, -⟩
      exact absurd he (by simp)
    constructor
    · exact fun h => Or.inr ⟨hlast, h⟩
    · rintro (⟨before, h, -⟩ | ⟨-, h⟩)
      · exact absurd h (hlast _ _)
      · exact h
  | append_singleton changes c ih =>
    rw [after_append]
    by_cases h : c.Concerns name ∧ (r.after changes).Accepts c
    · rw [function?_step_self h.1 h.2]
      simp only [last_append_self h.1 h.2]
      constructor
      · rintro ⟨rfl, he⟩
        exact Or.inl ⟨changes, ⟨rfl, rfl⟩, he⟩
      · rintro (⟨_, ⟨rfl, hc⟩, he⟩ | ⟨hnone, -⟩)
        · exact ⟨hc.symm, he⟩
        · exact absurd ⟨rfl, rfl⟩ (hnone changes c)
    · rw [function?_step_other h, ih]
      simp only [last_append_other h]

theorem function?_ofLibrary (library : Library) (name : String) :
    (ofLibrary library : Registry ι).function? name = none :=
  rfl

/-! ## The mappings after a history -/

theorem mappings_step (id : String) (r : Registry ι) (c : Change ι) :
    Table.find? id (r.step c).mappings = (c.definition? id).or (Table.find? id r.mappings) := by
  cases hp : r.perform c with
  | error e =>
    rw [step, hp]
    cases c with
    | define n mapping => cases hp
    | load _ _ | register _ _ _ | unregister _ => rfl
  | ok r' =>
    rw [step, hp]
    cases c with
    | load library uri =>
      rw [(of_perform_load hp).2]
      rfl
    | define n mapping =>
      cases hp
      rw [define, Mappings.define, Table.find?_insert, Change.definition?]
      split <;> rfl
    | register n native mapping =>
      obtain ⟨encoding, -, rfl⟩ := of_perform_register hp
      rfl
    | unregister n =>
      obtain rfl := of_perform_unregister hp
      rfl

/-- An identifier stands for the mapping that was defined for it last. -/
theorem mappings_after (id : String) (r : Registry ι) (changes : List (Change ι)) :
    Table.find? id (r.after changes).mappings =
      (Change.defined? id changes).or (Table.find? id r.mappings) := by
  induction changes using List.reverseRecOn with
  | nil => rfl
  | append_singleton changes c ih =>
    rw [after_append, mappings_step, ih, Change.defined?, Change.defined?, List.filterMap_append,
      List.getLast?_append, Option.or_assoc]
    congr 1
    cases hd : c.definition? id <;> simp [hd]

end Registry

/-! ## The paths of registered functions -/

/-- Each entry for the arguments is about a parameter and leads somewhere in its type; each entry
for the result leads somewhere in the type that is returned. -/
structure Registered.Resolves {ι : Type} (f : Registered ι) : Prop where
  args : ∀ e ∈ f.encoding.args, Registry.ArgumentResolves f.native.domain e
  result : ∀ e ∈ f.encoding.result, e.Resolves f.native.range

namespace Registry

variable {ι : Type} {r r' : Registry ι} {c : Change ι}

/-- The paths of every registered function lead somewhere in its types. -/
def Resolves (r : Registry ι) : Prop :=
  ∀ name f, r.function? name = some f → f.Resolves

theorem Resolves.step (h : r.Resolves) (c : Change ι) : (r.step c).Resolves := by
  intro name f hf
  by_cases hc : c.Concerns name ∧ r.Accepts c
  · obtain ⟨rfl, hencoding⟩ := (function?_step_self hc.1 hc.2).1 hf
    obtain ⟨_, hp⟩ := hc.2
    obtain ⟨encoding, hadmits, -⟩ := of_perform_register hp
    cases hadmits.compiled.symm.trans hencoding
    exact ⟨hadmits.args, hadmits.result⟩
  · rw [function?_step_other hc] at hf
    exact h name f hf

theorem Resolves.after (h : r.Resolves) (changes : List (Change ι)) :
    (r.after changes).Resolves := by
  induction changes generalizing r with
  | nil => exact h
  | cons c changes ih => exact ih (h.step c)

theorem resolves_ofLibrary (library : Library) : (ofLibrary library : Registry ι).Resolves :=
  fun _ _ hf => nomatch hf

/-- A function is registered under a name when the last change about the name that could be made
registered it, with the mapping that was defined last by then. Whatever else changes leaves it
alone. -/
theorem registered_iff_last (library : Library) (changes : List (Change ι)) (name : String) :
    let r : Registry ι := ofLibrary library
    (∀ f, (r.after changes).function? name = some f ↔
      ∃ before, r.Last changes name before (.register name f.native f.mapping) ∧
        (r.after before).encoding f.mapping = .ok f.encoding) ∧
    ((∃ f, (r.after changes).function? name = some f) ↔
      ∃ before native mapping, r.Last changes name before (.register name native mapping)) ∧
    (∀ id, Table.find? id (r.after changes).mappings =
      (Change.defined? id changes).or (Table.find? id Mappings.builtin)) ∧
    (∀ c, ¬ (r.after changes).Accepts c → r.after (changes ++ [c]) = r.after changes) ∧
    (∀ c, ¬ c.Concerns name →
      (r.after (changes ++ [c])).function? name = (r.after changes).function? name) ∧
    (∀ f, (r.after changes).function? name = some f → f.Resolves) := by
  intro r
  have hiff (f : Registered ι) : (r.after changes).function? name = some f ↔
      ∃ before, r.Last changes name before (.register name f.native f.mapping) ∧
        (r.after before).encoding f.mapping = .ok f.encoding :=
    (function?_after_iff r changes name f).trans
      (or_iff_left fun h => nomatch (function?_ofLibrary library name).symm.trans h.2)
  refine ⟨hiff, ⟨?_, ?_⟩, fun id => mappings_after id r changes, fun c hc => ?_, fun c hc => ?_,
    (resolves_ofLibrary library).after changes name⟩
  · rintro ⟨f, hf⟩
    obtain ⟨before, hlast, -⟩ := (hiff f).1 hf
    exact ⟨before, f.native, f.mapping, hlast⟩
  · rintro ⟨before, native, mapping, hlast⟩
    obtain ⟨later, -, -, ⟨_, hp⟩, -⟩ := id hlast
    obtain ⟨encoding, hadmits, -⟩ := of_perform_register hp
    exact ⟨⟨native, mapping, encoding⟩, (hiff _).2 ⟨before, hlast, hadmits.compiled⟩⟩
  · rw [after_append, step_of_not_accepts hc]
  · rw [after_append, function?_step_other fun h => hc h.1]

/-- A document at an address that declares how to plot points. -/
def plotLibrary (uri : String) (params : List (String × String)) : Library :=
  [(uri, (Document.empty.declare "svc.Point" (.struct [("x", "i32"), ("y", "i32")])).serve
    "svc" "JSON" "ws://localhost/svc" [("plot", ⟨"void", params⟩)])]

/-- The function is registered; then its mapping is defined anew, its service is declared anew
without arguments, and it can be neither registered again nor withdrawn under another name. -/
def plotHistory : List (Change Unit) :=
  [.load (plotLibrary "http://localhost/svc.idl" [("points", "svc.Point[]")])
      "http://localhost/svc.idl",
    .define "plot" ⟨[.array [.index 0] [.base .i32 [.name "x"]]], []⟩,
    .register "svc.plot" plot "plot",
    .define "plot" ⟨[.array [.index 0] [.base .i32 [.name "z"]]], []⟩,
    .load (plotLibrary "http://localhost/late.idl" []) "http://localhost/late.idl",
    .register "svc.plot" plot "plot",
    .unregister "svc.draw"]

/-- The function is registered as it was the first time, until it is withdrawn under its own
name. -/
theorem registered_iff_last_plot :
    let r : Registry Unit := ofLibrary .builtin
    let withdrawn := plotHistory ++ [.unregister "svc.plot"]
    let f : Registered Unit :=
      ⟨plot, "plot", ⟨[.array [.index 0] [.base .i32 [.name "x"]]], []⟩⟩
    (r.after plotHistory).function? "svc.plot" = some f ∧
      (∃ before, r.Last plotHistory "svc.plot" before (.register "svc.plot" plot "plot") ∧
        (r.after before).encoding "plot" = .ok f.encoding) ∧
      (¬ (r.after plotHistory).Accepts (.register "svc.plot" plot "plot") ∧
        r.after (plotHistory ++ [.register "svc.plot" plot "plot"]) = r.after plotHistory) ∧
      (¬ (Change.define "plot" ⟨[], []⟩ : Change Unit).Concerns "svc.plot" ∧
        (r.after (plotHistory ++ [.define "plot" ⟨[], []⟩])).function? "svc.plot" = some f) ∧
      f.Resolves ∧
      (r.after plotHistory).Accepts (.unregister "svc.plot") ∧
      (r.after withdrawn).function? "svc.plot" = none ∧
      ∀ before native mapping,
        ¬ r.Last withdrawn "svc.plot" before (.register "svc.plot" native mapping) := by
  intro r withdrawn f
  have hf : (r.after plotHistory).function? "svc.plot" = some f := rfl
  have hrefused : ¬ (r.after plotHistory).Accepts (.register "svc.plot" plot "plot") := by
    rintro ⟨r', h⟩
    have herror : (r.after plotHistory).perform (.register "svc.plot" plot "plot") =
      .error (.arity "svc.plot" 0 1) := rfl
    exact nomatch herror.symm.trans h
  obtain ⟨hiff, -, -, hfail, hother, hresolves⟩ :=
    registered_iff_last .builtin plotHistory "svc.plot"
  have haccepts : (r.after plotHistory).Accepts (.unregister "svc.plot") :=
    accepts_unregister_iff.2 ⟨f, hf⟩
  have hnone : (r.after withdrawn).function? "svc.plot" = none := by
    rw [after_append]
    exact function?_step_unregister haccepts
  obtain ⟨-, hlast, -⟩ := registered_iff_last .builtin withdrawn "svc.plot"
  refine ⟨hf, (hiff f).1 hf, ⟨hrefused, hfail _ hrefused⟩, ⟨id, (hother _ id).trans hf⟩,
    hresolves f hf, haccepts, hnone, fun before native mapping h => ?_⟩
  obtain ⟨_, hsome⟩ := hlast.2 ⟨before, native, mapping, h⟩
  cases hnone.symm.trans hsome

end Registry

end Parley
