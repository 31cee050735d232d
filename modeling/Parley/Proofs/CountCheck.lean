import Parley.Proofs.Delimiting

/-!
# The check of a count refuses nothing that could be read

Before it makes room for the items of an array, the decoder compares their number with the bytes that
are left. A decoder that goes on without comparing reads the same values from the same bytes: items
that take a byte or more are never more than the bytes they are read from, so it runs into an error of
its own where the check refuses.

* `Encoding.readUnchecked`, `fillUnchecked`, `decodeUnchecked` : the decoder without the check.
* `Reader.Anticipates` : a reader that differs from another only in running out where the other fails
  later. Closed under sequencing, and under checking a count first.
* `decode_iff_decodeUnchecked` : both decoders, over every encoding.
-/

namespace Parley

mutual

/-- Reads the part an entry names and stores it, whatever an array says of its length. -/
def Encoding.readUnchecked : Encoding → Ty → Value → Reader Value
  | .base kind path, t, v => (Encoding.base kind path).read t v
  | .array path element, t, v => do
    let target ← t.follow path
    let count ← Reader.word
    let u ← target.element
    let items ← constructItems target element count
    v.set (.array (← items.mapM fun item => fillUnchecked element u item)) path
  | .enum path table, t, v => (Encoding.enum path table).read t v
termination_by structural e => e

/-- Reads the parts a list of entries names and stores them, whatever arrays say of their length. -/
def fillUnchecked : List Encoding → Ty → Value → Reader Value
  | [], _, v => return v
  | e :: rest, t, v => do fillUnchecked rest t (← e.readUnchecked t v)
termination_by structural encoding => encoding

end

/-- Reads a value, whatever arrays say of their length. -/
def decodeUnchecked (encoding : List Encoding) (t : Ty) : Reader Value := do
  fillUnchecked encoding t (← construct encoding t)

namespace Reader

variable {α β : Type}

/-- The readers do the same, unless the first runs out of data where the second fails as well. -/
def Anticipates (r r' : Reader α) : Prop :=
  ∀ c, r.run c = r'.run c ∨ r.RunsOut c ∧ ∃ e c', r'.run c = (.error e, c')

theorem Anticipates.refl (r : Reader α) : r.Anticipates r :=
  fun _ => Or.inl rfl

theorem Anticipates.run_eq_ok {r r' : Reader α} (h : r.Anticipates r') {c c' : Cursor} {a : α} :
    r'.run c = (.ok a, c') ↔ r.run c = (.ok a, c') := by
  rcases h c with hsame | ⟨⟨offset, needed, hout⟩, e, c₁, hfails⟩
  · rw [hsame]
  · constructor
    · intro hok
      rw [hfails] at hok
      cases hok
    · intro hok
      rw [hok] at hout
      cases hout

theorem Anticipates.bind {x x' : Reader α} {f f' : α → Reader β} (hx : x.Anticipates x')
    (hf : ∀ a, (f a).Anticipates (f' a)) : Anticipates (x >>= f) (x' >>= f') := by
  intro c
  rw [RunsOut]
  rcases hx c with hsame | ⟨⟨offset, needed, hout⟩, e, c₁, hfails⟩
  · cases hrun : x.run c with
    | mk read c₁ =>
      have hrun' : x'.run c = (read, c₁) := hsame.symm.trans hrun
      cases read with
      | error e =>
        left
        rw [run_bind_error hrun, run_bind_error hrun']
      | ok a =>
        rw [run_bind hrun, run_bind hrun']
        exact hf a c₁
  · right
    constructor
    · have hrun : x.run c = (.error (.endOfData offset needed), (x.run c).2) := Prod.ext hout rfl
      exact ⟨offset, needed, by rw [run_bind_error hrun]⟩
    · exact ⟨e, c₁, run_bind_error hfails f'⟩

theorem Anticipates.mapM {f f' : α → Reader β} (hf : ∀ a, (f a).Anticipates (f' a)) (as : List α) :
    Anticipates (as.mapM f) (as.mapM f') := by
  induction as with
  | nil => exact Anticipates.refl _
  | cons a as ih =>
    rw [List.mapM_cons, List.mapM_cons]
    exact (hf a).bind fun b => ih.bind fun bs => Anticipates.refl _

/-- A check of a count anticipates a failure of what follows it, if that cannot yield anything without
taking as many bytes as are counted. -/
theorem Anticipates.checkCount_bind {counted : Bool} {count : Nat} {r r' : Reader α}
    (hr : r.Anticipates r')
    (htakes : ∀ {c c' : Cursor} {a : α}, r.run c = (.ok a, c') → counted = true →
      count + c'.remaining ≤ c.remaining) :
    Anticipates (checkCount counted count >>= fun _ => r) r' := by
  intro c
  have hcheck := run_checkCount counted count c
  rw [RunsOut]
  by_cases h : (counted && c.remaining < count) = true
  · rw [if_pos h] at hcheck
    rw [run_bind_error hcheck]
    refine Or.inr ⟨⟨_, _, rfl⟩, ?_⟩
    cases hrun : r'.run c with
    | mk read c' =>
      cases read with
      | error e => exact ⟨e, c', rfl⟩
      | ok a =>
        -- had the items been read, there would have been a byte for each
        rw [Bool.and_eq_true, decide_eq_true_eq] at h
        have := htakes (hr.run_eq_ok.1 hrun) h.1
        omega
  · rw [if_neg h] at hcheck
    rw [run_bind hcheck]
    exact hr c

end Reader

mutual

theorem Encoding.anticipates_read : ∀ (e : Encoding) (t : Ty) (v : Value),
    (e.read t v).Anticipates (e.readUnchecked t v)
  | .base _ _, _, _ => Reader.Anticipates.refl _
  | .enum _ _, _, _ => Reader.Anticipates.refl _
  | .array path element, t, v => by
    rw [Encoding.read_array, Encoding.readUnchecked]
    refine (Reader.Anticipates.refl _).bind fun target => ?_
    refine (Reader.Anticipates.refl _).bind fun count => ?_
    refine Reader.Anticipates.checkCount_bind ?_ fun h hcounted => ?_
    · refine (Reader.Anticipates.refl _).bind fun u => ?_
      refine (Reader.Anticipates.refl _).bind fun items => ?_
      have hitems := Reader.Anticipates.mapM (fun item => anticipates_fill element u item) items
      exact hitems.bind fun ws => Reader.Anticipates.refl _
    · obtain ⟨e, rest, rfl⟩ := List.exists_cons_of_ne_nil (l := element) (by simpa using hcounted)
      exact count_add_remaining_le (fun t v => taking_fill_cons (e.taking_read t v) fun v =>
        delimited_fill rest t v) h

theorem anticipates_fill : ∀ (encoding : List Encoding) (t : Ty) (v : Value),
    (fill encoding t v).Anticipates (fillUnchecked encoding t v)
  | [], t, v => by
    rw [fill, fillUnchecked]
    exact Reader.Anticipates.refl _
  | e :: rest, t, v => by
    rw [fill, fillUnchecked]
    exact (e.anticipates_read t v).bind fun w => anticipates_fill rest t w

end

theorem anticipates_decode (encoding : List Encoding) (t : Ty) :
    (decode encoding t).Anticipates (decodeUnchecked encoding t) :=
  (Reader.Anticipates.refl _).bind fun v => anticipates_fill encoding t v

/-- More items than bytes are refused as soon as they are counted. -/
theorem Encoding.run_read_array_of_lt {path : Path} {element : List Encoding} {t target : Ty}
    {v : Value} {count : Nat} {c c₁ : Cursor} (ht : t.follow path = .ok target)
    (hcount : Reader.word.run c = (.ok count, c₁)) (hne : element ≠ []) (hlt : c₁.remaining < count) :
    ((array path element).read t v).run c = (.error (.endOfData c₁.offset count), c₁) := by
  have hcounted : (!element.isEmpty && decide (c₁.remaining < count)) = true := by
    simp [hne, hlt]
  have htarget : Reader.run (liftM (t.follow path) : Reader Ty) c = (.ok target, c) := by
    rw [Reader.run_lift, ht]
  rw [read_array, Reader.run_bind htarget, Reader.run_bind hcount]
  apply Reader.run_bind_error
  rw [Reader.run_checkCount, if_pos hcounted]

/-- The check of a count is harmless: both decoders yield the same values and stop at the same
bytes, and an array that is refused for its count cannot be read without the check either. -/
theorem decode_iff_decodeUnchecked (encoding : List Encoding) (t : Ty) (c : Cursor) :
    (∀ v c', (decode encoding t).run c = (.ok v, c') ↔
      (decodeUnchecked encoding t).run c = (.ok v, c')) ∧
    ((decode encoding t).run c = (decodeUnchecked encoding t).run c ∨
      (decode encoding t).RunsOut c ∧ ∃ e c', (decodeUnchecked encoding t).run c = (.error e, c')) ∧
    ∀ (path : Path) (element : List Encoding) (u target : Ty) (v : Value) (count : Nat)
      (c₁ c₂ : Cursor), u.follow path = .ok target → Reader.word.run c₁ = (.ok count, c₂) →
      element ≠ [] → c₂.remaining < count →
      ((Encoding.array path element).read u v).run c₁ =
          (.error (.endOfData c₂.offset count), c₂) ∧
        ∃ e c', ((Encoding.array path element).readUnchecked u v).run c₁ = (.error e, c') := by
  have hdecode := anticipates_decode encoding t
  refine ⟨fun v c' => hdecode.run_eq_ok.symm, hdecode c, ?_⟩
  intro path element u target v count c₁ c₂ ht hcount hne hlt
  have hrefused := Encoding.run_read_array_of_lt (v := v) ht hcount hne hlt
  refine ⟨hrefused, ?_⟩
  rcases (Encoding.array path element).anticipates_read u v c₁ with hsame | ⟨-, hfails⟩
  · exact ⟨_, c₂, hsame.symm.trans hrefused⟩
  · exact hfails

/-- The second row counts five numbers where four bytes are left. Without the check one of them is
read before the data ends. -/
theorem decode_iff_decodeUnchecked_rows :
    let rows : List Encoding := [.array [] [.array [] [.base .i32 []]]]
    let t : Ty := .array (.array (.int .i32))
    let short : Cursor := .start [2, 0, 0, 0, 0, 0, 0, 0, 5, 0, 0, 0, 7, 0, 0, 0]
    let whole : Cursor := .start [2, 0, 0, 0, 0, 0, 0, 0, 1, 0, 0, 0, 7, 0, 0, 0]
    let seven : Value := .array [.array [], .array [.int ⟨.i32, 7, by decide⟩]]
    (decode rows t).run short = (.error (.endOfData 12 5), ⟨12, [7, 0, 0, 0]⟩) ∧
      (decodeUnchecked rows t).run short = (.error (.endOfData 16 4), ⟨16, []⟩) ∧
      ((decode rows t).run short = (decodeUnchecked rows t).run short ∨
        (decode rows t).RunsOut short ∧ ∃ e c', (decodeUnchecked rows t).run short = (.error e, c')) ∧
      (∃ e c', ((Encoding.array [] [.base .i32 []]).readUnchecked (.array (.int .i32)) (.array [])).run
        ⟨8, short.rest.drop 8⟩ = (.error e, c')) ∧
      (decodeUnchecked rows t).run whole = (.ok seven, ⟨16, []⟩) ∧
      (decode rows t).run whole = (.ok seven, ⟨16, []⟩) := by
  intro rows t short whole seven
  have hwhole : (decodeUnchecked rows t).run whole = (.ok seven, ⟨16, []⟩) := rfl
  obtain ⟨-, hshort, harray⟩ := decode_iff_decodeUnchecked rows t short
  have hrow := harray [] [.base .i32 []] (.array (.int .i32)) (.array (.int .i32)) (.array []) 5
    ⟨8, short.rest.drop 8⟩ ⟨12, [7, 0, 0, 0]⟩ rfl rfl (by simp) (by decide)
  exact ⟨rfl, rfl, hshort, hrow.2, hwhole,
    ((decode_iff_decodeUnchecked rows t whole).1 seven ⟨16, []⟩).2 hwhole⟩

end Parley
