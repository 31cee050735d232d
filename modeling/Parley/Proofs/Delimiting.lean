import Parley.Proofs.Construct
import Parley.Proofs.Reading
import Parley.Proofs.Scalars

/-!
# The binary format delimits itself

What is read depends on the bytes it takes and on no others, and data that ends too early is always
noticed.

* `Reader.RunsOut` : the data ends before a reader is done.
* `Reader.Steady`, `Reader.Delimited`, `Reader.Taking` : a reader moves on by the bytes it takes and
  does the same when bytes are added, unless it ran out of them; it needs none of the bytes that it
  leaves; it takes one or more. Closed under sequencing.
* `Encoding.taking_read`, `delimited_fill` : the tree of entries. The count of an array is checked
  against all the bytes that are left, which does no harm since each item takes a byte or more.
* `Reader.SelfDelimiting`, `Reader.Delimited.selfDelimiting` : both sides of delimiting.
-/

namespace Parley

/-- The same position in a buffer with more bytes at its end. -/
def Cursor.extend (c : Cursor) (more : List UInt8) : Cursor :=
  ⟨c.offset, c.rest ++ more⟩

namespace Reader

variable {α β : Type}

/-- The data ends before the reader is done. -/
def RunsOut (r : Reader α) (c : Cursor) : Prop :=
  ∃ offset needed, (r.run c).1 = .error (.endOfData offset needed)

/-- The reader moves on by the bytes it takes, and bytes that are added at the end change nothing
unless it ran out of them. -/
structure Steady (r : Reader α) : Prop where
  moves : ∀ c, ∃ x, c.rest = x ++ (r.run c).2.rest ∧ (r.run c).2.offset = c.offset + x.length
  stable : ∀ c more, r.RunsOut c ∨
    r.run (c.extend more) = ((r.run c).1, (r.run c).2.extend more)

/-- The bytes that the reader leaves may be any. -/
def Exact (r : Reader α) : Prop :=
  ∀ {o n : Nat} {x rest : List UInt8} {a : α}, r.run ⟨o, x ++ rest⟩ = (.ok a, ⟨n, rest⟩) →
    ∀ rest', r.run ⟨o, x ++ rest'⟩ = (.ok a, ⟨n, rest'⟩)

/-- The reader depends on the bytes it takes and on no others. -/
structure Delimited (r : Reader α) : Prop extends Steady r where
  exact : Exact r

/-- A delimited reader that takes a byte or more. -/
structure Taking (r : Reader α) : Prop extends Delimited r where
  takes : ∀ {c c' : Cursor} {a : α}, r.run c = (.ok a, c') → c'.remaining < c.remaining

/-- What a reader yields is told by the bytes it takes, whatever follows them, and data that ends
before they do runs out. -/
def SelfDelimiting (r : Reader α) : Prop :=
  ∀ {o : Nat} {data : List UInt8} {a : α} {c : Cursor}, r.run ⟨o, data⟩ = (.ok a, c) →
    ∃ n ≤ data.length, c = ⟨o + n, data.drop n⟩ ∧
      (∀ data', data'.take n = data.take n → r.run ⟨o, data'⟩ = (.ok a, ⟨o + n, data'.drop n⟩)) ∧
      ∀ k < n, r.RunsOut ⟨o, data.take k⟩

/-! ## Both sides of delimiting -/

/-- A reader that yields something splits the bytes into those it took and those it left. -/
theorem Steady.exists_taken {r : Reader α} (h : r.Steady) {c c' : Cursor} {a : α}
    (hr : r.run c = (.ok a, c')) :
    ∃ x, c.rest = x ++ c'.rest ∧ c'.offset = c.offset + x.length := by
  obtain ⟨x, hx, ho⟩ := h.moves c
  rw [hr] at hx ho
  exact ⟨x, hx, ho⟩

/-- Data that ends before the bytes that are taken do runs out. -/
theorem Steady.runsOut_of_lt {r : Reader α} (h : r.Steady) {o n k : Nat} {x : List UInt8} {a : α}
    (hr : r.run ⟨o, x⟩ = (.ok a, ⟨n, []⟩)) (hk : k < x.length) : r.RunsOut ⟨o, x.take k⟩ := by
  rcases h.stable ⟨o, x.take k⟩ (x.drop k) with hout | hsame
  · exact hout
  · -- with its end restored the data is read to that end, so nothing was missing
    have hextend : Cursor.extend ⟨o, x.take k⟩ (x.drop k) = ⟨o, x⟩ := by
      rw [Cursor.extend, List.take_append_drop]
    rw [hextend, hr] at hsame
    have hrest := congrArg (fun p => p.2.rest.length) hsame
    simp only [Cursor.extend, List.length_append, List.length_drop, List.length_nil] at hrest
    omega

theorem Delimited.selfDelimiting {r : Reader α} (h : r.Delimited) : r.SelfDelimiting := by
  intro o data a c hr
  obtain ⟨x, hx, ho⟩ := h.exists_taken hr
  obtain ⟨n, rest⟩ := c
  have hx : data = x ++ rest := hx
  have ho : n = o + x.length := ho
  subst hx ho
  refine ⟨x.length, by simp, by rw [List.drop_left], fun data' hd => ?_, fun k hk => ?_⟩
  · rw [List.take_left] at hd
    have hsplit : x ++ data'.drop x.length = data' := by
      calc x ++ data'.drop x.length = data'.take x.length ++ data'.drop x.length := by rw [hd]
        _ = data' := List.take_append_drop x.length data'
    have hread := h.exact hr (data'.drop x.length)
    rwa [hsplit] at hread
  · have hall : r.run ⟨o, x⟩ = (.ok a, ⟨o + x.length, []⟩) := by
      have hread := h.exact hr []
      rwa [List.append_nil] at hread
    rw [List.take_append_of_le_length (by omega)]
    exact h.runsOut_of_lt hall hk

/-! ## Readers made of others -/

theorem delimited_pure (a : α) : Delimited (pure a) where
  moves c := ⟨[], rfl, rfl⟩
  stable c more := Or.inr rfl
  exact h rest' := by
    rw [run_pure, Prod.mk.injEq, Cursor.mk.injEq] at h
    obtain ⟨ha, rfl, hx⟩ := h
    rw [run_pure, ha, List.append_left_eq_self.1 hx, List.nil_append]

theorem delimited_lift (x : Except Error α) : Delimited (liftM x : Reader α) where
  moves c := ⟨[], rfl, rfl⟩
  stable c more := Or.inr rfl
  exact h rest' := by
    rw [run_lift, Prod.mk.injEq, Cursor.mk.injEq] at h
    obtain ⟨ha, rfl, hx⟩ := h
    rw [run_lift, ha, List.append_left_eq_self.1 hx, List.nil_append]

theorem steady_bind {x : Reader α} {f : α → Reader β} (hx : x.Steady) (hf : ∀ a, (f a).Steady) :
    Steady (x >>= f) where
  moves c := by
    obtain ⟨y, hy, ho⟩ := hx.moves c
    cases hrun : x.run c with
    | mk read c₁ =>
      rw [hrun] at hy ho
      cases read with
      | error e =>
        rw [run_bind_error hrun]
        exact ⟨y, hy, ho⟩
      | ok a =>
        rw [run_bind hrun]
        obtain ⟨z, hz, ho'⟩ := (hf a).moves c₁
        refine ⟨y ++ z, ?_, ?_⟩
        · rw [hy, List.append_assoc, ← hz]
        · rw [ho', ho, List.length_append, Nat.add_assoc]
  stable c more := by
    cases hrun : x.run c with
    | mk read c₁ =>
      have hstable := hx.stable c more
      rw [hrun] at hstable
      cases read with
      | error e =>
        rw [RunsOut, run_bind_error hrun]
        rcases hstable with ⟨offset, needed, hout⟩ | hsame
        · rw [hrun] at hout
          cases hout
          exact Or.inl ⟨offset, needed, rfl⟩
        · exact Or.inr (run_bind_error hsame f)
      | ok a =>
        rw [RunsOut, run_bind hrun]
        rcases hstable with ⟨_, _, hout⟩ | hsame
        · rw [hrun] at hout
          cases hout
        · rw [run_bind hsame]
          exact (hf a).stable c₁ more

theorem delimited_bind {x : Reader α} {f : α → Reader β} (hx : x.Delimited)
    (hf : ∀ a, (f a).Delimited) : Delimited (x >>= f) where
  toSteady := steady_bind hx.toSteady fun a => (hf a).toSteady
  exact h rest' := by
    obtain ⟨a, c₁, ha, h⟩ := of_run_bind h
    obtain ⟨y, hy, -⟩ := hx.exists_taken ha
    obtain ⟨z, hz, -⟩ := (hf a).exists_taken h
    obtain ⟨o₁, left⟩ := c₁
    have hz : left = z ++ _ := hz
    subst hz
    have hyz := hy.trans (List.append_assoc y z _).symm
    rw [List.append_cancel_right hyz]
    rw [List.append_cancel_right hyz, List.append_assoc] at ha
    rw [List.append_assoc, run_bind (hx.exact ha (z ++ rest'))]
    exact (hf a).exact h rest'

theorem Steady.remaining_le {r : Reader α} (h : r.Steady) {c c' : Cursor} {a : α}
    (hr : r.run c = (.ok a, c')) : c'.remaining ≤ c.remaining := by
  obtain ⟨x, hx, -⟩ := h.exists_taken hr
  rw [Cursor.remaining, Cursor.remaining, hx, List.length_append]
  omega

theorem taking_bind {x : Reader α} {f : α → Reader β} (hx : x.Taking)
    (hf : ∀ a, (f a).Delimited) : Taking (x >>= f) where
  toDelimited := delimited_bind hx.toDelimited hf
  takes h := by
    obtain ⟨a, c₁, ha, h⟩ := of_run_bind h
    have := hx.takes ha
    have := (hf a).remaining_le h
    omega

theorem taking_lift_bind {x : Except Error α} {f : α → Reader β} (hf : ∀ a, (f a).Taking) :
    Taking (liftM x >>= f) where
  toDelimited := delimited_bind (delimited_lift x) fun a => (hf a).toDelimited
  takes h := by
    simp only [run_bind_eq_ok, run_lift_eq_ok] at h
    obtain ⟨a, _, ⟨-, rfl⟩, h⟩ := h
    exact (hf a).takes h

theorem delimited_mapM {f : α → Reader β} (hf : ∀ a, (f a).Delimited) (as : List α) :
    Delimited (as.mapM f) := by
  induction as with
  | nil => exact delimited_pure []
  | cons a as ih =>
    rw [List.mapM_cons]
    exact delimited_bind (hf a) fun b => delimited_bind ih fun bs => delimited_pure (b :: bs)

/-- Readers of items that take a byte or more take as many bytes as there are items. -/
theorem length_add_le_of_mapM {f : α → Reader β} (hf : ∀ a, (f a).Taking) {as : List α}
    {bs : List β} {c c' : Cursor} (h : Reader.run (as.mapM f) c = (.ok bs, c')) :
    as.length + c'.remaining ≤ c.remaining := by
  induction as generalizing bs c with
  | nil =>
    cases h
    simp
  | cons a as ih =>
    obtain ⟨b, rest, c₁, hb, hrest, -⟩ := run_mapM_cons_eq_ok.1 h
    have := (hf a).takes hb
    have := ih hrest
    rw [List.length_cons]
    omega

/-! ## Readers of bytes -/

theorem taking_of_split {r : Reader β} (split : List UInt8 → Option (α × List UInt8))
    (size : α → Nat) (value : α → β) (offset needed : Cursor → Nat)
    (hrun : ∀ c, r.run c = match split c.rest with
      | some (a, rest) => (.ok (value a), ⟨c.offset + size a, rest⟩)
      | none => (.error (.endOfData (offset c) (needed c)), c))
    (hsplit : ∀ {bytes a rest}, split bytes = some (a, rest) →
      0 < size a ∧ ∃ x, bytes = x ++ rest ∧ x.length = size a ∧
        ∀ rest', split (x ++ rest') = some (a, rest')) : r.Taking where
  moves c := by
    rw [hrun]
    cases hs : split c.rest with
    | none => exact ⟨[], rfl, rfl⟩
    | some p =>
      obtain ⟨-, x, hx, hl, -⟩ := hsplit hs
      exact ⟨x, hx, by rw [hl]⟩
  stable c more := by
    rw [RunsOut, hrun, hrun]
    cases hs : split c.rest with
    | none => exact Or.inl ⟨_, _, rfl⟩
    | some p =>
      obtain ⟨-, x, hx, -, hall⟩ := hsplit hs
      refine Or.inr ?_
      rw [Cursor.extend, hx, List.append_assoc, hall]
      rfl
  exact {o n x rest a} h rest' := by
    rw [hrun] at h ⊢
    cases hs : split (x ++ rest) with
    | none =>
      rw [hs] at h
      cases h
    | some p =>
      obtain ⟨-, y, hy, -, hall⟩ := hsplit hs
      rw [hs] at h
      cases h
      rw [List.append_cancel_right hy, hall]
  takes {c c' b} h := by
    rw [hrun] at h
    cases hs : split c.rest with
    | none =>
      rw [hs] at h
      cases h
    | some p =>
      obtain ⟨hpos, x, hx, hl, -⟩ := hsplit hs
      rw [hs] at h
      cases h
      simp only [Cursor.remaining, hx, List.length_append]
      omega

theorem taking_take {n : Nat} (hn : 0 < n) : (take n).Taking := by
  refine taking_of_split (splitBytes n) (fun _ => n) id Cursor.offset (fun _ => n) (fun c => ?_) ?_
  · show take n c = _
    rw [take]
    cases splitBytes n c.rest <;> rfl
  intro bytes front rest h
  obtain ⟨rfl, hb⟩ := splitBytes_eq_some h
  exact ⟨hn, front, hb, rfl, splitBytes_append front⟩

theorem taking_zcstring : zcstring.Taking := by
  refine taking_of_split splitUnits (fun units => 2 * units.length + 2) Utf16.decode
    (fun c => c.offset + 2 * (c.rest.length / 2)) (fun _ => 2) (fun c => ?_) ?_
  · show zcstring c = _
    rw [zcstring]
    cases splitUnits c.rest <;> rfl
  · intro bytes units rest h
    obtain ⟨hz, rfl⟩ := eq_append_of_splitUnits h
    refine ⟨Nat.succ_pos _, _, (List.append_assoc _ _ _).symm, ?_, fun rest' => ?_⟩
    · rw [List.length_append, length_flatMap_littleEndian]
      rfl
    · rw [List.append_assoc]
      exact splitUnits_append hz rest'

theorem taking_word : word.Taking :=
  taking_bind (taking_take (by decide)) fun _ => delimited_pure _

/-- A count is checked against all the bytes that are left, so the check alone is not delimited. -/
theorem steady_checkCount (counted : Bool) (count : Nat) : (checkCount counted count).Steady where
  moves c := by
    rw [run_checkCount]
    split <;> exact ⟨[], rfl, rfl⟩
  stable c more := by
    rw [RunsOut, run_checkCount, run_checkCount]
    by_cases h : (counted && c.remaining < count) = true
    · rw [if_pos h]
      exact Or.inl ⟨_, _, rfl⟩
    · have hmore : ¬ (counted && (c.extend more).remaining < count) = true := by
        rw [Bool.and_eq_true, decide_eq_true_eq, not_and, Nat.not_lt] at h ⊢
        intro hc
        rw [Cursor.remaining, Cursor.extend, List.length_append]
        exact Nat.le_add_right_of_le (h hc)
      rw [if_neg h, if_neg hmore]
      exact Or.inr rfl

/-- A check of a count is delimited with what follows it, if that takes as many bytes as the check
asks for. -/
theorem delimited_checkCount_bind {counted : Bool} {count : Nat} {r : Reader α} (hr : r.Delimited)
    (htakes : ∀ {c c' : Cursor} {a : α}, r.run c = (.ok a, c') → counted = true →
      count + c'.remaining ≤ c.remaining) :
    Delimited (checkCount counted count >>= fun _ => r) where
  toSteady := steady_bind (steady_checkCount counted count) fun _ => hr.toSteady
  exact {o n x rest a} h rest' := by
    obtain ⟨_, c, hp, h⟩ := of_run_bind h
    obtain ⟨-, rfl⟩ := run_checkCount_eq_ok.1 hp
    refine run_bind_eq_ok.2 ⟨(), _, run_checkCount_eq_ok.2 ⟨fun hc => ?_, rfl⟩, hr.exact h rest'⟩
    have := htakes h hc
    simp only [Cursor.remaining, List.length_append] at this ⊢
    omega

end Reader

/-! ## Entries -/

theorem taking_decodeScalar (kind : BaseKind) : (decodeScalar kind).Taking := by
  cases kind with
  | zcstring => exact Reader.taking_bind Reader.taking_zcstring fun _ => Reader.delimited_pure _
  | int k hk =>
    have hpos : 0 < k.bytes := by cases k <;> decide
    refine Reader.taking_bind ?_ fun _ => Reader.delimited_pure _
    exact Reader.taking_bind (Reader.taking_take hpos) fun _ => Reader.delimited_pure _
  | float | double | boolean =>
    refine Reader.taking_bind ?_ fun _ => Reader.delimited_pure _
    exact Reader.taking_bind (Reader.taking_take (by decide)) fun _ => Reader.delimited_pure _

theorem count_add_remaining_le {element : List Encoding} (htakes : ∀ t v, (fill element t v).Taking)
    {target : Ty} {count : Nat} {path : Path} {v w : Value} {c c' : Cursor}
    (h : Reader.run (do
      let u ← target.element
      let items ← constructItems target element count
      v.set (.array (← items.mapM fun item => fill element u item)) path) c = (.ok w, c')) :
    count + c'.remaining ≤ c.remaining := by
  simp only [Reader.run_bind_eq_ok, Reader.run_lift_eq_ok] at h
  obtain ⟨u, _, ⟨-, rfl⟩, items, _, ⟨hitems, rfl⟩, ws, _, hws, -, rfl⟩ := h
  have hlen := Reader.length_add_le_of_mapM (fun item => htakes u item) hws
  rwa [length_of_constructItems hitems] at hlen

/-- An array is delimited if its items are and each takes a byte or more, unless none takes any. -/
theorem taking_read_array (path : Path) {element : List Encoding} (t : Ty) (v : Value)
    (hfill : ∀ t v, (fill element t v).Delimited)
    (htakes : element ≠ [] → ∀ t v, (fill element t v).Taking) :
    ((Encoding.array path element).read t v).Taking := by
  rw [Encoding.read_array]
  refine Reader.taking_lift_bind fun target => ?_
  refine Reader.taking_bind Reader.taking_word fun count => ?_
  refine Reader.delimited_checkCount_bind ?_ fun h hcounted => ?_
  · refine Reader.delimited_bind (Reader.delimited_lift _) fun u => ?_
    refine Reader.delimited_bind (Reader.delimited_lift _) fun items => ?_
    exact Reader.delimited_bind (Reader.delimited_mapM (fun item => hfill u item) items)
      fun ws => Reader.delimited_lift _
  · have hne : element ≠ [] := by simpa using hcounted
    exact count_add_remaining_le (htakes hne) h

theorem taking_fill_cons {e : Encoding} {rest : List Encoding} {t : Ty} {v : Value}
    (he : (e.read t v).Taking) (hrest : ∀ v, (fill rest t v).Delimited) :
    (fill (e :: rest) t v).Taking := by
  rw [fill]
  exact Reader.taking_bind he hrest

mutual

theorem Encoding.taking_read : ∀ (e : Encoding) (t : Ty) (v : Value), (e.read t v).Taking
  | .base kind path, t, v => by
    rw [Encoding.read]
    refine Reader.taking_lift_bind fun target => ?_
    refine Reader.taking_bind (taking_decodeScalar kind) fun s => ?_
    exact Reader.delimited_bind (Reader.delimited_lift _) fun w => Reader.delimited_lift _
  | .enum path table, t, v => by
    rw [Encoding.read]
    refine Reader.taking_lift_bind fun target => ?_
    refine Reader.taking_bind Reader.taking_word fun bits => ?_
    exact Reader.delimited_bind (Reader.delimited_lift _) fun w => Reader.delimited_lift _
  | .array path [], t, v =>
    taking_read_array path t v (fun t v => delimited_fill [] t v) fun h => absurd rfl h
  | .array path (e :: rest), t, v => by
    have hfill (t : Ty) (v : Value) : (fill (e :: rest) t v).Taking :=
      taking_fill_cons (e.taking_read t v) fun v => delimited_fill rest t v
    exact taking_read_array path t v (fun t v => (hfill t v).toDelimited) fun _ => hfill

theorem delimited_fill : ∀ (encoding : List Encoding) (t : Ty) (v : Value),
    (fill encoding t v).Delimited
  | [], _, v => by
    rw [fill]
    exact Reader.delimited_pure v
  | e :: rest, t, v =>
    (taking_fill_cons (e.taking_read t v) fun v => delimited_fill rest t v).toDelimited

end

theorem delimited_decode (encoding : List Encoding) (t : Ty) : (decode encoding t).Delimited :=
  Reader.delimited_bind (Reader.delimited_lift _) fun v => delimited_fill encoding t v

/-! ## Argument lists -/

theorem delimited_fillArguments (types : List Ty) (entries : List (Nat × Encoding))
    (args : List Value) : (fillArguments types entries args).Delimited := by
  induction entries generalizing args with
  | nil => exact Reader.delimited_pure args
  | cons entry entries ih =>
    obtain ⟨i, e⟩ := entry
    rw [fillArguments]
    split
    · exact Reader.delimited_bind (delimited_fill [e] _ _) fun w => ih _
    · exact Reader.delimited_lift (.error (.parameterNotTaken i types.length))

theorem delimited_decodeArguments (encoding : List Encoding) (types : List Ty) :
    (decodeArguments encoding types).Delimited := by
  refine Reader.delimited_bind (Reader.delimited_lift _) fun entries => ?_
  refine Reader.delimited_bind (Reader.delimited_lift _) fun args => ?_
  exact delimited_fillArguments types entries args

end Parley
