import Mathlib.Logic.Function.Basic
import Parley.Proofs.Commands

/-!
# Two endpoints

Two endpoints exchange messages that arrive in any order, more than once or not at all.

* `Pair` : two endpoints, each with what was seen of it.
* `Parties` : what the endpoints of a pair are: how they carry out commands, and which message a
  command hands to them.
* `Parties.Acts` : one command to one of the endpoints, which receives only what the other one sent.
* `Parties.guarantee` : what every command to an endpoint guarantees, it guarantees as one of a
  pair.
* `Parties.carries` : whatever an endpoint does in the course of a message, the other one sent it.
-/

namespace Parley

/-- Two endpoints, each with what was seen of it. -/
abbrev Pair (σ γ : Bool → Type) (μ κ ι : Type) := ∀ side, Node (σ side) (γ side) μ κ ι

/-- How the endpoints of a pair carry out commands, and the message that a command hands to one of
them. -/
structure Parties (σ γ : Bool → Type) (μ κ ι : Type) where
  perform : ∀ side, γ side → Operation (σ side) μ κ ι (Option Nat)
  message? : ∀ side, γ side → Option μ

variable {σ γ : Bool → Type} {μ κ ι : Type}

namespace Pair

/-- One of the endpoints. -/
def site (side : Bool) : Site (Pair σ γ μ κ ι) (Node (σ side) (γ side) μ κ ι) where
  node g := g side
  put g n := Function.update g side n
  node_put _ _ := Function.update_self _ _ _
  put_node _ := Function.update_eq_self _ _
  put_put _ _ _ := Function.update_idem _ _ _

theorem site_put_ne {side other : Bool} (h : other ≠ side) (g : Pair σ γ μ κ ι)
    (n : Node (σ side) (γ side) μ κ ι) : (site side).put g n other = g other :=
  Function.update_of_ne h _ _

/-- An endpoint sent the message. -/
def Sent (g : Pair σ γ μ κ ι) (side : Bool) (m : μ) : Prop :=
  ∃ c, .sent c m ∈ (g side).trace

/-- Nothing that was seen of the endpoints is lost. -/
def Extends (g g' : Pair σ γ μ κ ι) : Prop :=
  ∀ side, (g side).trace <+: (g' side).trace

theorem Extends.refl (g : Pair σ γ μ κ ι) : Extends g g :=
  fun _ => List.prefix_rfl

theorem Extends.trans {g₁ g₂ g₃ : Pair σ γ μ κ ι} (h : Extends g₁ g₂) (h' : Extends g₂ g₃) :
    Extends g₁ g₃ :=
  fun side => (h side).trans (h' side)

theorem Sent.extends {g g' : Pair σ γ μ κ ι} {side : Bool} {m : μ} (h : Sent g side m)
    (hg : Extends g g') : Sent g' side m := by
  obtain ⟨c, hc⟩ := h
  exact ⟨c, (hg side).subset hc⟩

theorem extends_note (g : Pair σ γ μ κ ι) (side : Bool) (o : Occurrence (γ side) μ κ ι) :
    Extends g ((site side).note g o) := by
  intro other
  by_cases h : other = side
  · subst h
    have hself : (site other).note g o other = (g other).note o := (site other).node_put g _
    exact ⟨[o], congrArg Node.trace hself.symm⟩
  · have hother : (site side).note g o other = g other := site_put_ne h g _
    exact ⟨[], (List.append_nil _).trans (congrArg Node.trace hother).symm⟩

theorem extends_move (g : Pair σ γ μ κ ι) (side : Bool) (s : σ side) :
    Extends g ((site side).put g (((site side).node g).move s)) := by
  intro other
  by_cases h : other = side
  · subst h
    have hself : (site other).put g ((g other).move s) other = (g other).move s :=
      (site other).node_put g _
    exact ⟨[], (List.append_nil _).trans (congrArg Node.trace hself).symm⟩
  · have hother : (site side).put g ((g side).move s) other = g other := site_put_ne h g _
    exact ⟨[], (List.append_nil _).trans (congrArg Node.trace hother).symm⟩

end Pair

open Pair

namespace Parties

variable (P : Parties σ γ μ κ ι)

/-- An endpoint receives only what the other one sent. -/
def Allowed (side : Bool) (g : Pair σ γ μ κ ι) (c : γ side) : Prop :=
  ∀ m, P.message? side c = some m → Sent g (!side) m

/-- One command to one of the endpoints. -/
def Acts (env : Pair σ γ μ κ ι → Pair σ γ μ κ ι → Prop) (g g' : Pair σ γ μ κ ι) : Prop :=
  ∃ side, (site side).Acts (P.perform side) (P.Allowed side) env g g'

/-- Whatever an endpoint does in the course of a message, the other one sent that message. -/
def Carries (g : Pair σ γ μ κ ι) : Prop :=
  ∀ side, ∀ o ∈ (g side).trace, ∀ m, P.message? side o.during = some m → Sent g (!side) m

variable {P}

/-- What every command to an endpoint guarantees, it guarantees as one of a pair: the other one's
commands do not touch it. -/
theorem guarantee (side : Bool)
    {R : Node (σ side) (γ side) μ κ ι → Node (σ side) (γ side) μ κ ι → Prop} (hrefl : ∀ n, R n n)
    (htrans : ∀ {n₁ n₂ n₃}, R n₁ n₂ → R n₂ n₃ → R n₁ n₃) (hR : Guarantees (P.perform side) R)
    {g g' : Pair σ γ μ κ ι} (h : Reaches P.Acts g g') : R (g side) (g' side) := by
  refine h.guarantee (R := fun g g' => R (g side) (g' side)) (fun g => hrefl _) htrans
    (fun henv g g' ⟨acting, ha⟩ => ?_)
  by_cases hs : side = acting
  · subst hs
    exact Guarantees.acts hR henv ha
  · refine ha.frame (R := fun g g' => R (g side) (g' side)) (fun _ => hrefl _) htrans
      (fun g s => ?_) (fun _ _ g o _ => ?_) henv
    · rw [site_put_ne hs]
      exact hrefl _
    · rw [Site.note, site_put_ne hs]
      exact hrefl _

theorem Carries.note {g : Pair σ γ μ κ ι} {side : Bool} {o : Occurrence (γ side) μ κ ι}
    (hg : P.Carries g) (ho : ∀ m, P.message? side o.during = some m → Sent g (!side) m) :
    P.Carries ((site side).note g o) := by
  intro other o' ho' m hm
  refine Sent.extends ?_ (extends_note g side o)
  by_cases h : other = side
  · subst h
    rw [Site.note, show (site other).put g _ other = _ from (site other).node_put g _] at ho'
    rcases List.mem_append.1 ho' with ho' | ho'
    · exact hg other o' ho' m hm
    · exact ho m (List.mem_singleton.1 ho' ▸ hm)
  · rw [Site.note, site_put_ne h] at ho'
    exact hg other o' ho' m hm

theorem Carries.move {g : Pair σ γ μ κ ι} {side : Bool} {s : σ side} (hg : P.Carries g) :
    P.Carries ((site side).put g (((site side).node g).move s)) := by
  intro other o ho m hm
  refine Sent.extends ?_ (extends_move g side s)
  by_cases h : other = side
  · subst h
    rw [show (site other).put g _ other = _ from (site other).node_put g _] at ho
    exact hg other o ho m hm
  · rw [site_put_ne h] at ho
    exact hg other o ho m hm

/-- Whatever an endpoint does in the course of a message, the other one sent that message. -/
theorem carries {g g' : Pair σ γ μ κ ι} (h : Reaches P.Acts g g') (hg : P.Carries g) :
    P.Carries g' := by
  have hboth : Extends g g' ∧ (P.Carries g → P.Carries g') := by
    refine h.guarantee (R := fun g g' => Extends g g' ∧ (P.Carries g → P.Carries g'))
      (fun g => ⟨Extends.refl g, id⟩) (fun h₁ h₂ => ⟨h₁.1.trans h₂.1, h₂.2 ∘ h₁.2⟩)
      (fun {env} henv g g' ⟨side, ha⟩ => ?_)
    -- a message that was sent before the command stays sent in its course
    have hnote (c : γ side) (hallowed : P.Allowed side g c) (x : Pair σ γ μ κ ι)
        (o : Occurrence (γ side) μ κ ι) (ho : o.during = c) :
        Extends x ((site side).note x o) ∧
          (Extends g x → P.Carries x → P.Carries ((site side).note x o)) := by
      refine ⟨extends_note x side o, fun hg hx => hx.note fun m hm => ?_⟩
      exact Sent.extends (hallowed m (ho ▸ hm)) hg
    obtain ⟨he, hc⟩ := ha.frame
      (R := fun x y => Extends x y ∧ (Extends g x → P.Carries x → P.Carries y))
      (fun x => ⟨Extends.refl x, fun _ hx => hx⟩)
      (fun h₁ h₂ => ⟨h₁.1.trans h₂.1, fun hg hx => h₂.2 (hg.trans h₁.1) (h₁.2 hg hx)⟩)
      (fun x s => ⟨extends_move x side s, fun _ hx => hx.move⟩) hnote
      (fun he => ⟨(henv he).1, fun _ => (henv he).2⟩)
    exact ⟨he, hc (Extends.refl g)⟩
  exact hboth.2 hg

theorem carries_start (s : ∀ side, σ side) : P.Carries fun side => Node.start (s side) :=
  fun _ _ ho => nomatch ho

theorem reaches_of_runs {g : Pair σ γ μ κ ι} (side : Bool) {c : γ side}
    {r : Except Error (Option Nat)} {n : Node (σ side) (γ side) μ κ ι}
    (ha : P.Allowed side g c) (h : (P.perform side c).Runs Eq c (g side) r n) :
    Reaches P.Acts g ((site side).put g (n.note (.finished c r))) :=
  .single ⟨1, side, Site.Acts.of_runs ha h fun _ => .refl⟩

end Parties

end Parley
