import FieldSelection.Proofs.Expansion.Related
import FieldSelection.Proofs.Expansion.Success

/-!
# How expansions fail

`Expansion.FailsOnly` restricts the errors of a computation. Which errors an expansion has follows
from what it carries along from an expression to those it goes on with (`expandWithin_failsOnly`).
By `expand_outcome` an expansion succeeds exactly if it reaches no alias that leads back to itself
and is no deeper than the limit, and it fails because of the limit or at such an alias.
-/

namespace FieldSelection

namespace Expansion

variable {α β : Type} {x : Expansion α} {p : ExpansionError → Prop}

/-- Whether every error to which a computation may come satisfies `p`. -/
def FailsOnly (x : Expansion α) (p : ExpansionError → Prop) : Prop :=
  ∀ error, x.outcome = .error error → p error

theorem failsOnly_of_ok {a : α} (h : x.outcome = .ok a) : x.FailsOnly p := by
  intro error herror
  rw [h] at herror
  cases herror

theorem failsOnly_of_error {error : ExpansionError} (h : x.outcome = .error error)
    (hp : p error) : x.FailsOnly p := by
  intro other hother
  cases h.symm.trans hother
  exact hp

theorem FailsOnly.bind {f : α → Expansion β} (h : x.FailsOnly p)
    (hnext : ∀ a, (f a).FailsOnly p) : (x >>= f).FailsOnly p := by
  intro error herror
  rw [outcome_bind] at herror
  cases houtcome : x.outcome with
  | error first =>
      rw [houtcome] at herror
      cases herror
      exact h _ houtcome
  | ok a =>
      rw [houtcome] at herror
      exact hnext a error herror

theorem compatible_failsOnly : Compatible fun _ x _ => x.FailsOnly p where
  value _ := failsOnly_of_ok rfl
  report event h := (failsOnly_of_ok (x := report event) rfl).bind fun _ => h
  map _ h := h.bind fun _ => failsOnly_of_ok rfl
  cons h hs := h.bind fun _ => hs.bind fun _ => failsOnly_of_ok rfl

end Expansion

namespace Expansion.Context

open AliasTable

variable {context : Context} {room : Nat} {stack : List Name} {expr : Expr}
  {p : ExpansionError → Prop} {r : Nat → List Name → Expr → Prop}

/-- What is carried along an expansion decides with which errors it may fail: one where no room is
left, and one for each alias on the stack that an expression mentions. -/
theorem expandWithin_failsOnly (hcarries : context.aliases.Carries r)
    (hlimit : ∀ stack expr, r 0 stack expr → p (.tooDeep context.limit))
    (hcycle : ∀ room stack expr name definition, r (room + 1) stack expr → expr.mentions name →
      context.aliases.target? name = some definition → name ∈ stack →
      p (.cycle (stack.dropWhile (· ≠ name) ++ [name])))
    (h : r room stack expr) : (context.expandWithin room stack expr).FailsOnly p := by
  have halongside : Alongside (fun _ x _ => x.FailsOnly p) r context context :=
    { limit := rfl
      carries := hcarries
      target := fun _ _ => rfl
      view := fun _ => failsOnly_of_ok (context.outcome_expandView _)
      refuse := fun hr => failsOnly_of_error rfl (hlimit _ _ hr)
      cycle := fun hr hmentions htarget hmem =>
        failsOnly_of_error rfl (hcycle _ _ _ _ _ hr hmentions htarget hmem) }
  exact halongside.expandWithin compatible_failsOnly h

/-- An expansion fails because of the limit or because an alias is met within its own expansion. -/
theorem expand_failsOnly (context : Context) (expr : Expr) :
    (context.expand expr).FailsOnly fun error =>
      error = .tooDeep context.limit ∨ ∃ chain, error = .cycle chain := by
  refine expandWithin_failsOnly context.aliases.carries_true (fun _ _ _ => Or.inl rfl) ?_ trivial
  exact fun _ _ _ _ _ _ _ _ _ => Or.inr ⟨_, rfl⟩

/-- An expansion succeeds exactly if no alias that leads back to itself is reached and the depth is
within the limit. If none is reached, there is a single depth, and one beyond the limit is refused.
Otherwise the expansion fails, be it because of the limit or because an alias is met within its own
expansion. -/
theorem expand_outcome (context : Context) (expr : Expr) :
    ((∃ expanded, (context.expand expr).outcome = .ok expanded) ↔
        ¬ context.aliases.ReachesCycle expr ∧
          ∃ depth ≤ context.limit, context.aliases.Depth expr depth) ∧
      (¬ context.aliases.ReachesCycle expr →
        (∃! depth, context.aliases.Depth expr depth) ∧
          ∀ depth, context.aliases.Depth expr depth → context.limit < depth →
            (context.expand expr).outcome = .error (.tooDeep context.limit)) ∧
      (context.aliases.ReachesCycle expr →
        (context.expand expr).outcome = .error (.tooDeep context.limit) ∨
          ∃ chain, (context.expand expr).outcome = .error (.cycle chain)) := by
  refine ⟨⟨fun hok => ?_, fun hboth => ?_⟩, fun hnot => ⟨?_, fun depth hdepth hlt => ?_⟩,
    fun hreaches => ?_⟩
  · obtain ⟨_, hok⟩ := hok
    obtain ⟨depth, hle, hdepth⟩ := exists_depth_of_expand hok
    exact ⟨hdepth.not_reachesCycle, depth, hle, hdepth⟩
  · obtain ⟨_, depth, hle, hdepth⟩ := hboth
    exact (succeedsIff_expand hdepth).succeeds hle
  · obtain ⟨depth, hdepth⟩ := exists_depth_iff.mpr hnot
    exact ⟨depth, hdepth, fun other hother => hother.unique hdepth⟩
  · exact (succeedsIff_expand hdepth).fails (Nat.not_le_of_lt hlt)
  · cases houtcome : (context.expand expr).outcome with
    | ok expanded =>
        obtain ⟨_, _, hdepth⟩ := exists_depth_of_expand houtcome
        exact absurd hreaches hdepth.not_reachesCycle
    | error error =>
        rcases context.expand_failsOnly expr error houtcome with rfl | ⟨chain, rfl⟩
        · exact Or.inl rfl
        · exact Or.inr ⟨chain, rfl⟩

/-- An alias with another one among its keys, and two that lead to each other. -/
def tangled : AliasTable :=
  .ofList [(⟨"contact"⟩, .selection [(⟨"owner"⟩, .name ⟨"id"⟩)]), (⟨"owner"⟩, .name ⟨"person"⟩),
    (⟨"me"⟩, .list [.name ⟨"email"⟩, .name ⟨"myself"⟩]), (⟨"myself"⟩, .name ⟨"me"⟩)]

theorem depth_tangled : tangled.Depth (.name ⟨"contact"⟩) 3 := by
  have hcontact : tangled.target? ⟨"contact"⟩ = some (.selection [(⟨"owner"⟩, .name ⟨"id"⟩)]) := rfl
  have howner : tangled.target? ⟨"owner"⟩ = some (.name ⟨"person"⟩) := rfl
  refine .reference hcontact (.selection (fun _ => 0) (List.forall_mem_singleton.mpr ?_))
  intro definition htarget
  obtain rfl := Option.some.inj (howner.symm.trans htarget)
  exact .field rfl

theorem reachesCycle_tangled : tangled.ReachesCycle (.name ⟨"me"⟩) := by
  have hthere : tangled.Leads ⟨"me"⟩ ⟨"myself"⟩ := ⟨⟨_, rfl, rfl⟩, _, rfl⟩
  have hback : tangled.Leads ⟨"myself"⟩ ⟨"me"⟩ := ⟨⟨_, rfl, rfl⟩, _, rfl⟩
  exact ⟨_, _, rfl, .refl, .tail (.single hthere) hback⟩

theorem expand_outcome_tangled :
    (∃ expanded, (expand ⟨tangled, none, 3⟩ (.name ⟨"contact"⟩)).outcome = .ok expanded) ∧
      (expand ⟨tangled, none, 2⟩ (.name ⟨"contact"⟩)).outcome = .error (.tooDeep 2) ∧
      tangled.ReachesCycle (.name ⟨"me"⟩) ∧
      ((expand ⟨tangled, none, 3⟩ (.name ⟨"me"⟩)).outcome = .error (.tooDeep 3) ∨
        ∃ chain, (expand ⟨tangled, none, 3⟩ (.name ⟨"me"⟩)).outcome = .error (.cycle chain)) := by
  have hnot := depth_tangled.not_reachesCycle
  have hfits := (expand_outcome ⟨tangled, none, 3⟩ (.name ⟨"contact"⟩)).1
  have hdeep := (expand_outcome ⟨tangled, none, 2⟩ (.name ⟨"contact"⟩)).2.1 hnot
  have hcycle := (expand_outcome ⟨tangled, none, 3⟩ (.name ⟨"me"⟩)).2.2
  exact ⟨hfits.mpr ⟨hnot, 3, Nat.le_refl 3, depth_tangled⟩, hdeep.2 3 depth_tangled (by decide),
    reachesCycle_tangled, hcycle reachesCycle_tangled⟩

end Expansion.Context

end FieldSelection
