import FieldSelection.Proofs.Expansion.Related

/-!
# What the union makes no difference to

An expansion without a union of all aliases tells whether it missed one. `expand_unless_missed` says
that an expansion that missed nothing comes to the same under every union, so that it need not be
repeated once the union is known. Whether there is a union and what it holds makes no difference to
the course of an expansion, that is, to the events that it reports and to how it fails
(`expand_sameCourse`). An expansion under a union never misses it (`missed_expand`).
-/

namespace FieldSelection.Expansion

variable {α β : Type}

/-- `x.SameUnlessMissed y` says that `y` ends as `x` does, unless `x` missed the union. -/
def SameUnlessMissed (x y : Expansion α) : Prop :=
  x.missed = false → y.outcome = x.outcome

theorem SameUnlessMissed.refl (x : Expansion α) : x.SameUnlessMissed x := fun _ => rfl

theorem SameUnlessMissed.bind {x y : Expansion α} {f g : α → Expansion β}
    (hfirst : x.SameUnlessMissed y) (hnext : ∀ a, (f a).SameUnlessMissed (g a)) :
    (x >>= f).SameUnlessMissed (y >>= g) := by
  intro hmissed
  cases houtcome : x.outcome with
  | error error =>
      rw [missed_bind_of_error houtcome] at hmissed
      rw [outcome_bind, outcome_bind, hfirst hmissed, houtcome]
      rfl
  | ok a =>
      rw [missed_bind_of_ok houtcome, Bool.or_eq_false_iff] at hmissed
      rw [outcome_bind, outcome_bind, hfirst hmissed.1, houtcome]
      exact hnext a hmissed.2

theorem compatible_sameUnlessMissed : Compatible fun _ x y => x.SameUnlessMissed y where
  value a := .refl (pure a)
  report event h := (SameUnlessMissed.refl (report event)).bind fun _ => h
  map _ h := h.bind fun _ => .refl _
  cons h hs := h.bind fun _ => hs.bind fun _ => .refl _

/-- Whether two computations report the same events and fail alike, if they fail. Otherwise they may
come to different values. -/
structure SameCourse (x y : Expansion α) : Prop where
  events : y.events = x.events
  fails : ∀ error, x.outcome = .error error ↔ y.outcome = .error error

theorem SameCourse.refl (x : Expansion α) : x.SameCourse x :=
  ⟨rfl, fun _ => Iff.rfl⟩

theorem sameCourse_of_ok {x y : Expansion α} {a b : α} (hevents : y.events = x.events)
    (hx : x.outcome = .ok a) (hy : y.outcome = .ok b) : x.SameCourse y := by
  refine ⟨hevents, fun error => ?_⟩
  rw [hx, hy]
  constructor <;> intro herror <;> cases herror

theorem sameCourse_pure (a b : α) : (pure a : Expansion α).SameCourse (pure b) :=
  sameCourse_of_ok rfl rfl rfl

/-- Since the values may differ, what follows must take the same course from any two values. -/
theorem SameCourse.bind {x y : Expansion α} {f g : α → Expansion β} (h : x.SameCourse y)
    (hnext : ∀ a b, (f a).SameCourse (g b)) : (x >>= f).SameCourse (y >>= g) := by
  cases hx : x.outcome with
  | error error =>
      rw [bind_of_error hx, bind_of_error ((h.fails error).mp hx), h.events]
      exact ⟨rfl, fun _ => Iff.rfl⟩
  | ok a =>
      cases hy : y.outcome with
      | error error => cases hx.symm.trans ((h.fails error).mpr hy)
      | ok b =>
          rw [bind_of_ok hx, bind_of_ok hy, h.events]
          exact ⟨congrArg (x.events ++ ·) (hnext a b).events, (hnext a b).fails⟩

theorem compatible_sameCourse : Compatible fun _ x y => x.SameCourse y where
  value a := .refl (pure a)
  report event h := (SameCourse.refl (report event)).bind fun _ _ => h
  map _ h := h.bind fun _ _ => sameCourse_pure _ _
  cons h hs := h.bind fun _ _ => hs.bind fun _ _ => sameCourse_pure _ _

theorem missed_bind {x : Expansion α} {f : α → Expansion β} (h : x.missed = false)
    (hnext : ∀ a, (f a).missed = false) : (x >>= f).missed = false := by
  cases houtcome : x.outcome with
  | error error => rw [missed_bind_of_error houtcome, h]
  | ok a => rw [missed_bind_of_ok houtcome, h, hnext a, Bool.or_false]

theorem compatible_missed : Compatible fun _ x _ => x.missed = false where
  value _ := rfl
  report event h := missed_bind (x := report event) rfl fun _ => h
  map _ h := missed_bind h fun _ => rfl
  cons h hs := missed_bind h fun _ => missed_bind hs fun _ => rfl

namespace Context

/-- The same context with another union. -/
def withAggregate (context : Context) (aggregate : Option Facet) : Context :=
  { context with aggregate := aggregate }

variable {context : Context} {aggregate : Option Facet}
  {r : (α : Type) → Expansion α → Expansion α → Prop}

/-- Contexts that differ in the union go alongside each other, if the views do. -/
theorem alongside_withAggregate (hrefl : ∀ x, r Expr x x)
    (hview : ∀ name, r Expr (context.expandView name)
      ((context.withAggregate aggregate).expandView name)) :
    Alongside r (fun _ _ _ => True) context (context.withAggregate aggregate) where
  limit := rfl
  carries := context.aliases.carries_true
  target _ _ := rfl
  view _ := hview _
  refuse _ := hrefl _
  cycle _ _ _ _ := hrefl _

/-- An expansion without a union that missed nothing comes to the same under every union. -/
theorem expand_unless_missed (hnone : context.aggregate = none) (expr : Expr) :
    (context.expand expr).SameUnlessMissed ((context.withAggregate aggregate).expand expr) := by
  refine (alongside_withAggregate .refl fun name hmissed => ?_).expandWithin
    compatible_sameUnlessMissed trivial
  -- Without a union, every reading of a view is a miss.
  rw [expandView, hnone] at hmissed
  cases hmissed

/-- A view is read without an event, and whatever it holds. -/
theorem sameCourse_expandView (context other : Context) (name : Name) :
    (context.expandView name).SameCourse (other.expandView name) := by
  unfold expandView
  cases context.aggregate <;> cases other.aggregate <;> exact sameCourse_of_ok rfl rfl rfl

/-- Expansions of one expression take the same course under every union and without one. -/
theorem expand_sameCourse (context : Context) (aggregate : Option Facet) (expr : Expr) :
    (context.expand expr).SameCourse ((context.withAggregate aggregate).expand expr) :=
  (alongside_withAggregate .refl fun name => sameCourse_expandView _ _ name).expandWithin
    compatible_sameCourse trivial

/-- An expansion under a union does not miss it. -/
theorem missed_expand {facet : Facet} (hsome : context.aggregate = some facet) (expr : Expr) :
    (context.expand expr).missed = false := by
  have halongside : Alongside (fun _ x _ => x.missed = false) (fun _ _ _ => True) context context :=
    { limit := rfl
      carries := context.aliases.carries_true
      target := fun _ _ => rfl
      view := fun _ => by rw [expandView, hsome]; rfl
      refuse := fun _ => rfl
      cycle := fun _ _ _ _ => rfl }
  exact halongside.expandWithin compatible_missed trivial

end Context

end FieldSelection.Expansion
