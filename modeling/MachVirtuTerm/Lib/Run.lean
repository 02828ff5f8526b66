import Mathlib.Algebra.BigOperators.Group.List.Basic

/-!
# Runs of a labelled transition system

The steps of a run are kept with the state each starts from, the last first. What every
step preserves holds all along a run, also if steps preserve it only under a condition
that all steps of the run meet.
-/

open List Option

namespace MachVirtuTerm

variable {State Label : Type*}

/-- The runs from a state: the steps, the last first, and where they led. -/
inductive Run (step : State → Label → State → Prop) (init : State) :
    List (State × Label) → State → Prop
  | nil : Run step init [] init
  | cons {trace : List (State × Label)} {s s' : State} {l : Label}
    (h : Run step init trace s) (hstep : step s l s') : Run step init ((s, l) :: trace) s'

namespace Run

variable {step : State → Label → State → Prop} {init s : State} {trace : List (State × Label)}
  {ok : State → Label → Prop} (Inv : State → Prop)

/-- What steps under a condition preserve holds in the state a run leads to. -/
theorem invariant (h : Run step init trace s) (hok : ∀ x ∈ trace, ok x.1 x.2) (hinit : Inv init)
    (hstep : ∀ s l s', Inv s → ok s l → step s l s' → Inv s') : Inv s := by
  induction h with
  | nil => exact hinit
  | cons _ hlast ih =>
    exact hstep _ _ _ (ih fun x hx => hok x (mem_cons_of_mem _ hx)) (hok _ (mem_cons_self ..)) hlast

/-- What steps under a condition preserve holds before every step of a run. -/
theorem invariant_of_mem (h : Run step init trace s) (hok : ∀ x ∈ trace, ok x.1 x.2)
    (hinit : Inv init) (hstep : ∀ s l s', Inv s → ok s l → step s l s' → Inv s')
    {x : State × Label} (hx : x ∈ trace) : Inv x.1 ∧ ok x.1 x.2 ∧ ∃ s', step x.1 x.2 s' := by
  induction h with
  | nil => cases hx
  | cons hrun hlast ih =>
    have hok' := fun y hy => hok y (mem_cons_of_mem _ hy)
    rcases mem_cons.mp hx with rfl | hx
    · exact ⟨hrun.invariant Inv hok' hinit hstep, hok _ (mem_cons_self ..), _, hlast⟩
    · exact ih hok' hx

/-- A run goes on from where another led. -/
theorem trans {trace' : List (State × Label)} {s' : State} (h : Run step init trace s)
    (h' : Run step s trace' s') : Run step init (trace' ++ trace) s' := by
  induction h' with
  | nil => exact h
  | cons _ hlast ih => exact .cons ih hlast

/-- A run of a system that allows more. -/
theorem mono {step' : State → Label → State → Prop} (h : Run step init trace s)
    (hstep : ∀ s l s', step s l s' → step' s l s') : Run step' init trace s := by
  induction h with
  | nil => exact .nil
  | cons _ hlast ih => exact .cons ih (hstep _ _ _ hlast)

/-- A run, its steps under other labels. -/
theorem relabel {Label' : Type*} {step' : State → Label' → State → Prop} {f : Label → Label'}
    (h : Run step init trace s) (hstep : ∀ s l s', step s l s' → step' s (f l) s') :
    Run step' init (trace.map fun x => (x.1, f x.2)) s := by
  induction h with
  | nil => exact .nil
  | cons _ hlast ih => exact .cons ih (hstep _ _ _ hlast)

section Total

variable {M : Type*} [AddCommMonoid M]

/-- What the labels of a run amount to. -/
def total (amount : Label → M) (trace : List (State × Label)) : M :=
  (trace.map fun x => amount x.2).sum

theorem total_cons (amount : Label → M) (x : State × Label) (trace : List (State × Label)) :
    total amount (x :: trace) = amount x.2 + total amount trace := by
  rw [total, total, map_cons, sum_cons]

/-- What every step gains it loses or holds; so does a run. -/
theorem balance (ok : State → Label → Prop) {held : State → M} {gained lost : Label → M}
    (h : Run step init trace s)
    (hok : ∀ x ∈ trace, ok x.1 x.2) (hinit : Inv init)
    (hinv : ∀ s l s', Inv s → ok s l → step s l s' → Inv s')
    (hstep : ∀ s l s', Inv s → ok s l → step s l s' → held s + gained l = held s' + lost l) :
    held init + total gained trace = held s + total lost trace := by
  induction h with
  | nil => rfl
  | @cons trace s₁ s₂ l hrun hlast ih =>
    have hok' := fun x hx => hok x (mem_cons_of_mem _ hx)
    have hbefore := hrun.invariant Inv hok' hinit hinv
    have hlast' := hstep s₁ l s₂ hbefore (hok _ (mem_cons_self ..)) hlast
    calc held init + total gained ((s₁, l) :: trace)
        = gained l + (held init + total gained trace) := by
          rw [total_cons, add_left_comm]
      _ = held s₁ + gained l + total lost trace := by
          rw [ih hok', ← add_assoc, add_comm (gained l)]
      _ = held s₂ + total lost ((s₁, l) :: trace) := by
          rw [hlast', total_cons, add_assoc]

end Total

end Run

section Replay

variable {Action Output : Type*} {step : State → Action → Option (State × Output)} {s s' : State}
  {actions : List Action} {trace : List (State × Action × Output)}

/-- Let a system do one action after the other, the last first. -/
def replay (step : State → Action → Option (State × Output)) (s : State) :
    List Action → Option (List (State × Action × Output) × State)
  | [] => some ([], s)
  | action :: actions =>
    (replay step s actions).bind fun (trace, s) =>
      (step s action).map fun (s', output) => ((s, action, output) :: trace, s')

/-- What was replayed is a run, of any system that allows its actions. -/
theorem Run.of_replay {Allowed : Action → Prop} (h : replay step s actions = some (trace, s'))
    (hallowed : ∀ action ∈ actions, Allowed action) :
    Run (fun s l s' => step s l.1 = some (s', l.2) ∧ Allowed l.1) s trace s' := by
  induction actions generalizing trace s' with
  | nil =>
    cases h
    exact .nil
  | cons action actions ih =>
    simp only [replay, bind_eq_some_iff, map_eq_some_iff] at h
    obtain ⟨⟨trace₁, s₁⟩, hreplay, ⟨s₂, output⟩, hstep, heq⟩ := h
    cases heq
    exact .cons (ih hreplay fun a ha => hallowed a (mem_cons_of_mem _ ha))
      ⟨hstep, hallowed action (mem_cons_self ..)⟩

/-- What was replayed is a run. -/
theorem Run.of_replay_step (h : replay step s actions = some (trace, s')) :
    Run (fun s l s' => step s l.1 = some (s', l.2)) s trace s' := by
  have hrun : Run (fun s l s' => step s l.1 = some (s', l.2) ∧ True) s trace s' :=
    Run.of_replay h fun _ _ => trivial
  exact hrun.mono fun _ _ _ hstep => hstep.1

end Replay

section Follow

variable {step : State → Label → Option State} {s s' : State} {labels : List Label}
  {trace : List (State × Label)}

/-- Take some steps one after the other, the first first. -/
def followLabels (step : State → Label → Option State) (s : State) :
    List Label → Option (List (State × Label) × State)
  | [] => some ([], s)
  | l :: labels =>
    (step s l).bind fun s' =>
      (followLabels step s' labels).map fun (trace, s'') => (trace ++ [(s, l)], s'')

theorem Run.of_follow_eq (h : followLabels step s labels = some (trace, s')) :
    Run (fun s l s' => step s l = some s') s trace s' := by
  induction labels generalizing s trace s' with
  | nil =>
    cases h
    exact .nil
  | cons l labels ih =>
    simp only [followLabels, bind_eq_some_iff, map_eq_some_iff] at h
    obtain ⟨s₁, hstep, ⟨trace₁, s₂⟩, hfollow, heq⟩ := h
    cases heq
    exact Run.trans (.cons .nil hstep) (ih hfollow)

/-- Steps that can be taken are a run. -/
theorem Run.of_follow {P : List (State × Label) → State → Prop}
    (h : ∃ r ∈ followLabels step s labels, P r.1 r.2) :
    ∃ trace s', Run (fun s l s' => step s l = some s') s trace s' ∧ P trace s' := by
  obtain ⟨⟨trace, s'⟩, hfollow, hP⟩ := h
  exact ⟨trace, s', Run.of_follow_eq hfollow, hP⟩

end Follow

end MachVirtuTerm

/-!
# Runs that end

Where every step lowers a rank, runs are no longer than the rank of their first state, and each
can be continued to a state in which no step is possible.
-/

namespace MachVirtuTerm

namespace Run

variable {State Label : Type*} {step : State → Label → State → Prop} {init s : State}
  {trace : List (State × Label)} (Inv : State → Prop) (rank : State → ℕ)

/-- Steps keep an invariant and lower the rank. -/
def Lowers (step : State → Label → State → Prop) : Prop :=
  ∀ s l s', Inv s → step s l s' → Inv s' ∧ rank s' < rank s

/-- A run uses up the rank of its first state. -/
theorem length_add_rank_le (h : Run step init trace s) (hinit : Inv init)
    (hlowers : Lowers Inv rank step) : Inv s ∧ trace.length + rank s ≤ rank init := by
  induction h with
  | nil => exact ⟨hinit, by simp⟩
  | cons _ hlast ih =>
    obtain ⟨hinv, hle⟩ := ih
    obtain ⟨hinv', hlt⟩ := hlowers _ _ _ hinv hlast
    refine ⟨hinv', ?_⟩
    rw [length_cons]
    omega

/-- From a state there is a run to one in which no step is possible. -/
theorem exists_final (hlowers : Lowers Inv rank step) :
    ∀ s, Inv s → ∃ trace s', Run step s trace s' ∧ ∀ l s'', ¬step s' l s'' := by
  intro s
  induction hn : rank s using Nat.strongRecOn generalizing s with
  | ind n ih =>
    intro hinv
    by_cases hfinal : ∀ l s'', ¬step s l s''
    · exact ⟨[], s, .nil, hfinal⟩
    · push Not at hfinal
      obtain ⟨l, s', hstep⟩ := hfinal
      obtain ⟨hinv', hlt⟩ := hlowers s l s' hinv hstep
      obtain ⟨trace, s'', hrun, hlast⟩ := ih _ (hn ▸ hlt) s' rfl hinv'
      exact ⟨_, s'', Run.trans (.cons .nil hstep) hrun, hlast⟩

end Run

end MachVirtuTerm
