import PatternAutomata.Automaton
import Mathlib.Data.List.Basic
import Mathlib.Logic.Relation

/-!
# Computations that stay within their limits

A computation either ends in a value or meets a fault. Some faults only say that a limit fixed
beforehand was too small: the arena, the addressable memory or the number of handles. A computation
that `Ensures` a property meets no other fault, and its value has the property. The rules below
follow the structure of a computation, so that no later proof looks at faults or at the arena.
-/

namespace PatternAutomata

variable {α β : Type}

/-- Whether a fault only says that a limit was too small. -/
def Fault.IsLimit : Fault → Prop
  | .arenaExhausted _ | .bufferTooLarge | .handleTooLarge _ => True
  | .missingDestination _ | .outOfBounds | .tableFull | .endless | .marksLeft | .sumOverflow
  | .differenceOverflow => False

/-- A result is a value with a property, unless a limit was too small. -/
def WithinLimits (result : Except Fault α) (p : α → Prop) : Prop :=
  match result with
  | .ok value => p value
  | .error fault => fault.IsLimit

@[simp] lemma withinLimits_ok (value : α) (p : α → Prop) :
    WithinLimits (.ok value) p ↔ p value := Iff.rfl

@[simp] lemma withinLimits_pure (value : α) (p : α → Prop) :
    WithinLimits (pure value) p ↔ p value := Iff.rfl

@[simp] lemma withinLimits_error (fault : Fault) (p : α → Prop) :
    WithinLimits (.error fault) p ↔ fault.IsLimit := Iff.rfl

lemma WithinLimits.mono {result : Except Fault α} {p q : α → Prop}
    (h : WithinLimits result p) (hp : ∀ value, p value → q value) :
    WithinLimits result q := by
  cases result with
  | ok value => exact hp value h
  | error fault => exact h

@[simp] lemma withinLimits_bind (result : Except Fault α) (next : α → Except Fault β)
    (p : β → Prop) :
    WithinLimits (result >>= next) p ↔
      WithinLimits result fun value => WithinLimits (next value) p := by
  cases result <;> rfl

lemma exists_of_bind_eq_ok {result : Except Fault α} {next : α → Except Fault β} {value : β}
    (h : result >>= next = .ok value) : ∃ middle, result = .ok middle ∧ next middle = .ok value := by
  cases result with
  | ok middle => exact ⟨middle, rfl, h⟩
  | error fault => cases h

lemma exists_of_any {result : Except Fault α} {test : α → Bool}
    (h : result.toOption.any test = true) : ∃ value, result = .ok value ∧ test value = true := by
  cases result with
  | error fault => cases h
  | ok value => exact ⟨value, rfl, h⟩

lemma withinLimits_foldlM {step : α → β → Except Fault α} {p : α → Prop}
    (hstep : ∀ state input, p state → WithinLimits (step state input) p) (inputs : List β)
    {state : α} (h : p state) : WithinLimits (inputs.foldlM step state) p := by
  induction inputs generalizing state with
  | nil => exact h
  | cons input rest ih =>
    rw [List.foldlM_cons, withinLimits_bind]
    exact (hstep state input h).mono fun after ha => ih ha

lemma WithinLimits.of_eq_ok {result : Except Fault α} {p : α → Prop} {value : α}
    (h : WithinLimits result p) (heq : result = .ok value) : p value := by
  rw [heq] at h
  exact h

lemma WithinLimits.and_eq {result : Except Fault α} {p : α → Prop} (h : WithinLimits result p) :
    WithinLimits result fun value => result = .ok value ∧ p value := by
  cases result with
  | ok value => exact ⟨rfl, h⟩
  | error fault => exact h

lemma require_withinLimits (position : Nat) : WithinLimits (NodeId.require position) fun id =>
    id = ⟨position⟩ ∧ position < NodeId.limit := by
  unfold NodeId.require NodeId.ofNat?
  by_cases h : position ≤ NodeId.greatest.toNat
  · simp only [h, if_true, withinLimits_ok]
    exact ⟨trivial, Nat.lt_succ_of_le h⟩
  · simp only [h, if_false]
    trivial

/-- A computation at the expense of any arena yields a value with a property, unless a limit is too
small. -/
def Charged.Ensures (computation : Charged α) (p : α → Prop) : Prop :=
  ∀ arena, WithinLimits (computation.run arena) fun outcome => p outcome.1

namespace Charged

variable {computation : Charged α} {p q : α → Prop}

@[simp] lemma ensures_pure (value : α) : Charged.Ensures (pure value) p ↔ p value :=
  ⟨fun h => h ⟨0, 0, 0⟩, fun h _ => h⟩

lemma Ensures.mono (h : Charged.Ensures computation p) (hp : ∀ value, p value → q value) :
    Charged.Ensures computation q :=
  fun arena => (h arena).mono fun outcome => hp outcome.1

lemma Ensures.bind {next : α → Charged β} {q : β → Prop}
    (h : Charged.Ensures computation p) (hn : ∀ value, p value → Charged.Ensures (next value) q) :
    Charged.Ensures (computation >>= next) q := by
  intro arena
  rw [StateT.run_bind, withinLimits_bind]
  exact (h arena).mono fun outcome ho => hn outcome.1 ho outcome.2

@[simp] lemma ensures_lift (result : Except Fault α) :
    Charged.Ensures (liftM result) p ↔ WithinLimits result p := by
  constructor
  · intro h
    have h0 := h ⟨0, 0, 0⟩
    cases result <;> exact h0
  · intro h arena
    cases result <;> exact h

@[simp] lemma ensures_lift_bind (result : Except Fault α) (next : α → Charged β)
    {p : β → Prop} : Charged.Ensures (liftM result >>= next) p ↔
      WithinLimits result fun value => Charged.Ensures (next value) p := by
  constructor
  · intro h
    cases result with
    | ok value => exact h
    | error fault => exact h ⟨0, 0, 0⟩
  · intro h
    exact Ensures.bind ((ensures_lift result).mpr h) fun _ hv => hv

lemma ensures_throw {fault : Fault} (h : fault.IsLimit) :
    Charged.Ensures (throw fault : Charged α) p :=
  fun _ => h

end Charged

/-- A computation at the expense of any arena yields a value with a property, unless that arena is
exhausted. -/
def Charged.Pays (computation : Charged α) (p : α → Prop) : Prop :=
  ∀ arena, match computation.run arena with
    | .ok (value, after) => after.capacity = arena.capacity ∧ p value
    | .error fault => fault = .arenaExhausted arena.capacity

namespace Charged

variable {computation : Charged α} {p q : α → Prop}

lemma pays_pure {value : α} (h : p value) : Charged.Pays (pure value) p :=
  fun _ => ⟨rfl, h⟩

lemma Pays.mono (h : Charged.Pays computation p) (hp : ∀ value, p value → q value) :
    Charged.Pays computation q := by
  intro arena
  have ha := h arena
  cases hr : computation.run arena with
  | ok outcome =>
    rw [hr] at ha
    exact ⟨ha.1, hp _ ha.2⟩
  | error fault =>
    rw [hr] at ha
    exact ha

lemma Pays.bind {next : α → Charged β} {q : β → Prop} (h : Charged.Pays computation p)
    (hn : ∀ value, p value → Charged.Pays (next value) q) :
    Charged.Pays (computation >>= next) q := by
  intro arena
  have ha := h arena
  rw [StateT.run_bind]
  cases hr : computation.run arena with
  | error fault =>
    rw [hr] at ha
    exact ha
  | ok outcome =>
    rw [hr] at ha
    have hb := hn outcome.1 ha.2 outcome.2
    change match (next outcome.1).run outcome.2 with
      | .ok (value, after) => after.capacity = arena.capacity ∧ q value
      | .error fault => fault = .arenaExhausted arena.capacity
    rw [ha.1] at hb
    exact hb

lemma pays_lift {result : Except Fault α} {value : α} (heq : result = .ok value) (h : p value) :
    Charged.Pays (liftM result) p := by
  subst heq
  exact pays_pure h

/-- To run out of arena is to run into a limit. -/
lemma Pays.ensures (h : Charged.Pays computation p) : Charged.Ensures computation p := by
  intro arena
  have ha := h arena
  cases hr : computation.run arena with
  | ok outcome =>
    rw [hr] at ha
    exact ha.2
  | error fault =>
    rw [hr] at ha
    simp only [withinLimits_error, ha, Fault.IsLimit]

lemma eq_ok_of_liftM {result : Except Fault α} {arena : Arena} {outcome : α × Arena}
    (h : (liftM result : Charged α).run arena = .ok outcome) : result = .ok outcome.1 := by
  cases result with
  | ok value =>
    cases h
    rfl
  | error fault => cases h

lemma exists_of_bind_eq_ok {next : α → Charged β} {arena : Arena} {outcome : β × Arena}
    (h : (computation >>= next).run arena = .ok outcome) :
    ∃ middle, computation.run arena = .ok middle ∧ (next middle.1).run middle.2 = .ok outcome := by
  rw [StateT.run_bind] at h
  obtain ⟨middle, hfirst, hnext⟩ := PatternAutomata.exists_of_bind_eq_ok h
  exact ⟨middle, hfirst, hnext⟩

/-- A loop of steps that need no arena needs none. -/
lemma foldlM_liftM (step : α → β → Except Fault α) (inputs : List β) (state : α) :
    inputs.foldlM (m := Charged) (fun state input => liftM (step state input)) state =
      liftM (inputs.foldlM step state) := by
  induction inputs generalizing state with
  | nil => rfl
  | cons input rest ih =>
    simp only [List.foldlM_cons, ih]
    cases step state input <;> rfl

end Charged

/-! ## Edits -/

namespace Editing

lemma run_charged_bind (computation : Charged β) (next : β → Editing α) (automaton : Automaton) :
    ((liftM computation : Editing β) >>= next).run automaton =
      computation >>= fun value => (next value).run automaton := by
  simp [StateT.run_bind]

lemma run_except_bind (result : Except Fault β) (next : β → Editing α) (automaton : Automaton) :
    ((liftM result : Editing β) >>= next).run automaton =
      (liftM result : Charged β) >>= fun value => (next value).run automaton :=
  run_charged_bind (liftM result) next automaton

lemma run_ok_bind {result : Except Fault β} {value : β} (h : result = .ok value)
    (next : β → Editing α) (automaton : Automaton) :
    ((liftM result : Editing β) >>= next).run automaton = (next value).run automaton := by
  rw [run_except_bind, h]
  rfl

lemma run_get_bind (next : Automaton → Editing α) (automaton : Automaton) :
    ((get : Editing Automaton) >>= next).run automaton = (next automaton).run automaton := rfl

lemma run_modify_bind (f : Automaton → Automaton) (next : PUnit → Editing α)
    (automaton : Automaton) :
    ((modify f : Editing PUnit) >>= next).run automaton = (next ⟨⟩).run (f automaton) := rfl

end Editing

/-- An edit of a given automaton yields a value and an automaton with a property, unless a limit is
too small. -/
def Editing.Ensures (editing : Editing α) (automaton : Automaton)
    (p : α → Automaton → Prop) : Prop :=
  Charged.Ensures (editing.run automaton) fun outcome => p outcome.1 outcome.2

namespace Editing

variable {editing : Editing α} {automaton : Automaton} {p q : α → Automaton → Prop}

@[simp] lemma ensures_pure (value : α) :
    Editing.Ensures (pure value) automaton p ↔ p value automaton := by
  simp [Editing.Ensures]

lemma Ensures.mono (h : Editing.Ensures editing automaton p)
    (hp : ∀ value after, p value after → q value after) :
    Editing.Ensures editing automaton q :=
  Charged.Ensures.mono h fun outcome => hp outcome.1 outcome.2

lemma Ensures.bind {next : α → Editing β} {q : β → Automaton → Prop}
    (h : Editing.Ensures editing automaton p)
    (hn : ∀ value after, p value after → Editing.Ensures (next value) after q) :
    Editing.Ensures (editing >>= next) automaton q := by
  unfold Editing.Ensures
  rw [StateT.run_bind]
  exact Charged.Ensures.bind h fun outcome ho => hn outcome.1 outcome.2 ho

@[simp] lemma ensures_get_bind (next : Automaton → Editing α) :
    Editing.Ensures (get >>= next) automaton p ↔
      Editing.Ensures (next automaton) automaton p := by
  simp [Editing.Ensures]

@[simp] lemma ensures_set (after : Automaton) {p : PUnit → Automaton → Prop} :
    Editing.Ensures (set after) automaton p ↔ p ⟨⟩ after := by
  simp [Editing.Ensures]

@[simp] lemma ensures_set_bind (after : Automaton) (next : PUnit → Editing α) :
    Editing.Ensures (set after >>= next) automaton p ↔ Editing.Ensures (next ⟨⟩) after p := by
  simp [Editing.Ensures]

@[simp] lemma ensures_modify_bind (f : Automaton → Automaton) (next : PUnit → Editing α) :
    Editing.Ensures (modify f >>= next) automaton p ↔
      Editing.Ensures (next ⟨⟩) (f automaton) p := by
  simp [Editing.Ensures]

@[simp] lemma ensures_charged (computation : Charged α) :
    Editing.Ensures (liftM computation) automaton p ↔
      Charged.Ensures computation fun value => p value automaton := by
  constructor
  · intro h arena
    have ha := h arena
    cases hc : computation.run arena with
    | ok outcome =>
      simp [hc] at ha
      exact ha
    | error fault =>
      simp [hc] at ha
      exact ha
  · intro h
    change Charged.Ensures (computation >>= fun value => pure (value, automaton)) _
    exact Charged.Ensures.bind h fun value hv => by simpa using hv

@[simp] lemma ensures_except (result : Except Fault α) :
    Editing.Ensures (liftM result) automaton p ↔
      WithinLimits result fun value => p value automaton := by
  rw [← Charged.ensures_lift]
  exact ensures_charged (liftM result : Charged α)

@[simp] lemma ensures_except_bind (result : Except Fault α) (next : α → Editing β)
    {p : β → Automaton → Prop} :
    Editing.Ensures (liftM result >>= next) automaton p ↔
      WithinLimits result fun value => Editing.Ensures (next value) automaton p := by
  constructor
  · intro h
    cases result with
    | ok value => exact h
    | error fault => exact h ⟨0, 0, 0⟩
  · intro h
    exact Ensures.bind ((ensures_except result).mpr h) fun value after hv => hv

end Editing

/-- An edit of a given automaton at the expense of any arena yields a value and an automaton with a
property, unless that arena is exhausted. -/
def Editing.Pays (editing : Editing α) (automaton : Automaton) (p : α → Automaton → Prop) : Prop :=
  Charged.Pays (editing.run automaton) fun outcome => p outcome.1 outcome.2

namespace Editing

variable {editing : Editing α} {automaton : Automaton} {p q : α → Automaton → Prop}

lemma pays_pure {value : α} (h : p value automaton) : Editing.Pays (pure value) automaton p :=
  Charged.pays_pure h

lemma pays_set {after : Automaton} {p : PUnit → Automaton → Prop} (h : p ⟨⟩ after) :
    Editing.Pays (set after) automaton p :=
  Charged.pays_pure h

lemma Pays.mono (h : Editing.Pays editing automaton p)
    (hp : ∀ value after, p value after → q value after) : Editing.Pays editing automaton q :=
  Charged.Pays.mono h fun outcome => hp outcome.1 outcome.2

lemma Pays.bind {next : α → Editing β} {q : β → Automaton → Prop}
    (h : Editing.Pays editing automaton p)
    (hn : ∀ value after, p value after → Editing.Pays (next value) after q) :
    Editing.Pays (editing >>= next) automaton q := by
  unfold Editing.Pays
  rw [StateT.run_bind]
  exact Charged.Pays.bind h fun outcome ho => hn outcome.1 outcome.2 ho

lemma pays_get_bind {next : Automaton → Editing α} (h : Editing.Pays (next automaton) automaton p) :
    Editing.Pays (get >>= next) automaton p := h

lemma pays_charged_bind {computation : Charged β} {next : β → Editing α} {r : β → Prop}
    (h : Charged.Pays computation r)
    (hn : ∀ value, r value → Editing.Pays (next value) automaton p) :
    Editing.Pays (liftM computation >>= next) automaton p := by
  unfold Editing.Pays
  rw [run_charged_bind]
  exact h.bind hn

/-- To run out of arena is to run into a limit. -/
lemma Pays.ensures (h : Editing.Pays editing automaton p) : Editing.Ensures editing automaton p :=
  Charged.Pays.ensures h

end Editing

end PatternAutomata
