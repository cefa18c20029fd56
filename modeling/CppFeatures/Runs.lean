/-
Runs of a labelled transition system.

`step : σ → α → Option σ` performs one labelled step (`none` when the label is
not enabled), and `ReachIf init step ok s` says that `s` is reached from an
initial state by finitely many steps, each of them allowed by `ok`.  `Reach` is
the unrestricted case.  The module provides

* `ReachIf.invariant` — the invariant rule: what holds initially and survives
  every allowed step holds in every reached state;
* `ReachIf.invariant_with` — the same, with earlier invariants at hand;
* `guarded` — a step function given by a guard and an effect;
* `exec` and `execIf` — a finite list of labels, run from one state; `reach_exec`
  and `reachIf_exec` turn a computed run into reachability, `exec_invariant` and
  `exec_total` say what it keeps and when it comes to its end;
* `exec_simulates` — a simulation of steps is one of runs;
* `Along` and `StepsOk` — what holds in every state of a run, and of every step of it;
  `along_iff_stepsOk` ties the two;
* `recorded` — a machine with a record of its run, and `reachIf_recorded`.
-/
import Mathlib.Tactic.Common

variable {σ α : Type*}

/-- States reached from `init` by steps that `ok` allows. -/
inductive ReachIf (init : σ → Prop) (step : σ → α → Option σ) (ok : σ → α → Prop) : σ → Prop
  | start {s : σ} : init s → ReachIf init step ok s
  | next {s s' : σ} {a : α} : ReachIf init step ok s → ok s a → step s a = some s' →
      ReachIf init step ok s'

/-- States reached from `init` by any steps. -/
abbrev Reach (init : σ → Prop) (step : σ → α → Option σ) : σ → Prop :=
  ReachIf init step fun _ _ => True

variable {init : σ → Prop} {step : σ → α → Option σ} {ok : σ → α → Prop}

/-- **The invariant rule**, for an invariant that leans on an established one. -/
theorem ReachIf.invariant_with (base : σ → Prop) {inv : σ → Prop}
    (hbase : ∀ s, ReachIf init step ok s → base s) (h0 : ∀ s, init s → inv s)
    (hstep : ∀ s s' a, base s → inv s → ok s a → step s a = some s' → inv s') :
    ∀ s, ReachIf init step ok s → inv s := by
  intro s hs
  induction hs with
  | start h => exact h0 _ h
  | next hr hok hst ih => exact hstep _ _ _ (hbase _ hr) ih hok hst

/-- **The invariant rule.** -/
theorem ReachIf.invariant {inv : σ → Prop} (h0 : ∀ s, init s → inv s)
    (hstep : ∀ s s' a, inv s → ok s a → step s a = some s' → inv s') :
    ∀ s, ReachIf init step ok s → inv s :=
  ReachIf.invariant_with (fun _ => True) (fun _ _ => trivial) h0
    fun s s' a _ => hstep s s' a

theorem ReachIf.mono {ok' : σ → α → Prop} (h : ∀ s a, ok s a → ok' s a) {s : σ}
    (hs : ReachIf init step ok s) : ReachIf init step ok' s := by
  induction hs with
  | start h0 => exact .start h0
  | next _ hok hst ih => exact .next ih (h _ _ hok) hst

theorem ReachIf.trans {s s' : σ} (hs : ReachIf init step ok s)
    (hs' : ReachIf (· = s) step ok s') : ReachIf init step ok s' := by
  induction hs' with
  | start h => exact h ▸ hs
  | next _ hok hst ih => exact .next ih hok hst

/-- A step function given by a guard and an effect. -/
def guarded (enabled : σ → α → Bool) (next : σ → α → σ) (s : σ) (a : α) : Option σ :=
  if enabled s a then some (next s a) else none

theorem guarded_eq_some {enabled : σ → α → Bool} {next : σ → α → σ} {s s' : σ} {a : α} :
    guarded enabled next s a = some s' ↔ enabled s a = true ∧ next s a = s' := by
  rw [guarded]
  split_ifs with h
  · simp [h]
  · simp [h]

/-- The invariant rule for guards and effects. -/
theorem ReachIf.invariant_guarded {enabled : σ → α → Bool} {next : σ → α → σ} {inv : σ → Prop}
    (h0 : ∀ s, init s → inv s)
    (hnext : ∀ s a, inv s → ok s a → enabled s a = true → inv (next s a)) :
    ∀ s, ReachIf init (guarded enabled next) ok s → inv s :=
  ReachIf.invariant h0 fun s s' a hinv hok hst => by
    obtain ⟨hen, rfl⟩ := guarded_eq_some.mp hst
    exact hnext s a hinv hok hen

/-- Run a list of labels in order; `none` as soon as one is not enabled. -/
def exec (step : σ → α → Option σ) : σ → List α → Option σ
  | s, [] => some s
  | s, a :: as => (step s a).bind fun s' => exec step s' as

/-- What `exec` computes from a reached state is reached. -/
theorem reach_exec {s s' : σ} (as : List α) (hs : Reach init step s)
    (h : exec step s as = some s') : Reach init step s' := by
  induction as generalizing s with
  | nil =>
    rw [exec, Option.some_inj] at h
    exact h ▸ hs
  | cons a as ih =>
    obtain ⟨s₁, h₁, h₂⟩ := Option.bind_eq_some_iff.mp h
    exact ih (.next hs trivial h₁) h₂

/-- What every step keeps, a list of steps keeps. -/
theorem exec_invariant {P : σ → Prop} (hstep : ∀ s s' a, P s → step s a = some s' → P s')
    {s s' : σ} (as : List α) (hs : P s) (h : exec step s as = some s') : P s' := by
  have hreach : Reach P step s' := reach_exec as (.start hs) h
  exact ReachIf.invariant (fun _ h => h) (fun s s' a hP _ => hstep s s' a hP) s' hreach

/-- A list of steps is run to its end where each of them can be made and the next still can. -/
theorem exec_total {P : σ → Prop} {as : List α}
    (hstep : ∀ s, P s → ∀ a ∈ as, ∃ s', step s a = some s' ∧ P s') {s : σ} (hs : P s) :
    ∃ s', exec step s as = some s' ∧ P s' := by
  induction as generalizing s with
  | nil => exact ⟨s, rfl, hs⟩
  | cons a as ih =>
    obtain ⟨s₁, hst, h₁⟩ := hstep s hs a List.mem_cons_self
    obtain ⟨s', hrest, h'⟩ := ih (fun s hs a ha => hstep s hs a (List.mem_cons_of_mem _ ha)) h₁
    exact ⟨s', by rw [exec, hst]; exact hrest, h'⟩

/-- **The simulation rule**: if every step is matched by one with the same label, so is
every run. -/
theorem exec_simulates {ρ : Type*} {step' : ρ → α → Option ρ} {R : σ → ρ → Prop}
    (hstep : ∀ s r a s', R s r → step s a = some s' → ∃ r', step' r a = some r' ∧ R s' r')
    {s s' : σ} {r : ρ} (as : List α) (hR : R s r) (h : exec step s as = some s') :
    ∃ r', exec step' r as = some r' ∧ R s' r' := by
  induction as generalizing s r with
  | nil =>
    rw [exec, Option.some_inj] at h
    exact ⟨r, rfl, h ▸ hR⟩
  | cons a as ih =>
    obtain ⟨s₁, h₁, h₂⟩ := Option.bind_eq_some_iff.mp h
    obtain ⟨r₁, hr₁, hR₁⟩ := hstep _ _ _ _ hR h₁
    obtain ⟨r', hr', hR'⟩ := ih hR₁ h₂
    exact ⟨r', by rw [exec, hr₁]; exact hr', hR'⟩

/-- `exec`, stopping also at a label that `ok` does not allow. -/
def execIf (step : σ → α → Option σ) (ok : σ → α → Prop) [∀ s a, Decidable (ok s a)] :
    σ → List α → Option σ
  | s, [] => some s
  | s, a :: as => if ok s a then (step s a).bind fun s' => execIf step ok s' as else none

theorem reachIf_exec [∀ s a, Decidable (ok s a)] {s s' : σ} (as : List α)
    (hs : ReachIf init step ok s) (h : execIf step ok s as = some s') :
    ReachIf init step ok s' := by
  induction as generalizing s with
  | nil =>
    rw [execIf, Option.some_inj] at h
    exact h ▸ hs
  | cons a as ih =>
    rw [execIf] at h
    split_ifs at h with hok
    obtain ⟨s₁, h₁, h₂⟩ := Option.bind_eq_some_iff.mp h
    exact ih (.next hs hok h₁) h₂

/-! ### Every state of a run -/

/-- `P` holds in every state that the run through the labels visits. -/
def Along (step : σ → α → Option σ) (P : σ → Prop) : σ → List α → Prop
  | s, [] => P s
  | s, a :: as => P s ∧ ∀ s', step s a = some s' → Along step P s' as

/-- Every step of the run is `ok` in the state in which it is made. -/
def StepsOk (step : σ → α → Option σ) (ok : σ → α → Prop) : σ → List α → Prop
  | _, [] => True
  | s, a :: as => ∀ s', step s a = some s' → ok s a ∧ StepsOk step ok s' as

theorem StepsOk.cons {s s' : σ} {a : α} {as : List α} (hst : step s a = some s') (hok : ok s a)
    (h : StepsOk step ok s' as) : StepsOk step ok s (a :: as) := by
  intro s'' hst'
  obtain rfl := Option.some_inj.mp (hst.symm.trans hst')
  exact ⟨hok, h⟩

theorem StepsOk.append {s s' : σ} {as bs : List α} (hrun : exec step s as = some s')
    (h : StepsOk step ok s as) (h' : StepsOk step ok s' bs) : StepsOk step ok s (as ++ bs) := by
  induction as generalizing s with
  | nil =>
    rw [exec, Option.some_inj] at hrun
    exact hrun ▸ h'
  | cons a as ih =>
    obtain ⟨s₁, h₁, h₂⟩ := Option.bind_eq_some_iff.mp hrun
    obtain ⟨hok, hrest⟩ := h s₁ h₁
    exact .cons h₁ hok (ih h₂ hrest)

theorem stepsOk_of_forall {as : List α} (h : ∀ a ∈ as, ∀ s, ok s a) (s : σ) :
    StepsOk step ok s as := by
  induction as generalizing s with
  | nil => trivial
  | cons a as ih =>
    obtain ⟨ha, hrest⟩ := List.forall_mem_cons.mp h
    exact fun s' _ => ⟨ha s, ih hrest s'⟩

theorem Along.start {P : σ → Prop} {s : σ} {as : List α} (h : Along step P s as) : P s := by
  cases as with
  | nil => exact h
  | cons => exact h.1

/-- **The rule of the first bad step**: where a step keeps `P` exactly if it is `ok`, `P`
holds throughout a run exactly if all its steps are. -/
theorem along_iff_stepsOk (base : σ → Prop) {P : σ → Prop}
    (hbase : ∀ s s' a, base s → step s a = some s' → base s')
    (hiff : ∀ s s' a, base s → P s → step s a = some s' → (P s' ↔ ok s a)) {s : σ} (hs : base s)
    (hP : P s) (as : List α) : Along step P s as ↔ StepsOk step ok s as := by
  induction as generalizing s with
  | nil => exact iff_of_true hP trivial
  | cons a as ih =>
    constructor
    · rintro ⟨-, h⟩ s' hst
      have hP' := (h s' hst).start
      exact ⟨(hiff s s' a hs hP hst).mp hP', (ih (hbase s s' a hs hst) hP').mp (h s' hst)⟩
    · intro h
      refine ⟨hP, fun s' hst => ?_⟩
      obtain ⟨hok, hrest⟩ := h s' hst
      exact (ih (hbase s s' a hs hst) ((hiff s s' a hs hP hst).mpr hok)).mpr hrest

/-- Steps that are always enabled, and `ok` or not whatever the state. -/
theorem stepsOk_total {next : σ → α → σ} {good : α → Prop} (s : σ) (as : List α) :
    StepsOk (fun s a => some (next s a)) (fun _ => good) s as ↔ ∀ a ∈ as, good a := by
  induction as generalizing s with
  | nil => exact iff_of_true trivial nofun
  | cons a as ih =>
    rw [List.forall_mem_cons, ← ih (next s a)]
    constructor
    · intro h
      exact h _ rfl
    · rintro h s' hst
      cases hst
      exact h

/-! ### A record of the run -/

section Recorded

variable {ρ : Type*} {note : σ → ρ → α → ρ}

/-- A machine that keeps a record of its run, which it does not read. -/
def recorded (step : σ → α → Option σ) (note : σ → ρ → α → ρ) (s : σ × ρ) (a : α) :
    Option (σ × ρ) :=
  (step s.1 a).map fun s' => (s', note s.1 s.2 a)

theorem recorded_eq_some {s s' : σ × ρ} {a : α} :
    recorded step note s a = some s' ↔ step s.1 a = some s'.1 ∧ s'.2 = note s.1 s.2 a := by
  rw [recorded, Option.map_eq_some_iff]
  constructor
  · rintro ⟨s₁, hst, rfl⟩
    exact ⟨hst, rfl⟩
  · rintro ⟨hst, hr⟩
    exact ⟨s'.1, hst, by rw [← hr]⟩

/-- Every run has a record, and a record is of a run. -/
theorem reachIf_recorded (r₀ : ρ) {s : σ} : ReachIf init step ok s ↔
    ∃ r, ReachIf (fun p => init p.1 ∧ p.2 = r₀) (recorded step note) (fun p => ok p.1) (s, r) := by
  constructor
  · intro hs
    induction hs with
    | start h => exact ⟨r₀, .start ⟨h, rfl⟩⟩
    | @next s s' a _ hok hst ih =>
      obtain ⟨r, hr⟩ := ih
      exact ⟨note s r a, hr.next hok (recorded_eq_some.mpr ⟨hst, rfl⟩)⟩
  · rintro ⟨r, hr⟩
    have hfst : ∀ p, ReachIf (fun p => init p.1 ∧ p.2 = r₀) (recorded step note) (fun p => ok p.1) p →
        ReachIf init step ok p.1 := by
      refine ReachIf.invariant_with (fun _ => True) (fun _ _ => trivial) (fun p h => .start h.1) ?_
      intro p p' a _ hp hok hst
      exact hp.next hok (recorded_eq_some.mp hst).1
    exact hfst _ hr

end Recorded
