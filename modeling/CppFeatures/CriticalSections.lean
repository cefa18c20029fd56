/-
Critical sections under a spin lock, with an unlocked look before them.

A *body* reads and writes the protected state one access at a time.  Any number of
threads call operations on it: a call may look at the state without the lock and
return at once; otherwise it spins on the flag, runs its body and clears the flag.

In every body one access is marked as its commit, and the history of a run lists the
operations in the order of their commits (and of the looks that returned).

* `Body.run` — a body without interruption;
* `Body.Commits`, `Body.Steady` — no access but the commit changes what a look sees;
* `Guarded.System.reach_inv` — in every interleaving the history is a legal run of
  uninterrupted bodies, gives every thread the answers it got, and leads to the
  protected state;
* `Guarded.System.hist_step` — the history only grows, at its end.
-/
import CppFeatures.Runs
import Mathlib.Data.List.Infix
import Mathlib.Logic.Function.Basic

variable {θ ι σ ρ β : Type*}

/-- Accesses to a protected state: a write, and what follows it, which depends on the
state that was read. -/
inductive Body (σ ρ : Type*)
  | ret (r : ρ)
  | act (commit : Bool) (write : σ → σ) (next : σ → Body σ ρ)

namespace Body

/-- The body without interruption. -/
def run : Body σ ρ → σ → σ × ρ
  | .ret r, s => (s, r)
  | .act _ write next, s => (next s).run (write s)

/-- No access to come changes the observation, and none is the commit. -/
def Steady (obs : σ → β) : Body σ ρ → Prop
  | .ret _ => True
  | .act commit write next =>
    commit = false ∧ ∀ s, obs (write s) = obs s ∧ (next s).Steady obs

/-- One access to come is the commit, and no other changes the observation. -/
def Commits (obs : σ → β) : Body σ ρ → Prop
  | .ret _ => False
  | .act true _ next => ∀ s, (next s).Steady obs
  | .act false write next => ∀ s, obs (write s) = obs s ∧ (next s).Commits obs

theorem Steady.obs_run {obs : σ → β} {b : Body σ ρ} (h : b.Steady obs) (s : σ) :
    obs (b.run s).1 = obs s := by
  induction b generalizing s with
  | ret r => rfl
  | act commit write next ih =>
    obtain ⟨-, h⟩ := h
    exact (ih s (h s).2 (write s)).trans (h s).1

end Body

/-- Operations on a protected state.  `look` is the unlocked test: it sees only what
`obs` observes, and when it answers, the body would answer the same and change
nothing. -/
structure Guarded (ι σ ρ β : Type*) where
  obs : σ → β
  look : ι → β → Option ρ
  body : ι → Body σ ρ
  commits : ∀ op, (body op).Commits obs
  run_of_look : ∀ op s r, look op (obs s) = some r → (body op).run s = (s, r)

namespace Guarded

variable (G : Guarded ι σ ρ β)

/-! ### Sequential histories -/

/-- The state after a history of uninterrupted bodies. -/
def after (s : σ) (h : List (θ × ι × ρ)) : σ := h.foldl (fun s e => ((G.body e.2.1).run s).1) s

/-- Every operation of the history returns what it says. -/
def Legal : σ → List (θ × ι × ρ) → Prop
  | _, [] => True
  | s, e :: h => ((G.body e.2.1).run s).2 = e.2.2 ∧ Legal ((G.body e.2.1).run s).1 h

theorem after_append (s : σ) (h : List (θ × ι × ρ)) (e : θ × ι × ρ) :
    G.after s (h ++ [e]) = ((G.body e.2.1).run (G.after s h)).1 := by
  rw [after, List.foldl_append]
  rfl

theorem legal_append {s : σ} {h : List (θ × ι × ρ)} {e : θ × ι × ρ} :
    G.Legal s (h ++ [e]) ↔ G.Legal s h ∧ ((G.body e.2.1).run (G.after s h)).2 = e.2.2 := by
  induction h generalizing s with
  | nil =>
    show _ ∧ True ↔ True ∧ _
    rw [and_comm]
    rfl
  | cons d h ih =>
    rw [List.cons_append, Legal, ih, Legal, and_assoc]
    rfl

/-! ### Threads -/

/-- Where a thread is in a call; `done` is the answer of an operation that has
committed. -/
inductive At (ι σ ρ : Type*)
  | idle
  | called (op : ι)
  | spinning (op : ι)
  | inside (op : ι) (rest : Body σ ρ) (done : Option ρ)

-- between the test-and-set that succeeded and the clear
def At.holds : At ι σ ρ → Bool
  | .inside _ _ _ => true
  | _ => false

/-- A committed operation that has not returned yet. -/
def At.committed : At ι σ ρ → List (ι × ρ)
  | .inside op _ (some r) => [(op, r)]
  | _ => []

/-- The flag, the state it protects, and the threads.  `hist` and `rets` record the run:
the operations in the order of their commits, and what has been returned to each
thread. -/
structure System (θ ι σ ρ : Type*) where
  lck : Bool
  state : σ
  pc : θ → At ι σ ρ
  hist : List (θ × ι × ρ)
  rets : θ → List (ι × ρ)

inductive Act (θ ι : Type*)
  | call (t : θ) (op : ι)
  | advance (t : θ)

variable [DecidableEq θ]

/-- What thread `t` did in a history. -/
def ofThread (t : θ) (h : List (θ × ι × ρ)) : List (ι × ρ) :=
  (h.filter fun e => decide (e.1 = t)).map Prod.snd

theorem ofThread_append_self (t : θ) (h : List (θ × ι × ρ)) (p : ι × ρ) :
    ofThread t (h ++ [(t, p)]) = ofThread t h ++ [p] := by
  simp [ofThread, List.filter_append]

theorem ofThread_append_of_ne {t u : θ} (hu : u ≠ t) (h : List (θ × ι × ρ)) (p : ι × ρ) :
    ofThread u (h ++ [(t, p)]) = ofThread u h := by
  simp [ofThread, List.filter_append, hu.symm]

namespace System

def moveTo (s : System θ ι σ ρ) (t : θ) (x : At ι σ ρ) : System θ ι σ ρ :=
  { s with pc := Function.update s.pc t x }

def addRet (s : System θ ι σ ρ) (t : θ) (op : ι) (r : ρ) : System θ ι σ ρ :=
  { s with rets := Function.update s.rets t (s.rets t ++ [(op, r)]) }

/-- The state after an access, and the record a commit leaves. -/
def accessed (s : System θ ι σ ρ) (t : θ) (op : ι) (commit : Bool) (write : σ → σ)
    (next : σ → Body σ ρ) (done : Option ρ) : System θ ι σ ρ :=
  let r := ((next s.state).run (write s.state)).2
  { s.moveTo t (.inside op (next s.state) (if commit then some r else done)) with
    state := write s.state
    hist := if commit then s.hist ++ [(t, op, r)] else s.hist }

/-- The next access of a thread. -/
def advance (G : Guarded ι σ ρ β) (s : System θ ι σ ρ) (t : θ) : Option (System θ ι σ ρ) :=
  match s.pc t with
  | .idle => none
  | .called op => match G.look op (G.obs s.state) with
    | some r => some { (s.moveTo t .idle).addRet t op r with hist := s.hist ++ [(t, op, r)] }
    | none => some (s.moveTo t (.spinning op))
  | .spinning op =>
    -- the flag is set, whatever it was
    if s.lck then some s
    else some { s.moveTo t (.inside op (G.body op) none) with lck := true }
  | .inside op (.act commit write next) done =>
    some (s.accessed t op commit write next done)
  | .inside op (.ret r) _ => some { (s.moveTo t .idle).addRet t op r with lck := false }

def step (G : Guarded ι σ ρ β) (s : System θ ι σ ρ) : Act θ ι → Option (System θ ι σ ρ)
  | .call t op => match s.pc t with
    | .idle => some (s.moveTo t (.called op))
    | _ => none
  | .advance t => s.advance G t

/-- Nobody has called yet. -/
def Init (s₀ : σ) (s : System θ ι σ ρ) : Prop := s = ⟨false, s₀, fun _ => .idle, [], fun _ => []⟩

/-! ### The invariant -/

structure Inv (G : Guarded ι σ ρ β) (s₀ : σ) (s : System θ ι σ ρ) : Prop where
  legal : G.Legal s₀ s.hist
  free : s.lck = false → s.state = G.after s₀ s.hist ∧ ∀ t, (s.pc t).holds = false
  alone : ∀ t u, (s.pc t).holds = true → (s.pc u).holds = true → t = u
  pending : ∀ t op b, s.pc t = .inside op b none →
    b.run s.state = (G.body op).run (G.after s₀ s.hist) ∧ b.Commits G.obs
  done : ∀ t op b r, s.pc t = .inside op b (some r) →
    b.run s.state = (G.after s₀ s.hist, r) ∧ b.Steady G.obs
  obs : G.obs s.state = G.obs (G.after s₀ s.hist)
  rets : ∀ t, ofThread t s.hist = s.rets t ++ (s.pc t).committed

variable {G} {s₀ : σ} {s s' : System θ ι σ ρ} {t : θ} {op : ι}

theorem inv_init (h : Init s₀ s) : Inv G s₀ s := by
  subst h
  exact ⟨trivial, fun _ => ⟨rfl, fun _ => rfl⟩, by simp [At.holds], by simp, by simp, rfl, fun _ => rfl⟩

/-- Where the other threads are does not change. -/
theorem pc_moveTo (s : System θ ι σ ρ) (t u : θ) (x : At ι σ ρ) :
    (s.moveTo t x).pc u = if u = t then x else s.pc u :=
  Function.update_apply ..

/-- **A thread outside moves** to another place outside. -/
theorem Inv.outside (h : Inv G s₀ s) {x : At ι σ ρ} (ht : (s.pc t).holds = false)
    (hx : x.holds = false) : Inv G s₀ (s.moveTo t x) := by
  have hnot : ∀ {y : At ι σ ρ}, y.holds = false → ∀ op b d, y ≠ .inside op b d := by
    rintro y hy op b d rfl
    exact Bool.noConfusion hy
  have hcommitted : ∀ {y : At ι σ ρ}, y.holds = false → y.committed = [] := by
    intro y hy
    cases y with
    | inside => exact Bool.noConfusion hy
    | _ => rfl
  refine ⟨h.legal, fun hl => ⟨(h.free hl).1, fun u => ?_⟩, fun u v hu hv => ?_, fun u op b hu => ?_,
    fun u op b r hu => ?_, h.obs, fun u => ?_⟩
  · rw [pc_moveTo]
    split_ifs
    · exact hx
    · exact (h.free hl).2 u
  · rw [pc_moveTo] at hu hv
    split_ifs at hu hv with hut hvt
    · exact hut.trans hvt.symm
    · rw [hx] at hu
      exact Bool.noConfusion hu
    · rw [hx] at hv
      exact Bool.noConfusion hv
    · exact h.alone u v hu hv
  · rw [pc_moveTo] at hu
    split_ifs at hu with hut
    · exact absurd hu (hnot hx op b none)
    · exact h.pending u op b hu
  · rw [pc_moveTo] at hu
    split_ifs at hu with hut
    · exact absurd hu (hnot hx op b (some r))
    · exact h.done u op b r hu
  · rw [pc_moveTo]
    split_ifs with hut
    · have hr := h.rets u
      rw [hut, hcommitted ht] at hr
      rw [hut, hcommitted hx]
      exact hr
    · exact h.rets u

/-- **An unlocked look answers**: the operation would answer the same now, whatever the
thread inside has done so far. -/
theorem Inv.answer (h : Inv G s₀ s) (ht : s.pc t = .called op) {r : ρ}
    (hlook : G.look op (G.obs s.state) = some r) :
    Inv G s₀ { (s.moveTo t .idle).addRet t op r with hist := s.hist ++ [(t, op, r)] } := by
  have hrun : (G.body op).run (G.after s₀ s.hist) = (G.after s₀ s.hist, r) :=
    G.run_of_look op _ r (h.obs ▸ hlook)
  have hafter : G.after s₀ (s.hist ++ [(t, op, r)]) = G.after s₀ s.hist := by
    rw [after_append, hrun]
  have hmove : Inv G s₀ (s.moveTo t .idle) := h.outside (by rw [ht]; rfl) rfl
  refine ⟨G.legal_append.mpr ⟨h.legal, by rw [hrun]⟩, ?_, hmove.alone, ?_, ?_, ?_, fun u => ?_⟩
  · rw [hafter]
    exact hmove.free
  · rw [hafter]
    exact hmove.pending
  · rw [hafter]
    exact hmove.done
  · rw [hafter]
    exact h.obs
  · have hr := h.rets u
    simp only [addRet, moveTo, Function.update_apply]
    split_ifs with hut
    · subst hut
      rw [ht] at hr
      rw [ofThread_append_self, hr]
      exact (congrArg (· ++ _) (List.append_nil _)).trans (List.append_nil _).symm
    · rw [ofThread_append_of_ne hut]
      exact hr

/-- A thread takes the lock. -/
theorem Inv.enter (h : Inv G s₀ s) (ht : s.pc t = .spinning op) (hl : s.lck = false) :
    Inv G s₀ { s.moveTo t (.inside op (G.body op) none) with lck := true } := by
  obtain ⟨hstate, hnone⟩ := h.free hl
  have hinside : ∀ {u}, ((s.moveTo t (.inside op (G.body op) none)).pc u).holds = true → u = t := by
    intro u hu
    rw [pc_moveTo] at hu
    split_ifs at hu with hut
    · exact hut
    · rw [hnone u] at hu
      exact Bool.noConfusion hu
  refine ⟨h.legal, by simp, fun u v hu hv => (hinside hu).trans (hinside hv).symm, fun u op' b hu => ?_,
    fun u op' b r hu => ?_, h.obs, fun u => ?_⟩
  · obtain rfl : u = t := hinside (by rw [hu]; rfl)
    simp only [pc_moveTo, if_true, At.inside.injEq] at hu
    obtain ⟨rfl, rfl, -⟩ := hu
    exact ⟨congrArg (G.body op).run hstate, G.commits op⟩
  · obtain rfl : u = t := hinside (by rw [hu]; rfl)
    simp [pc_moveTo] at hu
  · have hr := h.rets u
    simp only [pc_moveTo]
    split_ifs with hut
    · rw [hut, ht] at hr
      rw [hut]
      exact hr
    · exact hr

theorem Inv.locked (h : Inv G s₀ s) {b : Body σ ρ} {d : Option ρ} (ht : s.pc t = .inside op b d) :
    s.lck = true := by
  by_contra hl
  have := (h.free (Bool.eq_false_iff.mpr hl)).2 t
  rw [ht] at this
  exact Bool.noConfusion this

/-- **An access inside**, with the record it leaves. -/
theorem Inv.access (h : Inv G s₀ s) {b b' : Body σ ρ} {d d' : Option ρ}
    (ht : s.pc t = .inside op b d) {x : σ} {hist : List (θ × ι × ρ)} (hlegal : G.Legal s₀ hist)
    (hpending : d' = none → b'.run x = (G.body op).run (G.after s₀ hist) ∧ b'.Commits G.obs)
    (hdone : ∀ r, d' = some r → b'.run x = (G.after s₀ hist, r) ∧ b'.Steady G.obs)
    (hobs : G.obs x = G.obs (G.after s₀ hist))
    (hrets : ∀ u, ofThread u hist = s.rets u ++ ((s.moveTo t (.inside op b' d')).pc u).committed) :
    Inv G s₀ { s.moveTo t (.inside op b' d') with state := x, hist := hist } := by
  have hinside : ∀ {u}, ((s.moveTo t (.inside op b' d')).pc u).holds = true → u = t := by
    intro u hu
    rw [pc_moveTo] at hu
    split_ifs at hu with hut
    · exact hut
    · exact h.alone u t hu (by rw [ht]; rfl)
  have hlck : s.lck ≠ false := by simp [h.locked ht]
  refine ⟨hlegal, fun hl => absurd hl hlck, fun u v hu hv => (hinside hu).trans (hinside hv).symm,
    fun u op₁ b₁ hu => ?_, fun u op₁ b₁ r hu => ?_, hobs, hrets⟩
  · obtain rfl : u = t := hinside (by rw [hu]; rfl)
    simp only [pc_moveTo, if_true, At.inside.injEq] at hu
    obtain ⟨rfl, rfl, hd⟩ := hu
    exact hpending hd
  · obtain rfl : u = t := hinside (by rw [hu]; rfl)
    simp only [pc_moveTo, if_true, At.inside.injEq] at hu
    obtain ⟨rfl, rfl, hd⟩ := hu
    exact hdone r hd

/-- What the other threads were given back does not change. -/
theorem Inv.rets_inside (h : Inv G s₀ s) {b' : Body σ ρ} {d' : Option ρ} {hist : List (θ × ι × ρ)}
    (hself : ofThread t hist = s.rets t ++ (At.inside op b' d').committed)
    (hother : ∀ u, u ≠ t → ofThread u hist = ofThread u s.hist) (u : θ) :
    ofThread u hist = s.rets u ++ ((s.moveTo t (.inside op b' d')).pc u).committed := by
  rw [pc_moveTo]
  split_ifs with hut
  · rw [hut]
    exact hself
  · rw [hother u hut]
    exact h.rets u

theorem Inv.act (h : Inv G s₀ s) {commit : Bool} {write : σ → σ} {next : σ → Body σ ρ}
    {d : Option ρ} (ht : s.pc t = .inside op (.act commit write next) d) :
    Inv G s₀ (s.accessed t op commit write next d) := by
  have hrt := h.rets t
  rw [ht] at hrt
  cases d with
  | none =>
    obtain ⟨hrun, hcommits⟩ := h.pending t op _ ht
    have hrun' : (next s.state).run (write s.state) = (G.body op).run (G.after s₀ s.hist) := hrun
    cases commit with
    | true =>
      -- the operation takes its place in the history
      have hafter := G.after_append s₀ s.hist (t, op, ((G.body op).run (G.after s₀ s.hist)).2)
      simp only [accessed, hrun', if_true]
      refine h.access ht ?_ (by simp) ?_ ?_ (h.rets_inside ?_ fun u hu => ofThread_append_of_ne hu ..)
      · exact G.legal_append.mpr ⟨h.legal, rfl⟩
      · intro r hr
        cases hr
        exact ⟨by rw [hrun', hafter], hcommits s.state⟩
      · rw [hafter, ← hrun']
        exact ((hcommits s.state).obs_run _).symm
      · rw [ofThread_append_self, hrt]
        exact congrArg (· ++ _) (List.append_nil _)
    | false =>
      obtain ⟨hobs, hnext⟩ := hcommits s.state
      exact h.access ht h.legal (fun _ => ⟨hrun', hnext⟩) (by simp) (hobs.trans h.obs)
        (h.rets_inside hrt fun _ _ => rfl)
  | some r =>
    obtain ⟨hrun, hcommit, hsteady⟩ := h.done t op _ r ht
    obtain ⟨hobs, hnext⟩ := hsteady s.state
    subst hcommit
    refine h.access ht h.legal (by simp) (fun r' hr => ?_) (hobs.trans h.obs)
      (h.rets_inside hrt fun _ _ => rfl)
    rw [if_neg Bool.false_ne_true, Option.some_inj] at hr
    exact ⟨hr ▸ hrun, hnext⟩

/-- The body is done: the flag is cleared and the call returns. -/
theorem Inv.leave (h : Inv G s₀ s) {r : ρ} {d : Option ρ} (ht : s.pc t = .inside op (.ret r) d) :
    Inv G s₀ { (s.moveTo t .idle).addRet t op r with lck := false } := by
  have hrt := h.rets t
  rw [ht] at hrt
  -- a body that has come to its end has committed
  obtain ⟨r', rfl⟩ : ∃ r', d = some r' := by
    cases d with
    | none => exact (h.pending t op _ ht).2.elim
    | some r' => exact ⟨r', rfl⟩
  obtain ⟨hrun, -⟩ := h.done t op _ r' ht
  obtain ⟨hstate, rfl⟩ := Prod.mk.inj hrun
  have hother : ∀ u, u ≠ t → (s.pc u).holds = false := by
    intro u hu
    by_contra hh
    exact hu (h.alone u t (Bool.of_not_eq_false hh) (by rw [ht]; rfl))
  have hpc : ∀ u op' b d', (s.moveTo t .idle).pc u ≠ .inside op' b d' := by
    intro u op' b d' hu
    rw [pc_moveTo] at hu
    split_ifs at hu with hut
    have := hother u hut
    rw [hu] at this
    exact Bool.noConfusion this
  have hnone : ∀ u, ((s.moveTo t .idle).pc u).holds = false := by
    intro u
    rw [pc_moveTo]
    split_ifs with hut
    · rfl
    · exact hother u hut
  refine ⟨h.legal, fun _ => ⟨hstate, hnone⟩, fun u v hu _ => ?_, fun u op' b hu => ?_,
    fun u op' b r hu => ?_, h.obs, fun u => ?_⟩
  · have := hnone u
    rw [show ((s.moveTo t .idle).pc u).holds = true from hu] at this
    exact Bool.noConfusion this
  · exact absurd hu (hpc u op' b none)
  · exact absurd hu (hpc u op' b (some r))
  · have hr := h.rets u
    simp only [addRet, moveTo, Function.update_apply]
    split_ifs with hut
    · rw [hut, hrt]
      exact (List.append_nil _).symm
    · exact hr

/-- What one access of a thread can be. -/
inductive Step (G : Guarded ι σ ρ β) (s : System θ ι σ ρ) : System θ ι σ ρ → Prop
  | call (t : θ) (op : ι) (ht : s.pc t = .idle) : Step G s (s.moveTo t (.called op))
  | answer (t : θ) (op : ι) (r : ρ) (ht : s.pc t = .called op)
      (hlook : G.look op (G.obs s.state) = some r) :
    Step G s { (s.moveTo t .idle).addRet t op r with hist := s.hist ++ [(t, op, r)] }
  | wait (t : θ) (op : ι) (ht : s.pc t = .called op) : Step G s (s.moveTo t (.spinning op))
  | spin : Step G s s
  | enter (t : θ) (op : ι) (ht : s.pc t = .spinning op) (hl : s.lck = false) :
    Step G s { s.moveTo t (.inside op (G.body op) none) with lck := true }
  | act (t : θ) (op : ι) (commit : Bool) (write : σ → σ) (next : σ → Body σ ρ) (d : Option ρ)
      (ht : s.pc t = .inside op (.act commit write next) d) :
    Step G s (s.accessed t op commit write next d)
  | leave (t : θ) (op : ι) (r : ρ) (d : Option ρ) (ht : s.pc t = .inside op (.ret r) d) :
    Step G s { (s.moveTo t .idle).addRet t op r with lck := false }

theorem step_cases {a : Act θ ι} (hst : s.step G a = some s') : Step G s s' := by
  cases a with
  | call t op =>
    rw [step] at hst
    cases hpc : s.pc t with
    | idle =>
      rw [hpc, Option.some_inj] at hst
      exact hst ▸ .call _ _ hpc
    | _ => simp [hpc] at hst
  | advance t =>
    rw [step] at hst
    cases hpc : s.pc t with
    | idle => simp [advance, hpc] at hst
    | called op =>
      rw [advance, hpc] at hst
      cases hlook : G.look op (G.obs s.state) with
      | some r =>
        simp only [hlook, Option.some_inj] at hst
        exact hst ▸ .answer _ _ _ hpc hlook
      | none =>
        simp only [hlook, Option.some_inj] at hst
        exact hst ▸ .wait _ _ hpc
    | spinning op =>
      simp only [advance, hpc] at hst
      split_ifs at hst with hl
      · rw [Option.some_inj] at hst
        exact hst ▸ .spin
      · rw [Option.some_inj] at hst
        exact hst ▸ .enter _ _ hpc (Bool.eq_false_iff.mpr hl)
    | inside op b d =>
      cases b with
      | ret r =>
        rw [advance, hpc, Option.some_inj] at hst
        exact hst ▸ .leave _ _ _ _ hpc
      | act commit write next =>
        rw [advance, hpc, Option.some_inj] at hst
        exact hst ▸ .act _ _ _ _ _ _ hpc

/-- **One access** of any thread keeps the invariant. -/
theorem step_inv {a : Act θ ι} (h : Inv G s₀ s) (hst : s.step G a = some s') : Inv G s₀ s' := by
  cases step_cases hst with
  | call _ _ ht => exact h.outside (by rw [ht]; rfl) rfl
  | answer _ _ _ ht hlook => exact h.answer ht hlook
  | wait _ _ ht => exact h.outside (by rw [ht]; rfl) rfl
  | spin => exact h
  | enter _ _ ht hl => exact h.enter ht hl
  | act _ _ _ _ _ _ ht => exact h.act ht
  | leave _ _ _ _ ht => exact h.leave ht

/-- The history only grows, at its end. -/
theorem hist_step {a : Act θ ι} (hst : s.step G a = some s') : s.hist <+: s'.hist := by
  cases step_cases hst with
  | answer _ _ _ ht hlook => exact List.prefix_append ..
  | act _ _ _ _ _ _ ht =>
    rw [accessed]
    split_ifs
    · exact List.prefix_append ..
    · exact List.prefix_rfl
  | _ => exact List.prefix_rfl

theorem reach_inv : ∀ s : System θ ι σ ρ, Reach (Init s₀) (step G) s → Inv G s₀ s :=
  ReachIf.invariant (fun _ h => inv_init h) fun _ _ _ h _ hst => step_inv h hst

end System

end Guarded
