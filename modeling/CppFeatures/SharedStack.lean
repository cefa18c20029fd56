/-
The stacks of the tasks of one `Processer` (processer.cpp, task.cpp).

All tasks run on `shared_stack_`.  A task that yields copies the top of it into a block
of its own, which grows when it is too small, and the bytes are copied back before the
task is resumed; in between other tasks overwrite them.

* `Processer.saveStack`, `Processer.restoreStack` — the source's functions, and
  `Processer.step` for whole runs;
* `PrivateStacks` — the machine that this stands for: every task has a stack of its own,
  on which only the part above the stack pointer survives a yield;
* `Processer.view` — what a task's stack contains, wherever it is kept;
* `Processer.sharedStack_refines` — every run is a run with private stacks.
-/
import CppFeatures.Runs
import Mathlib.Logic.Function.Basic
import Mathlib.Data.List.Basic

namespace SharedStack

/-! ### The source -/

/-- The fields of a task that keep its stack. -/
structure Task where
  stack_ : List UInt8
  stackSize_ : ℕ
  stackCapacity_ : ℕ
  /-- What the top of the shared stack was when it was last copied. -/
  copied : List UInt8
deriving DecidableEq, Repr

structure Processer (τ : Type*) where
  sharedStackCap_ : ℕ
  sharedStack_ : List UInt8
  tasks : τ → Option Task
  currentTask : Option τ

/-- What happens on a processer, with what the environment decides. -/
inductive Act (τ : Type*)
  /-- `AddIntoProcesser`: `stack` is the shared stack after `makecontext`, and `block`
  what `malloc` returns. -/
  | add (tk : τ) (initStackSize : ℕ) (stack block : List UInt8)
  /-- `RestoreStack` and `swapcontext`, which may fail. -/
  | resume (tk : τ) (ok : Bool)
  | read (i : ℕ) (b : UInt8)
  | write (i : ℕ) (b : UInt8)
  /-- `CoYield` with a stack of `n` bytes: `SaveStack` and `swapcontext`. -/
  | yield (n : ℕ) (ok : Bool)
  | delete (tk : τ)

namespace Processer

variable {τ : Type*} [DecidableEq τ]

/-- The top `n` bytes of the shared stack. -/
def top (p : Processer τ) (n : ℕ) : List UInt8 := p.sharedStack_.drop (p.sharedStackCap_ - n)

-- the bytes that are added are overwritten in `saveStack`
def realloc (block : List UInt8) (n : ℕ) : List UInt8 :=
  block.take n ++ List.replicate (n - block.length) 0

def saveStack (p : Processer τ) (t : Task) (currentStackSize : ℕ) : Task :=
  let t := if t.stackCapacity_ < currentStackSize then
      { t with stack_ := realloc t.stack_ currentStackSize, stackCapacity_ := currentStackSize }
    else t
  { t with
    stackSize_ := currentStackSize
    stack_ := p.top currentStackSize ++ t.stack_.drop currentStackSize
    copied := p.top currentStackSize }

def restoreStack (p : Processer τ) (t : Task) : Processer τ :=
  { p with
    sharedStack_ := p.sharedStack_.take (p.sharedStackCap_ - t.stackSize_) ++ t.stack_.take t.stackSize_ }

/-- The first copy of the stack, in `AddIntoProcesser`. -/
def addIntoProcesser (p : Processer τ) (initStackSize : ℕ) (block : List UInt8) : Task where
  stackSize_ := 16
  stackCapacity_ := max 16 initStackSize
  stack_ := p.top 16 ++ block.drop 16
  copied := p.top 16

def step (p : Processer τ) : Act τ → Option (Processer τ)
  | .add tk initStackSize stack block =>
    if p.currentTask.isNone ∧ (p.tasks tk).isNone ∧ stack.length = p.sharedStackCap_ ∧
        16 ≤ p.sharedStackCap_ ∧ block.length = max 16 initStackSize then
      let p := { p with sharedStack_ := stack }
      some { p with tasks := Function.update p.tasks tk (some (p.addIntoProcesser initStackSize block)) }
    else none
  | .resume tk ok =>
    if p.currentTask.isNone then
      (p.tasks tk).map fun t => { p.restoreStack t with currentTask := if ok then some tk else none }
    else none
  | .read i b => if p.currentTask.isSome ∧ p.sharedStack_[i]? = some b then some p else none
  | .write i b =>
    if p.currentTask.isSome ∧ i < p.sharedStackCap_ then
      some { p with sharedStack_ := p.sharedStack_.set i b }
    else none
  | .yield n ok =>
    p.currentTask.bind fun tk => (p.tasks tk).bind fun t =>
      if n ≤ p.sharedStackCap_ then
        some { p with
          tasks := Function.update p.tasks tk (some (p.saveStack t n))
          currentTask := if ok then none else some tk }
      else none
  | .delete tk =>
    if p.currentTask ≠ some tk then some { p with tasks := Function.update p.tasks tk none } else none

/-- `Processer(stack_size)`. -/
def Init (p : Processer τ) : Prop :=
  p.sharedStack_.length = p.sharedStackCap_ ∧ p.tasks = (fun _ => none) ∧ p.currentTask = none

end Processer

/-! ### Private stacks -/

/-- Every task has its own stack; bytes that were never written have no value. -/
structure PrivateStacks (τ : Type*) where
  stackOf : τ → Option (ℕ → Option UInt8)
  currentTask : Option τ

namespace PrivateStacks

variable {τ : Type*} [DecidableEq τ]

/-- The bytes of the top `n` of a stack of `cap` bytes. -/
def keep (cap n : ℕ) (m : ℕ → Option UInt8) (i : ℕ) : Option UInt8 := if cap - n ≤ i then m i else none

def step (cap : ℕ) (q : PrivateStacks τ) : Act τ → Option (PrivateStacks τ)
  | .add tk _ stack _ =>
    if q.currentTask.isNone ∧ (q.stackOf tk).isNone then
      some { q with stackOf := Function.update q.stackOf tk (some (keep cap 16 fun i => stack[i]?)) }
    else none
  | .resume tk ok =>
    if q.currentTask.isNone ∧ (q.stackOf tk).isSome then
      some { q with currentTask := if ok then some tk else none }
    else none
  | .read i b =>
    -- a byte without a value gets the one that is read
    q.currentTask.bind fun tk => (q.stackOf tk).bind fun m =>
      if m i = some b ∨ m i = none then
        some { q with stackOf := Function.update q.stackOf tk (some (Function.update m i (some b))) }
      else none
  | .write i b =>
    q.currentTask.bind fun tk => (q.stackOf tk).map fun m =>
      { q with stackOf := Function.update q.stackOf tk (some (Function.update m i (some b))) }
  | .yield n ok =>
    q.currentTask.bind fun tk => (q.stackOf tk).map fun m =>
      if ok then { stackOf := Function.update q.stackOf tk (some (keep cap n m)), currentTask := none } else q
  | .delete tk =>
    if q.currentTask ≠ some tk then some { q with stackOf := Function.update q.stackOf tk none } else none

def init : PrivateStacks τ := ⟨fun _ => none, none⟩

end PrivateStacks

/-! ### Copies -/

/-- The block holds the last copy. -/
structure Task.Good (cap : ℕ) (t : Task) : Prop where
  length_stack : t.stack_.length = t.stackCapacity_
  size_le : t.stackSize_ ≤ t.stackCapacity_
  size_le_cap : t.stackSize_ ≤ cap
  copied : t.stack_.take t.stackSize_ = t.copied

/-- The byte at `i` of the copy, at its place in the shared stack. -/
def Task.byte (cap : ℕ) (t : Task) (i : ℕ) : Option UInt8 :=
  if cap - t.stackSize_ ≤ i then (t.stack_.take t.stackSize_)[i - (cap - t.stackSize_)]? else none

namespace Processer

variable {τ : Type*} {p p' : Processer τ} {t : Task} {n : ℕ}

theorem length_top (hp : p.sharedStack_.length = p.sharedStackCap_) (hn : n ≤ p.sharedStackCap_) :
    (p.top n).length = n := by
  rw [top, List.length_drop, hp]
  omega

theorem realloc_length (block : List UInt8) (h : block.length ≤ n) : (realloc block n).length = n := by
  rw [realloc, List.length_append, List.length_take, List.length_replicate]
  omega

/-- **The block is large enough** for every copy. -/
theorem saveStack_good (hp : p.sharedStack_.length = p.sharedStackCap_) (ht : t.Good p.sharedStackCap_)
    (hn : n ≤ p.sharedStackCap_) : (p.saveStack t n).Good p.sharedStackCap_ := by
  have htop := length_top hp hn
  have hcopied : ∀ l : List UInt8, (p.top n ++ l).take n = p.top n := fun l =>
    List.take_left' htop
  have hlen := ht.length_stack
  rw [saveStack]
  split_ifs with hcap
  · have hblock : (realloc t.stack_ n).length = n := realloc_length _ (by omega)
    refine ⟨?_, Nat.le_refl n, hn, hcopied _⟩
    simp only [List.length_append, List.length_drop, htop, hblock]
    omega
  · refine ⟨?_, Nat.not_lt.mp hcap, hn, hcopied _⟩
    simp only [List.length_append, List.length_drop, htop]
    omega

theorem addIntoProcesser_good {initStackSize : ℕ} {block : List UInt8}
    (hp : p.sharedStack_.length = p.sharedStackCap_) (h16 : 16 ≤ p.sharedStackCap_)
    (hblock : block.length = max 16 initStackSize) :
    (p.addIntoProcesser initStackSize block).Good p.sharedStackCap_ := by
  have htop := length_top hp h16
  refine ⟨?_, Nat.le_max_left 16 initStackSize, h16, List.take_left' htop⟩
  simp only [addIntoProcesser, List.length_append, List.length_drop, htop, hblock]
  omega

theorem length_restoreStack (hp : p.sharedStack_.length = p.sharedStackCap_)
    (ht : t.Good p.sharedStackCap_) : (p.restoreStack t).sharedStack_.length = p.sharedStackCap_ := by
  have h1 := ht.length_stack
  have h2 := ht.size_le
  have h3 := ht.size_le_cap
  simp only [restoreStack, List.length_append, List.length_take, hp]
  omega

theorem length_below (hp : p.sharedStack_.length = p.sharedStackCap_) (n : ℕ) :
    (p.sharedStack_.take (p.sharedStackCap_ - n)).length = p.sharedStackCap_ - n := by
  rw [List.length_take, hp]
  omega

/-- **`RestoreStack` brings back the last copy.** -/
theorem top_restoreStack (hp : p.sharedStack_.length = p.sharedStackCap_)
    (ht : t.Good p.sharedStackCap_) : (p.restoreStack t).top t.stackSize_ = t.copied := by
  rw [top, restoreStack, List.drop_left' (length_below hp t.stackSize_), ht.copied]

theorem byte_restoreStack (hp : p.sharedStack_.length = p.sharedStackCap_)
    {i : ℕ} {b : UInt8} (h : t.byte p.sharedStackCap_ i = some b) :
    (p.restoreStack t).sharedStack_[i]? = some b := by
  have hlen := length_below hp t.stackSize_
  rw [Task.byte] at h
  split_ifs at h with hi
  rw [restoreStack, List.getElem?_append_right (by omega), hlen]
  exact h

/-- A copy has the bytes of the shared stack. -/
theorem byte_of_copied {cap : ℕ} (ht : t.Good cap)
    (hcopied : t.copied = p.sharedStack_.drop (cap - t.stackSize_)) {i : ℕ}
    (hi : cap - t.stackSize_ ≤ i) : t.byte cap i = p.sharedStack_[i]? := by
  rw [Task.byte, if_pos hi, ht.copied, hcopied, List.getElem?_drop]
  congr 1
  omega

end Processer

/-! ### Runs -/

namespace Processer

variable {τ : Type*} [DecidableEq τ] {cap : ℕ} {p p' : Processer τ} {q : PrivateStacks τ}

/-- What the stack of a task contains, wherever it is kept. -/
def view (p : Processer τ) (tk : τ) (i : ℕ) : Option UInt8 :=
  if p.currentTask = some tk then p.sharedStack_[i]?
  else (p.tasks tk).bind fun t => t.byte p.sharedStackCap_ i

theorem view_running {tk : τ} (h : p.currentTask = some tk) (i : ℕ) :
    p.view tk i = p.sharedStack_[i]? := if_pos h

theorem view_waiting {tk : τ} {t : Task} (h : p.currentTask ≠ some tk) (ht : p.tasks tk = some t) (i : ℕ) :
    p.view tk i = t.byte p.sharedStackCap_ i := by
  rw [view, if_neg h, ht]
  rfl

/-- The stack of a task that waits is not touched by others. -/
theorem view_frame {tk : τ} (hcap : p'.sharedStackCap_ = p.sharedStackCap_)
    (htask : p'.tasks tk = p.tasks tk) (h : p.currentTask ≠ some tk) (h' : p'.currentTask ≠ some tk)
    (i : ℕ) : p'.view tk i = p.view tk i := by
  rw [view, view, if_neg h, if_neg h', htask, hcap]

/-- The processer stands for these private stacks. -/
structure Related (cap : ℕ) (p : Processer τ) (q : PrivateStacks τ) : Prop where
  cap_eq : p.sharedStackCap_ = cap
  length_shared : p.sharedStack_.length = cap
  good : ∀ tk t, p.tasks tk = some t → t.Good cap
  running : ∀ tk, p.currentTask = some tk → ∃ t, p.tasks tk = some t
  currentTask_eq : q.currentTask = p.currentTask
  isSome_stackOf : ∀ tk, (q.stackOf tk).isSome = (p.tasks tk).isSome
  bytes : ∀ tk m, q.stackOf tk = some m → ∀ i b, m i = some b → p.view tk i = some b

/-- `Init` with no task at all. -/
theorem related_init (h : p.Init) : Related p.sharedStackCap_ p PrivateStacks.init := by
  obtain ⟨hlen, htasks, hcur⟩ := h
  refine ⟨rfl, hlen, ?_, ?_, hcur.symm, ?_, ?_⟩
  · intro tk t ht
    rw [htasks] at ht
    cases ht
  · intro tk htk
    rw [hcur] at htk
    cases htk
  · intro tk
    rw [htasks]
    rfl
  · intro tk m hm
    cases hm

namespace Related

theorem isNone_stackOf (h : Related cap p q) (tk : τ) : (q.stackOf tk).isNone = (p.tasks tk).isNone := by
  rw [← Option.not_isSome, ← Option.not_isSome, h.isSome_stackOf]

theorem exists_stack (h : Related cap p q) {tk : τ} {t : Task} (ht : p.tasks tk = some t) :
    ∃ m, q.stackOf tk = some m :=
  Option.isSome_iff_exists.mp (by rw [h.isSome_stackOf, ht]; rfl)

/-- One task is given another copy and another private stack; the others wait. -/
theorem update (h : Related cap p q) {tk : τ} {t : Task} {m : ℕ → Option UInt8} {q' : PrivateStacks τ}
    (hcap : p'.sharedStackCap_ = cap) (hlen : p'.sharedStack_.length = cap)
    (htasks : p'.tasks = Function.update p.tasks tk (some t)) (ht : t.Good cap)
    (hstackOf : q'.stackOf = Function.update q.stackOf tk (some m))
    (hcur : q'.currentTask = p'.currentTask)
    (hothers : ∀ tk', tk' ≠ tk → p.currentTask ≠ some tk' ∧ p'.currentTask ≠ some tk')
    (hbytes : ∀ i b, m i = some b → p'.view tk i = some b) : Related cap p' q' := by
  refine ⟨hcap, hlen, ?_, ?_, hcur, ?_, ?_⟩
  · intro tk' t' ht'
    rw [htasks] at ht'
    by_cases htk : tk' = tk
    · rw [htk, Function.update_self, Option.some_inj] at ht'
      exact ht' ▸ ht
    · rw [Function.update_of_ne htk] at ht'
      exact h.good tk' t' ht'
  · intro tk' hrun
    by_cases htk : tk' = tk
    · exact ⟨t, by rw [htasks, htk, Function.update_self]⟩
    · exact absurd hrun (hothers tk' htk).2
  · intro tk'
    rw [htasks, hstackOf]
    by_cases htk : tk' = tk
    · rw [htk, Function.update_self, Function.update_self]
      rfl
    · rw [Function.update_of_ne htk, Function.update_of_ne htk, h.isSome_stackOf]
  · intro tk' m' hm' i b hb
    rw [hstackOf] at hm'
    by_cases htk : tk' = tk
    · rw [htk, Function.update_self, Option.some_inj] at hm'
      subst htk hm'
      exact hbytes i b hb
    · rw [Function.update_of_ne htk] at hm'
      obtain ⟨hwait, hwait'⟩ := hothers tk' htk
      rw [view_frame (hcap.trans h.cap_eq.symm) (by rw [htasks, Function.update_of_ne htk]) hwait hwait']
      exact h.bytes tk' m' hm' i b hb

theorem add (h : Related cap p q) {tk : τ} {k : ℕ} {stack block : List UInt8}
    (hst : p.step (.add tk k stack block) = some p') :
    ∃ q', q.step cap (.add tk k stack block) = some q' ∧ Related cap p' q' := by
  rw [step] at hst
  split_ifs at hst with hen
  cases hst
  obtain ⟨hnone, hnew, hstack, h16, hblock⟩ := hen
  have hidle : p.currentTask = none := Option.isNone_iff_eq_none.mp hnone
  obtain rfl := h.cap_eq
  have hgood := addIntoProcesser_good (p := { p with sharedStack_ := stack }) hstack h16 hblock
  refine ⟨_, if_pos ⟨h.currentTask_eq ▸ hnone, (h.isNone_stackOf tk).trans hnew⟩, ?_⟩
  refine h.update rfl hstack rfl hgood rfl h.currentTask_eq (fun tk' _ => ?_) fun i b hb => ?_
  · simp [hidle]
  · rw [view_waiting (by simp [hidle]) (Function.update_self ..)]
    rw [PrivateStacks.keep] at hb
    split_ifs at hb with hi
    exact (byte_of_copied (p := { p with sharedStack_ := stack }) hgood rfl hi).trans hb

theorem resume (h : Related cap p q) {tk : τ} {ok : Bool} (hst : p.step (.resume tk ok) = some p') :
    ∃ q', q.step cap (.resume tk ok) = some q' ∧ Related cap p' q' := by
  have hnone : p.currentTask.isNone := by
    by_contra hne
    rw [step, if_neg hne] at hst
    cases hst
  rw [step, if_pos hnone] at hst
  obtain ⟨t, ht, rfl⟩ := Option.map_eq_some_iff.mp hst
  have hidle : p.currentTask = none := Option.isNone_iff_eq_none.mp hnone
  obtain rfl := h.cap_eq
  have hsome : (q.stackOf tk).isSome := by rw [h.isSome_stackOf, ht]; rfl
  refine ⟨_, if_pos ⟨h.currentTask_eq ▸ hnone, hsome⟩, ?_⟩
  have hself : ∀ tk', (if ok then some tk else none) = some tk' → tk' = tk := by
    intro tk' hrun
    split_ifs at hrun
    exact (Option.some_inj.mp hrun).symm
  refine ⟨rfl, length_restoreStack h.length_shared (h.good tk t ht), h.good,
    fun tk' hrun => ⟨t, hself tk' hrun ▸ ht⟩, rfl, h.isSome_stackOf, ?_⟩
  intro tk' m hm i b hb
  have hbyte := h.bytes tk' m hm i b hb
  by_cases hrun : (if ok then some tk else none) = some tk'
  · have htk := hself tk' hrun
    rw [view_running (p := { p.restoreStack t with currentTask := if ok then some tk else none }) hrun]
    subst htk
    rw [view_waiting (by simp [hidle]) ht] at hbyte
    exact byte_restoreStack h.length_shared hbyte
  · have hwaits : p.currentTask ≠ some tk' := by simp [hidle]
    refine Eq.trans (view_frame ?_ ?_ hwaits ?_ i) hbyte
    · rfl
    · rfl
    · exact hrun

omit [DecidableEq τ] in
theorem waiting_of_ne {tk tk' : τ} (hcur : p.currentTask = some tk) (hne : tk' ≠ tk) :
    p.currentTask ≠ some tk' := by
  rw [hcur]
  exact fun he => hne (Option.some_inj.mp he).symm

/-- A byte of the running task's stack gets a value. -/
theorem access (h : Related cap p q) {tk : τ} {m : ℕ → Option UInt8} {i : ℕ} {b : UInt8}
    (hcur : p.currentTask = some tk) (hm : q.stackOf tk = some m)
    (hp' : p' = { p with sharedStack_ := p.sharedStack_.set i b }) (hi : i < cap) :
    Related cap p' ⟨Function.update q.stackOf tk (some (Function.update m i (some b))), some tk⟩ := by
  subst hp'
  have hlen := h.length_shared
  obtain ⟨t, ht⟩ := h.running tk hcur
  refine h.update (t := t) h.cap_eq (by rw [List.length_set, hlen])
    (Function.update_eq_self_iff.mpr ht.symm).symm (h.good tk t ht) rfl hcur.symm
    (fun tk' htk' => ⟨waiting_of_ne hcur htk', waiting_of_ne hcur htk'⟩) fun j c hc => ?_
  rw [view_running (p := { p with sharedStack_ := p.sharedStack_.set i b }) hcur, List.getElem?_set]
  by_cases hj : i = j
  · subst hj
    rw [Function.update_self] at hc
    rw [if_pos rfl, if_pos (by omega)]
    exact hc
  · rw [Function.update_of_ne (Ne.symm hj)] at hc
    rw [if_neg hj, ← view_running hcur]
    exact h.bytes tk m hm j c hc

/-- The running task has a private stack. -/
theorem exists_running (h : Related cap p q) (hsome : p.currentTask.isSome) :
    ∃ tk m, p.currentTask = some tk ∧ q.currentTask = some tk ∧ q.stackOf tk = some m := by
  obtain ⟨tk, hcur⟩ := Option.isSome_iff_exists.mp hsome
  obtain ⟨t, ht⟩ := h.running tk hcur
  obtain ⟨m, hm⟩ := h.exists_stack ht
  exact ⟨tk, m, hcur, h.currentTask_eq.trans hcur, hm⟩

theorem read (h : Related cap p q) {i : ℕ} {b : UInt8} (hst : p.step (.read i b) = some p') :
    ∃ q', q.step cap (.read i b) = some q' ∧ Related cap p' q' := by
  rw [step] at hst
  split_ifs at hst with hen
  cases hst
  obtain ⟨tk, m, hcur, hcur', hm⟩ := h.exists_running hen.1
  have hvalue : m i = some b ∨ m i = none := by
    cases hmi : m i with
    | none => exact .inr rfl
    | some c =>
      have hc := h.bytes tk m hm i c hmi
      rw [view_running hcur, hen.2] at hc
      exact .inl hc.symm
  refine ⟨_, by rw [PrivateStacks.step, hcur', Option.bind_some, hm, Option.bind_some, if_pos hvalue], ?_⟩
  obtain ⟨hi, hb⟩ := List.getElem?_eq_some_iff.mp hen.2
  refine h.access hcur hm ?_ (h.length_shared ▸ hi)
  rw [← hb, List.set_getElem_self]

theorem write (h : Related cap p q) {i : ℕ} {b : UInt8} (hst : p.step (.write i b) = some p') :
    ∃ q', q.step cap (.write i b) = some q' ∧ Related cap p' q' := by
  rw [step] at hst
  split_ifs at hst with hen
  cases hst
  obtain ⟨tk, m, hcur, hcur', hm⟩ := h.exists_running hen.1
  refine ⟨_, by rw [PrivateStacks.step, hcur', Option.bind_some, hm, Option.map_some], ?_⟩
  exact h.access hcur hm rfl (h.cap_eq ▸ hen.2)

theorem yield (h : Related cap p q) {n : ℕ} {ok : Bool} (hst : p.step (.yield n ok) = some p') :
    ∃ q', q.step cap (.yield n ok) = some q' ∧ Related cap p' q' := by
  obtain ⟨tk, hcur, hst⟩ := Option.bind_eq_some_iff.mp hst
  obtain ⟨t, ht, hst⟩ := Option.bind_eq_some_iff.mp hst
  have hn : n ≤ p.sharedStackCap_ := by
    by_contra hlt
    rw [if_neg hlt] at hst
    cases hst
  rw [if_pos hn] at hst
  cases hst
  obtain ⟨m, hm⟩ := h.exists_stack ht
  obtain rfl := h.cap_eq
  have hgood := saveStack_good h.length_shared (h.good tk t ht) hn
  have hown : ∀ i b, m i = some b → p.sharedStack_[i]? = some b := by
    intro i b hb
    rw [← view_running hcur]
    exact h.bytes tk m hm i b hb
  refine ⟨_, by rw [PrivateStacks.step, h.currentTask_eq, hcur, Option.bind_some, hm, Option.map_some], ?_⟩
  cases ok with
  | true =>
    refine h.update rfl h.length_shared rfl hgood rfl rfl
      (fun tk' htk' => ⟨waiting_of_ne hcur htk', by simp⟩) fun i b hb => ?_
    rw [view_waiting (by simp) (Function.update_self ..)]
    rw [PrivateStacks.keep] at hb
    split_ifs at hb with hi
    exact (byte_of_copied hgood rfl hi).trans (hown i b hb)
  | false =>
    -- the task goes on with what is in the shared stack
    refine h.update rfl h.length_shared rfl hgood (Function.update_eq_self_iff.mpr hm.symm).symm
      (h.currentTask_eq.trans hcur)
      (fun tk' htk' => ⟨waiting_of_ne hcur htk', waiting_of_ne rfl htk'⟩) fun i b hb => ?_
    rw [view_running rfl]
    exact hown i b hb

theorem delete (h : Related cap p q) {tk : τ} (hst : p.step (.delete tk) = some p') :
    ∃ q', q.step cap (.delete tk) = some q' ∧ Related cap p' q' := by
  rw [step] at hst
  split_ifs at hst with hidle
  cases hst
  refine ⟨_, if_pos (h.currentTask_eq ▸ hidle), h.cap_eq, h.length_shared, ?_, ?_, h.currentTask_eq, ?_, ?_⟩
  · intro tk' t ht
    by_cases htk : tk' = tk
    · simp [htk] at ht
    · exact h.good tk' t (by simpa [htk] using ht)
  · intro tk' hrun
    have htk : tk' ≠ tk := fun he => hidle (he ▸ hrun)
    obtain ⟨t, ht⟩ := h.running tk' hrun
    exact ⟨t, by simpa [htk] using ht⟩
  · intro tk'
    by_cases htk : tk' = tk
    · simp [htk]
    · simpa [htk] using h.isSome_stackOf tk'
  · intro tk' m hm i b hb
    by_cases htk : tk' = tk
    · simp [htk] at hm
    · have hbyte := h.bytes tk' m (by simpa [htk] using hm) i b hb
      simpa [view, htk] using hbyte

/-- **Each step of the processer is one on private stacks.** -/
theorem step (h : Related cap p q) {a : Act τ} (hst : p.step a = some p') :
    ∃ q', q.step cap a = some q' ∧ Related cap p' q' := by
  cases a with
  | add tk k stack block => exact h.add hst
  | resume tk ok => exact h.resume hst
  | read i b => exact h.read hst
  | write i b => exact h.write hst
  | yield n ok => exact h.yield hst
  | delete tk => exact h.delete hst

end Related

/-- **The shared stack stands for private stacks.**  After any run of a processer the block
of every task is large enough for its copy; whenever `RestoreStack` brings back a task's
stack, its top bytes are what they were when they were last copied; and the same run is
possible, with the same bytes read, where every task has a stack of its own. -/
theorem sharedStack_refines {p s : Processer τ} (hinit : p.Init) (as : List (Act τ))
    (h : exec Processer.step p as = some s) :
    (∀ tk t, s.tasks tk = some t → t.stackSize_ ≤ t.stackCapacity_) ∧
    (∀ tk ok s', s.step (.resume tk ok) = some s' →
      ∃ t, s.tasks tk = some t ∧ s'.tasks tk = some t ∧ s'.top t.stackSize_ = t.copied) ∧
    ∃ q, exec (PrivateStacks.step p.sharedStackCap_) PrivateStacks.init as = some q ∧
      Related p.sharedStackCap_ s q := by
  have hstep : ∀ (r : Processer τ) (q : PrivateStacks τ) (a : Act τ) (r' : Processer τ),
      Related p.sharedStackCap_ r q → r.step a = some r' →
      ∃ q', q.step p.sharedStackCap_ a = some q' ∧ Related p.sharedStackCap_ r' q' :=
    fun _ _ _ _ hR hst => hR.step hst
  obtain ⟨q, hq, hrel⟩ := exec_simulates hstep as (related_init hinit) h
  refine ⟨fun tk t ht => (hrel.good tk t ht).size_le, fun tk ok s' hst => ?_, q, hq, hrel⟩
  rw [Processer.step] at hst
  split at hst
  · obtain ⟨t, ht, rfl⟩ := Option.map_eq_some_iff.mp hst
    have hcap := hrel.cap_eq
    exact ⟨t, ht, ht, top_restoreStack (hrel.length_shared.trans hcap.symm) (hcap ▸ hrel.good tk t ht)⟩
  · cases hst

/-- Two tasks write to the same address in turn. -/
def twoTasks : List (Act ℕ) :=
  let stack := List.replicate 16 0
  [.add 0 0 stack stack, .add 1 0 stack stack,
    .resume 0 true, .write 8 7, .yield 12 true, .resume 1 true, .write 8 9, .yield 10 true,
    .resume 0 true, .read 8 7, .yield 12 true, .resume 1 true, .read 8 9]

theorem sharedStack_refines_twoTasks :
    ∃ s : Processer ℕ, exec Processer.step ⟨16, List.replicate 16 0, fun _ => none, none⟩ twoTasks = some s ∧
      ∃ q, exec (PrivateStacks.step 16) PrivateStacks.init twoTasks = some q := by
  obtain ⟨s, hs⟩ := Option.isSome_iff_exists.mp (show (exec Processer.step
    (⟨16, List.replicate 16 0, fun _ => none, none⟩ : Processer ℕ) twoTasks).isSome = true by decide)
  obtain ⟨-, -, q, hq, -⟩ := sharedStack_refines ⟨rfl, rfl, rfl⟩ twoTasks hs
  exact ⟨s, hs, q, hq⟩

end Processer

end SharedStack
