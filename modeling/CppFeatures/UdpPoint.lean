/-
`UdpPointImpl` (network/udp_detail.cpp): a UDP socket that starts itself.

`Send` and `Connect` call `goStart` when `init_` is not set yet.  `goStart` tests `init_`
again, creates the socket, stores the address, sets `init_` and starts a coroutine with
the receive loop `DoRecv`; `Shutdown` sets `shutdown_`, which the loop reads after each
datagram.  No lock is taken, so the steps of all callers and of all receive loops
interleave.

* `Udp.System.sockets_and_loops` — in every run `socket_` is not used before it is there,
  every socket gets a receive loop, a loop ends only after `Shutdown` and begins at most one
  more call of `receive_cb_` then;
* `Udp.System.serial_once` — where no `goStart` and no `Shutdown` is overtaken between its
  test and its store, there is one socket, every loop receives from it, and
  `disconnect_cb_` is called once at most.  The run `overtaken` shows that nothing in
  `UdpPointImpl` itself ensures that.
-/
import CppFeatures.Pool
import CppFeatures.Runs
import CppFeatures.TcpReceive

namespace Udp

/-- The callbacks that are set. -/
structure Options where
  connectCb_ : Bool
  receiveCb_ : Bool
  disconnectCb_ : Bool

/-- `UdpPointImpl`; sockets are numbered in the order of their creation. -/
structure UdpPointImpl (α : Type*) where
  localAddr_ : α
  remoteAddr_ : α
  socket_ : Option ℕ
  shutdown_ : Bool
  init_ : Bool

/-- What is done with the socket once there is one: `send_to` or `send`, and `connect`. -/
inductive Job (α : Type*)
  | send (destition : Option α) (bytes : ℕ)
  | connect (addr : α)

/-- The next step of a caller. -/
inductive Pc (α : Type*)
  | idle
  -- `Send`, `Connect`: `if (!init_)`
  | test (job : Job α)
  -- `goStart`: `if (init_)`, `socket_.reset`, `local_addr_ =`, `init_ = true`, `go DoRecv`
  | startTest (addr : α) (job : Option (Job α))
  | startSocket (addr : α) (job : Option (Job α))
  | startAddr (addr : α) (job : Option (Job α))
  | startInit (job : Option (Job α))
  | startGo (job : Option (Job α))
  | use (job : Job α)
  | connectCb
  -- `Shutdown`: `if (!init_)`, `if (shutdown_)`, `shutdown_ = true`, `socket_->shutdown`
  | downInit | downFlag | downSet | downSocket | downCb

instance {α : Type*} : Inhabited (Pc α) := ⟨.idle⟩

namespace Pc

variable {α : Type*}

-- between the creation of a socket and the start of its loop
def starting : Pc α → Bool
  | .startAddr .. | .startInit _ | .startGo _ => true
  | _ => false

def atStartTest : Pc α → Bool
  | .startTest .. => true
  | _ => false

-- `goStart` between its test of `init_` and its store
def opening : Pc α → Bool
  | .startSocket .. | .startAddr .. | .startInit _ => true
  | _ => false

def atSocket : Pc α → Bool
  | .startSocket .. => true
  | _ => false

-- a caller that has seen a socket
def hasSocket : Pc α → Bool
  | .startAddr .. | .startInit _ | .startGo _ | .use _ | .connectCb => true
  | .downFlag | .downSet | .downSocket | .downCb => true
  | _ => false

def atDownFlag : Pc α → Bool
  | .downFlag => true
  | _ => false

-- `Shutdown` between its test of `shutdown_` and its store
def atDownSet : Pc α → Bool
  | .downSet => true
  | _ => false

-- `Shutdown` after it has set `shutdown_`
def shut : Pc α → Bool
  | .downSocket | .downCb => true
  | _ => false

-- how far a caller is in `goStart`, and in `Shutdown`
def startParts (x : Pc α) : Bool × Bool := (x.opening, x.atSocket)

def downParts (x : Pc α) : Bool × Bool := (x.shut, x.atDownSet)

end Pc

/-- `DoRecv`: it reads the handle of `socket_`, is in `recvfrom`, in `receive_cb_`, or about
to read `shutdown_`. -/
inductive LoopPc
  | top
  | receiving (handle : ℕ)
  | calling
  | checking
  | exited
deriving DecidableEq, Repr

def LoopPc.ending : LoopPc → Bool
  | .calling | .checking | .exited => true
  | _ => false

/-- A point, its callers and its receive loops; and as records, what the last call of each
caller returned, the sockets created, the calls of `disconnect_cb_`, the calls of
`receive_cb_` that each loop began after `shutdown_` was set, and whether a null `socket_`
was dereferenced. -/
structure System (τ α : Type*) where
  impl : UdpPointImpl α
  opt_ : Options
  callers : Pool τ (Pc α)
  loops : List LoopPc
  result : τ → BoostEc
  created : ℕ
  disconnects : ℕ
  late : ℕ → ℕ
  fault : Bool

inductive Act (τ α : Type*)
  | goStart (t : τ) (addr : α)
  | send (t : τ) (destition : Option α) (bytes : ℕ)
  | connect (t : τ) (addr : α)
  | shutdown (t : τ)
  -- the next step of a caller; the error and the count are the system's answer
  | advance (t : τ) (ec : BoostEc) (n : ℕ)
  -- the next step of a receive loop
  | loop (i : ℕ) (ec : BoostEc)

namespace System

variable {τ α : Type*} [DecidableEq τ]

def move (s : System τ α) (t : τ) (x : Pc α) : System τ α := { s with callers := s.callers.set t x }

def ret (s : System τ α) (t : τ) (ec : BoostEc) : System τ α :=
  { s.move t .idle with result := Function.update s.result t ec }

-- `socket_->`
def deref (s : System τ α) : System τ α := { s with fault := s.fault || s.impl.socket_.isNone }

/-- The next step of caller `t`. -/
def advance (s : System τ α) (t : τ) (ec : BoostEc) (n : ℕ) : Option (System τ α) :=
  match s.callers.pc t with
  | .test job =>
    some (s.move t (if s.impl.init_ then .use job else .startTest s.impl.localAddr_ (some job)))
  | .startTest addr job =>
    some (if s.impl.init_ then s.ret t (makeNetworkErrorCode .ecEstab)
      else s.move t (.startSocket addr job))
  -- the constructor of the socket throws `ec`, and nothing is stored
  | .startSocket addr job =>
    some (if ec.isError then s.ret t ec
      else { s.move t (.startAddr addr job) with
        impl := { s.impl with socket_ := some s.created }
        created := s.created + 1 })
  | .startAddr addr job =>
    some { s.move t (.startInit job) with impl := { s.impl with localAddr_ := addr } }
  | .startInit job => some { s.move t (.startGo job) with impl := { s.impl with init_ := true } }
  | .startGo job =>
    let s := { s with loops := s.loops ++ [LoopPc.top] }
    some (match job with
      | none => s.ret t .success
      | some job => s.move t (.use job))
  | .use (.send _ bytes) =>
    some (s.deref.ret t (if ec.isError then ec
      else if n < bytes then makeNetworkErrorCode .ecHalf else .success))
  | .use (.connect addr) =>
    some (if ec.isError then s.deref.ret t ec
      else
        let s := { s.deref with impl := { s.impl with remoteAddr_ := addr } }
        if s.opt_.connectCb_ then s.move t .connectCb else s.ret t .success)
  | .connectCb => some (s.ret t .success)
  | .downInit => some (s.move t (if s.impl.init_ then .downFlag else .idle))
  | .downFlag => some (s.move t (if s.impl.shutdown_ then .idle else .downSet))
  | .downSet => some { s.move t .downSocket with impl := { s.impl with shutdown_ := true } }
  | .downSocket => some (s.deref.move t (if s.opt_.disconnectCb_ then .downCb else .idle))
  | .downCb => some { s.move t .idle with disconnects := s.disconnects + 1 }
  | .idle => none

def setLoop (s : System τ α) (i : ℕ) (x : LoopPc) : System τ α := { s with loops := s.loops.set i x }

/-- The next step of the `i`-th receive loop; a datagram arrives, or `recvfrom` fails with
`ec`. -/
def loopStep (s : System τ α) (i : ℕ) (ec : BoostEc) : Option (System τ α) :=
  match s.loops[i]? with
  | some .top => some (s.deref.setLoop i (.receiving (s.impl.socket_.getD 0)))
  | some (.receiving _) =>
    some (if !ec.isError && s.opt_.receiveCb_ then
        { s.setLoop i .calling with
          late := Function.update s.late i (s.late i + s.impl.shutdown_.toNat) }
      else s.setLoop i .checking)
  | some .calling => some (s.setLoop i .checking)
  | some .checking => some (s.setLoop i (if s.impl.shutdown_ then .exited else .top))
  | some .exited | none => none

-- a caller that is idle begins a call
def enter (s : System τ α) (t : τ) (x : Pc α) : Option (System τ α) :=
  match s.callers.pc t with
  | .idle => some (s.move t x)
  | _ => none

def step (s : System τ α) : Act τ α → Option (System τ α)
  | .goStart t addr => s.enter t (.startTest addr none)
  | .send t destition bytes => s.enter t (.test (.send destition bytes))
  | .connect t addr => s.enter t (.test (.connect addr))
  | .shutdown t => s.enter t .downInit
  | .advance t ec n => s.advance t ec n
  | .loop i ec => s.loopStep i ec

/-- A new point; the constructor stores the address of any port. -/
structure Init (s : System τ α) : Prop where
  socket : s.impl.socket_ = none
  shutdown : s.impl.shutdown_ = false
  init : s.impl.init_ = false
  callers : s.callers = Pool.empty
  loops : s.loops = []
  records : s.created = 0 ∧ s.disconnects = 0 ∧ (∀ i, s.late i = 0) ∧ s.fault = false

/-! ### Receive loops -/

theorem getElem?_launched {loops : List LoopPc} {i : ℕ} {x : LoopPc}
    (h : (loops ++ [.top])[i]? = some x) : loops[i]? = some x ∨ x = .top := by
  rcases lt_or_ge i loops.length with hlt | hge
  · rw [List.getElem?_append_left hlt] at h
    exact .inl h
  · rw [List.getElem?_append_right hge, List.getElem?_singleton] at h
    split_ifs at h
    exact .inr (Option.some.inj h).symm

theorem getElem?_setLoop {loops : List LoopPc} {i j : ℕ} {x y : LoopPc}
    (h : (loops.set i x)[j]? = some y) : loops[j]? = some y ∨ y = x := by
  by_cases hij : i = j
  · subst hij
    rw [List.getElem?_set_self'] at h
    obtain ⟨_, _, hx⟩ := Option.map_eq_some_iff.mp h
    exact .inr hx.symm
  · rw [List.getElem?_set_ne hij] at h
    exact .inl h

/-- The receive loops: one that has not got a datagram yet has made no late call, and none
has made two. -/
structure LoopInv (loops : List LoopPc) (shutdown : Bool) (late : ℕ → ℕ) : Prop where
  quiet : shutdown = false → ∀ i, late i = 0
  waiting : ∀ i, (∀ x, loops[i]? = some x → x.ending = false) → late i = 0
  once : ∀ i, late i ≤ 1
  exited : ∀ i : ℕ, loops[i]? = some LoopPc.exited → shutdown = true

namespace LoopInv

variable {loops : List LoopPc} {shutdown : Bool} {late : ℕ → ℕ}

theorem shut (h : LoopInv loops shutdown late) : LoopInv loops true late where
  quiet := fun hd => Bool.noConfusion hd
  waiting := h.waiting
  once := h.once
  exited := fun _ _ => rfl

theorem late_eq_zero (h : LoopInv loops shutdown late) {i : ℕ} {x : LoopPc}
    (hi : loops[i]? = some x) (hx : x.ending = false) : late i = 0 := by
  refine h.waiting i fun y hy => ?_
  rw [hi, Option.some_inj] at hy
  exact hy ▸ hx

/-- `go DoRecv`. -/
theorem push (h : LoopInv loops shutdown late) : LoopInv (loops ++ [.top]) shutdown late where
  quiet := h.quiet
  waiting := by
    intro i hi
    refine h.waiting i fun x hx => hi x ?_
    rw [List.getElem?_append_left (List.getElem?_eq_some_iff.mp hx).1]
    exact hx
  once := h.once
  exited := by
    intro i hi
    rcases getElem?_launched hi with hold | hnew
    · exact h.exited i hold
    · cases hnew

/-- A loop that goes on without a call. -/
theorem set (h : LoopInv loops shutdown late) {i : ℕ} {x : LoopPc}
    (hlate : x.ending = false → late i = 0) (hexit : x = .exited → shutdown = true) :
    LoopInv (loops.set i x) shutdown late where
  quiet := h.quiet
  waiting := by
    intro j hj
    by_cases hij : i = j
    · subst hij
      by_cases hlt : i < loops.length
      · exact hlate (hj x (by rw [List.getElem?_set_self hlt]))
      · refine h.waiting i fun y hy => ?_
        exact absurd (List.getElem?_eq_some_iff.mp hy).1 hlt
    · refine h.waiting j fun y hy => hj y ?_
      rw [List.getElem?_set_ne hij]
      exact hy
  once := h.once
  exited := by
    intro j hj
    rcases getElem?_setLoop hj with hold | hnew
    · exact h.exited j hold
    · exact hexit hnew.symm

/-- A loop that begins a call of `receive_cb_`. -/
theorem call (h : LoopInv loops shutdown late) {i : ℕ} {handle : ℕ}
    (hi : loops[i]? = some (.receiving handle)) :
    LoopInv (loops.set i .calling) shutdown
      (Function.update late i (late i + shutdown.toNat)) := by
  have hzero : late i = 0 := h.late_eq_zero hi rfl
  have hset := h.set (i := i) (x := .calling) (fun hx => by cases hx) (fun hx => by cases hx)
  refine ⟨fun hd j => ?_, fun j hj => ?_, fun j => ?_, hset.exited⟩
  · rw [Function.update_apply]
    split_ifs
    · rw [hzero, hd]
      rfl
    · exact h.quiet hd j
  · rw [Function.update_apply]
    split_ifs with hij
    · subst hij
      have hlt : j < loops.length := (List.getElem?_eq_some_iff.mp hi).1
      exact Bool.noConfusion (hj .calling (by rw [List.getElem?_set_self hlt]))
    · exact hset.waiting j hj
  · rw [Function.update_apply]
    split_ifs
    · rw [hzero, Nat.zero_add]
      exact Bool.toNat_le shutdown
    · exact h.once j

end LoopInv

/-! ### Every run -/

/-- Sockets, the callers that have seen one, and the receive loops. -/
structure Inv (s : System τ α) : Prop where
  socket : ∀ k, s.impl.socket_ = some k ↔ k + 1 = s.created
  init : s.impl.init_ = true → 0 < s.created
  seen : ∀ t, (s.callers.pc t).hasSocket = true → 0 < s.created
  -- every socket gets its receive loop
  count : s.loops.length + s.callers.count Pc.starting = s.created
  handles : ∀ i k : ℕ, s.loops[i]? = some (.receiving k) → k < s.created
  loop : LoopInv s.loops s.impl.shutdown_ s.late
  noFault : s.fault = false

omit [DecidableEq τ] in
theorem inv_init {s : System τ α} (h : Init s) : Inv s := by
  obtain ⟨hcreated, -, hlate, hfault⟩ := h.records
  refine ⟨fun k => ?_, fun hi => ?_, fun t ht => ?_, ?_, fun i k hk => ?_, ?_, hfault⟩
  · rw [h.socket, hcreated]
    simp
  · rw [h.init] at hi
    cases hi
  · rw [h.callers] at ht
    cases ht
  · rw [h.loops, h.callers, hcreated]
    rfl
  · rw [h.loops] at hk
    cases hk
  · rw [h.loops]
    refine ⟨fun _ => hlate, fun i _ => hlate i, fun i => ?_, fun i hi => ?_⟩
    · rw [hlate i]
      exact Nat.zero_le 1
    · cases hi

/-- The point with a caller elsewhere: what a step has to show that neither creates a socket
nor starts a loop. -/
theorem Inv.moved {s s' : System τ α} (h : Inv s) {t : τ} {x : Pc α}
    (hcallers : s'.callers = s.callers.set t x) (hsocket : s'.impl.socket_ = s.impl.socket_)
    (hcreated : s'.created = s.created) (hloops : s'.loops = s.loops)
    (hseen : x.hasSocket = true → 0 < s.created)
    (hstarting : x.starting = (s.callers.pc t).starting)
    (hinit : s'.impl.init_ = true → 0 < s.created)
    (hloop : LoopInv s'.loops s'.impl.shutdown_ s'.late) (hfault : s'.fault = false) : Inv s' := by
  refine ⟨fun k => ?_, fun hi => ?_, fun u hu => ?_, ?_, fun i k hk => ?_, hloop, hfault⟩
  · rw [hsocket, hcreated]
    exact h.socket k
  · rw [hcreated]
    exact hinit hi
  · rw [hcreated]
    rw [hcallers, Pool.pc_set] at hu
    split_ifs at hu
    · exact hseen hu
    · exact h.seen u hu
  · have hst := Pool.count_set (p := Pc.starting) rfl s.callers t x
    have := h.count
    rw [hcallers, hloops, hcreated]
    rw [hstarting] at hst
    omega
  · rw [hcreated]
    rw [hloops] at hk
    exact h.handles i k hk

theorem Inv.move {s : System τ α} (h : Inv s) {t : τ} {x : Pc α}
    (hseen : x.hasSocket = true → 0 < s.created)
    (hstarting : x.starting = (s.callers.pc t).starting) : Inv (s.move t x) :=
  h.moved rfl rfl rfl rfl hseen hstarting h.init h.loop h.noFault

omit [DecidableEq τ] in
theorem Inv.answer {s : System τ α} (h : Inv s) (result : τ → BoostEc) :
    Inv { s with result := result } :=
  ⟨h.socket, h.init, h.seen, h.count, h.handles, h.loop, h.noFault⟩

theorem Inv.ret {s : System τ α} (h : Inv s) {t : τ} {ec : BoostEc}
    (hstarting : (s.callers.pc t).starting = false) : Inv (s.ret t ec) :=
  (h.move (x := .idle) (fun hx => by cases hx) hstarting.symm).answer _

omit [DecidableEq τ] in
theorem Inv.socket_eq {s : System τ α} (h : Inv s) (hpos : 0 < s.created) :
    s.impl.socket_ = some (s.created - 1) :=
  (h.socket _).mpr (by omega)

omit [DecidableEq τ] in
/-- `socket_->` once there is a socket. -/
theorem Inv.deref {s : System τ α} (h : Inv s) (hpos : 0 < s.created) : Inv s.deref := by
  refine ⟨h.socket, h.init, h.seen, h.count, h.handles, h.loop, ?_⟩
  rw [System.deref, h.socket_eq hpos, h.noFault]
  rfl

/-- `socket_.reset`. -/
theorem Inv.reset {s : System τ α} (h : Inv s) {t : τ} {addr : α} {job : Option (Job α)}
    (hpc : s.callers.pc t = .startSocket addr job) :
    Inv { s.move t (.startAddr addr job) with
      impl := { s.impl with socket_ := some s.created }
      created := s.created + 1 } := by
  refine ⟨fun k => ?_, fun _ => Nat.succ_pos _, fun _ _ => Nat.succ_pos _, ?_, fun i k hk => ?_,
    h.loop, h.noFault⟩
  · show some s.created = some k ↔ k + 1 = s.created + 1
    rw [Option.some_inj]
    omega
  · have hst := Pool.count_set (p := Pc.starting) rfl s.callers t (.startAddr addr job)
    have hcount := h.count
    rw [hpc] at hst
    show s.loops.length + (s.callers.set t (.startAddr addr job)).count Pc.starting = s.created + 1
    simp only [Pc.starting, Bool.toNat_true, Bool.toNat_false] at hst
    omega
  · exact Nat.lt_succ_of_lt (h.handles i k hk)

/-- `go DoRecv`: the caller that starts the loop leaves `goStart`. -/
theorem Inv.launch {s : System τ α} (h : Inv s) {t : τ} {job : Option (Job α)} {x : Pc α}
    (hpc : s.callers.pc t = .startGo job) (hx : x.starting = false) :
    Inv (System.move { s with loops := s.loops ++ [.top] } t x) := by
  have hpos : 0 < s.created := h.seen t (by rw [hpc]; rfl)
  refine ⟨h.socket, h.init, fun _ _ => hpos, ?_, fun i k hk => ?_, h.loop.push, h.noFault⟩
  · have hst := Pool.count_set (p := Pc.starting) rfl s.callers t x
    have hcount := h.count
    rw [hpc, hx] at hst
    show (s.loops ++ [LoopPc.top]).length + (s.callers.set t x).count Pc.starting = s.created
    rw [List.length_append, List.length_singleton]
    simp only [Pc.starting, Bool.toNat_true, Bool.toNat_false] at hst
    omega
  · rcases getElem?_launched hk with hold | hnew
    · exact h.handles i k hold
    · cases hnew

/-- **A step of a caller** keeps the invariant. -/
theorem advance_inv {s s' : System τ α} {t : τ} {ec : BoostEc} {n : ℕ} (h : Inv s)
    (hst : s.advance t ec n = some s') : Inv s' := by
  have hseen := h.seen t
  rw [advance] at hst
  cases hpc : s.callers.pc t with
  | idle => simp [hpc] at hst
  | test job =>
    simp only [hpc] at hst
    cases hst
    split_ifs with hi
    · exact h.move (fun _ => h.init hi) (by rw [hpc]; rfl)
    · exact h.move (fun hx => by cases hx) (by rw [hpc]; rfl)
  | startTest addr job =>
    simp only [hpc] at hst
    cases hst
    split_ifs
    · exact h.ret (by rw [hpc]; rfl)
    · exact h.move (fun hx => by cases hx) (by rw [hpc]; rfl)
  | startSocket addr job =>
    simp only [hpc] at hst
    cases hst
    split_ifs
    · exact h.ret (by rw [hpc]; rfl)
    · exact h.reset hpc
  | startAddr addr job =>
    simp only [hpc] at hst
    cases hst
    have hpos := hseen (by rw [hpc]; rfl)
    exact h.moved rfl rfl rfl rfl (fun _ => hpos) (by rw [hpc]; rfl) h.init h.loop h.noFault
  | startInit job =>
    simp only [hpc] at hst
    cases hst
    have hpos := hseen (by rw [hpc]; rfl)
    exact h.moved rfl rfl rfl rfl (fun _ => hpos) (by rw [hpc]; rfl) (fun _ => hpos) h.loop h.noFault
  | startGo job =>
    simp only [hpc] at hst
    cases hst
    cases job with
    | none => exact (h.launch hpc rfl).answer _
    | some job => exact h.launch hpc rfl
  | use job =>
    have hpos := hseen (by rw [hpc]; rfl)
    have hd := h.deref hpos
    cases job with
    | send destition bytes =>
      simp only [hpc] at hst
      cases hst
      exact hd.ret (by rw [System.deref, hpc]; rfl)
    | connect addr =>
      simp only [hpc] at hst
      cases hst
      split_ifs
      · exact hd.ret (by rw [System.deref, hpc]; rfl)
      · exact hd.moved rfl rfl rfl rfl (fun _ => hpos) (by rw [System.deref, hpc]; rfl) h.init h.loop
          hd.noFault
      · exact hd.moved rfl rfl rfl rfl (fun _ => hpos) (by rw [System.deref, hpc]; rfl) h.init h.loop
          hd.noFault
  | connectCb =>
    simp only [hpc] at hst
    cases hst
    exact h.ret (by rw [hpc]; rfl)
  | downInit =>
    simp only [hpc] at hst
    cases hst
    split_ifs with hi
    · exact h.move (fun _ => h.init hi) (by rw [hpc]; rfl)
    · exact h.move (fun hx => by cases hx) (by rw [hpc]; rfl)
  | downFlag =>
    simp only [hpc] at hst
    cases hst
    have hpos := hseen (by rw [hpc]; rfl)
    split_ifs
    · exact h.move (fun _ => hpos) (by rw [hpc]; rfl)
    · exact h.move (fun _ => hpos) (by rw [hpc]; rfl)
  | downSet =>
    simp only [hpc] at hst
    cases hst
    have hpos := hseen (by rw [hpc]; rfl)
    exact h.moved rfl rfl rfl rfl (fun _ => hpos) (by rw [hpc]; rfl) h.init h.loop.shut h.noFault
  | downSocket =>
    simp only [hpc] at hst
    cases hst
    have hpos := hseen (by rw [hpc]; rfl)
    split_ifs
    · exact (h.deref hpos).move (fun _ => hpos) (by rw [System.deref, hpc]; rfl)
    · exact (h.deref hpos).move (fun _ => hpos) (by rw [System.deref, hpc]; rfl)
  | downCb =>
    simp only [hpc] at hst
    cases hst
    exact h.moved rfl rfl rfl rfl (fun hx => by cases hx) (by rw [hpc]; rfl) h.init h.loop h.noFault

omit [DecidableEq τ] in
/-- The point with a receive loop elsewhere. -/
theorem Inv.looped {s s' : System τ α} (h : Inv s) {i : ℕ} {x : LoopPc} (himpl : s'.impl = s.impl)
    (hcallers : s'.callers = s.callers) (hcreated : s'.created = s.created)
    (hloops : s'.loops = s.loops.set i x) (hhandle : ∀ k, x = .receiving k → k < s.created)
    (hloop : LoopInv s'.loops s'.impl.shutdown_ s'.late) (hfault : s'.fault = false) : Inv s' := by
  refine ⟨fun k => ?_, fun hi => ?_, fun t ht => ?_, ?_, fun j k hk => ?_, hloop, hfault⟩
  · rw [himpl, hcreated]
    exact h.socket k
  · rw [hcreated]
    exact h.init (himpl ▸ hi)
  · rw [hcreated]
    exact h.seen t (hcallers ▸ ht)
  · rw [hloops, hcallers, hcreated, List.length_set]
    exact h.count
  · rw [hcreated]
    rw [hloops] at hk
    rcases getElem?_setLoop hk with hold | hnew
    · exact h.handles j k hold
    · exact hhandle k hnew.symm

omit [DecidableEq τ] in
/-- **A step of a receive loop** keeps the invariant. -/
theorem loopStep_inv {s s' : System τ α} {i : ℕ} {ec : BoostEc} (h : Inv s)
    (hst : s.loopStep i ec = some s') : Inv s' := by
  rw [loopStep] at hst
  cases hi : s.loops[i]? with
  | none => simp [hi] at hst
  | some x =>
    have hpos : 0 < s.created := by
      have hlt : i < s.loops.length := (List.getElem?_eq_some_iff.mp hi).1
      have := h.count
      omega
    cases x with
    | top =>
      simp only [hi] at hst
      cases hst
      refine h.looped rfl rfl rfl rfl (fun k hk => ?_) ?_ (h.deref hpos).noFault
      · rw [h.socket_eq hpos] at hk
        cases hk
        exact Nat.sub_lt hpos Nat.one_pos
      · exact h.loop.set (fun _ => h.loop.late_eq_zero hi rfl) (fun hx => by cases hx)
    | receiving handle =>
      simp only [hi] at hst
      cases hst
      split_ifs
      · exact h.looped rfl rfl rfl rfl (fun k hk => by cases hk) (h.loop.call hi) h.noFault
      · refine h.looped rfl rfl rfl rfl (fun k hk => by cases hk) ?_ h.noFault
        exact h.loop.set (fun hx => by cases hx) (fun hx => by cases hx)
    | calling =>
      simp only [hi] at hst
      cases hst
      refine h.looped rfl rfl rfl rfl (fun k hk => by cases hk) ?_ h.noFault
      exact h.loop.set (fun hx => by cases hx) (fun hx => by cases hx)
    | checking =>
      simp only [hi] at hst
      cases hst
      split_ifs with hd
      · refine h.looped rfl rfl rfl rfl (fun k hk => by cases hk) ?_ h.noFault
        exact h.loop.set (fun hx => by cases hx) (fun _ => hd)
      · refine h.looped rfl rfl rfl rfl (fun k hk => by cases hk) ?_ h.noFault
        refine h.loop.set (fun _ => ?_) (fun hx => by cases hx)
        exact h.loop.quiet (Bool.eq_false_of_not_eq_true hd) i
    | exited => simp [hi] at hst

theorem enter_eq_some {s s' : System τ α} {t : τ} {x : Pc α} (hst : s.enter t x = some s') :
    s.callers.pc t = .idle ∧ s' = s.move t x := by
  rw [enter] at hst
  split at hst
  · rename_i hpc
    exact ⟨hpc, (Option.some.inj hst).symm⟩
  · cases hst

theorem enter_inv {s s' : System τ α} {t : τ} {x : Pc α} (h : Inv s) (hx : x.hasSocket = false)
    (hst : s.enter t x = some s') : Inv s' := by
  obtain ⟨hpc, rfl⟩ := enter_eq_some hst
  refine h.move (fun hs => ?_) ?_
  · rw [hx] at hs
    cases hs
  · rw [hpc]
    cases x <;> first | rfl | cases hx

/-- **A step** keeps the invariant. -/
theorem step_inv {s s' : System τ α} {a : Act τ α} (h : Inv s) (hst : s.step a = some s') :
    Inv s' := by
  cases a with
  | goStart t addr => exact enter_inv h rfl hst
  | send t destition bytes => exact enter_inv h rfl hst
  | connect t addr => exact enter_inv h rfl hst
  | shutdown t => exact enter_inv h rfl hst
  | advance t ec n => exact advance_inv h hst
  | loop i ec => exact loopStep_inv h hst

theorem reach_inv {s : System τ α} (hs : Reach Init step s) : Inv s :=
  ReachIf.invariant (fun _ h => inv_init h) (fun _ _ _ h _ hst => step_inv h hst) s hs

/-! ### Runs in which nobody is overtaken -/

/-- No caller tests `init_` in `goStart`, or `shutdown_` in `Shutdown`, while another is
between that test and its store: as where one thread runs all callers, none of which
switches there. -/
def Serial (s : System τ α) : Act τ α → Prop
  | .advance t _ _ =>
    ((s.callers.pc t).atStartTest = true → s.callers.count Pc.opening = 0) ∧
      ((s.callers.pc t).atDownFlag = true → s.callers.count Pc.atDownSet = 0)
  | _ => True

instance (s : System τ α) (a : Act τ α) : Decidable (s.Serial a) :=
  match a with
  | .advance .. => inferInstanceAs (Decidable (_ ∧ _))
  | .goStart .. | .send .. | .connect .. | .shutdown _ | .loop .. => .isTrue trivial

/-- One `goStart` at a time creates one socket in all. -/
structure StartOnce (callers : Pool τ (Pc α)) (init : Bool) (created : ℕ) : Prop where
  one : created + callers.count Pc.atSocket ≤ 1
  opening : callers.count Pc.opening ≤ 1
  -- a socket that `init_` does not show yet is that of the `goStart` under way
  fresh : init = false → created + callers.count Pc.atSocket ≤ callers.count Pc.opening
  closed : init = true → callers.count Pc.opening = 0

/-- One `Shutdown` at a time makes one call of `disconnect_cb_` in all. -/
structure DownOnce (callers : Pool τ (Pc α)) (shutdown : Bool) (disconnects : ℕ) : Prop where
  one : disconnects + callers.count Pc.shut + callers.count Pc.atDownSet ≤ 1
  alive : shutdown = false → disconnects + callers.count Pc.shut = 0

/-- A step of `t` that does not pass the test of `init_`. -/
theorem StartOnce.set {callers : Pool τ (Pc α)} {init init' : Bool} {created created' : ℕ}
    (h : StartOnce callers init created) {t : τ} {x y : Pc α} (hpc : callers.pc t = y)
    (hone : created' + x.atSocket.toNat ≤ created + y.atSocket.toNat)
    (hopening : x.opening.toNat ≤ y.opening.toNat)
    (hfresh : init' = false → init = false ∧ created' + x.atSocket.toNat + y.opening.toNat ≤
      created + y.atSocket.toNat + x.opening.toNat)
    (hclosed : init' = true → init = true ∨ y.opening = true ∧ x.opening = false) :
    StartOnce (callers.set t x) init' created' := by
  have hsock := Pool.count_set (p := Pc.atSocket) rfl callers t x
  have hopen := Pool.count_set (p := Pc.opening) rfl callers t x
  rw [hpc] at hsock hopen
  refine ⟨?_, ?_, fun hi => ?_, fun hi => ?_⟩
  · have := h.one
    omega
  · have := h.opening
    omega
  · obtain ⟨hinit, hle⟩ := hfresh hi
    have := h.fresh hinit
    omega
  · rcases hclosed hi with hinit | ⟨hy, hx⟩
    · have := h.closed hinit
      omega
    · have := h.opening
      rw [hy, hx, Bool.toNat_true, Bool.toNat_false] at hopen
      omega

theorem StartOnce.same {callers : Pool τ (Pc α)} {init : Bool} {created : ℕ}
    (h : StartOnce callers init created) {t : τ} {x y : Pc α} (hpc : callers.pc t = y)
    (hparts : x.startParts = y.startParts) : StartOnce (callers.set t x) init created := by
  obtain ⟨hopening, hsocket⟩ := Prod.mk.inj hparts
  refine h.set hpc ?_ ?_ (fun hi => ⟨hi, ?_⟩) .inl
  · rw [hsocket]
  · rw [hopening]
  · rw [hsocket, hopening]

theorem StartOnce.enter {callers : Pool τ (Pc α)} {init : Bool} {created : ℕ}
    (h : StartOnce callers init created) (hinit : init = false) {t : τ} {addr : α}
    {job : Option (Job α)} (hpc : callers.pc t = .startTest addr job)
    (hnone : callers.count Pc.opening = 0) :
    StartOnce (callers.set t (.startSocket addr job)) init created := by
  have hsock := Pool.count_set (p := Pc.atSocket) rfl callers t (.startSocket addr job)
  have hopen := Pool.count_set (p := Pc.opening) rfl callers t (.startSocket addr job)
  have hfresh := h.fresh hinit
  rw [hpc] at hsock hopen
  simp only [Pc.atSocket, Pc.opening, Bool.toNat_true, Bool.toNat_false] at hsock hopen
  refine ⟨by omega, by omega, fun _ => by omega, fun hi => ?_⟩
  rw [hinit] at hi
  cases hi

/-- A step of `t` that does not pass the test of `shutdown_`. -/
theorem DownOnce.set {callers : Pool τ (Pc α)} {shutdown shutdown' : Bool} {disconnects disconnects' : ℕ}
    (h : DownOnce callers shutdown disconnects) {t : τ} {x y : Pc α} (hpc : callers.pc t = y)
    (hone : disconnects' + x.shut.toNat + x.atDownSet.toNat ≤
      disconnects + y.shut.toNat + y.atDownSet.toNat)
    (halive : shutdown' = false → shutdown = false ∧
      disconnects' + x.shut.toNat ≤ disconnects + y.shut.toNat) :
    DownOnce (callers.set t x) shutdown' disconnects' := by
  have hshut := Pool.count_set (p := Pc.shut) rfl callers t x
  have hset := Pool.count_set (p := Pc.atDownSet) rfl callers t x
  rw [hpc] at hshut hset
  refine ⟨?_, fun hd => ?_⟩
  · have := h.one
    omega
  · obtain ⟨hdown, hle⟩ := halive hd
    have := h.alive hdown
    omega

theorem DownOnce.same {callers : Pool τ (Pc α)} {shutdown : Bool} {disconnects : ℕ}
    (h : DownOnce callers shutdown disconnects) {t : τ} {x y : Pc α} (hpc : callers.pc t = y)
    (hparts : x.downParts = y.downParts) : DownOnce (callers.set t x) shutdown disconnects := by
  obtain ⟨hshut, hset⟩ := Prod.mk.inj hparts
  refine h.set hpc ?_ (fun hd => ⟨hd, ?_⟩)
  · rw [hshut, hset]
  · rw [hshut]

theorem DownOnce.enter {callers : Pool τ (Pc α)} {shutdown : Bool} {disconnects : ℕ}
    (h : DownOnce callers shutdown disconnects) (hshutdown : shutdown = false) {t : τ}
    (hpc : callers.pc t = .downFlag) (hnone : callers.count Pc.atDownSet = 0) :
    DownOnce (callers.set t .downSet) shutdown disconnects := by
  have hshut := Pool.count_set (p := Pc.shut) rfl callers t .downSet
  have hset := Pool.count_set (p := Pc.atDownSet) rfl callers t .downSet
  have halive := h.alive hshutdown
  rw [hpc] at hshut hset
  simp only [Pc.shut, Pc.atDownSet, Bool.toNat_true, Bool.toNat_false] at hshut hset
  exact ⟨by omega, fun _ => by omega⟩

/-- What a run keeps in which nobody is overtaken. -/
structure Once (s : System τ α) : Prop where
  start : StartOnce s.callers s.impl.init_ s.created
  down : DownOnce s.callers s.impl.shutdown_ s.disconnects

omit [DecidableEq τ] in
theorem once_init {s : System τ α} (h : Init s) : Once s := by
  obtain ⟨hcreated, hdisc, -, -⟩ := h.records
  refine ⟨?_, ?_⟩
  · rw [h.callers, hcreated, h.init]
    exact ⟨Nat.zero_le 1, Nat.zero_le 1, fun _ => Nat.zero_le 0, fun hi => Bool.noConfusion hi⟩
  · rw [h.callers, hdisc]
    exact ⟨Nat.zero_le 1, fun _ => rfl⟩

/-- **A step of a caller** that overtakes nobody. -/
theorem advance_once {s s' : System τ α} {t : τ} {ec : BoostEc} {n : ℕ} (h : Once s)
    (hok : s.Serial (.advance t ec n)) (hst : s.advance t ec n = some s') : Once s' := by
  obtain ⟨htest, hflag⟩ := hok
  rw [advance] at hst
  cases hpc : s.callers.pc t with
  | idle => simp [hpc] at hst
  | test job =>
    simp only [hpc] at hst
    cases hst
    split_ifs <;> exact ⟨h.start.same hpc rfl, h.down.same hpc rfl⟩
  | startTest addr job =>
    simp only [hpc] at hst
    cases hst
    split_ifs with hi
    · exact ⟨h.start.same hpc rfl, h.down.same hpc rfl⟩
    · have hinit : s.impl.init_ = false := Bool.eq_false_of_not_eq_true hi
      exact ⟨h.start.enter hinit hpc (htest (by rw [hpc]; rfl)), h.down.same hpc rfl⟩
  -- the socket that the caller was to create is there, or it gives up
  | startSocket addr job =>
    simp only [hpc] at hst
    cases hst
    split_ifs
    · refine ⟨h.start.set hpc ?_ ?_ (fun hi => ⟨hi, ?_⟩) .inl, h.down.same hpc rfl⟩
      · exact Nat.le_add_right _ 1
      · exact Nat.zero_le 1
      · exact le_rfl
    · refine ⟨h.start.set hpc ?_ ?_ (fun hi => ⟨hi, ?_⟩) .inl, h.down.same hpc rfl⟩
      · exact le_rfl
      · exact le_rfl
      · exact le_rfl
  | startAddr addr job =>
    simp only [hpc] at hst
    cases hst
    exact ⟨h.start.same hpc rfl, h.down.same hpc rfl⟩
  | startInit job =>
    simp only [hpc] at hst
    cases hst
    refine ⟨h.start.set hpc ?_ ?_ (fun hi => Bool.noConfusion hi) fun _ => .inr ⟨rfl, rfl⟩,
      h.down.same hpc rfl⟩
    · exact le_rfl
    · exact Nat.zero_le 1
  | startGo job =>
    simp only [hpc] at hst
    cases hst
    cases job with
    | none => exact ⟨h.start.same hpc rfl, h.down.same hpc rfl⟩
    | some job => exact ⟨h.start.same hpc rfl, h.down.same hpc rfl⟩
  | use job =>
    cases job with
    | send destition bytes =>
      simp only [hpc] at hst
      cases hst
      exact ⟨h.start.same hpc rfl, h.down.same hpc rfl⟩
    | connect addr =>
      simp only [hpc] at hst
      cases hst
      split_ifs <;> exact ⟨h.start.same hpc rfl, h.down.same hpc rfl⟩
  | connectCb =>
    simp only [hpc] at hst
    cases hst
    exact ⟨h.start.same hpc rfl, h.down.same hpc rfl⟩
  | downInit =>
    simp only [hpc] at hst
    cases hst
    split_ifs <;> exact ⟨h.start.same hpc rfl, h.down.same hpc rfl⟩
  | downFlag =>
    simp only [hpc] at hst
    cases hst
    split_ifs with hd
    · exact ⟨h.start.same hpc rfl, h.down.same hpc rfl⟩
    · have hshutdown : s.impl.shutdown_ = false := Bool.eq_false_of_not_eq_true hd
      exact ⟨h.start.same hpc rfl, h.down.enter hshutdown hpc (hflag (by rw [hpc]; rfl))⟩
  | downSet =>
    simp only [hpc] at hst
    cases hst
    exact ⟨h.start.same hpc rfl, h.down.set hpc le_rfl fun hd => Bool.noConfusion hd⟩
  | downSocket =>
    simp only [hpc] at hst
    cases hst
    split_ifs
    · exact ⟨h.start.same hpc rfl, h.down.same hpc rfl⟩
    · refine ⟨h.start.same hpc rfl, h.down.set hpc ?_ fun hd => ⟨hd, ?_⟩⟩
      · exact Nat.le_add_right _ 1
      · exact Nat.le_add_right _ 1
  | downCb =>
    simp only [hpc] at hst
    cases hst
    exact ⟨h.start.same hpc rfl, h.down.set hpc le_rfl fun hd => ⟨hd, le_rfl⟩⟩

theorem enter_once {s s' : System τ α} {t : τ} {x : Pc α} (h : Once s)
    (hstart : x.startParts = (false, false)) (hdown : x.downParts = (false, false))
    (hst : s.enter t x = some s') : Once s' := by
  obtain ⟨hpc, rfl⟩ := enter_eq_some hst
  exact ⟨h.start.same hpc hstart, h.down.same hpc hdown⟩

omit [DecidableEq τ] in
theorem loopStep_once {s s' : System τ α} {i : ℕ} {ec : BoostEc} (h : Once s)
    (hst : s.loopStep i ec = some s') : Once s' := by
  rw [loopStep] at hst
  split at hst
  · cases hst
    exact ⟨h.start, h.down⟩
  · split_ifs at hst <;> cases hst <;> exact ⟨h.start, h.down⟩
  · cases hst
    exact ⟨h.start, h.down⟩
  · cases hst
    exact ⟨h.start, h.down⟩
  · cases hst
  · cases hst

theorem step_once {s s' : System τ α} {a : Act τ α} (h : Once s) (hok : s.Serial a)
    (hst : s.step a = some s') : Once s' := by
  cases a with
  | goStart t addr => exact enter_once h rfl rfl hst
  | send t destition bytes => exact enter_once h rfl rfl hst
  | connect t addr => exact enter_once h rfl rfl hst
  | shutdown t => exact enter_once h rfl rfl hst
  | advance t ec n => exact advance_once h hok hst
  | loop i ec => exact loopStep_once h hst

/-- **Sockets and receive loops.**  In every run of callers and loops `socket_` is not used
before there is a socket; as many loops have been started as sockets created, but for the
`goStart` calls that have not come to it; a loop ends only after `Shutdown`, and begins at
most one call of `receive_cb_` after that. -/
theorem sockets_and_loops {s : System τ α} (hs : Reach Init step s) :
    s.fault = false ∧ s.loops.length + s.callers.count Pc.starting = s.created ∧
      ∀ i, (s.loops[i]? = some .exited → s.impl.shutdown_ = true) ∧ s.late i ≤ 1 := by
  have h := reach_inv hs
  exact ⟨h.noFault, h.count, fun i => ⟨h.loop.exited i, h.loop.once i⟩⟩

/-- A new point with all callbacks set. -/
def fresh : System Bool ℕ where
  impl := ⟨0, 0, none, false, false⟩
  opt_ := ⟨true, true, true⟩
  callers := Pool.empty
  loops := []
  result := fun _ => .success
  created := 0
  disconnects := 0
  late := fun _ => 0
  fault := false

theorem fresh_init : Init fresh :=
  ⟨rfl, rfl, rfl, rfl, rfl, rfl, rfl, fun _ => rfl, rfl⟩

/-- `n` steps of a caller; the system sends all five bytes. -/
def go (t : Bool) (n : ℕ) : List (Act Bool ℕ) := List.replicate n (.advance t .success 5)

/-- Two callers pass the test of `init_` before one has set it, and later that of `shutdown_`;
the first receive loop waits on the socket that the second `goStart` has closed. -/
def overtaken : List (Act Bool ℕ) :=
  [.goStart false 7, .goStart true 8] ++ go false 1 ++ go true 1 ++ go false 4 ++
    [.loop 0 .success] ++ go true 4 ++ [.loop 1 .success, .shutdown false, .shutdown true] ++
    go false 2 ++ go true 2 ++ go false 3 ++ go true 3 ++ [.loop 1 .success]

theorem sockets_and_loops_overtaken : ∃ s, exec step fresh overtaken = some s ∧
    s.loops = [.receiving 0, .calling] ∧ s.impl.socket_ = some 1 ∧ s.created = 2 ∧
    s.disconnects = 2 ∧ s.late 1 = 1 ∧ s.fault = false ∧ s.callers.count Pc.starting = 0 := by
  have hrun : ((exec step fresh overtaken).map fun s =>
      (s.loops, s.impl.socket_, s.created, s.disconnects, s.late 1)) =
      some ([.receiving 0, .calling], some 1, 2, 2, 1) := by decide +kernel
  obtain ⟨s, hs, hobs⟩ := Option.map_eq_some_iff.mp hrun
  simp only [Prod.mk.injEq] at hobs
  obtain ⟨hloops, hsocket, hcreated, hdisc, hlate⟩ := hobs
  have h := sockets_and_loops (reach_exec overtaken (.start fresh_init) hs)
  have hcount := h.2.1
  rw [hloops, hcreated] at hcount
  exact ⟨s, hs, hloops, hsocket, hcreated, hdisc, hlate, h.1, Nat.add_left_cancel hcount⟩

/-- **One socket, one goodbye.**  Where nobody is overtaken, one socket is created at most, so
no loop receives from one that has been replaced, and one call of `disconnect_cb_` is made
at most. -/
theorem serial_once {s : System τ α} (hs : ReachIf Init step Serial s) :
    s.created ≤ 1 ∧ s.loops.length ≤ 1 ∧
      (∀ i k : ℕ, s.loops[i]? = some (.receiving k) → s.impl.socket_ = some k) ∧
      s.disconnects ≤ 1 := by
  have h := reach_inv (hs.mono fun _ _ _ => trivial)
  have honce : Once s := ReachIf.invariant (fun _ h => once_init h)
    (fun _ _ _ h hok hst => step_once h hok hst) s hs
  have hone := honce.start.one
  have hcount := h.count
  have hdown := honce.down.one
  refine ⟨by omega, by omega, fun i k hk => ?_, by omega⟩
  have hk := h.handles i k hk
  exact (h.socket k).mpr (by omega)

/-- `Send` starts the point, the loop waits for a datagram, and two `Shutdown` follow one
another. -/
def sendAndShutdown : List (Act Bool ℕ) :=
  [.send false none 5, .goStart true 8] ++ go false 6 ++ [.loop 0 .success] ++ go false 1 ++
    go true 1 ++ [.shutdown false] ++ go false 5 ++ [.shutdown true] ++ go true 2

theorem serial_once_sendAndShutdown : ∃ s, execIf step Serial fresh sendAndShutdown = some s ∧
    s.loops = [.receiving 0] ∧ s.impl.socket_ = some 0 ∧ s.created = 1 ∧ s.disconnects = 1 ∧
    s.result true = makeNetworkErrorCode .ecEstab := by
  have hrun : ((execIf step Serial fresh sendAndShutdown).map fun s =>
      (s.loops, s.created, s.disconnects, s.result true)) =
      some ([.receiving 0], 1, 1, makeNetworkErrorCode .ecEstab) := by decide +kernel
  obtain ⟨s, hs, hobs⟩ := Option.map_eq_some_iff.mp hrun
  simp only [Prod.mk.injEq] at hobs
  obtain ⟨hloops, hcreated, hdisc, hresult⟩ := hobs
  have h := serial_once (reachIf_exec sendAndShutdown (.start fresh_init) hs)
  exact ⟨s, hs, hloops, h.2.2.1 0 0 (by rw [hloops]; rfl), hcreated, hdisc, hresult⟩

end System

end Udp
