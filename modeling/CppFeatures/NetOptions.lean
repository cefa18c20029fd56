/-
The options of a `Server` or `Client` (network/option.h, network/network.cpp,
network/udp_detail.cpp): how they reach the implementation.

The options are kept three times over, in the `Server` or `Client` itself, in the point
that it creates and in the implementation inside the point.  A setter writes along the
links from one to the next and calls a hook at each object; `Link` copies all options at
once, without a hook.  The links are plain pointers, while points and implementations are
destroyed with their last `shared_ptr`.

* `Setter`, `Net.set`, `Net.link` — `OptionsBase`;
* `Net.goStart`, `Net.connect`, `Net.shutdown` — the calls of `Server` and `Client`;
* `Net.Inv` — which objects are alive, and what they are linked to;
* `Net.recvBuf_follows_iff` — when a receive buffer has the size that was set;
* `Net.links_alive_iff` — when no link is left to a destroyed object.
-/
import CppFeatures.Endpoint
import CppFeatures.Runs

namespace Network

open Function Http

/-! ### Options -/

structure OptionsUser where
  sndtimeo_ : Int32 := 0
  maxPackSize_ : UInt32 := 4096
deriving DecidableEq, Repr

/-- `OptionsData`, for callbacks of type `κ`; `none` is an empty function. -/
structure OptionsData (κ : Type*) extends OptionsUser where
  connectCb_ : Option κ := none
  receiveCb_ : Option κ := none
  disconnectCb_ : Option κ := none
deriving DecidableEq, Repr

variable {κ : Type*}

/-- A call of one of the setters. -/
inductive Setter (κ : Type*)
  | setConnectedCb (cb : Option κ)
  | setReceiveCb (cb : Option κ)
  | setDisconnectedCb (cb : Option κ)
  | setSndTimeout (sndtimeo : Int32)
  | setMaxPackSize (maxPackSize : UInt32)
deriving DecidableEq, Repr

/-- The member of `opt_` that a setter writes. -/
def Setter.write (opt : OptionsData κ) : Setter κ → OptionsData κ
  | .setConnectedCb cb => { opt with connectCb_ := cb }
  | .setReceiveCb cb => { opt with receiveCb_ := cb }
  | .setDisconnectedCb cb => { opt with disconnectCb_ := cb }
  | .setSndTimeout sndtimeo => { opt with sndtimeo_ := sndtimeo }
  | .setMaxPackSize maxPackSize => { opt with maxPackSize_ := maxPackSize }

/-! ### The objects -/

/-- The two protocols that are implemented. -/
inductive Transport
  | tcp
  | udp
deriving DecidableEq, Repr

/-- A `TcpServerImpl`, `TcpClientImpl` or `UdpPointImpl`: nothing is linked to it.
`recvBuf_` is the size of the `recv_buf_` of a `UdpPointImpl`. -/
structure Impl (κ : Type*) where
  opt_ : OptionsData κ
  recvBuf_ : Option ℕ
deriving DecidableEq, Repr

namespace Impl

def new : Transport → Impl κ
  | .tcp => ⟨{}, none⟩
  | .udp =>
    let opt : OptionsData κ := {}
    ⟨opt, some opt.maxPackSize_.toNat⟩

-- `OnSetMaxPackSize` of a `UdpPointImpl`; the other hooks do nothing
def onSet (o : Impl κ) : Setter κ → Impl κ
  | .setMaxPackSize _ => { o with recvBuf_ := o.recvBuf_.map fun _ => o.opt_.maxPackSize_.toNat }
  | _ => o

def set (x : Setter κ) (o : Impl κ) : Impl κ := { o with opt_ := x.write o.opt_ }.onSet x

-- `o->opt_ = this->opt_`
def copy (opt : OptionsData κ) (o : Impl κ) : Impl κ := { o with opt_ := opt }

/-- The buffer has the size that is set. -/
def Sized (o : Impl κ) : Prop := ∀ n ∈ o.recvBuf_, n = o.opt_.maxPackSize_.toNat

/-- A setter changes the buffer with the size, whatever they were. -/
theorem Sized.set {o : Impl κ} {x : Setter κ} (h : o.Sized) : (o.set x).Sized := by
  cases x with
  | setMaxPackSize n =>
    intro m hm
    obtain ⟨-, -, rfl⟩ := Option.mem_map.mp hm
    rfl
  | _ => exact h

theorem sized_new (proto : Transport) : (new proto : Impl κ).Sized := by
  intro n hn
  cases proto with
  | tcp => cases hn
  | udp =>
    cases hn
    rfl

/-- Other options, copied into a new implementation, leave its buffer as it is. -/
theorem sized_copy_iff (proto : Transport) (opt : OptionsData κ) :
    ((new proto).copy opt).Sized ↔ (proto = .udp → opt.maxPackSize_ = 4096) := by
  cases proto with
  | tcp => exact iff_of_true nofun nofun
  | udp =>
    constructor
    · intro h _
      have hsize : 4096 = opt.maxPackSize_.toNat := h 4096 rfl
      exact UInt32.toNat_inj.mp hsize.symm
    · intro h n hn
      cases hn
      show 4096 = opt.maxPackSize_.toNat
      rw [h rfl]
      rfl

end Impl

/-- A `TcpServer`, `TcpClient` or `UdpPoint`, with the implementation that it owns. -/
structure Point (κ : Type*) where
  opt_ : OptionsData κ
  lnks_ : List ℕ
  impl_ : ℕ
deriving DecidableEq, Repr

/-- A `Server` or `Client`, and the objects of the program: points and implementations that
are alive, by identity, and the points that the program owns itself. -/
structure Net (κ : Type*) where
  opt_ : OptionsData κ := {}
  lnks_ : List ℕ := []
  protocol_ : Option Transport := none
  impl_ : Option ℕ := none
  points : ℕ → Option (Point κ) := fun _ => none
  impls : ℕ → Option (Impl κ) := fun _ => none
  owned : List ℕ := []
  next : ℕ := 0

namespace Net

/-! ### `OptionsBase`

`none` is an access to an object that has been destroyed. -/

def setImpl (x : Setter κ) (s : Net κ) (i : ℕ) : Option (Net κ) :=
  (s.impls i).map fun o => { s with impls := update s.impls i (some (o.set x)) }

def setPoint (x : Setter κ) (s : Net κ) (p : ℕ) : Option (Net κ) :=
  (s.points p).bind fun o =>
    exec (setImpl x)
      { s with points := update s.points p (some { o with opt_ := x.write o.opt_ }) } o.lnks_

def set (x : Setter κ) (s : Net κ) : Option (Net κ) :=
  exec (setPoint x) { s with opt_ := x.write s.opt_ } s.lnks_

def copyTo (opt : OptionsData κ) (s : Net κ) (i : ℕ) : Option (Net κ) :=
  (s.impls i).map fun o => { s with impls := update s.impls i (some (o.copy opt)) }

/-- `OnLink` of a point. -/
def onLink (s : Net κ) (p : ℕ) : Option (Net κ) :=
  (s.points p).bind fun o => exec (copyTo o.opt_) s o.lnks_

/-- `Link` of the `Server` or `Client` to a point. -/
def link (s : Net κ) (p : ℕ) : Option (Net κ) :=
  (s.points p).bind fun o =>
    { s with
      points := update s.points p (some { o with opt_ := s.opt_ })
      lnks_ := s.lnks_ ++ [p] }.onLink p

/-! ### `Server` and `Client` -/

/-- The protocol of a URL. -/
def transport (url : Bytes) : Except BoostEc Transport :=
  match Endpoint.fromString url with
  | .error ec => .error ec
  | .ok ep =>
    match ep.proto_ with
    | .tcp => .ok .tcp
    | .udp => .ok .udp
    | _ => .error (makeNetworkErrorCode .ecUnsupportProtocol)

/-- Room for a point and its implementation, with the link between them. -/
def alloc (opt : OptionsData κ) (o : Impl κ) (s : Net κ) : Net κ :=
  { s with
    points := update s.points s.next (some ⟨opt, [s.next], s.next⟩)
    impls := update s.impls s.next (some o)
    next := s.next + 1 }

/-- A new point, whose constructor links it to a new implementation: the options are the
default ones in both. -/
def create (proto : Transport) (s : Net κ) : Net κ := s.alloc {} (.new proto)

/-- `impl_` lets go of its point, which nobody else owns. -/
def release (s : Net κ) : Net κ :=
  match s.impl_ with
  | some p => { s with impl_ := none, points := update s.points p none }
  | none => s

/-- The assignment of a new point to `impl_`, and the link to it. -/
def start (proto : Transport) (s : Net κ) : Option (Net κ) :=
  let s' := { (s.create proto).release with protocol_ := some proto, impl_ := some s.next }
  s'.link s.next

/-- `Server::goStart`, and the error that it returns before it creates anything: otherwise it
returns what the implementation does. -/
def goStart (url : Bytes) (s : Net κ) : Option (Net κ × Option BoostEc) :=
  match transport url with
  | .error ec => some (s, some ec)
  | .ok proto => (s.start proto).map fun s' => (s', none)

/-- What a `Connect` meets: whether it gets the lock, and whether the TCP session stands. -/
structure ConnectEnv where
  tryLock : Bool
  sessEstab : Bool
deriving DecidableEq, Repr

/-- `IsEstab`, for the session of `impl_`. -/
def isEstab (s : Net κ) (e : ConnectEnv) : Bool :=
  s.impl_.isSome && match s.protocol_ with
    | some .tcp => e.sessEstab
    | some .udp => true
    | none => false

/-- `Client::Connect`; past its two tests it is `Server::goStart`. -/
def connect (url : Bytes) (e : ConnectEnv) (s : Net κ) : Option (Net κ × Option BoostEc) :=
  if e.tryLock = false then some (s, some (makeNetworkErrorCode .ecConnecting))
  else if s.isEstab e then some (s, some (makeNetworkErrorCode .ecEstab))
  else s.goStart url

def shutdown (s : Net κ) : Net κ := s.release

/-- Which of the two the object is. -/
inductive Top
  | server
  | client
deriving DecidableEq, Repr

inductive Act (κ : Type*)
  | set (x : Setter κ)
  | goStart (url : Bytes)
  | connect (url : Bytes) (e : ConnectEnv)
  | shutdown
  -- a point of the program's own
  | newPoint (proto : Transport)
  | setPoint (p : ℕ) (x : Setter κ)
  | deletePoint (p : ℕ)
  -- the last `shared_ptr` to an implementation outside the points
  | dropImpl (i : ℕ)
deriving DecidableEq, Repr

def step (top : Top) (s : Net κ) : Act κ → Option (Net κ)
  | .set x => s.set x
  | .goStart url => if top = .server then (s.goStart url).map Prod.fst else none
  | .connect url e => if top = .client then (s.connect url e).map Prod.fst else none
  | .shutdown => some s.shutdown
  | .newPoint proto => some { s.create proto with owned := s.next :: s.owned }
  | .setPoint p x => if p ∈ s.owned then s.setPoint x p else none
  | .deletePoint p =>
    if p ∈ s.owned then
      some { s with
        points := update s.points p none
        owned := s.owned.filter (· != p) }
    else none
  | .dropImpl i =>
    if (List.range s.next).all fun p => (s.points p).all (·.impl_ != i) then
      some { s with impls := update s.impls i none }
    else none

/-! ### What a setter changes -/

variable {s s' : Net κ} {x : Setter κ} {top : Top} {a : Act κ} {proto : Transport}

/-- The objects that are alive and their links, without the options. -/
structure Shape where
  lnks_ : List ℕ
  impl_ : Option ℕ
  points : ℕ → Option (List ℕ × ℕ)
  impls : ℕ → Bool
  owned : List ℕ
  next : ℕ

def shape (s : Net κ) : Shape where
  lnks_ := s.lnks_
  impl_ := s.impl_
  points := Option.map (fun o => (o.lnks_, o.impl_)) ∘ s.points
  impls := Option.isSome ∘ s.impls
  owned := s.owned
  next := s.next

/-- Every receive buffer has the size that is set in its implementation. -/
def Sized (s : Net κ) : Prop := ∀ i, ∀ o ∈ s.impls i, o.Sized

/-- An update that a function of the values does not see. -/
theorem comp_update_eq {β γ : Type*} {f : β → γ} {g : ℕ → β} {i : ℕ} {b : β} (h : f b = f (g i)) :
    f ∘ update g i b = f ∘ g := by
  rw [Function.comp_update, h]
  exact update_eq_self i (f ∘ g)

theorem sized_update (h : s.Sized) {i : ℕ} {o : Option (Impl κ)} (ho : ∀ o' ∈ o, o'.Sized) :
    ({ s with impls := update s.impls i o } : Net κ).Sized := by
  intro j o' hj
  change o' ∈ update s.impls i o j at hj
  rw [update_apply] at hj
  split_ifs at hj
  · exact ho o' hj
  · exact h j o' hj

theorem shape_setImpl {i : ℕ} (h : s.setImpl x i = some s') : s'.shape = s.shape := by
  obtain ⟨o, ho, rfl⟩ := Option.map_eq_some_iff.mp h
  have himpls : Option.isSome ∘ update s.impls i (some (o.set x)) = Option.isSome ∘ s.impls :=
    comp_update_eq (by rw [ho]; rfl)
  rw [shape, himpls, shape]

theorem Sized.setImpl {i : ℕ} (hs : s.Sized) (h : s.setImpl x i = some s') : s'.Sized := by
  obtain ⟨o, ho, rfl⟩ := Option.map_eq_some_iff.mp h
  refine sized_update hs fun o' ho' => ?_
  cases ho'
  exact (hs i o ho).set

/-- **A setter of a point** writes options only, and keeps buffers in step with them. -/
theorem setPoint_keeps {p : ℕ} (h : s.setPoint x p = some s') :
    s'.shape = s.shape ∧ (s.Sized → s'.Sized) := by
  obtain ⟨o, ho, h⟩ := Option.bind_eq_some_iff.mp h
  have hpoints : Option.map (fun o : Point κ => (o.lnks_, o.impl_)) ∘
      update s.points p (some { o with opt_ := x.write o.opt_ })
        = Option.map (fun o => (o.lnks_, o.impl_)) ∘ s.points :=
    comp_update_eq (by rw [ho]; rfl)
  refine exec_invariant (P := fun t => t.shape = s.shape ∧ (s.Sized → t.Sized)) ?_ _ ?_ h
  · rintro t t' i ⟨hshape, hsized⟩ hst
    exact ⟨(shape_setImpl hst).trans hshape, fun hs => (hsized hs).setImpl hst⟩
  · refine ⟨?_, fun hs => hs⟩
    rw [shape, hpoints, shape]

/-- **A setter** writes options only, and keeps buffers in step with them. -/
theorem set_keeps (h : s.set x = some s') : s'.shape = s.shape ∧ (s.Sized → s'.Sized) := by
  refine exec_invariant (P := fun t => t.shape = s.shape ∧ (s.Sized → t.Sized)) ?_ _ ?_ h
  · rintro t t' p ⟨hshape, hsized⟩ hst
    obtain ⟨hshape', hsized'⟩ := setPoint_keeps hst
    exact ⟨hshape'.trans hshape, fun hs => hsized' (hsized hs)⟩
  · exact ⟨rfl, fun hs => hs⟩

/-! ### What a step changes -/

/-- The state after `start`: a new point and a new implementation, with the options of the
`Server` or `Client`. -/
def started (proto : Transport) (s : Net κ) : Net κ :=
  { s.release.alloc s.opt_ ((Impl.new proto).copy s.opt_) with
    lnks_ := s.lnks_ ++ [s.next]
    protocol_ := some proto
    impl_ := some s.next }

theorem start_eq (h : s.impl_ ≠ some s.next) : s.start proto = some (s.started proto) := by
  cases himpl : s.impl_ with
  | none =>
    simp [start, started, create, alloc, release, link, onLink, copyTo, exec, himpl]
  | some p =>
    have hne : s.next ≠ p := by
      rintro rfl
      exact h himpl
    simp [start, started, create, alloc, release, link, onLink, copyTo, exec, himpl,
      update_comm hne]

/-- The transport of the point that a call creates and links, if it comes so far. -/
def starts (top : Top) (s : Net κ) : Act κ → Option Transport
  | .goStart url => if top = .server then (transport url).toOption else none
  | .connect url e =>
    if top = .client ∧ e.tryLock = true ∧ s.isEstab e = false then (transport url).toOption else none
  | _ => none

/-- **What a call does** to the objects. -/
inductive Change (top : Top) (s : Net κ) : Act κ → Net κ → Prop
  | options {a : Act κ} {s' : Net κ} : s.starts top a = none → a ≠ .shutdown →
      s'.shape = s.shape → (s.Sized → s'.Sized) → Change top s a s'
  | started {a : Act κ} (proto : Transport) : s.starts top a = some proto →
      Change top s a (s.started proto)
  | released : Change top s .shutdown s.release
  | newPoint (proto : Transport) :
      Change top s (.newPoint proto) { s.create proto with owned := s.next :: s.owned }
  | deletePoint {p : ℕ} : p ∈ s.owned → Change top s (.deletePoint p) { s with
      points := update s.points p none
      owned := s.owned.filter (· != p) }
  | dropImpl {i : ℕ} : (∀ p < s.next, ∀ o ∈ s.points p, o.impl_ ≠ i) →
      Change top s (.dropImpl i) { s with impls := update s.impls i none }

theorem change_goStart (h : s.impl_ ≠ some s.next) {url : Bytes}
    (hstarts : s.starts top a = (transport url).toOption) (ha : a ≠ .shutdown)
    (hst : (s.goStart url).map Prod.fst = some s') : Change top s a s' := by
  rw [goStart] at hst
  cases htrans : transport url with
  | error ec =>
    rw [htrans] at hst hstarts
    cases hst
    exact .options hstarts ha rfl id
  | ok proto =>
    rw [htrans] at hst hstarts
    dsimp only at hst
    rw [start_eq h] at hst
    cases hst
    exact .started proto hstarts

theorem step_change (h : s.impl_ ≠ some s.next) (hst : step top s a = some s') :
    Change top s a s' := by
  cases a with
  | set x =>
    obtain ⟨hshape, hsized⟩ := set_keeps hst
    exact .options rfl nofun hshape hsized
  | goStart url =>
    rw [step] at hst
    split_ifs at hst with htop
    exact change_goStart h (if_pos htop) nofun hst
  | connect url e =>
    rw [step, connect] at hst
    split_ifs at hst with htop hlock hestab
    · cases hst
      refine .options (if_neg ?_) nofun rfl id
      rintro ⟨-, hlock', -⟩
      rw [hlock] at hlock'
      cases hlock'
    · cases hst
      refine .options (if_neg ?_) nofun rfl id
      rintro ⟨-, -, hestab'⟩
      rw [hestab] at hestab'
      cases hestab'
    · have hcond : top = .client ∧ e.tryLock = true ∧ s.isEstab e = false :=
        ⟨htop, Bool.eq_true_of_not_eq_false hlock, Bool.eq_false_of_not_eq_true hestab⟩
      exact change_goStart h (if_pos hcond) nofun hst
  | shutdown =>
    cases hst
    exact .released
  | newPoint proto =>
    cases hst
    exact .newPoint proto
  | setPoint p x =>
    rw [step] at hst
    split_ifs at hst
    obtain ⟨hshape, hsized⟩ := setPoint_keeps hst
    exact .options rfl nofun hshape hsized
  | deletePoint p =>
    rw [step] at hst
    split_ifs at hst with hp
    cases hst
    exact .deletePoint hp
  | dropImpl i =>
    rw [step] at hst
    split_ifs at hst with hfree
    cases hst
    refine .dropImpl fun p hp o ho => ?_
    have hall := List.all_eq_true.mp hfree p (List.mem_range.mpr hp)
    rw [Option.mem_def.mp ho] at hall
    exact bne_iff_ne.mp hall

/-! ### Which objects are alive -/

/-- The objects between two calls. -/
structure Inv (s : Net κ) : Prop where
  lt : ∀ p, (s.points p).isSome → p < s.next
  -- a point has one link, to the implementation that it owns
  point : ∀ p, ∀ o ∈ s.points p, o.lnks_ = [o.impl_] ∧ (s.impls o.impl_).isSome
  alive : ∀ p, (s.points p).isSome ↔ s.impl_ = some p ∨ p ∈ s.owned
  impl_mem : ∀ p ∈ s.impl_, p ∈ s.lnks_
  lnks : ∀ p ∈ s.lnks_, p < s.next ∧ p ∉ s.owned

theorem Inv.impl_ne (h : s.Inv) : s.impl_ ≠ some s.next := by
  intro himpl
  have hlt := (h.lnks s.next (h.impl_mem s.next himpl)).1
  exact Nat.lt_irrefl _ hlt

theorem inv_new : ({} : Net κ).Inv where
  lt := nofun
  point := nofun
  alive := fun _ => iff_of_false nofun nofun
  impl_mem := nofun
  lnks := nofun

theorem Inv.of_shape (h : s.Inv) (hshape : s'.shape = s.shape) : s'.Inv := by
  have hlnks : s'.lnks_ = s.lnks_ := congrArg Shape.lnks_ hshape
  have himpl : s'.impl_ = s.impl_ := congrArg Shape.impl_ hshape
  have howned : s'.owned = s.owned := congrArg Shape.owned hshape
  have hnext : s'.next = s.next := congrArg Shape.next hshape
  have hpoints : ∀ p, (s'.points p).map (fun o => (o.lnks_, o.impl_))
      = (s.points p).map fun o => (o.lnks_, o.impl_) := congrFun (congrArg Shape.points hshape)
  have himpls : ∀ i, (s'.impls i).isSome = (s.impls i).isSome :=
    congrFun (congrArg Shape.impls hshape)
  have hsome : ∀ p, (s'.points p).isSome = (s.points p).isSome := by
    intro p
    have := congrArg Option.isSome (hpoints p)
    rwa [Option.isSome_map, Option.isSome_map] at this
  constructor
  · intro p hp
    rw [hnext]
    exact h.lt p (hsome p ▸ hp)
  · intro p o ho
    have hmem := hpoints p
    rw [Option.mem_def.mp ho, Option.map_some, eq_comm, Option.map_eq_some_iff] at hmem
    obtain ⟨o', ho', heq⟩ := hmem
    obtain ⟨hl, hi⟩ := Prod.mk.inj heq
    rw [← hl, ← hi, himpls]
    exact h.point p o' ho'
  · intro p
    rw [hsome, himpl, howned]
    exact h.alive p
  · rw [himpl, hlnks]
    exact h.impl_mem
  · rw [hlnks, hnext, howned]
    exact h.lnks

theorem isSome_points_alloc {opt : OptionsData κ} {o : Impl κ} {p : ℕ} :
    ((s.alloc opt o).points p).isSome ↔ p = s.next ∨ (s.points p).isSome := by
  show (update s.points s.next _ p).isSome ↔ _
  rw [update_apply]
  split_ifs with hp
  · exact iff_of_true rfl (.inl hp)
  · rw [or_iff_right hp]

/-- **New objects**, which their owner may link or keep to itself. -/
theorem Inv.alloc (h : s.Inv) (opt : OptionsData κ) (o : Impl κ) :
    (∀ p, ((s.alloc opt o).points p).isSome → p < (s.alloc opt o).next) ∧
      ∀ p, ∀ o' ∈ (s.alloc opt o).points p, o'.lnks_ = [o'.impl_] ∧
        ((s.alloc opt o).impls o'.impl_).isSome := by
  constructor
  · intro p hp
    rcases isSome_points_alloc.mp hp with rfl | hp
    · exact Nat.lt_succ_self _
    · exact Nat.lt_succ_of_lt (h.lt p hp)
  · intro p o' ho'
    change o' ∈ update s.points s.next _ p at ho'
    show _ ∧ (update s.impls s.next (some o) o'.impl_).isSome
    rw [update_apply] at ho' ⊢
    split_ifs at ho' with hp
    · cases ho'
      exact ⟨rfl, by rw [if_pos rfl]; rfl⟩
    · obtain ⟨hlnks, himpl⟩ := h.point p o' ho'
      refine ⟨hlnks, ?_⟩
      split_ifs
      · rfl
      · exact himpl

theorem isSome_points_delete {p q : ℕ} :
    (update s.points p none q).isSome ↔ q ≠ p ∧ (s.points q).isSome := by
  rw [update_apply]
  split_ifs with hq
  · exact iff_of_false nofun fun h => h.1 hq
  · rw [and_iff_right hq]

/-- **A point less**, which only its owner knows to be gone. -/
theorem Inv.delete (h : s.Inv) (p : ℕ) :
    (∀ q, (update s.points p none q).isSome → q < s.next) ∧
      ∀ q, ∀ o ∈ update s.points p none q, o.lnks_ = [o.impl_] ∧
        (s.impls o.impl_).isSome := by
  constructor
  · intro q hq
    exact h.lt q (isSome_points_delete.mp hq).2
  · intro q o ho
    rw [update_apply] at ho
    split_ifs at ho
    · cases ho
    · exact h.point q o ho

theorem Inv.release (h : s.Inv) : s.release.Inv := by
  rw [Net.release]
  cases himpl : s.impl_ with
  | none => exact h
  | some p =>
    have hp := h.lnks p (h.impl_mem p himpl)
    obtain ⟨hlt, hpoint⟩ := h.delete p
    refine ⟨hlt, hpoint, fun q => ?_, nofun, h.lnks⟩
    show (update s.points p none q).isSome ↔ none = some q ∨ q ∈ s.owned
    rw [isSome_points_delete, h.alive q, himpl, Option.some_inj]
    constructor
    · rintro ⟨hq, rfl | howned⟩
      · exact absurd rfl hq
      · exact .inr howned
    · rintro (hq | howned)
      · cases hq
      · refine ⟨?_, .inr howned⟩
        rintro rfl
        exact hp.2 howned

theorem release_impl (s : Net κ) : s.release.impl_ = none := by
  rw [release]
  split
  · rfl
  · assumption

theorem release_rest (s : Net κ) : s.release.lnks_ = s.lnks_ ∧ s.release.owned = s.owned ∧
    s.release.next = s.next ∧ s.release.impls = s.impls := by
  rw [release]
  split <;> exact ⟨rfl, rfl, rfl, rfl⟩

theorem Inv.started (h : s.Inv) (proto : Transport) : (s.started proto).Inv := by
  obtain ⟨hlnks, howned, hnext, himpls⟩ := release_rest s
  obtain ⟨hlt, hpoint⟩ := h.release.alloc s.opt_ ((Impl.new proto).copy s.opt_)
  refine ⟨hlt, hpoint, fun p => ?_, fun p hp => ?_, fun p hp => ?_⟩
  · show ((s.release.alloc s.opt_ ((Impl.new proto).copy s.opt_)).points p).isSome ↔
      some s.next = some p ∨ p ∈ s.release.owned
    rw [isSome_points_alloc, h.release.alive, release_impl, hnext, Option.some_inj, eq_comm]
    simp only [reduceCtorEq, false_or]
  · cases hp
    exact List.mem_append_right _ (List.mem_singleton.mpr rfl)
  · show p < s.release.next + 1 ∧ p ∉ s.release.owned
    rw [hnext, howned]
    rcases List.mem_append.mp hp with hp | hp
    · exact ⟨Nat.lt_succ_of_lt (h.lnks p hp).1, (h.lnks p hp).2⟩
    · rw [List.mem_singleton.mp hp]
      refine ⟨Nat.lt_succ_self _, fun hmem => ?_⟩
      exact Nat.lt_irrefl _ (h.lt s.next ((h.alive s.next).mpr (.inr hmem)))

/-- **Every step** keeps the objects and their links as they should be. -/
theorem Inv.change (h : s.Inv) (hc : Change top s a s') : s'.Inv := by
  cases hc with
  | options _ _ hshape _ => exact h.of_shape hshape
  | started proto _ => exact h.started proto
  | released => exact h.release
  | newPoint proto =>
    obtain ⟨hlt, hpoint⟩ := h.alloc {} (.new proto)
    refine ⟨hlt, hpoint, fun p => ?_, h.impl_mem, fun p hp => ?_⟩
    · show ((s.alloc {} (.new proto)).points p).isSome ↔ s.impl_ = some p ∨ p ∈ s.next :: s.owned
      rw [isSome_points_alloc, h.alive, List.mem_cons, or_left_comm]
    · obtain ⟨hlt, howned⟩ := h.lnks p hp
      refine ⟨Nat.lt_succ_of_lt hlt, fun hmem => ?_⟩
      rcases List.mem_cons.mp hmem with rfl | hmem
      · exact Nat.lt_irrefl _ hlt
      · exact howned hmem
  | @deletePoint p hp =>
    obtain ⟨hlt, hpoint⟩ := h.delete p
    refine ⟨hlt, hpoint, fun q => ?_, h.impl_mem, fun q hq => ?_⟩
    · show (update s.points p none q).isSome ↔
        s.impl_ = some q ∨ q ∈ s.owned.filter (· != p)
      rw [isSome_points_delete, h.alive, List.mem_filter, bne_iff_ne]
      constructor
      · rintro ⟨hq, himpl | howned⟩
        · exact .inl himpl
        · exact .inr ⟨howned, hq⟩
      · rintro (himpl | ⟨howned, hq⟩)
        · refine ⟨?_, .inl himpl⟩
          rintro rfl
          exact (h.lnks q (h.impl_mem q himpl)).2 hp
        · exact ⟨hq, .inr howned⟩
    · obtain ⟨hlt, howned⟩ := h.lnks q hq
      exact ⟨hlt, fun hmem => howned (List.mem_filter.mp hmem).1⟩
  | @dropImpl i hfree =>
    refine ⟨h.lt, fun p o ho => ?_, h.alive, h.impl_mem, h.lnks⟩
    obtain ⟨hlnks, himpl⟩ := h.point p o ho
    have hne := hfree p (h.lt p (Option.isSome_of_mem ho)) o ho
    refine ⟨hlnks, ?_⟩
    show (update s.impls i none o.impl_).isSome
    rwa [update_of_ne hne]

theorem step_inv (h : s.Inv) (hst : step top s a = some s') : s'.Inv :=
  h.change (step_change h.impl_ne hst)

/-! ### The receive buffer -/

theorem sized_alloc_iff (h : s.Sized) (opt : OptionsData κ) (o : Impl κ) :
    (s.alloc opt o).Sized ↔ o.Sized := by
  constructor
  · intro hs
    refine hs s.next o ?_
    show update s.impls s.next (some o) s.next = some o
    rw [update_self]
  · intro ho
    exact sized_update h fun o' ho' => Option.mem_some_iff.mp ho' ▸ ho

theorem sized_release (h : s.Sized) : s.release.Sized := by
  intro i o ho
  rw [(release_rest s).2.2.2] at ho
  exact h i o ho

/-- A call that links a UDP point finds the packet size at its default. -/
def LinksAtDefault (top : Top) (s : Net κ) (a : Act κ) : Prop :=
  s.starts top a = some .udp → s.opt_.maxPackSize_ = 4096

/-- **One step**: only the copy of the options into a new UDP point leaves its buffer behind. -/
theorem sized_change_iff (h : s.Sized) (hc : Change top s a s') :
    s'.Sized ↔ LinksAtDefault top s a := by
  cases hc with
  | options hnone _ _ hsized =>
    refine iff_of_true (hsized h) fun hudp => ?_
    rw [hnone] at hudp
    cases hudp
  | started proto hstarts =>
    have hsized : (s.started proto).Sized ↔ (proto = .udp → s.opt_.maxPackSize_ = 4096) :=
      (sized_alloc_iff (sized_release h) s.opt_ _).trans (Impl.sized_copy_iff proto s.opt_)
    rw [hsized, LinksAtDefault, hstarts, Option.some_inj]
  | released => exact iff_of_true (sized_release h) nofun
  | newPoint proto => exact iff_of_true ((sized_alloc_iff h {} _).mpr (Impl.sized_new proto)) nofun
  | deletePoint => exact iff_of_true h nofun
  | dropImpl => exact iff_of_true (sized_update h nofun) nofun

/-- **Every receive buffer has the size that is set**, in every state of every sequence of calls,
**iff** each UDP point was linked while the packet size was the default one. -/
theorem recvBuf_follows_iff (top : Top) (as : List (Act κ)) :
    Along (step top) Sized ({} : Net κ) as ↔ StepsOk (step top) (LinksAtDefault top) {} as := by
  refine along_iff_stepsOk Inv (fun _ _ _ h => step_inv h) ?_ inv_new nofun as
  intro s s' a hinv hs hst
  exact sized_change_iff hs (step_change hinv.impl_ne hst)

def udpUrl : Bytes := bytes "udp://127.0.0.1:3030"

theorem transport_udpUrl : transport udpUrl = .ok .udp := by
  decide +kernel

/-- A packet size that is set before the start. -/
def setThenStart : List (Act Unit) := [.set (.setMaxPackSize 8192), .goStart udpUrl]

/-- The options of the implementation say 8192, and its buffer has 4096 bytes. -/
theorem recvBuf_left_behind :
    ¬ Along (step .server) Sized {} setThenStart ∧
      ((exec (step .server) {} setThenStart).bind fun s => s.impls 0)
        = some ⟨{ maxPackSize_ := 8192 }, some 4096⟩ := by
  have hgo : ∀ s : Net Unit, s.impl_ ≠ some s.next →
      step .server s (.goStart udpUrl) = some (s.started .udp) := by
    intro s hs
    rw [step, if_pos rfl, goStart, transport_udpUrl]
    dsimp only
    rw [start_eq hs]
    rfl
  have hset : step .server ({} : Net Unit) (.set (.setMaxPackSize 8192))
      = some { opt_ := { maxPackSize_ := 8192 } } := rfl
  have hstart := hgo { opt_ := { maxPackSize_ := 8192 } } nofun
  constructor
  · rintro ⟨-, h⟩
    have hsized := ((h _ hset).2 _ hstart).start
    have hsize : 4096 = 8192 := hsized 0 ⟨{ maxPackSize_ := 8192 }, some 4096⟩ rfl 4096 rfl
    cases hsize
  · rw [setThenStart, exec, hset, Option.bind_some, exec, hstart]
    rfl

/-! ### The links -/

/-- Every link is to an object that is alive. -/
structure LinksAlive (s : Net κ) : Prop where
  top : ∀ p ∈ s.lnks_, (s.points p).isSome
  point : ∀ p, ∀ o ∈ s.points p, ∀ i ∈ o.lnks_, (s.impls i).isSome

/-- Every setter can be called, and writes to objects that are alive. -/
def SetsAlive (s : Net κ) : Prop :=
  ∀ x, (s.set x).isSome ∧ ∀ p ∈ s.owned, (s.setPoint x p).isSome

/-- The links are alive iff `impl_` owns what they are to. -/
theorem Inv.linksAlive_iff (h : s.Inv) : s.LinksAlive ↔ ∀ p ∈ s.lnks_, s.impl_ = some p := by
  constructor
  · intro hl p hp
    exact ((h.alive p).mp (hl.top p hp)).resolve_right (h.lnks p hp).2
  · intro hl
    refine ⟨fun p hp => (h.alive p).mpr (.inl (hl p hp)), fun p o ho i hi => ?_⟩
    obtain ⟨hlnks, himpl⟩ := h.point p o ho
    rw [hlnks, List.mem_singleton] at hi
    rwa [hi]

theorem Inv.setPoint_some (h : s.Inv) {p : ℕ} (hp : (s.points p).isSome) (x : Setter κ) :
    ∃ s', s.setPoint x p = some s' := by
  obtain ⟨o, ho⟩ := Option.isSome_iff_exists.mp hp
  obtain ⟨hlnks, himpl⟩ := h.point p o ho
  obtain ⟨i, hi⟩ := Option.isSome_iff_exists.mp himpl
  rw [setPoint, ho, Option.bind_some, hlnks]
  exact ⟨_, by rw [exec, setImpl, hi]; rfl⟩

theorem Inv.setsAlive (h : s.Inv) (hl : s.LinksAlive) : s.SetsAlive := by
  intro x
  constructor
  · -- the loop over `lnks_`: the setters of earlier points destroy nothing
    have hstep : ∀ t : Net κ, t.shape = s.shape → ∀ p ∈ s.lnks_,
        ∃ t', t.setPoint x p = some t' ∧ t'.shape = s.shape := by
      intro t ht p hp
      have hlive : (t.points p).isSome := by
        rw [((h.of_shape ht).alive p), show t.impl_ = s.impl_ from congrArg Shape.impl_ ht]
        exact .inl (h.linksAlive_iff.mp hl p hp)
      obtain ⟨t', hst⟩ := (h.of_shape ht).setPoint_some hlive x
      exact ⟨t', hst, (setPoint_keeps hst).1.trans ht⟩
    have hinit : ({ s with opt_ := x.write s.opt_ } : Net κ).shape = s.shape := rfl
    obtain ⟨s', hset, -⟩ := exec_total hstep hinit
    exact Option.isSome_iff_exists.mpr ⟨s', hset⟩
  · intro p hp
    exact Option.isSome_iff_exists.mpr (h.setPoint_some ((h.alive p).mpr (.inr hp)) x)

/-- A call while there is a point in `impl_` neither resets it nor starts another. -/
def KeepsImpl (top : Top) (s : Net κ) (a : Act κ) : Prop :=
  s.impl_ ≠ none → a ≠ .shutdown ∧ s.starts top a = none

/-- A link is added to the point that is assigned to `impl_`, and none is ever removed. -/
theorem lnks_change (hc : Change top s a s') : s'.lnks_ = s.lnks_ ∨
    (s'.lnks_ = s.lnks_ ++ [s.next] ∧ s'.impl_ = some s.next) := by
  cases hc with
  | options _ _ hshape _ => exact .inl (congrArg Shape.lnks_ hshape)
  | started _ _ => exact .inr ⟨rfl, rfl⟩
  | released => exact .inl (release_rest s).1
  | newPoint proto => exact .inl rfl
  | deletePoint => exact .inl rfl
  | dropImpl => exact .inl rfl

theorem Inv.keepsImpl_iff (h : s.Inv) (hc : Change top s a s') :
    KeepsImpl top s a ↔ ∀ p, s.impl_ = some p → s'.impl_ = some p := by
  rw [KeepsImpl, Option.ne_none_iff_exists']
  cases hc with
  | options hnone ha hshape _ =>
    have himpl : s'.impl_ = s.impl_ := congrArg Shape.impl_ hshape
    rw [himpl]
    exact iff_of_true (fun _ => ⟨ha, hnone⟩) fun p hp => hp
  | started _ hstarts =>
    constructor
    · intro hkeeps p hp
      have hnone := (hkeeps ⟨p, hp⟩).2
      rw [hstarts] at hnone
      cases hnone
    · rintro hkept ⟨p, hp⟩
      have hnext : some s.next = some p := hkept p hp
      rw [← hnext] at hp
      exact absurd hp h.impl_ne
  | released =>
    constructor
    · intro hkeeps p hp
      exact absurd rfl (hkeeps ⟨p, hp⟩).1
    · rintro hkept ⟨p, hp⟩
      have hnone := hkept p hp
      rw [release_impl] at hnone
      cases hnone
  | newPoint proto => exact iff_of_true (fun _ => ⟨nofun, rfl⟩) fun p hp => hp
  | deletePoint => exact iff_of_true (fun _ => ⟨nofun, rfl⟩) fun p hp => hp
  | dropImpl => exact iff_of_true (fun _ => ⟨nofun, rfl⟩) fun p hp => hp

/-- **No link is left to a destroyed object**, and every setter writes to live objects only, in
every state of every sequence of calls, **iff** no call replaces or resets a point in `impl_`. -/
theorem links_alive_iff (top : Top) (as : List (Act κ)) :
    Along (step top) (fun s => s.LinksAlive ∧ s.SetsAlive) ({} : Net κ) as ↔
      StepsOk (step top) (KeepsImpl top) {} as := by
  have hnew : ({} : Net κ).LinksAlive := ⟨nofun, nofun⟩
  refine along_iff_stepsOk Inv (fun _ _ _ h => step_inv h) ?_ inv_new ⟨hnew, inv_new.setsAlive hnew⟩ as
  rintro s s' a hinv ⟨hl, -⟩ hst
  have hinv' := step_inv hinv hst
  have hc := step_change hinv.impl_ne hst
  have hlnks := lnks_change hc
  rw [hinv.keepsImpl_iff hc]
  constructor
  · rintro ⟨hl', -⟩ p himpl
    refine hinv'.linksAlive_iff.mp hl' p ?_
    have hp := hinv.impl_mem p himpl
    rcases hlnks with hlnks | ⟨hlnks, -⟩
    · rwa [hlnks]
    · rw [hlnks]
      exact List.mem_append_left _ hp
  · intro hkeeps
    have hold : ∀ p ∈ s.lnks_, s'.impl_ = some p := fun p hp =>
      hkeeps p (hinv.linksAlive_iff.mp hl p hp)
    have hl' : s'.LinksAlive := by
      rw [hinv'.linksAlive_iff]
      rcases hlnks with hlnks | ⟨hlnks, himpl⟩
      · rwa [hlnks]
      · intro p hp
        rw [hlnks] at hp
        rcases List.mem_append.mp hp with hp | hp
        · exact hold p hp
        · rw [List.mem_singleton.mp hp, himpl]
    exact ⟨hl', hinv'.setsAlive hl'⟩

def tcpUrl : Bytes := bytes "tcp://127.0.0.1:3030"

theorem transport_tcpUrl : transport tcpUrl = .ok .tcp := by
  decide +kernel

/-- A client that connects again after its session has ended. -/
def reconnect : List (Act Unit) := [.connect tcpUrl ⟨true, false⟩, .connect tcpUrl ⟨true, false⟩]

/-- The first point has been destroyed and is still linked: every setter writes to it. -/
theorem reconnect_dangles : ∃ s, exec (step .client) {} reconnect = some s ∧
    s.lnks_ = [0, 1] ∧ s.points 0 = none ∧ ∀ x, s.set x = none := by
  have hconnect : ∀ s : Net Unit, s.isEstab ⟨true, false⟩ = false → s.impl_ ≠ some s.next →
      step .client s (.connect tcpUrl ⟨true, false⟩) = some (s.started .tcp) := by
    intro s hestab hs
    rw [step, if_pos rfl, connect, if_neg nofun, hestab, if_neg nofun, goStart, transport_tcpUrl]
    dsimp only
    rw [start_eq hs]
    rfl
  have hfirst := hconnect {} rfl nofun
  have hsecond := hconnect (({} : Net Unit).started .tcp) rfl (by decide)
  refine ⟨(({} : Net Unit).started .tcp).started .tcp, ?_, rfl, rfl, fun x => rfl⟩
  rw [reconnect, exec, hfirst, Option.bind_some, exec, hsecond]
  rfl

end Net
end Network
