/-
How hooked `poll` and `select` return (coroutine/linux_glibc_hook.cpp).

Both calls wait for a list of descriptors and then translate the events that the wait
has stored back into the caller's arguments.  `select` folds three sets into one list of
descriptors, with the events of the sets merged, and unfolds it again in another loop.

* `pollReturn`, `selectReturn` — the two functions after their wait;
* `selectScan_some` — the loop of `select`, seen from one set;
* `select_rebuilds_sets` — the sets and the value that `select` returns;
* `select_positive_iff` — when it returns at least 1.
-/
import CppFeatures.GlibcHook
import Mathlib.Algebra.GroupWithZero.Nat
import Mathlib.Algebra.Order.BigOperators.Group.List
import Mathlib.Algebra.Order.Group.Nat
import Mathlib.Data.List.Nodup

/-! ### The source -/

def epollEvent2Poll (events : BitVec 32) : BitVec 16 :=
  (if events &&& EPOLLIN ≠ 0 then POLLIN else 0) |||
  (if events &&& EPOLLOUT ≠ 0 then POLLOUT else 0) |||
  (if events &&& EPOLLHUP ≠ 0 then POLLHUP else 0) |||
  (if events &&& EPOLLERR ≠ 0 then POLLERR else 0)

/-- The last loop of `poll`, on `revents` of the caller's array and `n`. -/
def pollLoop : List FdStruct → List (BitVec 16) → BitVec 32 → List (BitVec 16) × BitVec 32
  | f :: waitFds, _ :: revents, n =>
    let revent := epollEvent2Poll f.revent
    let (revents, n) := pollLoop waitFds revents (if revent ≠ 0 then n + 1 else n)
    (revent :: revents, n)
  | _, revents, n => (revents, n)

/-- The entries that this loop visits: `i < (int)wait_fds_.size()`. -/
def pollEntries (waitFds : List FdStruct) : List FdStruct :=
  waitFds.take (BitVec.ofNat 32 waitFds.length).toInt.toNat

/-- `poll` after its wait: the array and the value it returns; `none` if it goes on to
call the original `poll`. -/
def pollReturn {τ : Type*} (t : IoTask τ) (isTimeout : Bool) (revents : List (BitVec 16)) :
    Option (List (BitVec 16) × BitVec 32) :=
  if t.waitSuccessful_ = 0 then
    if isTimeout then some (revents, 0) else none
  else some (pollLoop (pollEntries t.waitFds_) revents 0)

/-- The inner loop of `select` for one set, with what it adds to `n`. -/
def selectCheck (f : FdStruct) : Option FdSet × BitVec 32 → (Option FdSet × BitVec 32) × ℕ
  | (none, mask) => ((none, mask), 0)
  | (some set, mask) =>
    if set f.fd.toNat = false then ((some set, mask), 0)
    else if mask &&& f.revent ≠ 0 then ((some set, mask), 1)
    else ((some (Function.update set f.fd.toNat false), mask), 0)

/-- The last loop of `select`. -/
def selectLoop : List FdStruct → List (Option FdSet × BitVec 32) → ℕ →
    List (Option FdSet × BitVec 32) × ℕ
  | [], sets, n => (sets, n)
  | f :: waitFds, sets, n => selectLoop waitFds (sets.map fun s => (selectCheck f s).1)
      (n + (sets.map fun s => (selectCheck f s).2).sum)

/-- `select` after its wait: the sets and the value it returns; `none` if it goes on to
call the original `select`. -/
def selectReturn {τ : Type*} (t : IoTask τ) (isTimeout : Bool)
    (sets : List (Option FdSet × BitVec 32)) : Option (List (Option FdSet × BitVec 32) × ℕ) :=
  if t.waitSuccessful_ = 0 then
    if isTimeout then some (sets.map fun s => (s.1.map fun _ _ => false, s.2), 0) else none
  else some (selectLoop t.waitFds_ sets 0)

/-! ### One set -/

/-- The loop of `select`, seen from one set. -/
def selectScan : List FdStruct → Option FdSet × BitVec 32 → (Option FdSet × BitVec 32) × ℕ
  | [], s => (s, 0)
  | f :: waitFds, s =>
    ((selectScan waitFds (selectCheck f s).1).1, (selectCheck f s).2 + (selectScan waitFds (selectCheck f s).1).2)

/-- The sets do not influence each other. -/
theorem selectLoop_eq (waitFds : List FdStruct) (sets : List (Option FdSet × BitVec 32)) (n : ℕ) :
    selectLoop waitFds sets n =
      (sets.map fun s => (selectScan waitFds s).1, n + (sets.map fun s => (selectScan waitFds s).2).sum) := by
  induction waitFds generalizing sets n with
  | nil => simp [selectLoop, selectScan]
  | cons f waitFds ih =>
    rw [selectLoop, ih]
    simp only [selectScan, List.map_map, List.sum_map_add, Function.comp_def]
    rw [Nat.add_assoc]

theorem selectScan_none (waitFds : List FdStruct) (mask : BitVec 32) :
    selectScan waitFds (none, mask) = ((none, mask), 0) := by
  induction waitFds with
  | nil => rfl
  | cons f waitFds ih =>
    rw [selectScan, selectCheck, ih]
    rfl

/-- **The loop on one set** clears the bits of the descriptors whose events are not of the
set, and counts the others. -/
theorem selectScan_some (mask : BitVec 32) {waitFds : List FdStruct}
    (hnodup : (waitFds.map fun f => f.fd.toNat).Nodup) (set : FdSet) :
    selectScan waitFds (some set, mask) =
      ((some fun i => set i && !(waitFds.any fun f => decide (f.fd.toNat = i ∧ mask &&& f.revent = 0)),
        mask), waitFds.countP fun f => set f.fd.toNat && decide (mask &&& f.revent ≠ 0)) := by
  induction waitFds generalizing set with
  | nil => simp [selectScan]
  | cons f waitFds ih =>
    obtain ⟨hnot, hnodup⟩ := List.nodup_cons.mp hnodup
    rw [selectScan, selectCheck]
    by_cases hset : set f.fd.toNat = false
    · rw [if_pos hset, ih hnodup]
      refine Prod.ext (Prod.ext (congrArg some (funext fun i => ?_)) rfl) ?_
      · -- a bit that is not set stays so
        by_cases hi : f.fd.toNat = i
        · rw [← hi, hset]
          rfl
        · simp [hi]
      · simp [hset]
    · rw [if_neg hset]
      rw [Bool.not_eq_false] at hset
      by_cases hhit : mask &&& f.revent = 0
      · rw [if_neg (by simpa using hhit), ih hnodup]
        have hkeep : ∀ g ∈ waitFds, Function.update set f.fd.toNat false g.fd.toNat = set g.fd.toNat := by
          intro g hg
          refine Function.update_of_ne (fun heq => hnot ?_) ..
          show f.fd.toNat ∈ waitFds.map fun f => f.fd.toNat
          rw [← heq]
          exact List.mem_map_of_mem hg
        refine Prod.ext (Prod.ext (congrArg some (funext fun i => ?_)) rfl) ?_
        · by_cases hi : i = f.fd.toNat
          · simp [hi, hhit]
          · simp [hi, Ne.symm hi]
        · show 0 + _ = _
          rw [List.countP_cons_of_neg (by simp [hhit]), Nat.zero_add]
          refine List.countP_congr fun g hg => ?_
          rw [hkeep g hg]
      · rw [if_pos hhit, ih hnodup]
        change ¬ mask &&& f.revent = 0#32 at hhit
        refine Prod.ext (Prod.ext (congrArg some (funext fun i => ?_)) rfl) ?_
        · simp [hhit]
        · show 1 + _ = _
          rw [List.countP_cons_of_pos (by simp [hset, hhit]), Nat.add_comm]

/-! ### The awaited descriptors -/

/-- The number of descriptors that `select` looks at. -/
def selectBound (nfds : ℤ) : ℕ := (min nfds FD_SETSIZE).toNat

/-- Some set has the descriptor. -/
def InSets (sets : List (Option FdSet × BitVec 32)) (i : ℕ) : Prop :=
  ∃ s ∈ sets, s.1.any (fun set => set i) = true

variable {sets : List (Option FdSet × BitVec 32)} {i : ℕ} {f : FdStruct}

theorem selectFdst_fd (h : selectFdst sets i = some f) : f.fd = i := by
  rw [selectFdst] at h
  split at h
  · cases h
  · rw [Option.some_inj] at h
    rw [← h]

theorem selectFdst_toNat (h : selectFdst sets i = some f) : f.fd.toNat = i := by
  rw [selectFdst_fd h, Int.toNat_natCast]

theorem selectFdst_isSome : (selectFdst sets i).isSome ↔ InSets sets i := by
  rw [selectFdst]
  split
  · rename_i hnone
    rw [List.filter_eq_nil_iff] at hnone
    constructor
    · intro h
      cases h
    · rintro ⟨s, hs, hi⟩
      exact absurd hi (hnone s hs)
  · rename_i hsome
    obtain ⟨s, hs⟩ := List.exists_mem_of_ne_nil _ hsome
    obtain ⟨hs, hi⟩ := List.mem_filter.mp hs
    exact ⟨fun _ => ⟨s, hs, hi⟩, fun _ => rfl⟩

theorem mem_selectFdsts {nfds : ℤ} : f ∈ selectFdsts nfds sets ↔
    ∃ i < selectBound nfds, selectFdst sets i = some f := by
  simp only [selectFdsts, List.mem_filterMap, List.mem_range, selectBound]

theorem nodup_selectFdsts (nfds : ℤ) (sets : List (Option FdSet × BitVec 32)) :
    ((selectFdsts nfds sets).map fun f => f.fd.toNat).Nodup := by
  have hsub : ((selectFdsts nfds sets).map fun f => f.fd.toNat).Sublist
      (List.range (selectBound nfds)) := by
    rw [selectFdsts, List.map_filterMap, selectBound]
    have hself : ∀ l : List ℕ, (l.filterMap fun i => (selectFdst sets i).map fun f => f.fd.toNat).Sublist l := by
      intro l
      induction l with
      | nil => exact List.Sublist.refl _
      | cons i l ih =>
        rw [List.filterMap_cons]
        cases hf : selectFdst sets i with
        | none => exact ih.cons i
        | some f =>
          have hfd : f.fd.toNat = i := selectFdst_toNat hf
          simp only [Option.map_some, hfd]
          exact ih.cons_cons i
    exact hself _
  exact List.nodup_range.sublist hsub

/-- The wait of a `select` is over: `rep` are the events that were reported for the
awaited descriptors, 0 where there was no report. -/
structure SelectWait {τ : Type*} (nfds : ℤ) (sets : List (Option FdSet × BitVec 32))
    (rep : ℕ → BitVec 32) (t : IoTask τ) : Prop where
  waitFds : t.waitFds_ = (selectFdsts nfds sets).map fun f => { f with revent := rep f.fd.toNat }
  waitSuccessful : t.waitSuccessful_ = BitVec.ofNat 32 (t.waitFds_.countP fun f => decide (f.revent ≠ 0))

/-- What is left of a set: below `nfds`, the descriptors reported with events of the set. -/
def keepReported (nfds : ℤ) (rep : ℕ → BitVec 32) (mask : BitVec 32) (set : FdSet) : FdSet := fun i =>
  if i < selectBound nfds then set i && decide (mask &&& rep i ≠ 0) else set i

/-- The number of bits set below `nfds`. -/
def bitsBelow (nfds : ℤ) (set : Option FdSet) : ℕ :=
  match set with
  | none => 0
  | some set => (List.range (selectBound nfds)).countP set

variable {τ : Type*} {nfds : ℤ} {rep : ℕ → BitVec 32} {t : IoTask τ}

/-- The loop of `select` over its awaited descriptors, for one of its sets. -/
theorem selectScan_awaited (nfds : ℤ) (rep : ℕ → BitVec 32) {s : Option FdSet × BitVec 32}
    (hs : s ∈ sets) :
    selectScan ((selectFdsts nfds sets).map fun f => { f with revent := rep f.fd.toNat }) s =
      ((s.1.map (keepReported nfds rep s.2), s.2),
        bitsBelow nfds (s.1.map (keepReported nfds rep s.2))) := by
  obtain ⟨set, mask⟩ := s
  cases set with
  | none => exact selectScan_none _ mask
  | some set =>
    -- a descriptor of the set is awaited
    have hawaited : ∀ i, set i = true → ∃ f, selectFdst sets i = some f ∧ f.fd.toNat = i := by
      intro i hi
      obtain ⟨f, hf⟩ := Option.isSome_iff_exists.mp (selectFdst_isSome.mpr ⟨_, hs, hi⟩)
      exact ⟨f, hf, selectFdst_toNat hf⟩
    have hbit : ∀ i, (set i && !(((selectFdsts nfds sets).map fun f =>
        ({ f with revent := rep f.fd.toNat } : FdStruct)).any fun f =>
          decide (f.fd.toNat = i ∧ mask &&& f.revent = 0))) = keepReported nfds rep mask set i := by
      intro i
      rw [keepReported]
      cases hi : set i with
      | false => simp
      | true =>
        obtain ⟨f, hf, hfd⟩ := hawaited i hi
        split_ifs with hlt
        · rw [Bool.true_and, Bool.true_and, Bool.eq_iff_iff, Bool.not_eq_true', List.any_eq_false]
          simp only [List.mem_map, decide_eq_true_eq, not_and, forall_exists_index, and_imp]
          constructor
          · intro h
            have hne := h _ f (mem_selectFdsts.mpr ⟨i, hlt, hf⟩) rfl hfd
            dsimp only at hne
            rwa [hfd] at hne
          · rintro h _ g - rfl hg
            dsimp only at hg ⊢
            rwa [hg]
        · rw [Bool.true_and, Bool.not_eq_true', List.any_eq_false]
          simp only [List.mem_map, decide_eq_true_eq, not_and, forall_exists_index, and_imp]
          rintro _ g hg rfl hgi
          obtain ⟨j, hj, hgj⟩ := mem_selectFdsts.mp hg
          have hji : j = i := (selectFdst_toNat hgj).symm.trans hgi
          omega
    have hnodup : (((selectFdsts nfds sets).map fun f =>
        ({ f with revent := rep f.fd.toNat } : FdStruct)).map fun f => f.fd.toNat).Nodup := by
      rw [List.map_map]
      exact nodup_selectFdsts nfds sets
    rw [selectScan_some mask hnodup]
    refine Prod.ext (Prod.ext (congrArg some (funext hbit)) rfl) ?_
    show List.countP _ _ = (List.range (selectBound nfds)).countP (keepReported nfds rep mask set)
    rw [List.countP_map, selectFdsts, List.countP_filterMap, ← selectBound]
    refine List.countP_congr fun i hi => ?_
    rw [keepReported, if_pos (List.mem_range.mp hi)]
    cases hsi : set i with
    | false =>
      cases hf : selectFdst sets i with
      | none => simp
      | some f =>
        simp [selectFdst_toNat hf, hsi]
    | true =>
      obtain ⟨f, hf, hfd⟩ := hawaited i hsi
      simp [hf, hfd, hsi]

/-- A report keeps `wait_successful_` from being 0: there are at most `FD_SETSIZE`
descriptors. -/
theorem SelectWait.successful (h : SelectWait nfds sets rep t) (hrep : ∃ f ∈ t.waitFds_, f.revent ≠ 0) :
    t.waitSuccessful_ ≠ 0 := by
  have hpos : 0 < t.waitFds_.countP fun f => decide (f.revent ≠ 0) := by
    obtain ⟨f, hf, hne⟩ := hrep
    exact List.countP_pos_iff.mpr ⟨f, hf, decide_eq_true hne⟩
  have hlen : t.waitFds_.length ≤ 1024 := by
    rw [h.waitFds, List.length_map]
    refine (List.length_filterMap_le ..).trans ?_
    rw [List.length_range]
    have hmin : min nfds FD_SETSIZE ≤ 1024 := Int.min_le_right ..
    omega
  have hle : t.waitFds_.countP (fun f => decide (f.revent ≠ 0)) ≤ t.waitFds_.length :=
    List.countP_le_length
  rw [h.waitSuccessful]
  intro hzero
  have hnat := congrArg BitVec.toNat hzero
  rw [BitVec.toNat_ofNat, Nat.mod_eq_of_lt (by omega)] at hnat
  rw [hnat] at hpos
  exact absurd hpos (by decide)

theorem SelectWait.return_eq (h : SelectWait nfds sets rep t)
    (hrep : ∃ f ∈ t.waitFds_, f.revent ≠ 0) (isTimeout : Bool) :
    selectReturn t isTimeout sets = some
      (sets.map fun s => (s.1.map (keepReported nfds rep s.2), s.2),
        (sets.map fun s => bitsBelow nfds (s.1.map (keepReported nfds rep s.2))).sum) := by
  rw [selectReturn, if_neg (h.successful hrep), selectLoop_eq, h.waitFds, Nat.zero_add]
  have hscan : ∀ s ∈ sets, _ := fun s hs => selectScan_awaited nfds rep hs
  refine congrArg some (Prod.ext ?_ ?_)
  · exact List.map_congr_left fun s hs => congrArg Prod.fst (hscan s hs)
  · exact congrArg List.sum (List.map_congr_left fun s hs => congrArg Prod.snd (hscan s hs))

/-! ### What `select` returns -/

variable {readfds writefds exceptfds : Option FdSet}

/-- **`select` rebuilds its sets exactly.**  Below `nfds` a bit stays set iff it was set
and the events reported for the descriptor meet the mask of its set, other bits are
unchanged, and the value returned is the number of bits left. -/
theorem select_rebuilds_sets (h : SelectWait nfds (selectSets readfds writefds exceptfds) rep t)
    (hrep : ∃ f ∈ t.waitFds_, f.revent ≠ 0) (isTimeout : Bool) :
    selectReturn t isTimeout (selectSets readfds writefds exceptfds) = some
      (selectSets (readfds.map (keepReported nfds rep (EPOLLIN ||| EPOLLERR ||| EPOLLHUP)))
          (writefds.map (keepReported nfds rep EPOLLOUT))
          (exceptfds.map (keepReported nfds rep (EPOLLERR ||| EPOLLHUP))),
        bitsBelow nfds (readfds.map (keepReported nfds rep (EPOLLIN ||| EPOLLERR ||| EPOLLHUP))) +
          bitsBelow nfds (writefds.map (keepReported nfds rep EPOLLOUT)) +
          bitsBelow nfds (exceptfds.map (keepReported nfds rep (EPOLLERR ||| EPOLLHUP)))) := by
  rw [h.return_eq hrep]
  simp only [selectSets, List.map_cons, List.map_nil, List.sum_cons, List.sum_nil, Nat.add_zero,
    Nat.add_assoc]

/-- Descriptor 3 is awaited for reading and writing, 4 for writing; 3 can be read. -/
def readableOf : IoTask Unit where
  ioBlockId_ := 1
  waitFds_ := [⟨3, EPOLLIN ||| EPOLLERR ||| EPOLLHUP ||| EPOLLOUT, EPOLLIN⟩, ⟨4, EPOLLOUT, 0⟩]
  waitSuccessful_ := 1

theorem select_rebuilds_sets_readable :
    SelectWait 5 (selectSets (some fun i => i == 3) (some fun i => i == 3 || i == 4) none)
      (fun i => if i = 3 then EPOLLIN else 0) readableOf ∧
    ∃ sets', selectReturn readableOf false
      (selectSets (some fun i => i == 3) (some fun i => i == 3 || i == 4) none) = some (sets', 1) := by
  have hwait : SelectWait 5 (selectSets (some fun i => i == 3) (some fun i => i == 3 || i == 4) none)
      (fun i => if i = 3 then EPOLLIN else 0) readableOf := ⟨by decide, by decide⟩
  have hreturn := select_rebuilds_sets hwait (by decide) false
  exact ⟨hwait, _, hreturn⟩

/-- What epoll may report for a registration: some of the requested events, `EPOLLERR`
and `EPOLLHUP`. -/
def Reportable (events request : BitVec 32) : Prop :=
  events ≠ 0 ∧ events &&& ~~~(request ||| EPOLLERR ||| EPOLLHUP) = 0

instance (events request : BitVec 32) : Decidable (Reportable events request) :=
  inferInstanceAs (Decidable (_ ∧ _))

theorem and_or_eq_zero {x y z : BitVec 32} : x &&& (y ||| z) = 0 ↔ x &&& y = 0 ∧ x &&& z = 0 := by
  rw [BitVec.and_or_distrib_left]
  exact BitVec.or_eq_zero_iff

theorem eq_zero_of_and {x m : BitVec 32} (h : x &&& m = 0) (h' : x &&& ~~~m = 0) : x = 0 := by
  have hboth : x &&& (m ||| ~~~m) = 0 := and_or_eq_zero.mpr ⟨h, h'⟩
  rwa [BitVec.or_not_self, BitVec.and_allOnes] at hboth

/-- A report meets the request, or has one of the two events that need none. -/
theorem Reportable.meets {events request : BitVec 32} (h : Reportable events request) :
    ¬ (events &&& request = 0 ∧ events &&& (EPOLLERR ||| EPOLLHUP) = 0) := by
  intro hzero
  refine h.1 (eq_zero_of_and ?_ h.2)
  rw [BitVec.or_assoc]
  exact and_or_eq_zero.mpr hzero

/-- An event that was not requested is not reported. -/
theorem Reportable.and_eq_zero {events request x : BitVec 32} (h : Reportable events request)
    (hreq : x &&& request = 0) (halways : x &&& (EPOLLERR ||| EPOLLHUP) = 0) : x &&& events = 0 := by
  refine eq_zero_of_and (m := request ||| EPOLLERR ||| EPOLLHUP) ?_ ?_
  · have hx : x &&& (request ||| EPOLLERR ||| EPOLLHUP) = 0 := by
      rw [BitVec.or_assoc]
      exact and_or_eq_zero.mpr ⟨hreq, halways⟩
    rw [BitVec.and_assoc, BitVec.and_comm events, ← BitVec.and_assoc, hx]
    exact BitVec.zero_and
  · rw [BitVec.and_assoc, h.2]
    exact BitVec.and_zero

/-- The events of a descriptor are those of its sets. -/
theorem selectFdst_event (h : selectFdst sets i = some f) (x : BitVec 32) :
    x &&& f.event = 0 ↔ ∀ s ∈ sets, s.1.any (fun set => set i) = true → x &&& s.2 = 0 := by
  have hfold : ∀ (hits : List (Option FdSet × BitVec 32)) (e : BitVec 32),
      x &&& hits.foldl (fun e s => e ||| s.2) e = 0 ↔ x &&& e = 0 ∧ ∀ s ∈ hits, x &&& s.2 = 0 := by
    intro hits
    induction hits with
    | nil => simp
    | cons s hits ih =>
      intro e
      rw [List.foldl_cons, ih, and_or_eq_zero, and_assoc, List.forall_mem_cons]
  rw [selectFdst] at h
  split at h
  · cases h
  · rw [Option.some_inj] at h
    rw [← h]
    refine (hfold _ 0).trans ?_
    have hzero : x &&& 0 = 0 := BitVec.and_zero
    simp only [hzero, List.mem_filter, and_imp, true_and]

/-- A bit is left iff some awaited descriptor was reported with events of one of its sets. -/
theorem one_le_sum_bitsBelow :
    1 ≤ (sets.map fun s => bitsBelow nfds (s.1.map (keepReported nfds rep s.2))).sum ↔
      ∃ s ∈ sets, ∃ i < selectBound nfds, s.1.any (fun set => set i) = true ∧ s.2 &&& rep i ≠ 0 := by
  have hset : ∀ s : Option FdSet × BitVec 32,
      bitsBelow nfds (s.1.map (keepReported nfds rep s.2)) ≠ 0 ↔
        ∃ i < selectBound nfds, s.1.any (fun set => set i) = true ∧ s.2 &&& rep i ≠ 0 := by
    rintro ⟨set, mask⟩
    cases set with
    | none => simp [bitsBelow]
    | some set =>
      show (List.range (selectBound nfds)).countP (keepReported nfds rep mask set) ≠ 0 ↔ _
      rw [← Nat.pos_iff_ne_zero, List.countP_pos_iff]
      constructor
      · rintro ⟨i, hi, hbit⟩
        rw [keepReported, if_pos (List.mem_range.mp hi), Bool.and_eq_true, decide_eq_true_iff] at hbit
        exact ⟨i, List.mem_range.mp hi, hbit⟩
      · rintro ⟨i, hi, hbit⟩
        refine ⟨i, List.mem_range.mpr hi, ?_⟩
        rw [keepReported, if_pos hi, Bool.and_eq_true, decide_eq_true_iff]
        exact hbit
  rw [Nat.one_le_iff_ne_zero, ne_eq, List.sum_eq_zero_iff]
  simp only [List.mem_map, forall_exists_index, and_imp, forall_apply_eq_imp_iff₂, not_forall,
    exists_prop]
  exact exists_congr fun s => and_congr_right fun _ => hset s

theorem SelectWait.positive_iff (h : SelectWait nfds sets rep t)
    (hrep : ∃ f ∈ t.waitFds_, f.revent ≠ 0) (isTimeout : Bool) :
    (∃ sets' n, selectReturn t isTimeout sets = some (sets', n) ∧ 1 ≤ n) ↔
      ∃ s ∈ sets, ∃ i < selectBound nfds, s.1.any (fun set => set i) = true ∧ s.2 &&& rep i ≠ 0 := by
  rw [h.return_eq hrep, ← one_le_sum_bitsBelow]
  constructor
  · rintro ⟨_, _, heq, hn⟩
    cases heq
    exact hn
  · intro hn
    exact ⟨_, _, rfl, hn⟩

/-- The awaited descriptors are those of the sets, with their reports. -/
theorem SelectWait.mem_waitFds (h : SelectWait nfds sets rep t) :
    f ∈ t.waitFds_ ↔ ∃ i < selectBound nfds, ∃ g, selectFdst sets i = some g ∧
      f = { g with revent := rep i } := by
  rw [h.waitFds, List.mem_map]
  constructor
  · rintro ⟨g, hg, rfl⟩
    obtain ⟨i, hi, hg⟩ := mem_selectFdsts.mp hg
    exact ⟨i, hi, g, hg, by rw [selectFdst_toNat hg]⟩
  · rintro ⟨i, hi, g, hg, rfl⟩
    exact ⟨g, mem_selectFdsts.mpr ⟨i, hi, hg⟩, by rw [selectFdst_toNat hg]⟩

/-- When a report meets the mask of one of its descriptor's sets.  The masks of `readfds`
and `exceptfds` have the two events that need no request, that of `writefds` has neither. -/
theorem meets_selectSets_iff {events : BitVec 32}
    (hf : selectFdst (selectSets readfds writefds exceptfds) i = some f)
    (hreport : Reportable events f.event) :
    (∃ s ∈ selectSets readfds writefds exceptfds,
      s.1.any (fun set => set i) = true ∧ s.2 &&& events ≠ 0) ↔
    readfds.any (fun set => set i) = true ∨ exceptfds.any (fun set => set i) = true ∨
      EPOLLOUT &&& events ≠ 0 := by
  constructor
  · rintro ⟨s, hs, hin, hmask⟩
    simp only [selectSets, List.mem_cons, List.not_mem_nil, or_false] at hs
    rcases hs with rfl | rfl | rfl
    · exact .inl hin
    · exact .inr (.inr hmask)
    · exact .inr (.inl hin)
  · intro hcase
    by_contra hno
    -- the report meets none of the masks of the descriptor's sets
    have hnone : ∀ s ∈ selectSets readfds writefds exceptfds, s.1.any (fun set => set i) = true →
        events &&& s.2 = 0 := by
      intro s hs hin
      by_contra hmask
      rw [BitVec.and_comm] at hmask
      exact hno ⟨s, hs, hin, hmask⟩
    have hevent : events &&& f.event = 0 := (selectFdst_event hf _).mpr hnone
    rcases hcase with hin | hin | hout
    · have hread := hnone _ List.mem_cons_self hin
      rw [BitVec.or_assoc] at hread
      exact hreport.meets ⟨hevent, (and_or_eq_zero.mp hread).2⟩
    · have hexcept := hnone (exceptfds, EPOLLERR ||| EPOLLHUP) (by simp [selectSets]) hin
      exact hreport.meets ⟨hevent, hexcept⟩
    · by_cases hin : writefds.any (fun set => set i) = true
      · have hwrite := hnone (writefds, EPOLLOUT) (by simp [selectSets]) hin
        rw [BitVec.and_comm] at hwrite
        exact hout hwrite
      · refine hout (hreport.and_eq_zero ?_ (by decide))
        refine (selectFdst_event hf _).mpr fun s hs hs' => ?_
        simp only [selectSets, List.mem_cons, List.not_mem_nil, or_false] at hs
        rcases hs with rfl | rfl | rfl
        · show EPOLLOUT &&& (EPOLLIN ||| EPOLLERR ||| EPOLLHUP) = 0
          decide
        · exact absurd hs' hin
        · show EPOLLOUT &&& (EPOLLERR ||| EPOLLHUP) = 0
          decide

/-- **When `select` returns at least 1.**  Of what epoll may report, some report is for a
descriptor in `readfds` or `exceptfds`, or has `EPOLLOUT`: an error or a hang-up on a
descriptor that is in `writefds` only is in no mask. -/
theorem select_positive_iff (h : SelectWait nfds (selectSets readfds writefds exceptfds) rep t)
    (hrep : ∃ f ∈ t.waitFds_, f.revent ≠ 0)
    (hepoll : ∀ f ∈ t.waitFds_, f.revent ≠ 0 → Reportable f.revent f.event) (isTimeout : Bool) :
    (∃ sets' n, selectReturn t isTimeout (selectSets readfds writefds exceptfds) = some (sets', n) ∧
      1 ≤ n) ↔
    ∃ f ∈ t.waitFds_, f.revent ≠ 0 ∧ (readfds.any (fun set => set f.fd.toNat) = true ∨
      exceptfds.any (fun set => set f.fd.toNat) = true ∨ EPOLLOUT &&& f.revent ≠ 0) := by
  rw [h.positive_iff hrep]
  constructor
  · rintro ⟨s, hs, i, hi, hin, hmask⟩
    obtain ⟨g, hg⟩ := Option.isSome_iff_exists.mp (selectFdst_isSome.mpr ⟨s, hs, hin⟩)
    have hf := h.mem_waitFds.mpr ⟨i, hi, g, hg, rfl⟩
    have hne : rep i ≠ 0 := by
      intro hzero
      refine hmask ?_
      rw [hzero]
      exact BitVec.and_zero
    have hreport : Reportable (rep i) g.event := hepoll _ hf hne
    refine ⟨_, hf, hne, ?_⟩
    show readfds.any (fun set => set g.fd.toNat) = true ∨
      exceptfds.any (fun set => set g.fd.toNat) = true ∨ EPOLLOUT &&& rep i ≠ 0
    rw [selectFdst_toNat hg]
    exact (meets_selectSets_iff hg hreport).mp ⟨s, hs, hin, hmask⟩
  · rintro ⟨f, hf, hne, hcase⟩
    have hreport := hepoll f hf hne
    obtain ⟨i, hi, g, hg, rfl⟩ := h.mem_waitFds.mp hf
    dsimp only at hreport hcase
    rw [selectFdst_toNat hg] at hcase
    obtain ⟨s, hs, hin, hmask⟩ := (meets_selectSets_iff hg hreport).mpr hcase
    exact ⟨s, hs, i, hi, hin, hmask⟩

-- the descriptors of `readableOf`, with what epoll may report for them
theorem select_positive_iff_readable : ∃ sets' n, selectReturn readableOf false
    (selectSets (some fun i => i == 3) (some fun i => i == 3 || i == 4) none) = some (sets', n) ∧
    1 ≤ n := by
  have hwait : SelectWait 5 (selectSets (some fun i => i == 3) (some fun i => i == 3 || i == 4) none)
      (fun i => if i = 3 then EPOLLIN else 0) readableOf := ⟨by decide, by decide⟩
  exact (select_positive_iff hwait (by decide) (by decide) false).mpr (by decide)

/-- Descriptor 4 is awaited for writing, and has been hung up. -/
def hungUp : IoTask Unit where
  ioBlockId_ := 1
  waitFds_ := [⟨4, EPOLLOUT, EPOLLHUP⟩]
  waitSuccessful_ := 1

/-- A hang-up on a descriptor of `writefds` ends the wait, and `select` returns 0. -/
theorem select_hangup_returns_zero :
    SelectWait 5 (selectSets none (some fun i => i == 4) none)
      (fun i => if i = 4 then EPOLLHUP else 0) hungUp ∧
    Reportable EPOLLHUP EPOLLOUT ∧ hungUp.waitSuccessful_ = 1 ∧
    ∃ sets', selectReturn hungUp false (selectSets none (some fun i => i == 4) none)
      = some (sets', 0) :=
  ⟨⟨by decide, by decide⟩, by decide, rfl, _, rfl⟩

/-! ### The loop of `poll` -/

theorem toInt_ofNat_of_lt {k : ℕ} (h : k < 2 ^ 31) : (BitVec.ofNat 32 k).toInt = k := by
  rw [BitVec.toInt_ofNat']
  exact Int.bmod_eq_of_le_mul_two (by omega) (by omega)

theorem pollEntries_eq {waitFds : List FdStruct} (h : waitFds.length < 2 ^ 31) :
    pollEntries waitFds = waitFds := by
  rw [pollEntries, toInt_ofNat_of_lt h, Int.toNat_natCast, List.take_length]

/-- From `2 ^ 31` entries on, the `int` is not the size. -/
theorem pollEntries_eq_nil {waitFds : List FdStruct} (h : waitFds.length = 2 ^ 31) :
    pollEntries waitFds = [] := by
  rw [pollEntries, h]
  rfl

/-- What the loop writes to the array. -/
def pollRevents (waitFds : List FdStruct) : List (BitVec 16) :=
  waitFds.map fun f => epollEvent2Poll f.revent

theorem pollLoop_eq {waitFds : List FdStruct} {revents : List (BitVec 16)}
    (hlen : revents.length = waitFds.length) (n : BitVec 32) :
    pollLoop waitFds revents n = (pollRevents waitFds,
      n + BitVec.ofNat 32 ((pollRevents waitFds).countP fun r => decide (r ≠ 0))) := by
  induction waitFds generalizing revents n with
  | nil =>
    rw [List.length_nil, List.length_eq_zero_iff] at hlen
    rw [hlen, pollLoop]
    · simp [pollRevents]
    · simp
  | cons f waitFds ih =>
    cases revents with
    | nil => simp at hlen
    | cons r revents =>
      rw [List.length_cons, List.length_cons, Nat.add_right_cancel_iff] at hlen
      have hcons : pollRevents (f :: waitFds) = epollEvent2Poll f.revent :: pollRevents waitFds := rfl
      rw [pollLoop, ih hlen, hcons]
      by_cases hne : epollEvent2Poll f.revent = 0
      · rw [if_neg (by simpa using hne), List.countP_cons_of_neg (by simpa using hne)]
      · rw [if_pos hne, List.countP_cons_of_pos (by simpa using hne), Nat.add_comm, BitVec.ofNat_add,
          ← BitVec.add_assoc]
        rfl

/-- `poll` loses no event that epoll may report for it. -/
theorem epollEvent2Poll_ne_zero {events : BitVec 32} {request : BitVec 16}
    (h : Reportable events (pollEvent2Epoll request)) : epollEvent2Poll events ≠ 0 := by
  intro hzero
  have hbit : ∀ {m : BitVec 32} {b : BitVec 16}, b ≠ 0 → (if events &&& m ≠ 0 then b else 0) = 0 →
      events &&& m = 0 := by
    intro m b hb hif
    by_contra hm
    rw [if_pos hm] at hif
    exact hb hif
  obtain ⟨hrest, herr⟩ := BitVec.or_eq_zero_iff.mp hzero
  obtain ⟨hrest, hhup⟩ := BitVec.or_eq_zero_iff.mp hrest
  obtain ⟨hin, hout⟩ := BitVec.or_eq_zero_iff.mp hrest
  have herr := hbit (by decide) herr
  have hhup := hbit (by decide) hhup
  have hin := hbit (by decide) hin
  have hout := hbit (by decide) hout
  have hpart : ∀ {c : Prop} [Decidable c] {m : BitVec 32}, events &&& m = 0 →
      events &&& (if c then m else 0) = 0 := by
    intro c _ m hm
    split_ifs
    · exact hm
    · exact BitVec.and_zero
  refine h.meets ⟨?_, and_or_eq_zero.mpr ⟨herr, hhup⟩⟩
  rw [pollEvent2Epoll, and_or_eq_zero, and_or_eq_zero, and_or_eq_zero]
  exact ⟨⟨⟨hpart hin, hpart hout⟩, hpart hhup⟩, hpart herr⟩
