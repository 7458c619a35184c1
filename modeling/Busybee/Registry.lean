import Mathlib.Data.List.Basic
set_option autoImplicit false

/-!
# The worker registry

`eng.workers`: the state workers that run on this node, by the key `workerKey`
gives their shard, `"WorkflowID/Index"`. A placement starts a worker, a removal
or the instance's stop stops it, and a worker whose state has a `StopAt` is
stopped by a timer scheduled at that deadline. Each handler is one step.
-/

namespace Busybee.Engine

/-- The fields of `metapb.WorkflowInstanceWorkerState` that the registry reads.
`stopAt` is a unix time in seconds, `0` for none. -/
structure WorkerShard where
  workflowID : UInt64
  index : UInt32
  stopAt : Int
  deriving DecidableEq, Repr

/-- `workerKey`: `fmt.Sprintf("%d/%d", state.WorkflowID, state.Index)`. -/
def workerKey (state : WorkerShard) : String :=
  toString state.workflowID ++ "/" ++ toString state.index

structure StateWorker where
  id : Nat
  key : String
  state : WorkerShard
  deriving DecidableEq, Repr

/-- The registry, with the workers that run and the timeout wheel's pending
`stopWorker` calls. -/
structure Registry where
  workers : List (String × StateWorker)
  running : List StateWorker
  timers : List StateWorker
  next : Nat
  deriving DecidableEq, Repr

namespace Registry

def init : Registry := ⟨[], [], [], 0⟩

def load (r : Registry) (key : String) : Option StateWorker :=
  r.workers.lookup key

def delete (r : Registry) (key : String) : Registry :=
  { r with workers := r.workers.filter (·.1 ≠ key) }

/-- Modelled from the spec: `stateWorker.stop` is not in the sources. The
worker's loop ends. -/
def stop (r : Registry) (w : StateWorker) : Registry :=
  { r with running := r.running.filter (· ≠ w) }

def stopWorker (r : Registry) (w : StateWorker) : Registry :=
  (r.delete w.key).stop w

/-- `doStartInstanceStateEvent` at the unix time `now`; `none` when the key is
taken, where `logger.Fatalf` ends the process. `newStateWorker` is not in the
sources: the loop retries it until it answers a worker for the key and the
state, the next one here; `w.run()` starts it. -/
def doStartInstanceStateEvent (now : Int) (state : WorkerShard) (r : Registry) : Option Registry :=
  let key := workerKey state
  if (r.load key).isSome then none
  else if state.stopAt ≠ 0 ∧ now ≥ state.stopAt then some r
  else
    let w : StateWorker := ⟨r.next, key, state⟩
    some { workers := (w.key, w) :: r.workers.filter (·.1 ≠ w.key)
           running := w :: r.running
           timers := if state.stopAt ≠ 0 then r.timers ++ [w] else r.timers
           next := r.next + 1 }

def doInstanceStateRemovedEvent (state : WorkerShard) (r : Registry) : Registry :=
  let key := workerKey state
  match r.load key with
  | some w => (r.delete key).stop w
  | none => r

/-- The loop body of `doStoppedInstanceEvent`: `stopWorker` on the worker the
key still holds. -/
def stopKey (r : Registry) (key : String) : Registry :=
  match r.load key with
  | some w => r.stopWorker w
  | none => r

/-- `doStoppedInstanceEvent`: the keys of the workflow's workers, then
`stopKey` on each. -/
def doStoppedInstanceEvent (id : UInt64) (r : Registry) : Registry :=
  let removed := r.workers.filterMap fun (key, w) => if w.state.workflowID = id then some key else none
  removed.foldl stopKey r

/-- Modelled from the spec: the timeout wheel is not in the sources. At the
unix time `now`, the `k`-th pending call fires once its deadline, the worker's
`StopAt`, has come. -/
def fire (now : Int) (k : Nat) (r : Registry) : Registry :=
  match r.timers[k]? with
  | some w => if w.state.stopAt ≤ now then { r with timers := r.timers.eraseIdx k }.stopWorker w else r
  | none => r

end Registry

/-- What drives the registry: the storage's worker and stopped-instance events,
and the timeout wheel. -/
inductive WorkerEvent where
  | runningInstanceWorker (now : Int) (state : WorkerShard)
  | removeInstanceWorker (state : WorkerShard)
  | stoppedInstance (id : UInt64)
  | fire (now : Int) (k : Nat)
  deriving DecidableEq, Repr

/-- The unix time an event is handled at, for the two handlers that read the
clock. -/
def WorkerEvent.now? : WorkerEvent → Option Int
  | .runningInstanceWorker now _ => some now
  | .fire now _ => some now
  | _ => none

namespace Registry

def handle (r : Registry) : WorkerEvent → Option Registry
  | .runningInstanceWorker now state => r.doStartInstanceStateEvent now state
  | .removeInstanceWorker state => some (r.doInstanceStateRemovedEvent state)
  | .stoppedInstance id => some (r.doStoppedInstanceEvent id)
  | .fire now k => some (r.fire now k)

def run (r : Registry) (events : List WorkerEvent) : Option Registry :=
  events.foldlM handle r

/-- What holds from the engine's start on: one entry a key, each worker under
its own key, the key of its shard, and running; the next worker is a new one. -/
structure Wf (r : Registry) : Prop where
  nodup : (r.workers.map (·.1)).Nodup
  keyed : ∀ key w, (key, w) ∈ r.workers → key = w.key ∧ w.key = workerKey w.state
  running : ∀ key w, (key, w) ∈ r.workers → w ∈ r.running
  fresh : ∀ w ∈ r.running, w.id < r.next

/-- Every running worker is registered. -/
def Exclusive (r : Registry) : Prop :=
  ∀ w ∈ r.running, (w.key, w) ∈ r.workers

variable {r r' : Registry} {key : String} {w : StateWorker}

theorem mem_of_lookup_eq_some {l : List (String × StateWorker)} (h : l.lookup key = some w) :
    (key, w) ∈ l := by
  obtain ⟨l₁, l₂, rfl, -⟩ := List.lookup_eq_some_iff.1 h
  simp

theorem lookup_eq_some_of_mem {l : List (String × StateWorker)} (hnd : (l.map (·.1)).Nodup)
    (h : (key, w) ∈ l) : l.lookup key = some w := by
  induction l with
  | nil => simp at h
  | cons p l ih =>
    obtain ⟨hk, hnd⟩ := List.nodup_cons.1 hnd
    rw [List.lookup_cons]
    rcases List.mem_cons.1 h with rfl | h
    · simp
    · have hne : key ≠ p.1 := by
        rintro rfl
        exact hk (List.mem_map_of_mem (·.1) h)
      simp only [beq_eq_false_iff_ne.2 hne, ih hnd h]

theorem Wf.load_eq_some (hr : r.Wf) : r.load key = some w ↔ (key, w) ∈ r.workers :=
  ⟨mem_of_lookup_eq_some, lookup_eq_some_of_mem hr.nodup⟩

theorem load_eq_none : r.load key = none ↔ ∀ w, (key, w) ∉ r.workers := by
  simp only [load, List.lookup_eq_none_iff, bne_iff_ne, ne_eq]
  exact ⟨fun h w hw => h _ hw rfl, fun h p hp he => h p.2 (he ▸ hp)⟩

theorem Wf.stopWorker (hr : r.Wf) (w : StateWorker) : (r.stopWorker w).Wf where
  nodup := ((List.filter_sublist _).map _).nodup hr.nodup
  keyed key w' h := hr.keyed key w' (List.mem_of_mem_filter h)
  running key w' h := by
    obtain ⟨h, hk⟩ := List.mem_filter.1 h
    refine List.mem_filter.2 ⟨hr.running key w' h, decide_eq_true fun he => of_decide_eq_true hk ?_⟩
    show key = w.key
    rw [(hr.keyed key w' h).1, he]
  fresh w' h := hr.fresh w' (List.mem_of_mem_filter h)

theorem Exclusive.stopWorker (hx : r.Exclusive) (hw : ∀ w', (w.key, w') ∈ r.workers → w' = w) :
    (r.stopWorker w).Exclusive := by
  intro w' h
  obtain ⟨h, hne⟩ := List.mem_filter.1 h
  refine List.mem_filter.2 ⟨hx w' h, decide_eq_true fun hk => ?_⟩
  exact of_decide_eq_true hne (hw w' (hk ▸ hx w' h))

@[simp] theorem stopKey_timers (key : String) : (r.stopKey key).timers = r.timers := by
  unfold stopKey; split <;> rfl

theorem Wf.stopKey (hr : r.Wf) (key : String) :
    (r.stopKey key).Wf ∧ (r.Exclusive → (r.stopKey key).Exclusive) := by
  unfold Registry.stopKey
  cases h : r.load key with
  | none => exact ⟨hr, id⟩
  | some w =>
    have hk := (hr.keyed key w (hr.load_eq_some.1 h)).1
    refine ⟨hr.stopWorker w, fun hx => hx.stopWorker fun w' hw' => ?_⟩
    rw [← hk] at hw'
    exact Option.some.inj ((hr.load_eq_some.2 hw').symm.trans h)

theorem Wf.foldl_stopKey (keys : List String) (hr : r.Wf) :
    (keys.foldl Registry.stopKey r).Wf ∧ (r.Exclusive → (keys.foldl Registry.stopKey r).Exclusive) ∧
      (keys.foldl Registry.stopKey r).timers = r.timers := by
  induction keys generalizing r with
  | nil => exact ⟨hr, id, rfl⟩
  | cons key keys ih =>
    obtain ⟨hr', hx'⟩ := hr.stopKey key
    obtain ⟨h₁, h₂, h₃⟩ := ih hr'
    exact ⟨h₁, fun hx => h₂ (hx' hx), h₃.trans (stopKey_timers key)⟩

/-- What a placement does: nothing after its `StopAt`, and otherwise, on a free
key, it registers and runs a new worker, with a timer when there is a `StopAt`. -/
theorem doStartInstanceStateEvent_eq_some {now : Int} {state : WorkerShard}
    (h : r.doStartInstanceStateEvent now state = some r') :
    r' = r ∧ state.stopAt ≠ 0 ∧ now ≥ state.stopAt ∨
      (∀ w, (workerKey state, w) ∉ r.workers) ∧ ¬(state.stopAt ≠ 0 ∧ now ≥ state.stopAt) ∧
      r'.workers = (workerKey state, ⟨r.next, workerKey state, state⟩) :: r.workers ∧
      r'.running = ⟨r.next, workerKey state, state⟩ :: r.running ∧
      r'.timers = (if state.stopAt ≠ 0 then r.timers ++ [⟨r.next, workerKey state, state⟩] else r.timers) ∧
      r'.next = r.next + 1 := by
  unfold Registry.doStartInstanceStateEvent at h
  dsimp only at h
  split at h
  · cases h
  · rename_i hk
    have hfree := load_eq_none.1 (Option.not_isSome_iff_eq_none.1 hk)
    split at h
    · cases h
      exact .inl ⟨rfl, ‹_›⟩
    · cases h
      refine .inr ⟨hfree, ‹_›, congrArg (List.cons _) (List.filter_eq_self.2 fun p hp =>
        decide_eq_true fun he => hfree p.2 (by rw [← he]; exact hp)), rfl, rfl, rfl⟩

theorem Wf.doStartInstanceStateEvent {now : Int} {state : WorkerShard} (hr : r.Wf)
    (h : r.doStartInstanceStateEvent now state = some r') :
    r'.Wf ∧ (r.Exclusive → r'.Exclusive) ∧ (state.stopAt = 0 → r'.timers = r.timers) := by
  rcases doStartInstanceStateEvent_eq_some h with ⟨rfl, -⟩ | ⟨hfree, -, hw, hrun, ht, hn⟩
  · exact ⟨hr, id, fun _ => rfl⟩
  refine ⟨⟨?_, ?_, ?_, ?_⟩, fun hx w' hw' => ?_, fun h0 => by simp [ht, h0]⟩
  · rw [hw, List.map_cons, List.nodup_cons]
    refine ⟨fun hm => ?_, hr.nodup⟩
    obtain ⟨p, hp, he⟩ := List.mem_map.1 hm
    exact hfree p.2 (by rw [show workerKey state = p.1 from he.symm]; exact hp)
  · rw [hw]
    rintro key w' (⟨⟩ | ⟨_, h⟩)
    · exact ⟨rfl, rfl⟩
    · exact hr.keyed key w' h
  · rw [hw, hrun]
    rintro key w' (⟨⟩ | ⟨_, h⟩)
    · exact List.mem_cons_self _ _
    · exact List.mem_cons_of_mem _ (hr.running key w' h)
  · rw [hrun, hn]
    rintro w' (⟨⟩ | ⟨_, h⟩)
    · exact Nat.lt_succ_self _
    · exact Nat.lt_succ_of_lt (hr.fresh w' h)
  · rw [hw]
    rw [hrun] at hw'
    rcases List.mem_cons.1 hw' with rfl | hw'
    · exact List.mem_cons_self _ _
    · exact List.mem_cons_of_mem _ (hx w' hw')

theorem Wf.doInstanceStateRemovedEvent_eq (hr : r.Wf) (state : WorkerShard) :
    r.doInstanceStateRemovedEvent state = r.stopKey (workerKey state) := by
  unfold Registry.doInstanceStateRemovedEvent Registry.stopKey
  dsimp only
  split
  · rename_i w hw
    rw [Registry.stopWorker, ← (hr.keyed _ w (hr.load_eq_some.1 hw)).1]
  · rfl

theorem Wf.setTimers (hr : r.Wf) (ts : List StateWorker) : Wf { r with timers := ts } :=
  ⟨hr.nodup, hr.keyed, hr.running, hr.fresh⟩

theorem Wf.fire (hr : r.Wf) (now : Int) (k : Nat) : (r.fire now k).Wf := by
  unfold Registry.fire
  split
  · split_ifs
    · exact (hr.setTimers _).stopWorker _
    · exact hr
  · exact hr

/-- The invariant holds after every event that does not end the process. -/
theorem Wf.handle (hr : r.Wf) {e : WorkerEvent} (h : r.handle e = some r') : r'.Wf := by
  cases e with
  | runningInstanceWorker now state => exact (hr.doStartInstanceStateEvent h).1
  | removeInstanceWorker state => cases h; rw [hr.doInstanceStateRemovedEvent_eq]; exact (hr.stopKey _).1
  | stoppedInstance id => cases h; exact (hr.foldl_stopKey _).1
  | fire now k => cases h; exact hr.fire now k

theorem Exclusive.handle (hr : r.Wf) (hx : r.Exclusive) (ht : r.timers = []) {e : WorkerEvent}
    (he : ∀ now state, e = .runningInstanceWorker now state → state.stopAt = 0)
    (h : r.handle e = some r') : r'.Exclusive ∧ r'.timers = [] := by
  cases e with
  | runningInstanceWorker now state =>
    obtain ⟨-, hx', ht'⟩ := hr.doStartInstanceStateEvent h
    exact ⟨hx' hx, (ht' (he now state rfl)).trans ht⟩
  | removeInstanceWorker state =>
    cases h
    rw [hr.doInstanceStateRemovedEvent_eq]
    exact ⟨(hr.stopKey _).2 hx, (stopKey_timers _).trans ht⟩
  | stoppedInstance id =>
    cases h
    obtain ⟨-, hx', ht'⟩ := hr.foldl_stopKey (r.workers.filterMap _)
    exact ⟨hx' hx, ht'.trans ht⟩
  | fire now k =>
    cases h
    simp only [Registry.fire, ht, List.getElem?_nil]
    exact ⟨hx, trivial⟩

theorem doStartInstanceStateEvent_free {now : Int} {state : WorkerShard}
    (hfree : r.load (workerKey state) = none) (hlive : ¬(state.stopAt ≠ 0 ∧ now ≥ state.stopAt)) :
    ∃ r', r.doStartInstanceStateEvent now state = some r' ∧
      r'.running = ⟨r.next, workerKey state, state⟩ :: r.running := by
  simp only [Registry.doStartInstanceStateEvent, hfree, Option.isSome_none, Bool.false_eq_true, if_false,
    if_neg hlive]
  exact ⟨_, rfl, rfl⟩

theorem Wf.stopWorker_mem (hr : r.Wf) {p : String × StateWorker} (hp : p ∈ r.workers) :
    (∀ q, q ∈ (r.stopWorker p.2).workers ↔ q ∈ r.workers ∧ q ≠ p) ∧
      ∀ w, w ∈ (r.stopWorker p.2).running ↔ w ∈ r.running ∧ p.2 ≠ w := by
  have hkey : p.2.key = p.1 := (hr.keyed _ _ hp).1.symm
  refine ⟨fun q => ?_, fun w => ?_⟩ <;>
    simp only [Registry.stopWorker, Registry.stop, Registry.delete, List.mem_filter, hkey, decide_eq_true_eq]
  · refine and_congr_right fun hq => ⟨fun h he => h (he ▸ rfl), fun h he => h ?_⟩
    have := hr.load_eq_some.2 hq
    rw [he, hr.load_eq_some.2 hp] at this
    exact Prod.ext he (Option.some.inj this).symm
  · exact and_congr_right fun _ => ne_comm

theorem Wf.foldl_stopKey_mem (ps : List (String × StateWorker)) (hr : r.Wf)
    (hps : ∀ p ∈ ps, p ∈ r.workers) (hnd : (ps.map (·.1)).Nodup) :
    (∀ p, p ∈ ((ps.map (·.1)).foldl Registry.stopKey r).workers ↔ p ∈ r.workers ∧ p ∉ ps) ∧
      ∀ w, w ∈ ((ps.map (·.1)).foldl Registry.stopKey r).running ↔ w ∈ r.running ∧ ∀ p ∈ ps, p.2 ≠ w := by
  induction ps generalizing r with
  | nil => simp
  | cons p ps ih =>
    obtain ⟨hp, hnd⟩ := List.nodup_cons.1 hnd
    have hpr := hps p (List.mem_cons_self _ _)
    obtain ⟨hw₁, hrun₁⟩ := hr.stopWorker_mem hpr
    have hstop : r.stopKey p.1 = r.stopWorker p.2 := by rw [Registry.stopKey, hr.load_eq_some.2 hpr]
    obtain ⟨hw, hrun⟩ := ih (hr.stopWorker p.2) (fun q hq => (hw₁ q).2
      ⟨hps q (List.mem_cons_of_mem _ hq), by rintro rfl; exact hp (List.mem_map_of_mem _ hq)⟩) hnd
    rw [List.map_cons, List.foldl_cons, hstop]
    exact ⟨fun q => by rw [hw, hw₁, List.mem_cons, not_or, and_assoc],
      fun w => by rw [hrun, hrun₁, List.forall_mem_cons, and_assoc]⟩

theorem filterMap_workflow (id : UInt64) (l : List (String × StateWorker)) :
    l.filterMap (fun (key, w) => if w.state.workflowID = id then some key else none) =
      (l.filter fun p => p.2.state.workflowID = id).map (·.1) := by
  induction l with
  | nil => rfl
  | cons p l ih => by_cases h : p.2.state.workflowID = id <;> simp [List.filter_cons, h, ih]

/-- `doStoppedInstanceEvent` takes out of the registry exactly the entries of the
workflow's workers, and stops exactly the registered ones: a worker of the
workflow that runs unregistered runs on. -/
theorem doStoppedInstanceEvent_spec (hr : r.Wf) (id : UInt64) :
    (∀ p, p ∈ (r.doStoppedInstanceEvent id).workers ↔ p ∈ r.workers ∧ p.2.state.workflowID ≠ id) ∧
      ∀ w, w ∈ (r.doStoppedInstanceEvent id).running ↔
        w ∈ r.running ∧ ¬((w.key, w) ∈ r.workers ∧ w.state.workflowID = id) := by
  have hnd : ((r.workers.filter fun p => p.2.state.workflowID = id).map (·.1)).Nodup :=
    ((List.filter_sublist _).map _).nodup hr.nodup
  obtain ⟨hw, hrun⟩ := hr.foldl_stopKey_mem _ (fun p hp => List.mem_of_mem_filter hp) hnd
  simp only [Registry.doStoppedInstanceEvent, filterMap_workflow]
  refine ⟨fun p => ?_, fun w => ?_⟩
  · rw [hw, List.mem_filter, decide_eq_true_eq]
    exact ⟨fun ⟨h, h'⟩ => ⟨h, fun he => h' ⟨h, he⟩⟩, fun ⟨h, h'⟩ => ⟨h, fun ⟨_, he⟩ => h' he⟩⟩
  rw [hrun]
  refine and_congr_right fun _ => ⟨fun h ⟨hw, hid⟩ => h _ (List.mem_filter.2 ⟨hw, by simpa using hid⟩) rfl,
    fun h p hp hpw => h ?_⟩
  obtain ⟨hp, hid⟩ := List.mem_filter.1 hp
  subst hpw
  rw [← (hr.keyed _ _ hp).1]
  exact ⟨hp, by simpa using hid⟩

theorem init_wf : init.Wf :=
  ⟨List.nodup_nil, fun _ _ h => absurd h (List.not_mem_nil _), fun _ _ h => absurd h (List.not_mem_nil _),
    fun _ h => absurd h (List.not_mem_nil _)⟩

theorem run_cons (e : WorkerEvent) (events : List WorkerEvent) :
    r.run (e :: events) = (r.handle e).bind fun r => r.run events := rfl

theorem Wf.run (hr : r.Wf) {events : List WorkerEvent} (h : r.run events = some r') : r'.Wf := by
  induction events generalizing r with
  | nil => cases h; exact hr
  | cons e events ih =>
    obtain ⟨r₁, h₁, h⟩ := Option.bind_eq_some.1 ((run_cons e events).symm.trans h)
    exact ih (hr.handle h₁) h

theorem Exclusive.run (hr : r.Wf) (hx : r.Exclusive) (ht : r.timers = []) {events : List WorkerEvent}
    (hstop : ∀ now state, .runningInstanceWorker now state ∈ events → state.stopAt = 0)
    (h : r.run events = some r') : r'.Exclusive := by
  induction events generalizing r with
  | nil => cases h; exact hx
  | cons e events ih =>
    obtain ⟨r₁, h₁, h⟩ := Option.bind_eq_some.1 ((run_cons e events).symm.trans h)
    obtain ⟨hx₁, ht₁⟩ := hx.handle hr ht (fun now state he => hstop now state (he ▸ List.mem_cons_self _ _)) h₁
    exact ih (hr.handle h₁) hx₁ ht₁ (fun now state hm => hstop now state (List.mem_cons_of_mem _ hm)) h

theorem Wf.eq_of_shard (hr : r.Wf) {w₁ w₂ : StateWorker} (h₁ : (w₁.key, w₁) ∈ r.workers)
    (h₂ : (w₂.key, w₂) ∈ r.workers) (hid : w₁.state.workflowID = w₂.state.workflowID)
    (hindex : w₁.state.index = w₂.state.index) : w₁ = w₂ := by
  have hk : w₁.key = w₂.key := by
    rw [(hr.keyed _ _ h₁).2, (hr.keyed _ _ h₂).2, workerKey, workerKey, hid, hindex]
  have := hr.load_eq_some.2 h₂
  rw [← hk, hr.load_eq_some.2 h₁] at this
  exact Option.some.inj this

/-- Over every run from the engine's start, the registry holds one entry a key,
each worker under the key of its shard, and each registered worker runs. -/
theorem run_wf {events : List WorkerEvent} (h : init.run events = some r) : r.Wf :=
  init_wf.run h

/-- Over every run from the engine's start in which no placed worker state has
a `StopAt`, one worker at most runs a shard, and it is the registered one. -/
theorem run_single_worker {events : List WorkerEvent}
    (hstop : ∀ now state, .runningInstanceWorker now state ∈ events → state.stopAt = 0)
    (h : init.run events = some r) :
    r.Exclusive ∧ ∀ w₁ ∈ r.running, ∀ w₂ ∈ r.running, w₁.state.workflowID = w₂.state.workflowID →
      w₁.state.index = w₂.state.index → w₁ = w₂ := by
  have hx := Exclusive.run init_wf (fun _ h => absurd h (List.not_mem_nil _)) rfl hstop h
  exact ⟨hx, fun w₁ h₁ w₂ h₂ => (init_wf.run h).eq_of_shard (hx w₁ h₁) (hx w₂ h₂)⟩

section Timed

variable (deadline : String → Int)

/-- What holds at the time `c` along a run whose placements of a key all carry
the `StopAt` `deadline key`: a running worker is registered, or its `StopAt`
has come; a pending timer is for a `StopAt`; one worker at most runs a key. -/
structure Timed (c : Int) (r : Registry) : Prop where
  wf : r.Wf
  own : ∀ w ∈ r.running, w.key = workerKey w.state ∧ w.state.stopAt = deadline w.key
  late : ∀ w ∈ r.running, (w.key, w) ∈ r.workers ∨ (w.state.stopAt ≠ 0 ∧ w.state.stopAt ≤ c)
  timers : ∀ w ∈ r.timers, w.state.stopAt ≠ 0 ∧ w.state.stopAt = deadline w.key
  single : ∀ w₁ ∈ r.running, ∀ w₂ ∈ r.running, w₁.key = w₂.key → w₁ = w₂

variable {deadline} {c c' : Int}

theorem init_timed (c : Int) : init.Timed deadline c :=
  ⟨init_wf, fun _ h => absurd h (List.not_mem_nil _), fun _ h => absurd h (List.not_mem_nil _),
    fun _ h => absurd h (List.not_mem_nil _), fun _ h => absurd h (List.not_mem_nil _)⟩

theorem Timed.mono (ht : r.Timed deadline c) (hc : c ≤ c') : r.Timed deadline c' :=
  { ht with late := fun w hw => (ht.late w hw).imp_right fun h => ⟨h.1, Int.le_trans h.2 hc⟩ }

theorem Timed.stopWorker (ht : r.Timed deadline c) {ts : List StateWorker} (hts : ∀ t ∈ ts, t ∈ r.timers)
    (hw : ∀ w', (w.key, w') ∈ r.workers → w' ≠ w → w'.state.stopAt ≠ 0 ∧ w'.state.stopAt ≤ c) :
    ({ r with timers := ts }.stopWorker w).Timed deadline c where
  wf := (ht.wf.setTimers ts).stopWorker w
  own w' h := ht.own w' (List.mem_of_mem_filter h)
  late w' h := by
    obtain ⟨h, hne⟩ := List.mem_filter.1 h
    rcases ht.late w' h with hreg | hlate
    · by_cases hk : w'.key = w.key
      · exact .inr (hw w' (hk ▸ hreg) (of_decide_eq_true hne))
      · exact .inl (List.mem_filter.2 ⟨hreg, decide_eq_true hk⟩)
    · exact .inr hlate
  timers t h := ht.timers t (hts t h)
  single w₁ h₁ w₂ h₂ := ht.single w₁ (List.mem_of_mem_filter h₁) w₂ (List.mem_of_mem_filter h₂)

theorem Timed.stopRegistered (ht : r.Timed deadline c) (hw : (w.key, w) ∈ r.workers) :
    (r.stopWorker w).Timed deadline c :=
  ht.stopWorker (show ∀ t ∈ r.timers, t ∈ r.timers from fun _ h => h) fun _ hw' hne =>
    absurd (Option.some.inj ((ht.wf.load_eq_some.2 hw').symm.trans (ht.wf.load_eq_some.2 hw))) hne

theorem Timed.stopKey (ht : r.Timed deadline c) (key : String) : (r.stopKey key).Timed deadline c := by
  unfold Registry.stopKey
  cases h : r.load key with
  | none => exact ht
  | some w =>
    have hw := ht.wf.load_eq_some.1 h
    rw [(ht.wf.keyed _ _ hw).1] at hw
    exact ht.stopRegistered hw

theorem Timed.foldl_stopKey (ht : r.Timed deadline c) (keys : List String) :
    (keys.foldl Registry.stopKey r).Timed deadline c := by
  induction keys generalizing r with
  | nil => exact ht
  | cons key keys ih => exact ih (ht.stopKey key)

theorem Timed.fire (ht : r.Timed deadline c) {now : Int} (hc : c ≤ now) (k : Nat) :
    (r.fire now k).Timed deadline now := by
  have ht' := ht.mono hc
  unfold Registry.fire
  split
  · rename_i t hk
    split_ifs with hdue
    · have htimer := ht.timers t (List.mem_iff_getElem?.2 ⟨k, hk⟩)
      refine ht'.stopWorker (fun t' h => (List.eraseIdx_sublist _ _).subset h) fun w' hw' _ => ?_
      have hkey := (ht.wf.keyed _ _ hw').1
      rw [(ht.own w' (ht.wf.running _ _ hw')).2, ← hkey, ← htimer.2]
      exact ⟨htimer.1, hdue⟩
    · exact ht'
  · exact ht'

theorem Timed.doStartInstanceStateEvent (ht : r.Timed deadline c) {now : Int} {state : WorkerShard}
    (hc : c ≤ now) (hstop : state.stopAt = deadline (workerKey state))
    (h : r.doStartInstanceStateEvent now state = some r') : r'.Timed deadline now := by
  have hwf := (ht.wf.doStartInstanceStateEvent h).1
  rcases doStartInstanceStateEvent_eq_some h with ⟨rfl, -⟩ | ⟨hfree, hlive, hw, hrun, hts, -⟩
  · exact ht.mono hc
  have hnew (w') (hw' : w' ∈ r.running) : w'.key ≠ workerKey state := fun hk => by
    rcases ht.late w' hw' with hreg | hlate
    · exact hfree w' (hk ▸ hreg)
    · rw [(ht.own w' hw').2, hk, ← hstop] at hlate
      exact hlive ⟨hlate.1, Int.le_trans hlate.2 hc⟩
  refine ⟨hwf, ?_, ?_, ?_, ?_⟩
  · rw [hrun]
    rintro w' (⟨⟩ | ⟨_, h⟩)
    · exact ⟨rfl, hstop⟩
    · exact ht.own w' h
  · rw [hrun, hw]
    rintro w' (⟨⟩ | ⟨_, h⟩)
    · exact .inl (List.mem_cons_self _ _)
    · exact (ht.late w' h).imp (List.mem_cons_of_mem _) fun h => ⟨h.1, Int.le_trans h.2 hc⟩
  · rw [hts]
    intro t h
    split_ifs at h with h0
    · rcases List.mem_append.1 h with h | h
      · exact ht.timers t h
      · rw [List.mem_singleton.1 h]; exact ⟨h0, hstop⟩
    · exact ht.timers t h
  · rw [hrun]
    rintro w₁ (⟨⟩ | ⟨_, h₁⟩) w₂ (⟨⟩ | ⟨_, h₂⟩) hk
    · rfl
    · exact absurd hk.symm (hnew w₂ h₂)
    · exact absurd hk (hnew w₁ h₁)
    · exact ht.single w₁ h₁ w₂ h₂ hk

theorem Timed.handle (ht : r.Timed deadline c) {e : WorkerEvent} (hc : ∀ t, e.now? = some t → c ≤ t)
    (hstop : ∀ now state, e = .runningInstanceWorker now state → state.stopAt = deadline (workerKey state))
    (h : r.handle e = some r') : r'.Timed deadline (e.now?.getD c) := by
  cases e with
  | runningInstanceWorker now state =>
    exact ht.doStartInstanceStateEvent (hc now rfl) (hstop now state rfl) h
  | removeInstanceWorker state =>
    cases h
    rw [ht.wf.doInstanceStateRemovedEvent_eq]
    exact ht.stopKey _
  | stoppedInstance id =>
    cases h
    exact ht.foldl_stopKey _
  | fire now k => cases h; exact ht.fire (hc now rfl) k

theorem Timed.run (ht : r.Timed deadline c) {events : List WorkerEvent}
    (htime : (events.filterMap WorkerEvent.now?).Pairwise (· ≤ ·)) (hc : ∀ t ∈ events.filterMap WorkerEvent.now?, c ≤ t)
    (hstop : ∀ now state, .runningInstanceWorker now state ∈ events → state.stopAt = deadline (workerKey state))
    (h : r.run events = some r') : ∃ c', r'.Timed deadline c' := by
  induction events generalizing r c with
  | nil => cases h; exact ⟨c, ht⟩
  | cons e events ih =>
    obtain ⟨r₁, h₁, h⟩ := Option.bind_eq_some.1 ((run_cons e events).symm.trans h)
    have hc₁ : ∀ t, e.now? = some t → c ≤ t := fun t he => hc t (by simp [List.filterMap_cons, he])
    have ht₁ := ht.handle hc₁ (fun now state he => hstop now state (he ▸ List.mem_cons_self _ _)) h₁
    refine ih ht₁ ?_ ?_ (fun now state hm => hstop now state (List.mem_cons_of_mem _ hm)) h
    · cases he : e.now? <;> simp only [List.filterMap_cons, he] at htime
      · exact htime
      · exact htime.of_cons
    · cases he : e.now? with
      | none => simpa [List.filterMap_cons, he] using hc
      | some t =>
        simp only [List.filterMap_cons, he, List.pairwise_cons] at htime
        exact htime.1

end Timed

/-- Over every run from the engine's start whose events come in time order and
whose placements of a shard all carry one `StopAt`, one worker at most runs a
shard: a timer fires once its `StopAt` has come, and from then on a placement
of its shard is refused. -/
theorem run_single_writer (deadline : String → Int) {events : List WorkerEvent}
    (htime : (events.filterMap WorkerEvent.now?).Pairwise (· ≤ ·))
    (hstop : ∀ now state, .runningInstanceWorker now state ∈ events → state.stopAt = deadline (workerKey state))
    (h : init.run events = some r) :
    ∀ w₁ ∈ r.running, ∀ w₂ ∈ r.running, w₁.state.workflowID = w₂.state.workflowID →
      w₁.state.index = w₂.state.index → w₁ = w₂ := by
  have hc : ∀ t ∈ events.filterMap WorkerEvent.now?, (events.filterMap WorkerEvent.now?).headD 0 ≤ t := by
    cases hl : events.filterMap WorkerEvent.now? with
    | nil => simp
    | cons t₀ ts =>
      rw [hl, List.pairwise_cons] at htime
      rintro t (⟨⟩ | ⟨_, ht⟩)
      · exact Int.le_refl _
      · exact htime.1 t ht
  obtain ⟨c', ht⟩ := (init_timed _).run htime hc hstop h
  intro w₁ h₁ w₂ h₂ hid hindex
  refine ht.single w₁ h₁ w₂ h₂ ?_
  rw [(ht.own w₁ h₁).1, (ht.own w₂ h₂).1, workerKey, workerKey, hid, hindex]

/-- A stop timer that fires while its worker's key holds another worker: the
timer stops its own worker and deletes the other's entry, which runs on
unregistered, and a placement of that shard is then accepted and starts a
second worker for it. A worker removed before its `StopAt`, when its instance
is stopped, leaves such a timer, and a worker of the workflow's next instance
takes its key. -/
theorem fire_stale_timer (hr : r.Wf) {k : Nat} {now now' : Int} {w w' : StateWorker} {state : WorkerShard}
    (hk : r.timers[k]? = some w) (hdue : w.state.stopAt ≤ now) (hw' : (w.key, w') ∈ r.workers)
    (hne : w' ≠ w) (hs : workerKey state = w.key) (hlive : ¬(state.stopAt ≠ 0 ∧ now' ≥ state.stopAt)) :
    ∃ r'', (r.fire now k).doStartInstanceStateEvent now' state = some r'' ∧ w' ∈ r''.running ∧
      ∃ w'' ∈ r''.running, w'' ≠ w' ∧ w''.key = w'.key := by
  have hfire : r.fire now k = { r with timers := r.timers.eraseIdx k }.stopWorker w := by
    simp [Registry.fire, hk, hdue]
  have hfree : (r.fire now k).load (workerKey state) = none := by
    rw [load_eq_none, hfire, hs]
    intro w₁ h
    simpa using (List.mem_filter.1 h).2
  have hrun : w' ∈ (r.fire now k).running := by
    rw [hfire]
    exact List.mem_filter.2 ⟨hr.running _ _ hw', decide_eq_true hne⟩
  obtain ⟨r'', hstart, hrun''⟩ := doStartInstanceStateEvent_free hfree hlive
  refine ⟨r'', hstart, hrun'' ▸ List.mem_cons_of_mem _ hrun, _, hrun'' ▸ List.mem_cons_self _ _, fun he => ?_, ?_⟩
  · have hlt := hr.fresh w' (hr.running _ _ hw')
    have hid := congrArg StateWorker.id he
    rw [hfire] at hid
    exact Nat.ne_of_gt hlt hid
  · show workerKey state = w'.key
    rw [hs, ← (hr.keyed _ _ hw').1]

end Registry

def placements : List WorkerEvent :=
  [.runningInstanceWorker 0 ⟨7, 0, 0⟩, .runningInstanceWorker 0 ⟨7, 1, 0⟩, .runningInstanceWorker 5 ⟨8, 0, 0⟩,
    .removeInstanceWorker ⟨7, 0, 0⟩, .stoppedInstance 7]

theorem run_wf_placements : ∃ r, Registry.init.run placements = some r ∧ r.Wf := by
  obtain ⟨r, h⟩ : ∃ r, Registry.init.run placements = some r := ⟨_, rfl⟩
  exact ⟨r, h, Registry.run_wf h⟩

theorem run_single_worker_placements :
    (∀ now state, .runningInstanceWorker now state ∈ placements → state.stopAt = 0) ∧
      ∃ r, Registry.init.run placements = some r ∧ r.Exclusive ∧
        ∀ w₁ ∈ r.running, ∀ w₂ ∈ r.running, w₁.state.workflowID = w₂.state.workflowID →
          w₁.state.index = w₂.state.index → w₁ = w₂ := by
  have hstop : ∀ now state, .runningInstanceWorker now state ∈ placements → state.stopAt = 0 := by
    intro now state h
    simp [placements] at h
    rcases h with ⟨-, rfl⟩ | ⟨-, rfl⟩ | ⟨-, rfl⟩ <;> rfl
  obtain ⟨r, h⟩ : ∃ r, Registry.init.run placements = some r := ⟨_, rfl⟩
  exact ⟨hstop, r, h, Registry.run_single_worker hstop h⟩

def replacement : List WorkerEvent :=
  [.runningInstanceWorker 0 ⟨7, 0, 100⟩, .runningInstanceWorker 0 ⟨7, 1, 100⟩, .removeInstanceWorker ⟨7, 0, 100⟩,
    .runningInstanceWorker 50 ⟨7, 0, 100⟩, .fire 100 0, .runningInstanceWorker 100 ⟨7, 0, 100⟩]

theorem run_single_writer_replacement :
    (replacement.filterMap WorkerEvent.now?).Pairwise (· ≤ ·) ∧
      (∀ now state, .runningInstanceWorker now state ∈ replacement → state.stopAt = 100) ∧
      ∃ r, Registry.init.run replacement = some r ∧
        ∀ w₁ ∈ r.running, ∀ w₂ ∈ r.running, w₁.state.workflowID = w₂.state.workflowID →
          w₁.state.index = w₂.state.index → w₁ = w₂ := by
  have htime : (replacement.filterMap WorkerEvent.now?).Pairwise (· ≤ ·) := by decide
  have hstop : ∀ now state, .runningInstanceWorker now state ∈ replacement → state.stopAt = 100 := by
    intro now state h
    simp [replacement] at h
    rcases h with ⟨-, rfl⟩ | ⟨-, rfl⟩ | ⟨-, rfl⟩ | ⟨-, rfl⟩ <;> rfl
  obtain ⟨r, h⟩ : ∃ r, Registry.init.run replacement = some r := ⟨_, rfl⟩
  exact ⟨htime, hstop, r, h, Registry.run_single_writer (fun _ => 100) htime hstop h⟩

def earlyStop : List WorkerEvent :=
  [.runningInstanceWorker 0 ⟨7, 0, 100⟩, .removeInstanceWorker ⟨7, 0, 100⟩, .runningInstanceWorker 20 ⟨7, 0, 120⟩]

def earlyStopped : Registry :=
  ⟨[("7/0", ⟨1, "7/0", ⟨7, 0, 120⟩⟩)], [⟨1, "7/0", ⟨7, 0, 120⟩⟩],
    [⟨0, "7/0", ⟨7, 0, 100⟩⟩, ⟨1, "7/0", ⟨7, 0, 120⟩⟩], 2⟩

theorem stale_timer_second_worker :
    Registry.init.run earlyStop = some earlyStopped ∧
      ∃ r'', (earlyStopped.fire 100 0).doStartInstanceStateEvent 115 ⟨7, 0, 215⟩ = some r'' ∧
        ⟨1, "7/0", ⟨7, 0, 120⟩⟩ ∈ r''.running ∧
        ∃ w'' ∈ r''.running, w'' ≠ ⟨1, "7/0", ⟨7, 0, 120⟩⟩ ∧ w''.key = "7/0" :=
  have h : Registry.init.run earlyStop = some earlyStopped := rfl
  ⟨h, Registry.fire_stale_timer (Registry.init_wf.run h) rfl (by decide) (List.mem_singleton_self _) (by decide)
    rfl (by decide)⟩

theorem doStoppedInstanceEvent_placements :
    ∃ r, Registry.init.run (placements.take 4) = some r ∧ r.Wf ∧
      (∀ p, p ∈ (r.doStoppedInstanceEvent 7).workers ↔ p ∈ r.workers ∧ p.2.state.workflowID ≠ 7) ∧
      ∀ w, w ∈ (r.doStoppedInstanceEvent 7).running ↔
        w ∈ r.running ∧ ¬((w.key, w) ∈ r.workers ∧ w.state.workflowID = 7) := by
  obtain ⟨r, h⟩ : ∃ r, Registry.init.run (placements.take 4) = some r := ⟨_, rfl⟩
  have hr := Registry.init_wf.run h
  exact ⟨r, h, hr, Registry.doStoppedInstanceEvent_spec hr 7⟩

end Busybee.Engine
