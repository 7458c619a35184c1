import Busybee.StartInstance
import Mathlib.Algebra.Order.Ring.Nat

set_option autoImplicit false

/-!
# The instance controller

`engine.handleEvent`: one loop over the storage's instance events and the four
retry channels; a failed storage call is retried through a timer entry. The
model keeps the pending timer entries, the stored snapshots, and the log of the
calls the handlers make, each with whether it succeeded. Each handler is
described once by what it appends (`Appends`), and the run invariants follow.
-/

namespace Busybee.Engine

inductive Command where
  | loadBM (wid : Nat)
  | createInstanceStateShard (wid index : Nat)
  | startedInstance (wid : Nat)
  | saveSnapshot (wid instanceID : Nat)
  | removeInstanceStateShard (wid index : Nat)
  | stoppedInstance (wid : Nat)
  | stopInstance (wid : Nat)
  deriving DecidableEq

inductive Retry where
  | newInstance (inst : WorkflowInstance)
  | stoppingInstance (inst : WorkflowInstance)
  | completeInstance (wid : Nat)
  | instanceStop (wid : Nat)
  deriving DecidableEq

structure Controller where
  pending : List Retry
  snapshots : List (Nat × Nat)
  log : List (Command × Bool)

def Controller.init : Controller := ⟨[], [], []⟩

abbrev ControllerM := StateM (Controller × Answers)

def answer : ControllerM Bool :=
  modifyGet fun (c, answers) =>
    match answers with
    | [] => (true, (c, []))
    | ok :: rest => (ok, (c, rest))

def record (cmd : Command) (ok : Bool) : ControllerM Unit :=
  modify fun (c, answers) => ({ c with log := c.log ++ [(cmd, ok)] }, answers)

def logged (cmd : Command) (m : ControllerM Bool) : ControllerM Bool := do
  let ok ← m
  record cmd ok
  pure ok

def issue (cmd : Command) : ControllerM Bool :=
  logged cmd answer

def schedule (r : Retry) : ControllerM Unit :=
  modify fun (c, answers) => ({ c with pending := c.pending ++ [r] }, answers)

/-- `doCreateInstanceStateShardComplete`: `StartedInstanceRequest`, retried
through `retryCompleteInstanceC`. -/
def doCreateInstanceStateShardComplete (wid : Nat) : ControllerM Unit := do
  unless ← issue (.startedInstance wid) do
    schedule (.completeInstance wid)

/-- The loop of `doStartInstanceEvent` over the split crowd, calling
`doCreateInstanceState` for each shard; a failure schedules the whole start
again through `retryNewInstanceC`. -/
def createShards (inst : WorkflowInstance) : List Nat → ControllerM Bool
  | [] => pure true
  | index :: rest => do
    if ← issue (.createInstanceStateShard inst.snapshot.id (index % 2 ^ 32)) then
      createShards inst rest
    else
      schedule (.newInstance inst)
      pure false

/-- `doStartInstanceEvent`, with `split` for `BMSplit`. When `loadBM` fails the
retry goes to `addToRetryCompleteInstance`. -/
def doStartInstanceEvent (split : Bitmap → UInt64 → List Bitmap) (inst : WorkflowInstance) :
    ControllerM Unit := do
  if ← issue (.loadBM inst.snapshot.id) then
    if ← createShards inst (List.range (split inst.crowd inst.workers).length) then
      doCreateInstanceStateShardComplete inst.snapshot.id
  else
    schedule (.completeInstance inst.snapshot.id)

/-- `doStartedInstanceEvent`: an instance with a duration is stopped through
`stopInstanceC`, at once or when its timer fires. -/
def doStartedInstanceEvent (inst : WorkflowInstance) : ControllerM Unit :=
  if inst.snapshot.duration = 0 then pure () else schedule (.instanceStop inst.snapshot.id)

/-- `doStopInstance`: `StopInstanceRequest`, retried through `stopInstanceC`. -/
def doStopInstance (wid : Nat) : ControllerM Unit := do
  unless ← issue (.stopInstance wid) do
    schedule (.instanceStop wid)

/-- `doSaveSnapshot`, `true` for a `nil` error: nothing to do when `Get` finds
the history snapshot; otherwise `buildSnapshot` and `SetWithTTL` store it. -/
def doSaveSnapshot (inst : WorkflowInstance) : ControllerM Bool := do
  let key := (inst.snapshot.id, inst.instanceID)
  if !(← answer) then pure false
  else if key ∈ (← get).1.snapshots then pure true
  else if !(← answer) then pure false
  else if !(← answer) then pure false
  else
    modify fun (c, answers) => ({ c with snapshots := c.snapshots ++ [key] }, answers)
    pure true

def removeShards (inst : WorkflowInstance) : List Nat → ControllerM Bool
  | [] => pure true
  | index :: rest => do
    if ← issue (.removeInstanceStateShard inst.snapshot.id index) then
      removeShards inst rest
    else
      pure false

/-- `doInstanceStoppingComplete`: `StoppedInstanceRequest`, retried through
`retryStoppingInstanceC`. -/
def doInstanceStoppingComplete (inst : WorkflowInstance) : ControllerM Unit := do
  unless ← issue (.stoppedInstance inst.snapshot.id) do
    schedule (.stoppingInstance inst)

/-- The worker indexes `doStoppingInstanceEvent` removes: those below
`uint32(Workers)`. -/
def workerIndexes (inst : WorkflowInstance) : List Nat :=
  List.range (inst.workers.toNat % 2 ^ 32)

/-- `doStoppingInstanceEvent`: save the snapshot, remove the worker states, then
complete; a failure retries it all through `retryStoppingInstanceC`. -/
def doStoppingInstanceEvent (inst : WorkflowInstance) : ControllerM Unit := do
  if ← logged (.saveSnapshot inst.snapshot.id inst.instanceID) (doSaveSnapshot inst) then
    if ← removeShards inst (workerIndexes inst) then
      doInstanceStoppingComplete inst
    else
      schedule (.stoppingInstance inst)
  else
    schedule (.stoppingInstance inst)

/-- An instance event from the storage. The stopped-instance and worker events
start and stop state workers and issue none of the calls above. -/
inductive Event where
  | startingInstance (inst : WorkflowInstance)
  | runningInstance (inst : WorkflowInstance)
  | stoppingInstance (inst : WorkflowInstance)
  | other

/-- What one pass of the loop receives, with the outcomes of the storage calls
its handler makes: an event, or the `k`-th pending timer entry, fired and
delivered on its channel. -/
inductive Input where
  | event (e : Event) (answers : Answers)
  | fire (k : Nat) (answers : Answers)

def doEvent (split : Bitmap → UInt64 → List Bitmap) : Event → ControllerM Unit
  | .startingInstance inst => doStartInstanceEvent split inst
  | .runningInstance inst => doStartedInstanceEvent inst
  | .stoppingInstance inst => doStoppingInstanceEvent inst
  | .other => pure ()

def deliver (split : Bitmap → UInt64 → List Bitmap) : Retry → ControllerM Unit
  | .newInstance inst => doStartInstanceEvent split inst
  | .stoppingInstance inst => doStoppingInstanceEvent inst
  | .completeInstance wid => doCreateInstanceStateShardComplete wid
  | .instanceStop wid => doStopInstance wid

def handleEvent (split : Bitmap → UInt64 → List Bitmap) (c : Controller) : Input → Controller
  | .event e answers => ((doEvent split e).run (c, answers)).2.1
  | .fire k answers =>
    match c.pending[k]? with
    | some r => ((deliver split r).run ({ c with pending := c.pending.eraseIdx k }, answers)).2.1
    | none => c

def run (split : Bitmap → UInt64 → List Bitmap) (c : Controller) (inputs : List Input) : Controller :=
  inputs.foldl (handleEvent split) c

/-- An instance whose crowd cannot be loaded: its retry issues
`StartedInstanceRequest`, which succeeds with no worker state created. -/
theorem started_without_shards (split : Bitmap → UInt64 → List Bitmap) (inst : WorkflowInstance) :
    (run split .init [.event (.startingInstance inst) [false], .fire 0 []]).log =
      [(.loadBM inst.snapshot.id, false), (.startedInstance inst.snapshot.id, true)] :=
  rfl

def Quiet {α : Type} (m : ControllerM α) : Prop :=
  ∀ s, (m.run s).2.1.log = s.1.log ∧ (m.run s).2.1.pending = s.1.pending

/-- A handler that only appends: log entries that satisfy `P`, and timer
entries that satisfy `Q`. -/
def Appends (P : Command × Bool → Prop) (Q : Retry → Prop) {α : Type} (m : ControllerM α) : Prop :=
  ∀ s, ∃ new pend, (m.run s).2.1.log = s.1.log ++ new ∧ (m.run s).2.1.pending = s.1.pending ++ pend ∧
    (∀ e ∈ new, P e) ∧ ∀ r ∈ pend, Q r

theorem Quiet.bind {α β : Type} {m : ControllerM α} {f : α → ControllerM β} (hm : Quiet m)
    (hf : ∀ a, Quiet (f a)) : Quiet (m >>= f) :=
  fun s => ⟨(hf _ _).1.trans (hm s).1, (hf _ _).2.trans (hm s).2⟩

theorem quiet_pure {α : Type} (a : α) : Quiet (pure a : ControllerM α) :=
  fun _ => ⟨rfl, rfl⟩

theorem quiet_answer : Quiet answer :=
  fun ⟨_, answers⟩ => by cases answers <;> exact ⟨rfl, rfl⟩

theorem quiet_doSaveSnapshot (inst : WorkflowInstance) : Quiet (doSaveSnapshot inst) := by
  refine quiet_answer.bind fun b => ?_
  split
  · exact quiet_pure _
  refine Quiet.bind (fun _ => ⟨rfl, rfl⟩) fun st => ?_
  split
  · exact quiet_pure _
  refine quiet_answer.bind fun b => ?_
  split
  · exact quiet_pure _
  refine quiet_answer.bind fun b => ?_
  split
  · exact quiet_pure _
  exact Quiet.bind (fun _ => ⟨rfl, rfl⟩) fun _ => quiet_pure _

theorem logged_log {cmd : Command} {m : ControllerM Bool} (hm : Quiet m) (s : Controller × Answers) :
    ((logged cmd m).run s).2.1.log = s.1.log ++ [(cmd, (m.run s).1)] := by
  rw [← (hm s).1]
  rfl

section Footprint

variable {P : Command × Bool → Prop} {Q : Retry → Prop}

theorem Quiet.appends {α : Type} {m : ControllerM α} (hm : Quiet m) : Appends P Q m :=
  fun s => ⟨[], [], by rw [(hm s).1, List.append_nil], by rw [(hm s).2, List.append_nil],
    by simp, by simp⟩

theorem Appends.pure {α : Type} (a : α) : Appends P Q (pure a : ControllerM α) :=
  (quiet_pure a).appends

theorem Appends.bind {α β : Type} {m : ControllerM α} {f : α → ControllerM β} (hm : Appends P Q m)
    (hf : ∀ a, Appends P Q (f a)) : Appends P Q (m >>= f) := by
  intro s
  obtain ⟨n1, p1, hl1, hp1, hn1, hq1⟩ := hm s
  obtain ⟨n2, p2, hl2, hp2, hn2, hq2⟩ := hf (m.run s).1 (m.run s).2
  refine ⟨n1 ++ n2, p1 ++ p2, ?_, ?_, List.forall_mem_append.2 ⟨hn1, hn2⟩,
    List.forall_mem_append.2 ⟨hq1, hq2⟩⟩
  · show ((f (m.run s).1).run (m.run s).2).2.1.log = _
    rw [hl2, hl1, List.append_assoc]
  · show ((f (m.run s).1).run (m.run s).2).2.1.pending = _
    rw [hp2, hp1, List.append_assoc]

theorem appends_schedule {r : Retry} (hr : Q r) : Appends P Q (schedule r) :=
  fun _ => ⟨[], [r], (List.append_nil _).symm, rfl, by simp, by simpa using hr⟩

theorem appends_logged {cmd : Command} {m : ControllerM Bool} (hm : Quiet m)
    (hP : ∀ ok, P (cmd, ok)) : Appends P Q (logged cmd m) :=
  fun s => ⟨_, [], logged_log hm s, by rw [List.append_nil, ← (hm s).2]; rfl, by simpa using hP _,
    by simp⟩

theorem appends_issue {cmd : Command} (hP : ∀ ok, P (cmd, ok)) : Appends P Q (issue cmd) :=
  appends_logged quiet_answer hP

theorem appends_doCreateInstanceStateShardComplete {wid : Nat}
    (hP : ∀ ok, P (.startedInstance wid, ok)) (hQ : Q (.completeInstance wid)) :
    Appends P Q (doCreateInstanceStateShardComplete wid) :=
  (appends_issue hP).bind fun ok => by cases ok; exacts [appends_schedule hQ, .pure _]

theorem appends_createShards {inst : WorkflowInstance}
    (hP : ∀ i ok, P (.createInstanceStateShard inst.snapshot.id i, ok)) (hQ : Q (.newInstance inst))
    (indexes : List Nat) : Appends P Q (createShards inst indexes) := by
  induction indexes with
  | nil => exact .pure _
  | cons index rest ih =>
    exact (appends_issue (hP _)).bind fun ok => by
      cases ok
      · exact (appends_schedule hQ).bind fun _ => .pure _
      · exact ih

theorem appends_doStartInstanceEvent {split : Bitmap → UInt64 → List Bitmap} {inst : WorkflowInstance}
    (hload : ∀ ok, P (.loadBM inst.snapshot.id, ok))
    (hshard : ∀ i ok, P (.createInstanceStateShard inst.snapshot.id i, ok))
    (hstarted : ∀ ok, P (.startedInstance inst.snapshot.id, ok))
    (hnew : Q (.newInstance inst)) (hcomplete : Q (.completeInstance inst.snapshot.id)) :
    Appends P Q (doStartInstanceEvent split inst) :=
  (appends_issue hload).bind fun ok => by
    cases ok
    · exact appends_schedule hcomplete
    · exact (appends_createShards hshard hnew _).bind fun done => by
        cases done
        · exact .pure _
        · exact appends_doCreateInstanceStateShardComplete hstarted hcomplete

theorem appends_doStartedInstanceEvent {inst : WorkflowInstance}
    (hQ : Q (.instanceStop inst.snapshot.id)) : Appends P Q (doStartedInstanceEvent inst) := by
  unfold doStartedInstanceEvent
  split
  · exact .pure _
  · exact appends_schedule hQ

theorem appends_doStopInstance {wid : Nat} (hP : ∀ ok, P (.stopInstance wid, ok))
    (hQ : Q (.instanceStop wid)) : Appends P Q (doStopInstance wid) :=
  (appends_issue hP).bind fun ok => by cases ok; exacts [appends_schedule hQ, .pure _]

theorem appends_removeShards {inst : WorkflowInstance}
    (hP : ∀ i ok, P (.removeInstanceStateShard inst.snapshot.id i, ok)) (indexes : List Nat) :
    Appends P Q (removeShards inst indexes) := by
  induction indexes with
  | nil => exact .pure _
  | cons index rest ih =>
    exact (appends_issue (hP _)).bind fun ok => by
      cases ok
      · exact .pure _
      · exact ih

theorem appends_doInstanceStoppingComplete {inst : WorkflowInstance}
    (hP : ∀ ok, P (.stoppedInstance inst.snapshot.id, ok)) (hQ : Q (.stoppingInstance inst)) :
    Appends P Q (doInstanceStoppingComplete inst) :=
  (appends_issue hP).bind fun ok => by cases ok; exacts [appends_schedule hQ, .pure _]

theorem appends_doStoppingInstanceEvent {inst : WorkflowInstance}
    (hsave : ∀ ok, P (.saveSnapshot inst.snapshot.id inst.instanceID, ok))
    (hremove : ∀ i ok, P (.removeInstanceStateShard inst.snapshot.id i, ok))
    (hstopped : ∀ ok, P (.stoppedInstance inst.snapshot.id, ok)) (hQ : Q (.stoppingInstance inst)) :
    Appends P Q (doStoppingInstanceEvent inst) :=
  (appends_logged (quiet_doSaveSnapshot inst) hsave).bind fun ok => by
    cases ok
    · exact appends_schedule hQ
    · exact (appends_removeShards hremove _).bind fun done => by
        cases done
        · exact appends_schedule hQ
        · exact appends_doInstanceStoppingComplete hstopped hQ

end Footprint

theorem issue_run (cmd : Command) (c : Controller) (answers : Answers) :
    (issue cmd).run (c, answers) =
      (answers.headD true, ({ c with log := c.log ++ [(cmd, answers.headD true)] }, answers.tail)) := by
  cases answers <;> rfl

theorem run_bind_ite {α : Type} (x : ControllerM Bool) (a b : ControllerM α)
    (s : Controller × Answers) :
    (x >>= fun ok => if ok = true then a else b).run s =
      if (x.run s).1 = true then a.run (x.run s).2 else b.run (x.run s).2 := by
  rw [StateT.run_bind]
  rcases x.run s with ⟨_ | _, _⟩ <;> rfl

theorem issueLoop_log (cmd : Nat → Command) (f : List Nat → ControllerM Bool) (g : ControllerM Bool)
    (hnil : f [] = pure true)
    (hcons : ∀ i rest, f (i :: rest) = issue (cmd i) >>= fun ok => if ok then f rest else g)
    (hg : ∀ s, (g.run s).1 = false) (indexes : List Nat) (s : Controller × Answers)
    (h : ((f indexes).run s).1 = true) :
    ((f indexes).run s).2.1.log = s.1.log ++ indexes.map fun i => (cmd i, true) := by
  induction indexes generalizing s with
  | nil => rw [hnil, List.map_nil, List.append_nil]; rfl
  | cons i rest ih =>
    obtain ⟨c, answers⟩ := s
    rw [hcons, run_bind_ite, issue_run] at h ⊢
    dsimp only at h ⊢
    generalize answers.headD true = ok at h ⊢
    cases ok
    · rw [if_neg Bool.false_ne_true, hg] at h
      cases h
    · rw [if_pos rfl] at h ⊢
      rw [ih _ h]
      simp

theorem createShards_log (inst : WorkflowInstance) (indexes : List Nat) (s : Controller × Answers)
    (h : ((createShards inst indexes).run s).1 = true) :
    ((createShards inst indexes).run s).2.1.log =
      s.1.log ++ indexes.map fun i => (.createInstanceStateShard inst.snapshot.id (i % 2 ^ 32), true) :=
  issueLoop_log _ (createShards inst) (schedule (.newInstance inst) >>= fun _ => pure false) rfl
    (fun _ _ => rfl) (fun _ => rfl) indexes s h

theorem removeShards_log (inst : WorkflowInstance) (indexes : List Nat) (s : Controller × Answers)
    (h : ((removeShards inst indexes).run s).1 = true) :
    ((removeShards inst indexes).run s).2.1.log =
      s.1.log ++ indexes.map fun i => (.removeInstanceStateShard inst.snapshot.id i, true) :=
  issueLoop_log _ (removeShards inst) (pure false) rfl (fun _ _ => rfl) (fun _ => rfl) indexes s h

theorem doInstanceStoppingComplete_log (inst : WorkflowInstance) (s : Controller × Answers) :
    ∃ ok, ((doInstanceStoppingComplete inst).run s).2.1.log =
      s.1.log ++ [(.stoppedInstance inst.snapshot.id, ok)] := by
  obtain ⟨c, answers⟩ := s
  refine ⟨answers.headD true, ?_⟩
  simp only [doInstanceStoppingComplete, StateT.run_bind, issue_run, Id.bind_eq]
  cases answers.headD true <;> rfl

/-- Every `K wid` entry of the log comes after a log that `J wid` holds of. -/
def Preceded (K : Nat → Command) (J : Nat → List (Command × Bool) → Prop)
    (l : List (Command × Bool)) : Prop :=
  ∀ p wid ok, l[p]? = some (K wid, ok) → J wid (l.take p)

section Preceded

variable {K : Nat → Command} {J : Nat → List (Command × Bool) → Prop} {l : List (Command × Bool)}

theorem Preceded.append {new : List (Command × Bool)} (hl : Preceded K J l)
    (hnew : ∀ p wid ok, new[p]? = some (K wid, ok) → J wid (l ++ new.take p)) :
    Preceded K J (l ++ new) := by
  intro p wid ok hp
  by_cases hlt : p < l.length
  · rw [List.getElem?_append_left hlt] at hp
    rw [List.take_append_of_le_length hlt.le]
    exact hl p wid ok hp
  · rw [List.getElem?_append_right (Nat.not_lt.1 hlt)] at hp
    rw [List.take_append_eq_append_take, List.take_of_length_le (Nat.not_lt.1 hlt)]
    exact hnew _ wid ok hp

theorem Preceded.append_other {new : List (Command × Bool)} (hl : Preceded K J l)
    (hnew : ∀ e ∈ new, ∀ wid, e.1 ≠ K wid) : Preceded K J (l ++ new) :=
  hl.append fun _ wid _ hp => absurd rfl (hnew _ (List.getElem?_mem hp) wid)

theorem Preceded.append_entry (hK : Function.Injective K) {wid : Nat} {ok : Bool}
    (hl : Preceded K J l) (hw : J wid l) : Preceded K J (l ++ [(K wid, ok)]) :=
  hl.append fun p wid' ok' hp => by
    rcases p with _ | p
    · obtain ⟨h, -⟩ : K wid = K wid' ∧ ok = ok' := by simpa using hp
      rw [← hK h, List.take_zero, List.append_nil]
      exact hw
    · simp at hp

theorem Preceded.appends {α : Type} {Q : Retry → Prop} {m : ControllerM α}
    (hm : Appends (fun e => ∀ wid, e.1 ≠ K wid) Q m) {s : Controller × Answers}
    (h : Preceded K J s.1.log) : Preceded K J (m.run s).2.1.log := by
  obtain ⟨new, -, hlog, -, hnew, -⟩ := hm s
  exact hlog ▸ h.append_other hnew

end Preceded

/-- A property of the controller that each pass of the loop over an input of the
run keeps holds over the run. -/
theorem run_invariant (split : Bitmap → UInt64 → List Bitmap) {I : Controller → Prop}
    (inputs : List Input) (hstep : ∀ c i, i ∈ inputs → I c → I (handleEvent split c i)) :
    ∀ c, I c → I (run split c inputs) := by
  induction inputs with
  | nil => exact fun _ h => h
  | cons i inputs ih =>
    exact fun c h => ih (fun c j hj => hstep c j (List.mem_cons_of_mem _ hj)) _
      (hstep c i (List.mem_cons_self ..) h)

/-- The instances the storage's events of a run deliver to `doStartInstanceEvent`. -/
def startingInstances (inputs : List Input) : List WorkflowInstance :=
  inputs.filterMap fun
    | .event (.startingInstance inst) _ => some inst
    | _ => none

/-- The instances the storage's events of a run deliver to `doStoppingInstanceEvent`. -/
def stoppingInstances (inputs : List Input) : List WorkflowInstance :=
  inputs.filterMap fun
    | .event (.stoppingInstance inst) _ => some inst
    | _ => none

/-- The successful removals of an instance's worker states, in the order
`doStoppingInstanceEvent` issues them. -/
def removals (inst : WorkflowInstance) : List (Command × Bool) :=
  (workerIndexes inst).map fun i =>
    (.removeInstanceStateShard inst.snapshot.id i, true)

/-- `l` ends with the saved snapshot of an instance of workflow `wid` out of `S`,
then the removals of all its worker states. -/
def StopPrepared (S : List WorkflowInstance) (wid : Nat) (l : List (Command × Bool)) : Prop :=
  ∃ inst ∈ S, ∃ pre, inst.snapshot.id = wid ∧
    l = pre ++ (.saveSnapshot wid inst.instanceID, true) :: removals inst

/-- Every `StoppedInstanceRequest` of the log comes right after the saved
snapshot and the removals of an instance out of `S`, and every item waiting for
`retryStoppingInstanceC` is an instance out of `S`. -/
structure StopsPrepared (S : List WorkflowInstance) (c : Controller) : Prop where
  log : Preceded .stoppedInstance (StopPrepared S) c.log
  pending : ∀ inst, Retry.stoppingInstance inst ∈ c.pending → inst ∈ S

section Stops

variable {S : List WorkflowInstance}

theorem StopsPrepared.appends {α : Type} {m : ControllerM α}
    (hm : Appends (fun e => ∀ wid, e.1 ≠ .stoppedInstance wid)
      (fun r => ∀ inst, r = .stoppingInstance inst → inst ∈ S) m)
    {s : Controller × Answers} (h : StopsPrepared S s.1) : StopsPrepared S (m.run s).2.1 := by
  refine ⟨Preceded.appends hm h.log, fun inst hi => ?_⟩
  obtain ⟨-, pend, -, hpend, -, hq⟩ := hm s
  rcases List.mem_append.1 (hpend ▸ hi) with hi | hi
  exacts [h.pending inst hi, hq _ hi inst rfl]

theorem Preceded.doStoppingInstanceEvent {inst : WorkflowInstance} (hS : inst ∈ S)
    (s : Controller × Answers) (h : Preceded .stoppedInstance (StopPrepared S) s.1.log) :
    Preceded .stoppedInstance (StopPrepared S) ((doStoppingInstanceEvent inst).run s).2.1.log := by
  have hlog1 := @logged_log (.saveSnapshot inst.snapshot.id inst.instanceID) _
    (quiet_doSaveSnapshot inst) s
  rw [Busybee.Engine.doStoppingInstanceEvent, run_bind_ite]
  set X := (logged (.saveSnapshot inst.snapshot.id inst.instanceID) (doSaveSnapshot inst)).run s
  have hp1 : Preceded .stoppedInstance (StopPrepared S) X.2.1.log :=
    hlog1 ▸ Preceded.append_other h (by simp)
  split
  · next hsaved =>
    rw [run_bind_ite]
    set Y := (removeShards inst (workerIndexes inst)).run X.2
    have hp2 : Preceded .stoppedInstance (StopPrepared S) Y.2.1.log :=
      Preceded.appends (@appends_removeShards _ (fun _ => True) _ (fun _ _ => by simp) _) hp1
    split
    · next hremoved =>
      obtain ⟨ok, hlog⟩ := doInstanceStoppingComplete_log inst Y.2
      rw [hlog]
      refine Preceded.append_entry (fun _ _ => Command.stoppedInstance.inj) hp2 ⟨inst, hS, s.1.log, rfl, ?_⟩
      have hrem : Y.2.1.log = _ := removeShards_log inst _ X.2 hremoved
      have hsaved' : ((doSaveSnapshot inst).run s).1 = true := hsaved
      rw [hrem, hlog1, hsaved']
      simp [removals]
    · exact hp2
  · exact hp1

theorem StopsPrepared.doStoppingInstanceEvent {inst : WorkflowInstance} (hS : inst ∈ S)
    (s : Controller × Answers) (h : StopsPrepared S s.1) :
    StopsPrepared S ((Busybee.Engine.doStoppingInstanceEvent inst).run s).2.1 := by
  refine ⟨.doStoppingInstanceEvent hS s h.log, fun inst' hi => ?_⟩
  obtain ⟨-, pend, -, hpend, -, hq⟩ := @appends_doStoppingInstanceEvent (fun _ => True)
    (fun r => ∀ i, r = .stoppingInstance i → i ∈ S) inst (fun _ => trivial) (fun _ _ => trivial)
    (fun _ => trivial) (fun i hi => Retry.stoppingInstance.inj hi ▸ hS) s
  rcases List.mem_append.1 (hpend ▸ hi) with hi | hi
  exacts [h.pending inst' hi, hq _ hi inst' rfl]

theorem StopsPrepared.doEvent (split : Bitmap → UInt64 → List Bitmap) {e : Event}
    (he : ∀ inst, e = .stoppingInstance inst → inst ∈ S) {s : Controller × Answers}
    (h : StopsPrepared S s.1) : StopsPrepared S ((Busybee.Engine.doEvent split e).run s).2.1 := by
  cases e with
  | startingInstance inst =>
    exact .appends (appends_doStartInstanceEvent (by simp) (by simp) (by simp) (by simp) (by simp)) h
  | runningInstance inst => exact .appends (appends_doStartedInstanceEvent (by simp)) h
  | stoppingInstance inst => exact .doStoppingInstanceEvent (he inst rfl) s h
  | other => exact h

theorem StopsPrepared.deliver (split : Bitmap → UInt64 → List Bitmap) {r : Retry}
    (hr : ∀ inst, r = .stoppingInstance inst → inst ∈ S) {s : Controller × Answers}
    (h : StopsPrepared S s.1) : StopsPrepared S ((Busybee.Engine.deliver split r).run s).2.1 := by
  cases r with
  | newInstance inst =>
    exact .appends (appends_doStartInstanceEvent (by simp) (by simp) (by simp) (by simp) (by simp)) h
  | stoppingInstance inst => exact .doStoppingInstanceEvent (hr inst rfl) s h
  | completeInstance wid => exact .appends (appends_doCreateInstanceStateShardComplete (by simp) (by simp)) h
  | instanceStop wid => exact .appends (appends_doStopInstance (by simp) (by simp)) h

theorem StopsPrepared.handleEvent (split : Bitmap → UInt64 → List Bitmap) {c : Controller} {i : Input}
    (hi : ∀ inst answers, i = .event (.stoppingInstance inst) answers → inst ∈ S)
    (h : StopsPrepared S c) : StopsPrepared S (Busybee.Engine.handleEvent split c i) := by
  cases i with
  | event e answers => exact .doEvent split (fun inst he => hi inst answers (he ▸ rfl)) (s := (c, answers)) h
  | fire k answers =>
    dsimp only [Busybee.Engine.handleEvent]
    split
    · next r hr =>
      exact .deliver split (fun inst he => h.pending inst (he ▸ List.getElem?_mem hr))
        (s := ({ c with pending := c.pending.eraseIdx k }, answers))
        ⟨h.log, fun inst hi => h.pending inst (List.mem_of_mem_eraseIdx hi)⟩
    · exact h

end Stops

/-- Over every run from the fresh controller, in any order of events, retries
and call outcomes, each `StoppedInstanceRequest` comes right after the saved
history snapshot of an instance that an `InstanceStoppingEvent` of the run
delivered, of the request's workflow, and the successful removal of its worker
states at every index below `uint32(Workers)`; every stopping retry waiting is
of such an instance. -/
theorem stopped_after_snapshot_and_removals (split : Bitmap → UInt64 → List Bitmap)
    (inputs : List Input) : StopsPrepared (stoppingInstances inputs) (run split .init inputs) :=
  run_invariant split inputs
    (fun _ i hi h => .handleEvent split (fun inst answers he => List.mem_filterMap.2 ⟨i, hi, he ▸ rfl⟩) h) _
    ⟨fun p _ _ hp => by simp [Controller.init] at hp, fun _ h => by simp [Controller.init] at h⟩

/-- The log justifies reporting workflow `wid` started: the worker state of an
instance of it out of `S` was created at every shard index, or its crowd failed
to load. -/
def StartJustified (S : List WorkflowInstance) (split : Bitmap → UInt64 → List Bitmap) (wid : Nat)
    (l : List (Command × Bool)) : Prop :=
  (∃ inst ∈ S, inst.snapshot.id = wid ∧
    ∀ i < (split inst.crowd inst.workers).length,
      (.createInstanceStateShard wid (i % 2 ^ 32), true) ∈ l) ∨
  (.loadBM wid, false) ∈ l

theorem StartJustified.append {S : List WorkflowInstance} {split : Bitmap → UInt64 → List Bitmap}
    {wid : Nat} {l : List (Command × Bool)} (h : StartJustified S split wid l) (new : List (Command × Bool)) :
    StartJustified S split wid (l ++ new) := by
  rcases h with ⟨inst, hS, hid, hall⟩ | hload
  · exact .inl ⟨inst, hS, hid, fun i hi => List.mem_append_left _ (hall i hi)⟩
  · exact .inr (List.mem_append_left _ hload)

/-- Every `StartedInstanceRequest` and every pending retry that would issue one
is justified by the log before it, and every item waiting for
`retryNewInstanceC` is an instance out of `S`. -/
structure StartsJustified (S : List WorkflowInstance) (split : Bitmap → UInt64 → List Bitmap)
    (c : Controller) : Prop where
  log : Preceded .startedInstance (StartJustified S split) c.log
  pending : ∀ wid, Retry.completeInstance wid ∈ c.pending → StartJustified S split wid c.log
  starting : ∀ inst, Retry.newInstance inst ∈ c.pending → inst ∈ S

section Starts

variable {S : List WorkflowInstance} {split : Bitmap → UInt64 → List Bitmap}

theorem StartsJustified.appends {α : Type} {m : ControllerM α} {l : List (Command × Bool)}
    (hm : Appends (fun e => ∀ wid, e.1 = .startedInstance wid → StartJustified S split wid l)
      (fun r => (∀ wid, r = .completeInstance wid → StartJustified S split wid l) ∧
        ∀ inst, r = .newInstance inst → inst ∈ S) m)
    {s : Controller × Answers} (hs : s.1.log = l) (h : StartsJustified S split s.1) :
    StartsJustified S split (m.run s).2.1 := by
  obtain ⟨new, pend, hlog, hpend, hnew, hq⟩ := hm s
  subst hs
  refine ⟨hlog ▸ h.log.append fun p wid ok hp => ?_, fun wid hw => hlog ▸ ?_, fun inst hi => ?_⟩
  · exact (hnew _ (List.getElem?_mem hp) wid rfl).append _
  · rcases List.mem_append.1 (hpend ▸ hw) with hw | hw
    · exact (h.pending wid hw).append _
    · exact ((hq _ hw).1 wid rfl).append _
  · rcases List.mem_append.1 (hpend ▸ hi) with hi | hi
    exacts [h.starting inst hi, (hq _ hi).2 inst rfl]

theorem StartsJustified.doCreateInstanceStateShardComplete {wid : Nat} {s : Controller × Answers}
    (h : StartsJustified S split s.1) (hw : StartJustified S split wid s.1.log) :
    StartsJustified S split ((Busybee.Engine.doCreateInstanceStateShardComplete wid).run s).2.1 :=
  .appends (appends_doCreateInstanceStateShardComplete
    (fun _ _ he => Command.startedInstance.inj he ▸ hw)
    ⟨fun _ hr => Retry.completeInstance.inj hr ▸ hw, by simp⟩) rfl h

theorem StartsJustified.doStartInstanceEvent {inst : WorkflowInstance} (hS : inst ∈ S)
    {s : Controller × Answers} (h : StartsJustified S split s.1) :
    StartsJustified S split ((Busybee.Engine.doStartInstanceEvent split inst).run s).2.1 := by
  obtain ⟨c, answers⟩ := s
  rw [Busybee.Engine.doStartInstanceEvent, run_bind_ite, issue_run]
  dsimp only
  generalize answers.headD true = ok, answers.tail = rest
  have h1 : StartsJustified S split { c with log := c.log ++ [(.loadBM inst.snapshot.id, ok)] } :=
    ⟨h.log.append_other (by simp), fun wid hw => (h.pending wid hw).append _, h.starting⟩
  cases ok
  · rw [if_neg Bool.false_ne_true]
    refine .appends (appends_schedule ⟨fun wid hr => ?_, by simp⟩) rfl h1
    exact Retry.completeInstance.inj hr ▸ .inr (List.mem_append_right _ (List.mem_singleton_self _))
  rw [if_pos rfl, run_bind_ite]
  set X := (createShards inst (List.range (split inst.crowd inst.workers).length)).run
    ({ c with log := c.log ++ [(.loadBM inst.snapshot.id, true)] }, rest)
  have hj2 : StartsJustified S split X.2.1 :=
    .appends (appends_createShards (by simp) ⟨by simp, fun _ hi => Retry.newInstance.inj hi ▸ hS⟩ _) rfl h1
  split
  · next hdone =>
    refine hj2.doCreateInstanceStateShardComplete (.inl ⟨inst, hS, rfl, fun i hi => ?_⟩)
    have hlog : X.2.1.log = _ := createShards_log inst _ _ hdone
    rw [hlog]
    exact List.mem_append_right _ (List.mem_map.2 ⟨i, List.mem_range.2 hi, rfl⟩)
  · exact hj2

theorem StartsJustified.doEvent {e : Event} (he : ∀ inst, e = .startingInstance inst → inst ∈ S)
    {s : Controller × Answers} (h : StartsJustified S split s.1) :
    StartsJustified S split ((Busybee.Engine.doEvent split e).run s).2.1 := by
  cases e with
  | startingInstance inst => exact .doStartInstanceEvent (he inst rfl) h
  | runningInstance inst => exact .appends (appends_doStartedInstanceEvent (by simp)) rfl h
  | stoppingInstance inst =>
    exact .appends (appends_doStoppingInstanceEvent (by simp) (by simp) (by simp) (by simp)) rfl h
  | other => exact h

theorem StartsJustified.deliver {r : Retry} {s : Controller × Answers} (h : StartsJustified S split s.1)
    (hr : ∀ wid, r = .completeInstance wid → StartJustified S split wid s.1.log)
    (hnew : ∀ inst, r = .newInstance inst → inst ∈ S) :
    StartsJustified S split ((Busybee.Engine.deliver split r).run s).2.1 := by
  cases r with
  | newInstance inst => exact .doStartInstanceEvent (hnew inst rfl) h
  | stoppingInstance inst =>
    exact .appends (appends_doStoppingInstanceEvent (by simp) (by simp) (by simp) (by simp)) rfl h
  | completeInstance wid => exact h.doCreateInstanceStateShardComplete (hr wid rfl)
  | instanceStop wid => exact .appends (appends_doStopInstance (by simp) (by simp)) rfl h

theorem StartsJustified.handleEvent {c : Controller} {i : Input}
    (hi : ∀ inst answers, i = .event (.startingInstance inst) answers → inst ∈ S)
    (h : StartsJustified S split c) : StartsJustified S split (Busybee.Engine.handleEvent split c i) := by
  cases i with
  | event e answers => exact .doEvent (fun inst he => hi inst answers (he ▸ rfl)) (s := (c, answers)) h
  | fire k answers =>
    dsimp only [Busybee.Engine.handleEvent]
    split
    · next r hr =>
      exact .deliver (s := ({ c with pending := c.pending.eraseIdx k }, answers))
        ⟨h.log, fun wid hw => h.pending wid (List.mem_of_mem_eraseIdx hw),
          fun inst hw => h.starting inst (List.mem_of_mem_eraseIdx hw)⟩
        (fun wid hw => h.pending wid (hw ▸ List.getElem?_mem hr))
        (fun inst hw => h.starting inst (hw ▸ List.getElem?_mem hr))
    · exact h

end Starts

/-- Over every run from the fresh controller, each `StartedInstanceRequest` for
a workflow comes after the creation of the worker state at every shard index of
an instance of it that an `InstanceStartingEvent` of the run delivered, or after
a failed `loadBM` of its crowd; the second is how `started_without_shards`
reports an instance started. -/
theorem started_after_shards_or_failed_load (split : Bitmap → UInt64 → List Bitmap)
    (inputs : List Input) : StartsJustified (startingInstances inputs) split (run split .init inputs) :=
  run_invariant split inputs
    (fun _ i hi h => .handleEvent (fun inst answers he => List.mem_filterMap.2 ⟨i, hi, he ▸ rfl⟩) h) _
    ⟨fun p _ _ hp => by simp [Controller.init] at hp, fun _ hw => by simp [Controller.init] at hw,
      fun _ hw => by simp [Controller.init] at hw⟩

def failures (l : List (Command × Bool)) : Nat :=
  l.countP fun e => !e.2

@[simp] theorem failures_append (l l' : List (Command × Bool)) :
    failures (l ++ l') = failures l + failures l' :=
  List.countP_append _ _ _

/-- The timer entries an event schedules with no failed call: the duration
timer of a running instance. -/
def Event.durationTimers : Event → Nat
  | .runningInstance inst => if inst.snapshot.duration = 0 then 0 else 1
  | _ => 0

def Input.durationTimers : Input → Nat
  | .event e _ => e.durationTimers
  | .fire _ _ => 0

/-- The timer entries an input fires on the controller `c`: one, when it fires a
pending entry. -/
def Input.fires (c : Controller) : Input → Nat
  | .event _ _ => 0
  | .fire k _ => if k < c.pending.length then 1 else 0

/-- A handler that only appends, and schedules one timer entry for each failed
call it logs and `k` more, save `credit` of its result: failures it leaves for
its caller to retry. -/
def Balanced {α : Type} (k : Nat) (credit : α → Nat) (m : ControllerM α) : Prop :=
  ∀ s, ∃ new pend, (m.run s).2.1.log = s.1.log ++ new ∧ (m.run s).2.1.pending = s.1.pending ++ pend ∧
    pend.length + credit (m.run s).1 = failures new + k

section Balanced

variable {α β : Type} {k : Nat} {credit : α → Nat} {credit' : β → Nat}

theorem Balanced.pure {a : α} (h : credit a = k) : Balanced k credit (pure a : ControllerM α) :=
  fun _ => ⟨[], [], (List.append_nil _).symm, (List.append_nil _).symm, by simpa [failures] using h⟩

theorem Balanced.bind {m : ControllerM α} {f : α → ControllerM β} (hm : Balanced k credit m)
    (hf : ∀ a, Balanced (credit a) credit' (f a)) : Balanced k credit' (m >>= f) := by
  intro s
  obtain ⟨n1, p1, hl1, hp1, h1⟩ := hm s
  obtain ⟨n2, p2, hl2, hp2, h2⟩ := hf (m.run s).1 (m.run s).2
  refine ⟨n1 ++ n2, p1 ++ p2, ?_, ?_, ?_⟩
  · show ((f (m.run s).1).run (m.run s).2).2.1.log = _
    rw [hl2, hl1, List.append_assoc]
  · show ((f (m.run s).1).run (m.run s).2).2.1.pending = _
    rw [hp2, hp1, List.append_assoc]
  · show _ + credit' ((f (m.run s).1).run (m.run s).2).1 = _
    rw [List.length_append, failures_append]
    omega

theorem balanced_schedule (r : Retry) : Balanced 1 (fun _ => 0) (schedule r) :=
  fun _ => ⟨[], [r], (List.append_nil _).symm, rfl, rfl⟩

theorem balanced_logged {cmd : Command} {m : ControllerM Bool} (hm : Quiet m) :
    Balanced 0 (fun ok => (!ok).toNat) (logged cmd m) := fun s =>
  ⟨_, [], logged_log hm s, by rw [List.append_nil, ← (hm s).2]; rfl,
    show [].length + (!(m.run s).1).toNat = _ by cases (m.run s).1 <;> rfl⟩

theorem balanced_issue (cmd : Command) : Balanced 0 (fun ok => (!ok).toNat) (issue cmd) :=
  balanced_logged quiet_answer

end Balanced

theorem balanced_issue_unless (cmd : Command) (r : Retry) :
    Balanced 0 (fun _ => 0) (do unless ← issue cmd do schedule r : ControllerM Unit) :=
  (balanced_issue cmd).bind fun ok => by cases ok; exacts [balanced_schedule r, .pure rfl]

theorem balanced_createShards (inst : WorkflowInstance) (indexes : List Nat) :
    Balanced 0 (fun _ => 0) (createShards inst indexes) := by
  induction indexes with
  | nil => exact .pure rfl
  | cons index rest ih =>
    exact (balanced_issue _).bind fun ok => by
      cases ok
      · exact (balanced_schedule _).bind fun _ => .pure rfl
      · exact ih

theorem balanced_removeShards (inst : WorkflowInstance) (indexes : List Nat) :
    Balanced 0 (fun done => (!done).toNat) (removeShards inst indexes) := by
  induction indexes with
  | nil => exact .pure rfl
  | cons index rest ih => exact (balanced_issue _).bind fun ok => by cases ok; exacts [.pure rfl, ih]

theorem balanced_doStartInstanceEvent (split : Bitmap → UInt64 → List Bitmap) (inst : WorkflowInstance) :
    Balanced 0 (fun _ => 0) (doStartInstanceEvent split inst) :=
  (balanced_issue _).bind fun ok => by
    cases ok
    · exact balanced_schedule _
    · exact (balanced_createShards inst _).bind fun done => by
        cases done
        · exact .pure rfl
        · exact balanced_issue_unless _ _

theorem balanced_doStoppingInstanceEvent (inst : WorkflowInstance) :
    Balanced 0 (fun _ => 0) (doStoppingInstanceEvent inst) :=
  (balanced_logged (quiet_doSaveSnapshot inst)).bind fun ok => by
    cases ok
    · exact balanced_schedule _
    · exact (balanced_removeShards inst _).bind fun done => by
        cases done
        · exact balanced_schedule _
        · exact balanced_issue_unless _ _

theorem balanced_doEvent (split : Bitmap → UInt64 → List Bitmap) (e : Event) :
    Balanced e.durationTimers (fun _ => 0) (doEvent split e) := by
  cases e with
  | startingInstance inst => exact balanced_doStartInstanceEvent split inst
  | runningInstance inst =>
    show Balanced (if inst.snapshot.duration = 0 then 0 else 1) _ (doStartedInstanceEvent inst)
    unfold doStartedInstanceEvent
    split_ifs
    · exact .pure rfl
    · exact balanced_schedule _
  | stoppingInstance inst => exact balanced_doStoppingInstanceEvent inst
  | other => exact .pure rfl

theorem balanced_deliver (split : Bitmap → UInt64 → List Bitmap) (r : Retry) :
    Balanced 0 (fun _ => 0) (deliver split r) := by
  cases r with
  | newInstance inst => exact balanced_doStartInstanceEvent split inst
  | stoppingInstance inst => exact balanced_doStoppingInstanceEvent inst
  | completeInstance wid => exact balanced_issue_unless _ _
  | instanceStop wid => exact balanced_issue_unless _ _

/-- One pass of the loop adds a timer entry for each failed call it logs and for
its duration timer, and takes out the entry it fires, if any. -/
theorem handleEvent_accounted (split : Bitmap → UInt64 → List Bitmap) (c : Controller) (i : Input) :
    (handleEvent split c i).pending.length + i.fires c + failures c.log =
      c.pending.length + failures (handleEvent split c i).log + i.durationTimers := by
  cases i with
  | event e answers =>
    obtain ⟨new, pend, hlog, hpend, h⟩ := balanced_doEvent split e (c, answers)
    rw [handleEvent, hlog, hpend, List.length_append, failures_append]
    dsimp only [Input.durationTimers, Input.fires] at h ⊢
    omega
  | fire k answers =>
    dsimp only [handleEvent, Input.fires, Input.durationTimers]
    split
    · next r hr =>
      obtain ⟨hk, -⟩ := List.getElem?_eq_some_iff.1 hr
      obtain ⟨new, pend, hlog, hpend, h⟩ :=
        balanced_deliver split r ({ c with pending := c.pending.eraseIdx k }, answers)
      rw [hlog, hpend, List.length_append, failures_append, List.length_eraseIdx, if_pos hk, if_pos hk]
      dsimp only at h ⊢
      omega
    · next hr =>
      rw [if_neg (by simpa using hr)]
      rfl

/-- The inputs of a run from the controller `c` that fire a pending entry. -/
def delivered (split : Bitmap → UInt64 → List Bitmap) : Controller → List Input → Nat
  | _, [] => 0
  | c, i :: inputs => i.fires c + delivered split (handleEvent split c i) inputs

theorem run_accounted (split : Bitmap → UInt64 → List Bitmap) (inputs : List Input) :
    ∀ c, (run split c inputs).pending.length + delivered split c inputs + failures c.log =
      c.pending.length + failures (run split c inputs).log + (inputs.map Input.durationTimers).sum := by
  induction inputs with
  | nil => exact fun c => rfl
  | cons i inputs ih =>
    intro c
    have h1 := handleEvent_accounted split c i
    have h2 := ih (handleEvent split c i)
    simp only [run, delivered, List.foldl_cons, List.map_cons, List.sum_cons] at h2 ⊢
    omega

/-- Over every run from the fresh controller, in any order of events, retries
and call outcomes, each failed call of the log schedules one retry, and each
running instance with a duration its stop: the entries the timer wheel holds and
those the run fired are as many as the failed calls and the duration timers. -/
theorem pending_accounted (split : Bitmap → UInt64 → List Bitmap) (inputs : List Input) :
    (run split .init inputs).pending.length + delivered split .init inputs =
      failures (run split .init inputs).log + (inputs.map Input.durationTimers).sum := by
  have h := run_accounted split inputs .init
  have h0 : Controller.init.pending.length = 0 ∧ failures Controller.init.log = 0 := ⟨rfl, rfl⟩
  omega

end Busybee.Engine
