import Busybee.Snapshot
import Busybee.Controller
set_option autoImplicit false

/-!
# The worker states of an instance

`doStartInstanceEvent` writes one worker state a crowd of the split,
`doStoppingInstanceEvent` removes them, and `InstanceStepState` and
`UpdateCrowd` read them back with `getInstanceWorkers` and load their crowds
with `loadBM`.
-/

namespace Busybee.Engine

theorem sorted_insert_index {l : List WorkflowInstanceWorkerState}
    (hl : l.Sorted (·.index.toNat < ·.index.toNat)) (st : WorkflowInstanceWorkerState) :
    (l.filter (·.index.toNat < st.index.toNat) ++
      st :: l.filter (st.index.toNat < ·.index.toNat)).Sorted (·.index.toNat < ·.index.toNat) := by
  refine List.pairwise_append.2 ⟨hl.filter _, List.sorted_cons.2 ⟨fun b hb => ?_, hl.filter _⟩,
    fun a ha b hb => ?_⟩
  · simpa using (List.mem_filter.1 hb).2
  · have ha' : a.index.toNat < st.index.toNat := by simpa using (List.mem_filter.1 ha).2
    rcases List.mem_cons.1 hb with rfl | hb
    · exact ha'
    · have : st.index.toNat < b.index.toNat := by simpa using (List.mem_filter.1 hb).2
      omega

/-- Modelled from the spec: the store's `CreateInstanceStateShardRequest` is
not in the sources. It keeps the state under the key of its index, in place of
the state of that index. -/
def ShardStore.createInstanceStateShard (s : ShardStore) (st : WorkflowInstanceWorkerState) :
    ShardStore :=
  ⟨s.states.filter (·.index.toNat < st.index.toNat) ++
    st :: s.states.filter (st.index.toNat < ·.index.toNat), sorted_insert_index s.sorted st⟩

/-- Modelled from the spec: the store's `RemoveInstanceStateShardRequest` is
not in the sources. It drops the state of the index. -/
def ShardStore.removeInstanceStateShard (s : ShardStore) (index : UInt32) : ShardStore :=
  ⟨s.states.filter (·.index ≠ index), s.sorted.filter _⟩

def ShardStore.empty : ShardStore := ⟨[], List.sorted_nil⟩

/-- The worker state `doStartInstanceEvent` writes for the `index`-th crowd `bm`
of the split: a step state a step of `steps`, with the empty crowd and a zero
`TotalCrowd` but for the first, which holds `bm` and its cardinality. `none`
for a workflow without steps, where `States[0]` panics. -/
def workerState (steps : List String) (index : Nat) (bm : Bitmap) :
    Option WorkflowInstanceWorkerState :=
  match steps with
  | [] => none
  | first :: rest => some ⟨UInt32.ofNat index, ⟨first, bm, bm.card⟩ :: rest.map fun step => ⟨step, ∅, 0⟩⟩

/-- The loop of `doStartInstanceEvent` over the crowds of the split, with every
write answered: the store after each worker state is written. -/
def startStates (steps : List String) (bms : List Bitmap) (s : ShardStore) : Option ShardStore :=
  bms.enum.foldlM (fun s (index, bm) => (workerState steps index bm).map s.createInstanceStateShard) s

/-- The loop of `doStoppingInstanceEvent` over the worker indexes, with every
remove answered. -/
def removeStates (inst : WorkflowInstance) (s : ShardStore) : ShardStore :=
  (workerIndexes inst).foldl (fun s index => s.removeInstanceStateShard (UInt32.ofNat index)) s

/-- `loadRunningInstance`, on what `loadInstance` answers: the workflow's
current instance, when it is running. -/
def loadRunningInstance (id : Nat) (loaded : Except String (Option WorkflowInstance)) :
    Except String WorkflowInstance :=
  match loaded with
  | .error err => .error err
  | .ok (some inst) =>
    if inst.state = .running then .ok inst else .error ("workflow-" ++ toString id ++ " is not running")
  | .ok none => .error ("workflow-" ++ toString id ++ " is not running")

/-- The loop of `InstanceStepState` over the worker states: the step of the
last step state named `name`, the zero step of name `""` when there is none,
and the `Or` of the crowds `loadBM` loads for all of them; a failed load ends it. -/
def loadStepState (bs : BMStore) (shards : List WorkflowInstanceWorkerState) (name : String) :
    Except String StepState :=
  shards.foldlM (fun acc shard => shard.states.foldlM (fun acc ss =>
    if ss.name = name then (fun v => (⟨ss.name, acc.crowd ∪ v, 0⟩ : StepState)) <$> bs.loadBM ss
    else .ok acc) acc) ⟨"", ∅, 0⟩

/-- `InstanceStepState`, with `loaded` for what `loadInstance` answers. The
gathered crowd is stored with `putBM` under a temp key, and the answer names
what it stored. -/
def instanceStepState (id : Nat) (loaded : Except String (Option WorkflowInstance))
    (scan : Nat → UInt32 → UInt32 → UInt64 → Except String (List WorkflowInstanceWorkerState))
    (bs : BMStore) (name : String) (fuel : Nat) : Option (Except String StepState) :=
  match loadRunningInstance id loaded with
  | .error err => some (.error err)
  | .ok inst => (getInstanceWorkers scan inst fuel).map fun shards => do
    let target ← loadStepState bs (← shards) name
    let bm ← bs.putBM (some target.crowd)
    pure ⟨target.name, bm, 0⟩

structure UpdateCrowdEvent where
  workflowID : Nat
  index : UInt32
  crowd : Bitmap
  deriving DecidableEq

/-- The crowd `UpdateCrowd` loads for a worker state: the `Or` of its step
crowds. A failed load exits through `log.Fatalf`. -/
def loadWorkerCrowd (bs : BMStore) (worker : WorkflowInstanceWorkerState) : Except Storage.Halt Bitmap :=
  worker.states.foldlM (fun bm state =>
    match bs.loadBM state with
    | .ok v => .ok (bm ∪ v)
    | .error _ => .error (.fatal "BUG: state crowd must success, using raw")) ∅

/-- The events of `UpdateCrowd`, once the workers' crowds `old` are loaded:
`alloc` (`BMAlloc`) spreads the new crowd over them, and the crowd at position
`idx` goes out with `Index: uint32(idx)`. -/
def updateCrowdEvents (id : Nat) (alloc : Bitmap → List Bitmap → List Bitmap) (newBM : Bitmap)
    (old : List Bitmap) : List UpdateCrowdEvent :=
  (alloc newBM old).enum.map fun (idx, bm) => ⟨id, UInt32.ofNat idx, bm⟩

/-- `UpdateCrowd`, with `loaded` for what `loadInstance` answers and `newBM`
for what `loadBM` answers on the request's loader: the events it puts to the
queue. -/
def updateCrowd (id : Nat) (loaded : Except String (Option WorkflowInstance))
    (newBM : Except String Bitmap)
    (scan : Nat → UInt32 → UInt32 → UInt64 → Except String (List WorkflowInstanceWorkerState))
    (bs : BMStore) (alloc : Bitmap → List Bitmap → List Bitmap) (fuel : Nat) :
    Option (Except Storage.Halt (Except String (List UpdateCrowdEvent))) :=
  match loadRunningInstance id loaded, newBM with
  | .error err, _ => some (.ok (.error err))
  | .ok _, .error err => some (.ok (.error err))
  | .ok inst, .ok bm => (getInstanceWorkers scan inst fuel).map fun
    | .error err => .ok (.error err)
    | .ok workers => (fun old => .ok (updateCrowdEvents id alloc bm old)) <$> workers.mapM (loadWorkerCrowd bs)

def stepStateOf (shards : List WorkflowInstanceWorkerState) (name : String) : StepState :=
  shards.foldl (fun acc shard => shard.states.foldl (fun acc ss =>
    if ss.name = name then ⟨ss.name, acc.crowd ∪ ss.crowd, 0⟩ else acc) acc) ⟨"", ∅, 0⟩

def workerCrowd (worker : WorkflowInstanceWorkerState) : Bitmap :=
  worker.states.foldl (fun bm state => bm ∪ state.crowd) ∅

namespace ShardStore

theorem createInstanceStateShard_of_lt {s : ShardStore} {st : WorkflowInstanceWorkerState}
    (h : ∀ x ∈ s.states, x.index.toNat < st.index.toNat) :
    (s.createInstanceStateShard st).states = s.states ++ [st] := by
  have hlow : s.states.filter (·.index.toNat < st.index.toNat) = s.states :=
    List.filter_eq_self.2 fun x hx => decide_eq_true (h x hx)
  have hhigh : s.states.filter (st.index.toNat < ·.index.toNat) = [] :=
    List.filter_eq_nil_iff.2 fun x hx => by simpa using Nat.le_of_lt (h x hx)
  simp [createInstanceStateShard, hlow, hhigh]

@[simp] theorem removeInstanceStateShard_states (s : ShardStore) (index : UInt32) :
    (s.removeInstanceStateShard index).states = s.states.filter (·.index ≠ index) := rfl

end ShardStore

/-- The worker state the start writes for the `index`-th crowd `bm`, for a
workflow whose first step is `first`. -/
def startShard (first : String) (rest : List String) (index : Nat) (bm : Bitmap) :
    WorkflowInstanceWorkerState :=
  ⟨UInt32.ofNat index, ⟨first, bm, bm.card⟩ :: rest.map fun step => ⟨step, ∅, 0⟩⟩

@[simp] theorem startShard_index (first : String) (rest : List String) (index : Nat) (bm : Bitmap) :
    (startShard first rest index bm).index = UInt32.ofNat index := rfl

theorem workerState_cons (first : String) (rest : List String) (index : Nat) (bm : Bitmap) :
    workerState (first :: rest) index bm = some (startShard first rest index bm) := rfl

theorem startStates_enumFrom (first : String) (rest : List String) :
    ∀ (bms : List Bitmap) (k : Nat) (s : ShardStore), (∀ x ∈ s.states, x.index.toNat < k) →
      k + bms.length ≤ 2 ^ 32 →
      ∃ s', (bms.enumFrom k).foldlM (fun s (index, bm) =>
          (workerState (first :: rest) index bm).map s.createInstanceStateShard) s = some s' ∧
        s'.states = s.states ++ (bms.enumFrom k).map fun e => startShard first rest e.1 e.2
  | [], _, s, _, _ => ⟨s, rfl, by simp⟩
  | bm :: bms, k, s, hs, hk => by
    have hk' : (UInt32.ofNat k).toNat = k := by
      rw [uint32_toNat_ofNat]; simp only [List.length_cons] at hk; omega
    have hst := @ShardStore.createInstanceStateShard_of_lt s (startShard first rest k bm)
      fun x hx => by rw [startShard_index, hk']; exact hs x hx
    obtain ⟨s', hrun, hs'⟩ := startStates_enumFrom first rest bms (k + 1)
      (s.createInstanceStateShard (startShard first rest k bm))
      (fun x hx => by
        rw [hst, List.mem_append, List.mem_singleton] at hx
        rcases hx with hx | rfl
        · exact Nat.lt_succ_of_lt (hs x hx)
        · rw [startShard_index, hk']; exact Nat.lt_succ_self k)
      (by simp only [List.length_cons] at hk; omega)
    refine ⟨s', by simpa [List.foldlM_cons, workerState_cons] using hrun, ?_⟩
    rw [hs', hst, List.enumFrom_cons, List.map_cons, List.append_assoc, List.singleton_append]

theorem startStates_eq (first : String) (rest : List String) (bms : List Bitmap)
    (hn : bms.length ≤ 2 ^ 32) :
    ∃ s, startStates (first :: rest) bms ShardStore.empty = some s ∧
      s.states = bms.enum.map fun e => startShard first rest e.1 e.2 := by
  simpa [startStates, ShardStore.empty] using startStates_enumFrom first rest bms 0 ShardStore.empty
    (by simp [ShardStore.empty]) (by simpa using hn)

/-- Reading back what `doStartInstanceEvent` wrote into a store without states
of the workflow: for at most `Workers` crowds, fewer than `2^32` workers, and
more rounds than crowds, `getInstanceWorkers` returns the written states in
order. -/
theorem getInstanceWorkers_startStates (inst : WorkflowInstance) (first : String) (rest : List String)
    (bms : List Bitmap) (hw : bms.length ≤ inst.workers.toNat) (hw' : inst.workers.toNat < 2 ^ 32)
    {fuel : Nat} (hfuel : bms.length < fuel) :
    ∃ s, startStates (first :: rest) bms ShardStore.empty = some s ∧
      getInstanceWorkers (fun _ => s.scan) inst fuel = some (.ok s.states) ∧
      s.states = bms.enum.map fun e => startShard first rest e.1 e.2 := by
  obtain ⟨s, hs, hstates⟩ := startStates_eq first rest bms (by omega)
  have hall : s.states.filter (fun st => st.index.toNat < inst.workers.toNat % 2 ^ 32) = s.states := by
    refine List.filter_eq_self.2 fun st hst => ?_
    rw [hstates, List.mem_map] at hst
    obtain ⟨e, he, rfl⟩ := hst
    have := List.fst_lt_of_mem_enum he
    simp only [startShard, uint32_toNat_ofNat, Nat.mod_eq_of_lt hw', decide_eq_true_eq]
    omega
  refine ⟨s, hs, (getInstanceWorkers_eq (fun _ => s) inst ?_).trans (by rw [hall]), hstates⟩
  simpa [hstates] using hfuel

theorem mem_startStates_crowd (first : String) (rest : List String) (bms : List Bitmap) (name : String)
    (u : UInt32) :
    (∃ shard ∈ bms.enum.map (fun e => startShard first rest e.1 e.2), ∃ st ∈ shard.states,
        st.name = name ∧ u ∈ st.crowd) ↔
      first = name ∧ ∃ bm ∈ bms, u ∈ bm := by
  constructor
  · rintro ⟨_, hshard, st, hst, hname, hu⟩
    obtain ⟨e, he, rfl⟩ := List.mem_map.1 hshard
    rcases List.mem_cons.1 hst with rfl | hst
    · exact ⟨hname, e.2, List.snd_mem_of_mem_enum he, hu⟩
    · obtain ⟨step, -, rfl⟩ := List.mem_map.1 hst
      simp at hu
  · rintro ⟨rfl, bm, hbm, hu⟩
    obtain ⟨i, hi⟩ := List.mem_iff_getElem?.1 hbm
    exact ⟨_, List.mem_map.2 ⟨(i, bm), List.mem_enum_iff_getElem?.2 hi, rfl⟩, _, List.mem_cons_self _ _, rfl, hu⟩

def runningInstance : WorkflowInstance := ⟨⟨1, 0⟩, 1, {1, 2, 3}, 3, 2, .running⟩

def twoCrowds : List Bitmap := [{1, 2}, {3}]

/-- Starting an instance and then building its history snapshot, with no
transition in between: for at most `Workers` crowds of the split, fewer than
`2^32` workers, and more rounds than crowds, `getInstanceWorkers` reads back the
written states, and on a store that reads back what it stores the snapshot
gives the first step of the workflow every user of the split and every other
step the empty crowd. -/
theorem buildSnapshot_after_start (inst : WorkflowInstance) (first : String) (rest : List String)
    (bms : List Bitmap) (hw : bms.length ≤ inst.workers.toNat) (hw' : inst.workers.toNat < 2 ^ 32)
    {fuel : Nat} (hfuel : bms.length < fuel) {bs : BMStore} (hf : bs.Faithful) :
    ∃ s, startStates (first :: rest) bms ShardStore.empty = some s ∧
      getInstanceWorkers (fun _ => s.scan) inst fuel = some (.ok s.states) ∧
      buildSnapshot (fun _ => s.scan) bs inst (first :: rest) fuel =
        some (.ok ⟨{ inst with state := .stopped }, (first :: rest).map fun name =>
          ⟨name, if name = first then bms.foldr (· ∪ ·) ∅ else ∅, 0⟩⟩) := by
  obtain ⟨s, hs, hread, hstates⟩ := getInstanceWorkers_startStates inst first rest bms hw hw' hfuel
  refine ⟨s, hs, hread, (buildSnapshot_of_read hf inst _ hread).trans ?_⟩
  simp only [snapshotOf, Option.some.injEq, Except.ok.injEq, WorkflowInstanceSnapshot.mk.injEq, true_and]
  refine List.map_congr_left fun name _ => ?_
  congr 1
  ext u
  rw [mem_mergedCrowds, hstates, mem_startStates_crowd]
  by_cases hname : name = first
  · simp [hname, mem_foldr_union_iff]
  · simp [hname, Ne.symm hname]

theorem buildSnapshot_after_start_two_crowds :
    twoCrowds.length ≤ runningInstance.workers.toNat ∧ runningInstance.workers.toNat < 2 ^ 32 ∧
      twoCrowds.length < 3 ∧ crowdStore.Faithful ∧
      ∃ s, startStates ["A", "B"] twoCrowds ShardStore.empty = some s ∧
        getInstanceWorkers (fun _ => s.scan) runningInstance 3 = some (.ok s.states) ∧
        buildSnapshot (fun _ => s.scan) crowdStore runningInstance ["A", "B"] 3 =
          some (.ok ⟨{ runningInstance with state := .stopped }, ["A", "B"].map fun name =>
            ⟨name, if name = "A" then twoCrowds.foldr (· ∪ ·) ∅ else ∅, 0⟩⟩) :=
  ⟨by decide, by decide, by decide, crowdStore_faithful,
    buildSnapshot_after_start runningInstance "A" ["B"] twoCrowds (by decide) (by decide) (by decide)
      crowdStore_faithful⟩

theorem foldl_removeInstanceStateShard (L : List Nat) :
    ∀ s : ShardStore, (∀ st ∈ s.states, st.index ∈ L.map UInt32.ofNat) →
      (L.foldl (fun s index => s.removeInstanceStateShard (UInt32.ofNat index)) s).states = []
  | s, h => by
    induction L generalizing s with
    | nil => exact List.eq_nil_iff_forall_not_mem.2 fun st hst => by simpa using h st hst
    | cons i L ih =>
      refine ih _ fun st hst => ?_
      simp only [ShardStore.removeInstanceStateShard_states, List.mem_filter, decide_eq_true_eq] at hst
      exact (List.mem_cons.1 (h st hst.1)).resolve_left hst.2

/-- Starting an instance and then stopping it: for at most `Workers` crowds of
the split and fewer than `2^32` workers, the removals of
`doStoppingInstanceEvent` take away every worker state the start wrote, and the
next instance of the workflow starts from a store without any. -/
theorem removeStates_after_start (inst : WorkflowInstance) (first : String) (rest : List String)
    (bms : List Bitmap) (hw : bms.length ≤ inst.workers.toNat) (hw' : inst.workers.toNat < 2 ^ 32) :
    ∃ s, startStates (first :: rest) bms ShardStore.empty = some s ∧ (removeStates inst s).states = [] := by
  obtain ⟨s, hs, hstates⟩ := startStates_eq first rest bms (by omega)
  refine ⟨s, hs, foldl_removeInstanceStateShard _ s fun st hst => ?_⟩
  rw [hstates, List.mem_map] at hst
  obtain ⟨e, he, rfl⟩ := hst
  have := List.fst_lt_of_mem_enum he
  exact List.mem_map.2 ⟨e.1, List.mem_range.2 (by rw [Nat.mod_eq_of_lt hw']; omega), rfl⟩

theorem removeStates_after_start_two_crowds :
    twoCrowds.length ≤ runningInstance.workers.toNat ∧ runningInstance.workers.toNat < 2 ^ 32 ∧
      ∃ s, startStates ["A", "B"] twoCrowds ShardStore.empty = some s ∧
        (removeStates runningInstance s).states = [] :=
  ⟨by decide, by decide, removeStates_after_start runningInstance "A" ["B"] twoCrowds (by decide) (by decide)⟩

/-- With `2^32` workers, `uint32(Workers)` is 0: the scan of `getInstanceWorkers`
ends at its first key and reads none of the stored states, and the removals of
`doStoppingInstanceEvent` stop before index 0, so the states stay. -/
theorem getInstanceWorkers_truncated :
    (stoppingInstance 4294967296).workers.toNat = 4294967296 ∧
      getInstanceWorkers (fun _ => twoShardStore.scan) (stoppingInstance 4294967296) 3 = some (.ok []) ∧
      (removeStates (stoppingInstance 4294967296) twoShardStore).states = twoShardStore.states :=
  ⟨rfl, rfl, rfl⟩

section Loads

variable {bs : BMStore} (hload : ∀ st, bs.loadBM st = .ok st.crowd)
include hload

theorem loadStepState_eq (shards : List WorkflowInstanceWorkerState) (name : String) :
    loadStepState bs shards name = .ok (stepStateOf shards name) :=
  foldlM_except_ok (fun _ _ => foldlM_except_ok (fun _ _ => by split_ifs <;> simp [hload]) _ _) _ _

theorem loadWorkerCrowd_eq (worker : WorkflowInstanceWorkerState) :
    loadWorkerCrowd bs worker = .ok (workerCrowd worker) :=
  foldlM_except_ok (fun _ _ => by rw [hload]) _ _

end Loads

theorem loadStepState_error {bs : BMStore} {shards : List WorkflowInstanceWorkerState} {name : String}
    (hfail : ∃ shard ∈ shards, ∃ st ∈ shard.states, st.name = name ∧ ∃ e, bs.loadBM st = .error e) :
    ∃ e, loadStepState bs shards name = .error e := by
  obtain ⟨shard, hshard, st, hst, hname, e, he⟩ := hfail
  unfold loadStepState
  refine foldlM_except_error _ shards _ ⟨shard, hshard, fun acc => ?_⟩
  refine foldlM_except_error _ shard.states acc ⟨st, hst, fun acc => ⟨e, ?_⟩⟩
  rw [if_pos hname, he]
  rfl

theorem loadWorkerCrowd_cases (bs : BMStore) (worker : WorkflowInstanceWorkerState) :
    loadWorkerCrowd bs worker = .error (.fatal "BUG: state crowd must success, using raw") ∨
      ∃ bm, loadWorkerCrowd bs worker = .ok bm :=
  foldlM_except_cases (fun _ _ => by split <;> simp) _ _

/-- A failed `loadBM` of a stored step state's crowd is never passed over:
`buildSnapshot` fails, `InstanceStepState` fails for the step state's name,
and `UpdateCrowd` exits through `log.Fatalf` before it puts any event. -/
theorem failed_load_stops_reads
    {scan : Nat → UInt32 → UInt32 → UInt64 → Except String (List WorkflowInstanceWorkerState)}
    (bs : BMStore) (id : Nat) {inst : WorkflowInstance} (hrun : inst.state = .running) (steps : List String)
    (alloc : Bitmap → List Bitmap → List Bitmap) (newBM : Bitmap) {fuel : Nat}
    {shards : List WorkflowInstanceWorkerState} (hread : getInstanceWorkers scan inst fuel = some (.ok shards))
    {shard : WorkflowInstanceWorkerState} (hshard : shard ∈ shards) {st : StepState} (hst : st ∈ shard.states)
    {err : String} (herr : bs.loadBM st = .error err) :
    (∃ e, buildSnapshot scan bs inst steps fuel = some (.error e)) ∧
      (∃ e, instanceStepState id (.ok (some inst)) scan bs st.name fuel = some (.error e)) ∧
      updateCrowd id (.ok (some inst)) (.ok newBM) scan bs alloc fuel =
        some (.error (.fatal "BUG: state crowd must success, using raw")) := by
  refine ⟨buildSnapshot_error_of_load bs inst steps hread ⟨shard, hshard, st, hst, err, herr⟩, ?_, ?_⟩
  · obtain ⟨e, he⟩ := loadStepState_error ⟨shard, hshard, st, hst, rfl, err, herr⟩
    exact ⟨e, by simp [instanceStepState, loadRunningInstance, hrun, hread, he]⟩
  · have hworker : loadWorkerCrowd bs shard = .error (.fatal "BUG: state crowd must success, using raw") :=
      foldlM_except_fails (fun _ _ => by split <;> simp) _ _ ⟨st, hst, fun _ => by rw [herr]⟩
    simp only [updateCrowd, loadRunningInstance, hrun, if_true, hread, Option.map_some',
      mapM_except_fails (loadWorkerCrowd_cases bs) shards ⟨shard, hshard, hworker⟩]
    rfl

def abStore : ShardStore :=
  ⟨[⟨0, [⟨"A", {1}, 1⟩, ⟨"B", {2}, 1⟩]⟩, ⟨1, [⟨"A", {3}, 1⟩, ⟨"B", ∅, 0⟩]⟩],
    List.sorted_cons.2 ⟨by decide, List.sorted_singleton _⟩⟩

def failingBStore : BMStore :=
  ⟨fun st => if st.name = "B" then .error "load failed" else .ok st.crowd, fun bm => .ok (bm.getD ∅)⟩

example :
    updateCrowd 1 (.ok (some runningInstance)) (.ok {2, 3}) (fun _ => abStore.scan) failingBStore
      (fun _ olds => olds) 3 = some (.error (.fatal "BUG: state crowd must success, using raw")) :=
  (failed_load_stops_reads failingBStore 1 rfl [] (fun _ olds => olds) {2, 3}
    (show getInstanceWorkers (fun _ => abStore.scan) runningInstance 3 = some (.ok abStore.states) from rfl)
    (List.mem_cons_self _ _) (List.mem_cons_of_mem _ (List.mem_singleton_self (⟨"B", {2}, 1⟩ : StepState)))
    rfl).2.2

theorem mem_foldl_stepStateOf (name : String) (u : UInt32) (states : List StepState) (acc : StepState) :
    u ∈ (states.foldl (fun acc ss =>
        if ss.name = name then (⟨ss.name, acc.crowd ∪ ss.crowd, 0⟩ : StepState) else acc) acc).crowd ↔
      u ∈ acc.crowd ∨ ∃ ss ∈ states, ss.name = name ∧ u ∈ ss.crowd := by
  induction states generalizing acc with
  | nil => simp
  | cons ss states ih =>
    by_cases h : ss.name = name <;> simp [h, ih, or_assoc]

theorem mem_stepStateOf (shards : List WorkflowInstanceWorkerState) (name : String) (u : UInt32) :
    u ∈ (stepStateOf shards name).crowd ↔
      ∃ shard ∈ shards, ∃ ss ∈ shard.states, ss.name = name ∧ u ∈ ss.crowd := by
  suffices h : ∀ acc : StepState, u ∈ (shards.foldl (fun acc shard => shard.states.foldl (fun acc ss =>
      if ss.name = name then (⟨ss.name, acc.crowd ∪ ss.crowd, 0⟩ : StepState) else acc) acc) acc).crowd ↔
      u ∈ acc.crowd ∨ ∃ shard ∈ shards, ∃ ss ∈ shard.states, ss.name = name ∧ u ∈ ss.crowd by
    simpa using h ⟨"", ∅, 0⟩
  induction shards with
  | nil => simp
  | cons shard shards ih =>
    intro acc
    simp [ih, mem_foldl_stepStateOf, or_assoc]

theorem instanceStepState_of_read
    {scan : Nat → UInt32 → UInt32 → UInt64 → Except String (List WorkflowInstanceWorkerState)}
    {bs : BMStore} (hf : bs.Faithful) (id : Nat) {inst : WorkflowInstance} (hrun : inst.state = .running)
    (name : String) {fuel : Nat} {shards : List WorkflowInstanceWorkerState}
    (hread : getInstanceWorkers scan inst fuel = some (.ok shards)) :
    ∃ ss, instanceStepState id (.ok (some inst)) scan bs name fuel = some (.ok ss) ∧
      ss.crowd = (stepStateOf shards name).crowd :=
  ⟨⟨(stepStateOf shards name).name, (stepStateOf shards name).crowd, 0⟩,
    by simp [instanceStepState, loadRunningInstance, hrun, hread, loadStepState_eq hf.load, hf.put], rfl⟩

/-- `InstanceStepState` agrees with the history snapshot: for a running
instance, whatever worker states the store answers, and on a store that reads
back what it stores, the crowd it gathers for a step of the workflow is the
crowd `buildSnapshot` gives that step from the same states. -/
theorem instanceStepState_agrees
    (scan : Nat → UInt32 → UInt32 → UInt64 → Except String (List WorkflowInstanceWorkerState))
    {bs : BMStore} (hf : bs.Faithful) (id : Nat) (inst : WorkflowInstance) (hrun : inst.state = .running)
    (steps : List String) {name : String} (hname : name ∈ steps) {fuel : Nat}
    {shards : List WorkflowInstanceWorkerState} (hread : getInstanceWorkers scan inst fuel = some (.ok shards)) :
    ∃ ss, instanceStepState id (.ok (some inst)) scan bs name fuel = some (.ok ss) ∧
      buildSnapshot scan bs inst steps fuel = some (.ok (snapshotOf inst steps shards)) ∧
      (⟨name, ss.crowd, 0⟩ : StepState) ∈ (snapshotOf inst steps shards).states := by
  obtain ⟨ss, hss, hcrowd⟩ := instanceStepState_of_read hf id hrun name hread
  refine ⟨ss, hss, buildSnapshot_of_read hf inst steps hread, List.mem_map.2 ⟨name, hname, ?_⟩⟩
  congr 1
  ext u
  rw [mem_mergedCrowds, hcrowd, mem_stepStateOf]

theorem instanceStepState_agrees_two_shards :
    crowdStore.Faithful ∧ runningInstance.state = .running ∧ "A" ∈ ["A", "B"] ∧
      getInstanceWorkers (fun _ => abStore.scan) runningInstance 3 = some (.ok abStore.states) ∧
      ∃ ss, instanceStepState 1 (.ok (some runningInstance)) (fun _ => abStore.scan) crowdStore "A" 3 =
          some (.ok ss) ∧
        buildSnapshot (fun _ => abStore.scan) crowdStore runningInstance ["A", "B"] 3 =
          some (.ok (snapshotOf runningInstance ["A", "B"] abStore.states)) ∧
        (⟨"A", ss.crowd, 0⟩ : StepState) ∈ (snapshotOf runningInstance ["A", "B"] abStore.states).states :=
  ⟨crowdStore_faithful, rfl, by decide, rfl,
    instanceStepState_agrees _ crowdStore_faithful 1 runningInstance rfl ["A", "B"] (by decide) rfl⟩

theorem workerCrowd_startShard (first : String) (rest : List String) (index : Nat) (bm : Bitmap) :
    workerCrowd (startShard first rest index bm) = bm := by
  suffices h : ∀ b : Bitmap, (rest.map fun step => (⟨step, ∅, 0⟩ : StepState)).foldl
      (fun bm state => bm ∪ state.crowd) b = b by simpa [workerCrowd, startShard] using h bm
  induction rest with
  | nil => exact fun _ => rfl
  | cons step rest ih => exact fun b => by simpa using ih b

def keepAlloc (newBM : Bitmap) (olds : List Bitmap) : List Bitmap := olds.map (· ∩ newBM)

/-- `UpdateCrowd` on an instance just started: for at most `Workers` crowds of
the split, fewer than `2^32` workers, more rounds than crowds, a store whose
loads answer, and a `BMAlloc` that keeps one crowd a worker, the crowds it
spreads the new crowd over are the crowds of the split, and its events carry,
in order, the indexes of the worker states they were read from. -/
theorem updateCrowd_after_start (inst : WorkflowInstance) (hrun : inst.state = .running)
    (first : String) (rest : List String) (bms : List Bitmap) (hw : bms.length ≤ inst.workers.toNat)
    (hw' : inst.workers.toNat < 2 ^ 32) {fuel : Nat} (hfuel : bms.length < fuel) {bs : BMStore}
    (hf : bs.Faithful) (alloc : Bitmap → List Bitmap → List Bitmap) (newBM : Bitmap)
    (halloc : (alloc newBM bms).length = bms.length) :
    ∃ s events, startStates (first :: rest) bms ShardStore.empty = some s ∧
      updateCrowd inst.snapshot.id (.ok (some inst)) (.ok newBM) (fun _ => s.scan) bs alloc fuel =
        some (.ok (.ok events)) ∧
      events.map (·.index) = s.states.map (·.index) ∧ events.map (·.crowd) = alloc newBM bms := by
  obtain ⟨s, hs, hread, hstates⟩ := getInstanceWorkers_startStates inst first rest bms hw hw' hfuel
  have hold : s.states.map workerCrowd = bms := by
    simp only [hstates, List.map_map, Function.comp_def, workerCrowd_startShard]
    exact List.enum_map_snd bms
  have hloads : s.states.mapM (loadWorkerCrowd bs) = .ok bms := by
    rw [show loadWorkerCrowd bs = fun w => .ok (workerCrowd w) from funext (loadWorkerCrowd_eq hf.load),
      mapM_except_ok, hold]
  refine ⟨s, updateCrowdEvents inst.snapshot.id alloc newBM bms, hs,
    by simp only [updateCrowd, loadRunningInstance, hrun, if_true, hread, Option.map_some', hloads]; rfl,
    ?_, ?_⟩
  · have h1 : ∀ l : List Bitmap, (l.enum.map fun e => UInt32.ofNat e.1) = (List.range l.length).map UInt32.ofNat :=
      fun l => by rw [← List.enum_map_fst, List.map_map]; rfl
    rw [updateCrowdEvents, List.map_map]
    simp only [hstates, List.map_map, Function.comp_def, startShard]
    rw [h1, h1, halloc]
  · simp only [updateCrowdEvents, List.map_map, Function.comp_def]
    exact List.enum_map_snd _

theorem updateCrowd_after_start_two_crowds :
    runningInstance.state = .running ∧ twoCrowds.length ≤ runningInstance.workers.toNat ∧
      runningInstance.workers.toNat < 2 ^ 32 ∧ twoCrowds.length < 3 ∧ crowdStore.Faithful ∧
      (keepAlloc {2, 3} twoCrowds).length = twoCrowds.length ∧
      ∃ s events, startStates ["A", "B"] twoCrowds ShardStore.empty = some s ∧
        updateCrowd runningInstance.snapshot.id (.ok (some runningInstance)) (.ok {2, 3}) (fun _ => s.scan)
          crowdStore keepAlloc 3 = some (.ok (.ok events)) ∧
        events.map (·.index) = s.states.map (·.index) ∧ events.map (·.crowd) = keepAlloc {2, 3} twoCrowds :=
  ⟨rfl, by decide, by decide, by decide, crowdStore_faithful, rfl,
    updateCrowd_after_start runningInstance rfl "A" ["B"] twoCrowds (by decide) (by decide) (by decide)
      crowdStore_faithful keepAlloc {2, 3} rfl⟩

end Busybee.Engine
