import Busybee.WorkerStates
import Mathlib.Algebra.Order.Ring.Nat
set_option autoImplicit false

/-!
# The count of each step

`engine.InstanceCountState`: for each step of the workflow, the sum of the
cached `TotalCrowd` of the step states of that name over the worker states
`getInstanceWorkers` reads; a step state of another name is passed over.
-/

namespace Busybee.Engine

structure CountState where
  step : String
  count : Nat
  deriving DecidableEq, Repr

structure InstanceCountState where
  total : Nat
  snapshot : Workflow
  states : List CountState
  deriving DecidableEq

/-- The loop of `InstanceCountState` over the worker states, on the map `m`
from step names to counts. -/
def countStates (m : String → Option Nat) (shards : List WorkflowInstanceWorkerState) : String → Option Nat :=
  shards.foldl (fun m shard => shard.states.foldl (fun m ss =>
    match m ss.name with
    | some n => Function.update m ss.name (some (n + ss.totalCrowd))
    | none => m) m) m

/-- `InstanceCountState`, with `loaded` for what `loadInstance` answers and
`steps` for the names of `instance.Snapshot.Steps`. The map starts with a zero
count for each of them; Go ranges over it in no fixed order, and the model lists
each step once, in the order `List.dedup` leaves them. -/
def instanceCountState (id : Nat) (loaded : Except String (Option WorkflowInstance))
    (scan : Nat → UInt32 → UInt32 → UInt64 → Except String (List WorkflowInstanceWorkerState))
    (steps : List String) (fuel : Nat) : Option (Except String InstanceCountState) :=
  match loadRunningInstance id loaded with
  | .error err => some (.error err)
  | .ok inst => (getInstanceWorkers scan inst fuel).map (Except.map fun shards =>
      let m := countStates (fun name => if name ∈ steps then some 0 else none) shards
      ⟨inst.totalCrowd, inst.snapshot, steps.dedup.map fun name => ⟨name, (m name).getD 0⟩⟩)

def stepStatesNamed (shards : List WorkflowInstanceWorkerState) (name : String) : List StepState :=
  (shards.flatMap (·.states)).filter (·.name = name)

theorem foldl_count (name : String) (states : List StepState) (m : String → Option Nat) :
    (states.foldl (fun m ss =>
        match m ss.name with
        | some n => Function.update m ss.name (some (n + ss.totalCrowd))
        | none => m) m) name =
      (m name).map (· + ((states.filter (·.name = name)).map (·.totalCrowd)).sum) := by
  induction states generalizing m with
  | nil => simp
  | cons ss states ih =>
    rw [List.foldl_cons, ih]
    by_cases h : ss.name = name
    · subst h
      cases hm : m ss.name with
      | none => simp [hm]
      | some n => simp [hm, Nat.add_assoc]
    · have hup : (match m ss.name with
          | some n => Function.update m ss.name (some (n + ss.totalCrowd))
          | none => m) name = m name := by
        cases m ss.name <;> simp [Function.update_noteq (Ne.symm h)]
      simp [hup, h]

theorem countStates_eq (m : String → Option Nat) (shards : List WorkflowInstanceWorkerState) (name : String) :
    countStates m shards name = (m name).map (· + ((stepStatesNamed shards name).map (·.totalCrowd)).sum) := by
  induction shards generalizing m with
  | nil => simp [countStates, stepStatesNamed]
  | cons shard shards ih =>
    simp only [countStates, List.foldl_cons] at ih ⊢
    rw [ih, foldl_count]
    cases m name <;> simp [stepStatesNamed, List.filter_append, Nat.add_assoc]

theorem stepStateOf_crowd (shards : List WorkflowInstanceWorkerState) (name : String) :
    (stepStateOf shards name).crowd = ((stepStatesNamed shards name).map (·.crowd)).foldr (· ∪ ·) ∅ := by
  ext u
  simp only [mem_stepStateOf, mem_foldr_union_iff, List.mem_map, stepStatesNamed, List.mem_filter,
    List.mem_flatMap, decide_eq_true_eq]
  constructor
  · rintro ⟨shard, hshard, ss, hss, rfl, hu⟩
    exact ⟨ss.crowd, ⟨ss, ⟨⟨shard, hshard, hss⟩, rfl⟩, rfl⟩, hu⟩
  · rintro ⟨_, ⟨ss, ⟨⟨shard, hshard, hss⟩, rfl⟩, rfl⟩, hu⟩
    exact ⟨shard, hshard, ss, hss, rfl, hu⟩

theorem card_foldr_union {crowds : List Bitmap} (h : crowds.Pairwise Disjoint) :
    (crowds.foldr (· ∪ ·) ∅).card = (crowds.map Finset.card).sum := by
  induction crowds with
  | nil => rfl
  | cons S rest ih =>
    obtain ⟨hS, hrest⟩ := List.pairwise_cons.1 h
    rw [List.foldr_cons, Finset.card_union_of_disjoint (Finset.disjoint_left.2 fun u hu hu' => ?_), ih hrest]
    · rfl
    · obtain ⟨T, hT, huT⟩ := mem_foldr_union_iff.1 hu'
      exact Finset.disjoint_left.1 (hS T hT) hu huT

/-- What `InstanceCountState` answers on a running instance whose worker states
are read: its total crowd, and for each step of the workflow the sum of the
cached counts of the step states of its name. -/
theorem instanceCountState_eq
    {scan : Nat → UInt32 → UInt32 → UInt64 → Except String (List WorkflowInstanceWorkerState)}
    {id : Nat} {inst : WorkflowInstance} (hrun : inst.state = .running) (steps : List String) {fuel : Nat}
    {shards : List WorkflowInstanceWorkerState} (hread : getInstanceWorkers scan inst fuel = some (.ok shards)) :
    instanceCountState id (.ok (some inst)) scan steps fuel =
      some (.ok ⟨inst.totalCrowd, inst.snapshot, steps.dedup.map fun name =>
        ⟨name, ((stepStatesNamed shards name).map (·.totalCrowd)).sum⟩⟩) := by
  simp only [instanceCountState, loadRunningInstance, hrun, if_true, hread, Option.map_some', Except.map,
    Option.some.injEq, Except.ok.injEq, InstanceCountState.mk.injEq, true_and]
  refine List.map_congr_left fun name h => ?_
  rw [countStates_eq, if_pos (List.mem_dedup.1 h)]
  simp

/-- `InstanceCountState` agrees with `InstanceStepState`: for a running
instance, whatever worker states the store answers, and on a store that reads
back what it stores, the count of a step of the workflow is the size of the
crowd `InstanceStepState` gathers for it, as long as each step state of that
name caches the cardinality of its crowd and no user is in two of them. -/
theorem instanceCountState_agrees
    (scan : Nat → UInt32 → UInt32 → UInt64 → Except String (List WorkflowInstanceWorkerState))
    {bs : BMStore} (hf : bs.Faithful) (id : Nat) (inst : WorkflowInstance) (hrun : inst.state = .running)
    (steps : List String) {name : String} (hname : name ∈ steps) {fuel : Nat}
    {shards : List WorkflowInstanceWorkerState} (hread : getInstanceWorkers scan inst fuel = some (.ok shards))
    (hcached : ∀ ss ∈ stepStatesNamed shards name, ss.totalCrowd = ss.crowd.card)
    (hdisj : ((stepStatesNamed shards name).map (·.crowd)).Pairwise Disjoint) :
    ∃ cs ss, instanceCountState id (.ok (some inst)) scan steps fuel = some (.ok cs) ∧
      instanceStepState id (.ok (some inst)) scan bs name fuel = some (.ok ss) ∧
      cs.total = inst.totalCrowd ∧ (⟨name, ss.crowd.card⟩ : CountState) ∈ cs.states := by
  obtain ⟨ss, hss, hcrowd⟩ := instanceStepState_of_read hf id hrun name hread
  refine ⟨_, ss, instanceCountState_eq hrun steps hread, hss, rfl,
    List.mem_map.2 ⟨name, List.mem_dedup.2 hname, ?_⟩⟩
  rw [hcrowd, stepStateOf_crowd, card_foldr_union hdisj, List.map_map, List.map_congr_left hcached]
  rfl

theorem sum_stepStatesNamed (shards : List WorkflowInstanceWorkerState) (name : String) :
    ((stepStatesNamed shards name).map (·.totalCrowd)).sum =
      (shards.map fun shard => ((shard.states.filter (·.name = name)).map (·.totalCrowd)).sum).sum := by
  induction shards with
  | nil => rfl
  | cons shard shards ih =>
    simp only [stepStatesNamed] at ih ⊢
    simp [List.filter_append, ih]

theorem sum_startShard_named (first : String) (rest : List String) (index : Nat) (bm : Bitmap)
    (name : String) :
    (((startShard first rest index bm).states.filter (·.name = name)).map (·.totalCrowd)).sum =
      if name = first then bm.card else 0 := by
  have hrest : (((rest.map fun step => (⟨step, ∅, 0⟩ : StepState)).filter (·.name = name)).map
      (·.totalCrowd)).sum = 0 :=
    List.sum_eq_zero fun n hn => by
      obtain ⟨ss, hss, rfl⟩ := List.mem_map.1 hn
      obtain ⟨step, -, rfl⟩ := List.mem_map.1 (List.mem_of_mem_filter hss)
      rfl
  by_cases h : name = first
  · subst h
    simp [startShard, List.filter_cons, hrest]
  · simp [startShard, List.filter_cons, hrest, h, Ne.symm h]

/-- Starting an instance and then counting its steps, with no transition in
between: for at most `Workers` crowds of the split, fewer than `2^32` workers,
and more rounds than crowds, the first step of the workflow counts the users of
every crowd of the split and every other step none. -/
theorem instanceCountState_after_start (id : Nat) (inst : WorkflowInstance) (hrun : inst.state = .running)
    (first : String) (rest : List String) (bms : List Bitmap) (hw : bms.length ≤ inst.workers.toNat)
    (hw' : inst.workers.toNat < 2 ^ 32) {fuel : Nat} (hfuel : bms.length < fuel) :
    ∃ s, startStates (first :: rest) bms ShardStore.empty = some s ∧
      instanceCountState id (.ok (some inst)) (fun _ => s.scan) (first :: rest) fuel =
        some (.ok ⟨inst.totalCrowd, inst.snapshot, (first :: rest).dedup.map fun name =>
          ⟨name, if name = first then (bms.map Finset.card).sum else 0⟩⟩) := by
  obtain ⟨s, hs, hread, hstates⟩ := getInstanceWorkers_startStates inst first rest bms hw hw' hfuel
  refine ⟨s, hs, (instanceCountState_eq hrun _ hread).trans ?_⟩
  simp only [Option.some.injEq, Except.ok.injEq, InstanceCountState.mk.injEq, true_and]
  refine List.map_congr_left fun name _ => ?_
  rw [sum_stepStatesNamed, hstates, List.map_map]
  simp only [Function.comp_def, sum_startShard_named]
  by_cases hname : name = first
  · simp only [hname, if_true]
    rw [show (fun x : Nat × Bitmap => x.2.card) = Finset.card ∘ Prod.snd from rfl, ← List.map_map,
      List.enum_map_snd]
  · simp [hname]

theorem instanceCountState_agrees_two_shards :
    runningInstance.state = .running ∧ "A" ∈ ["A", "B"] ∧
      getInstanceWorkers (fun _ => abStore.scan) runningInstance 3 = some (.ok abStore.states) ∧
      crowdStore.Faithful ∧ (∀ ss ∈ stepStatesNamed abStore.states "A", ss.totalCrowd = ss.crowd.card) ∧
      ((stepStatesNamed abStore.states "A").map (·.crowd)).Pairwise Disjoint ∧
      ∃ cs ss, instanceCountState 1 (.ok (some runningInstance)) (fun _ => abStore.scan) ["A", "B"] 3 =
          some (.ok cs) ∧
        instanceStepState 1 (.ok (some runningInstance)) (fun _ => abStore.scan) crowdStore "A" 3 =
          some (.ok ss) ∧
        cs.total = runningInstance.totalCrowd ∧ (⟨"A", ss.crowd.card⟩ : CountState) ∈ cs.states :=
  ⟨rfl, by decide, rfl, crowdStore_faithful, by decide, by decide,
    instanceCountState_agrees _ crowdStore_faithful 1 runningInstance rfl ["A", "B"] (by decide) rfl
      (by decide) (by decide)⟩

theorem instanceCountState_after_start_two_crowds :
    runningInstance.state = .running ∧ twoCrowds.length ≤ runningInstance.workers.toNat ∧
      runningInstance.workers.toNat < 2 ^ 32 ∧ twoCrowds.length < 3 ∧
      ∃ s, startStates ["A", "B"] twoCrowds ShardStore.empty = some s ∧
        instanceCountState 1 (.ok (some runningInstance)) (fun _ => s.scan) ["A", "B"] 3 =
          some (.ok ⟨runningInstance.totalCrowd, runningInstance.snapshot, ["A", "B"].dedup.map fun name =>
            ⟨name, if name = "A" then (twoCrowds.map Finset.card).sum else 0⟩⟩) :=
  ⟨rfl, by decide, by decide, by decide,
    instanceCountState_after_start 1 runningInstance rfl "A" ["B"] twoCrowds (by decide) (by decide) (by decide)⟩

end Busybee.Engine
