import Busybee.StartInstance
import Busybee.QueueBatch
import Mathlib.Data.List.Sort
set_option autoImplicit false

/-!
# Reading the shards and building the history snapshot

`engine.getInstanceWorkers` reads the worker states of an instance page by
page with `Scan` over the keys `InstanceShardKey(id, i)`, `i` from 0 to
`uint32(Workers)`, and restarts each page one past the last index read.
`engine.buildSnapshot` merges the crowds of the states by step name and stores
one crowd a step of the instance's workflow.
-/

namespace Busybee.Engine

/-- A `metapb.StepState`: its step's name, the crowd its `Loader` and
`LoaderMeta` name, and the cached `TotalCrowd`. -/
structure StepState where
  name : String
  crowd : Bitmap
  totalCrowd : Nat
  deriving DecidableEq

structure WorkflowInstanceWorkerState where
  index : UInt32
  states : List StepState
  deriving DecidableEq

/-- The worker states the store keeps under the shard keys of one workflow, in
key order. Each is stored under `InstanceShardKey(id, Index)`, and these keys
ascend with the index, so the states ascend strictly by index. -/
structure ShardStore where
  states : List WorkflowInstanceWorkerState
  sorted : states.Sorted (·.index.toNat < ·.index.toNat)

def ShardStore.pending (s : ShardStore) («from» «end» : UInt32) : List WorkflowInstanceWorkerState :=
  s.states.filter fun st => decide («from» ≤ st.index) && decide (st.index < «end»)

/-- Modelled from the spec: the store's `Scan` is not in the sources.
`Scan(InstanceShardKey(id, from), InstanceShardKey(id, end), limit)` answers the
first `limit` states with index in `[from, end)`, in key order. -/
def ShardStore.scan (s : ShardStore) («from» «end» : UInt32) (limit : UInt64) :
    Except String (List WorkflowInstanceWorkerState) :=
  .ok ((s.pending «from» «end»).take limit.toNat)

/-- The loop of `getInstanceWorkers`, from the key of index `from`, with the
states read so far; `scan` is the store's `Scan` over the instance's shard keys.
`none` when it has not stopped after `fuel` pages. -/
def getInstanceWorkersFrom
    (scan : UInt32 → UInt32 → UInt64 → Except String (List WorkflowInstanceWorkerState))
    (workers : UInt64) :
    Nat → UInt32 → List WorkflowInstanceWorkerState →
      Option (Except String (List WorkflowInstanceWorkerState))
  | 0, _, _ => none
  | fuel + 1, «from», shards =>
    match scan «from» workers.toUInt32 workers with
    | .error err => some (.error err)
    | .ok [] => some (.ok shards)
    | .ok (v :: vs) =>
      let shards := shards ++ v :: vs
      getInstanceWorkersFrom scan workers fuel
        ((shards.getLast (List.append_ne_nil_of_right_ne_nil _ (List.cons_ne_nil v vs))).index + 1) shards

/-- `engine.getInstanceWorkers`; `scan id` is the store's `Scan` over the shard
keys of the workflow `id`. -/
def getInstanceWorkers
    (scan : Nat → UInt32 → UInt32 → UInt64 → Except String (List WorkflowInstanceWorkerState))
    (inst : WorkflowInstance) (fuel : Nat) : Option (Except String (List WorkflowInstanceWorkerState)) :=
  getInstanceWorkersFrom (scan inst.snapshot.id) inst.workers fuel 0 []

/-- Modelled from the spec: `loadBM` and `putBM` are not in the sources. What
the store answers to `loadBM` on a step state's loader, and to `putBM` on a
crowd (`none` for the `nil` bitmap): the crowd the stored loader reads. -/
structure BMStore where
  loadBM : StepState → Except String Bitmap
  putBM : Option Bitmap → Except String Bitmap

/-- A store whose `loadBM` reads the crowd a loader names and whose `putBM`
stores a crowd that reads back as written, the `nil` bitmap as the empty crowd. -/
structure BMStore.Faithful (bs : BMStore) : Prop where
  load : ∀ st, bs.loadBM st = .ok st.crowd
  put : ∀ bm, bs.putBM (some bm) = .ok bm
  nil : bs.putBM none = .ok ∅

/-- One loaded crowd of the loop of `buildSnapshot` merged by step name: `Or`
into the crowd already there, else a new entry. -/
def mergeStepState (value : String → Option Bitmap) (name : String) (bm : Bitmap) :
    String → Option Bitmap :=
  fun name' => if name' = name then some (((value name').map (· ∪ bm)).getD bm) else value name'

/-- The loop of `buildSnapshot` over the worker states: the crowd of each step
state is loaded and merged by step name; a failed load ends it. -/
def loadCrowds (bs : BMStore) (shards : List WorkflowInstanceWorkerState) :
    Except String (String → Option Bitmap) :=
  shards.foldlM (fun value shard => shard.states.foldlM (fun value st =>
    mergeStepState value st.name <$> bs.loadBM st) value) fun _ => none

/-- A `metapb.WorkflowInstanceSnapshot`, without its timestamps. -/
structure WorkflowInstanceSnapshot where
  snapshot : WorkflowInstance
  states : List StepState

/-- `engine.buildSnapshot`, for the steps `steps` of `instance.Snapshot`: one
state a step, whose crowd `putBM` stores. -/
def buildSnapshot
    (scan : Nat → UInt32 → UInt32 → UInt64 → Except String (List WorkflowInstanceWorkerState))
    (bs : BMStore) (inst : WorkflowInstance) (steps : List String) (fuel : Nat) :
    Option (Except String WorkflowInstanceSnapshot) :=
  (getInstanceWorkers scan inst fuel).map fun shards => do
    let value ← loadCrowds bs (← shards)
    let states ← steps.mapM fun step => (fun bm => (⟨step, bm, 0⟩ : StepState)) <$> bs.putBM (value step)
    pure ⟨{ inst with state := .stopped }, states⟩

def mergedCrowds (shards : List WorkflowInstanceWorkerState) : String → Option Bitmap :=
  shards.foldl (fun value shard => shard.states.foldl (fun value st =>
    mergeStepState value st.name st.crowd) value) fun _ => none

/-- The snapshot `buildSnapshot` makes of the worker states `shards` on a store
that reads back what it stores, the `nil` bitmap as the empty crowd. -/
def snapshotOf (inst : WorkflowInstance) (steps : List String)
    (shards : List WorkflowInstanceWorkerState) : WorkflowInstanceSnapshot :=
  ⟨{ inst with state := .stopped }, steps.map fun step => ⟨step, (mergedCrowds shards step).getD ∅, 0⟩⟩

theorem uint64_toUInt32_toNat (w : UInt64) : w.toUInt32.toNat = w.toNat % 2 ^ 32 :=
  uint32_toNat_ofNat _

section Pages

variable (s : ShardStore)

theorem sorted_pending («from» «end» : UInt32) :
    (s.pending «from» «end»).Sorted (·.index.toNat < ·.index.toNat) :=
  s.sorted.filter _

theorem mem_pending {«from» «end» : UInt32} {st : WorkflowInstanceWorkerState} :
    st ∈ s.pending «from» «end» ↔
      st ∈ s.states ∧ «from».toNat ≤ st.index.toNat ∧ st.index.toNat < «end».toNat := by
  simp [ShardStore.pending, uint32_le_iff, uint32_lt_iff]

theorem index_le_getLast {T : List WorkflowInstanceWorkerState}
    (hT : T.Sorted (·.index.toNat < ·.index.toNat)) (h : T ≠ []) {x : WorkflowInstanceWorkerState}
    (hx : x ∈ T) : x.index.toNat ≤ (T.getLast h).index.toNat := by
  rw [← List.dropLast_append_getLast h] at hT hx
  rcases List.mem_append.1 hx with hx | hx
  · exact Nat.le_of_lt ((List.pairwise_append.1 hT).2.2 x hx _ (List.mem_singleton_self _))
  · rw [List.mem_singleton.1 hx]

theorem pending_after_page {«from» «end» : UInt32} {k : Nat} (h : (s.pending «from» «end»).take k ≠ []) :
    s.pending ((((s.pending «from» «end»).take k).getLast h).index + 1) «end» =
      (s.pending «from» «end»).drop k := by
  have hP := sorted_pending s «from» «end»
  rw [← List.take_append_drop k (s.pending «from» «end»)] at hP
  have hle := fun st (hst : st ∈ (s.pending «from» «end»).take k) =>
    index_le_getLast (List.pairwise_append.1 hP).1 h hst
  have hlt := (List.pairwise_append.1 hP).2.2 _ (List.getLast_mem h)
  have hm := (mem_pending s).1 (List.mem_of_mem_take (List.getLast_mem h))
  generalize ((s.pending «from» «end»).take k).getLast h = l at hle hlt hm ⊢
  have hend : (l.index + 1).toNat = l.index.toNat + 1 := by
    have := «end».toNat_lt_size
    exact uint32_toNat_add_one (by simp only [UInt32.size] at this; omega)
  have hfilter : s.pending (l.index + 1) «end» =
      (s.pending «from» «end»).filter fun st => decide (l.index < st.index) := by
    simp only [ShardStore.pending, List.filter_filter]
    refine List.filter_congr fun st _ => ?_
    simp only [uint32_le_iff, uint32_lt_iff, hend, ← Bool.decide_and, decide_eq_decide]
    omega
  rw [hfilter]
  conv_lhs => rw [← List.take_append_drop k (s.pending «from» «end»)]
  rw [List.filter_append, List.filter_eq_nil_iff.2 fun st hst => by simpa [uint32_lt_iff] using hle st hst,
    List.filter_eq_self.2 fun st hst => by simpa [uint32_lt_iff] using hlt st hst, List.nil_append]

theorem getInstanceWorkersFrom_scan (w : UInt64) :
    ∀ fuel «from» shards, (s.pending «from» w.toUInt32).length < fuel →
      getInstanceWorkersFrom s.scan w fuel «from» shards =
        some (.ok (shards ++ s.pending «from» w.toUInt32))
  | 0, _, _, h => absurd h (Nat.not_lt_zero _)
  | fuel + 1, «from», shards, h => by
    rcases hpage : (s.pending «from» w.toUInt32).take w.toNat with _ | ⟨v, vs⟩
    · have hnil : s.pending «from» w.toUInt32 = [] := by
        rcases List.take_eq_nil_iff.1 hpage with hw | hnil
        · exact List.eq_nil_iff_forall_not_mem.2 fun st hst => by
            simpa [uint64_toUInt32_toNat, hw] using ((mem_pending s).1 hst).2.2
        · exact hnil
      simp only [getInstanceWorkersFrom, ShardStore.scan, hnil, List.take_nil, List.append_nil]
    · have hne : (s.pending «from» w.toUInt32).take w.toNat ≠ [] := hpage ▸ List.cons_ne_nil v vs
      obtain ⟨hk, hP⟩ := not_or.1 (mt List.take_eq_nil_iff.2 hne)
      have hnext := pending_after_page s hne
      simp only [hpage] at hnext
      have hlen : (s.pending «from» w.toUInt32).length - w.toNat < fuel := by
        have := List.length_pos.2 hP
        omega
      simp only [getInstanceWorkersFrom, ShardStore.scan, hpage]
      rw [List.getLast_append' _ _ (List.cons_ne_nil v vs),
        getInstanceWorkersFrom_scan w fuel _ _ (by simpa only [hnext, List.length_drop] using hlen)]
      simp only [hnext]
      simp only [List.append_assoc, ← hpage, List.take_append_drop]

end Pages

/-- `getInstanceWorkers` on a store that answers `Scan` as `ShardStore.scan` does:
with more rounds than stored states, the stored states with index below
`uint32(Workers)`, in index order. -/
theorem getInstanceWorkers_eq (stores : Nat → ShardStore) (inst : WorkflowInstance) {fuel : Nat}
    (hfuel : (stores inst.snapshot.id).states.length < fuel) :
    getInstanceWorkers (fun id => (stores id).scan) inst fuel =
      some (.ok ((stores inst.snapshot.id).states.filter
        fun st => st.index.toNat < inst.workers.toNat % 2 ^ 32)) := by
  have hpending : (stores inst.snapshot.id).pending 0 inst.workers.toUInt32 =
      (stores inst.snapshot.id).states.filter fun st => st.index.toNat < inst.workers.toNat % 2 ^ 32 := by
    refine List.filter_congr fun st _ => ?_
    simp [uint32_le_iff, uint32_lt_iff, uint64_toUInt32_toNat]
  rw [getInstanceWorkers, getInstanceWorkersFrom_scan _ _ _ _ _
    (Nat.lt_of_le_of_lt (List.length_filter_le _ _) hfuel), List.nil_append, hpending]

def stoppingInstance (workers : UInt64) : WorkflowInstance :=
  ⟨⟨1, 0⟩, 1, {1}, 1, workers, .stopping⟩

def twoShardStore : ShardStore :=
  ⟨[⟨0, [⟨"B", {1}, 1⟩]⟩, ⟨2, []⟩], List.sorted_cons.2 ⟨by decide, List.sorted_singleton _⟩⟩

section Loops

variable {α β γ ε : Type}

theorem foldlM_except_ok {f : α → β → Except ε α} {g : α → β → α} (h : ∀ a x, f a x = .ok (g a x)) :
    ∀ (xs : List β) (a : α), xs.foldlM f a = .ok (xs.foldl g a)
  | [], _ => rfl
  | x :: xs, a => by rw [List.foldlM_cons, h]; exact foldlM_except_ok h xs _

theorem foldlM_except_error (f : α → β → Except ε α) :
    ∀ (xs : List β) (a : α), (∃ x ∈ xs, ∀ a, ∃ e, f a x = .error e) → ∃ e, xs.foldlM f a = .error e
  | [], _, ⟨_, hx, _⟩ => absurd hx (List.not_mem_nil _)
  | y :: xs, a, ⟨x, hx, hfail⟩ => by
    rw [List.foldlM_cons]
    rcases List.mem_cons.1 hx with rfl | hx
    · obtain ⟨e, he⟩ := hfail a
      exact ⟨e, by rw [he]; rfl⟩
    · rcases hy : f a y with e | a'
      · exact ⟨e, rfl⟩
      · exact foldlM_except_error f xs a' ⟨x, hx, hfail⟩

theorem foldlM_except_cases {f : α → β → Except ε α} {e : ε}
    (hf : ∀ a x, f a x = .error e ∨ ∃ b, f a x = .ok b) :
    ∀ (xs : List β) (a : α), xs.foldlM f a = .error e ∨ ∃ b, xs.foldlM f a = .ok b
  | [], a => .inr ⟨a, rfl⟩
  | x :: xs, a => by
    rw [List.foldlM_cons]
    rcases hf a x with h | ⟨b, h⟩ <;> rw [h]
    · exact .inl rfl
    · exact foldlM_except_cases hf xs b

theorem foldlM_except_fails {f : α → β → Except ε α} {e : ε}
    (hf : ∀ a x, f a x = .error e ∨ ∃ b, f a x = .ok b) (xs : List β) (a : α)
    (hx : ∃ x ∈ xs, ∀ a, f a x = .error e) : xs.foldlM f a = .error e := by
  obtain ⟨e', he'⟩ := foldlM_except_error f xs a (hx.imp fun _ ⟨hx, h⟩ => ⟨hx, fun a => ⟨e, h a⟩⟩)
  rcases foldlM_except_cases hf xs a with h | ⟨b, h⟩ <;> rw [h] at he'
  · exact h
  · cases he'

theorem mapM_except_fails {f : β → Except ε γ} {e : ε} (hf : ∀ x, f x = .error e ∨ ∃ y, f x = .ok y) :
    ∀ xs : List β, (∃ x ∈ xs, f x = .error e) → xs.mapM f = .error e
  | [], ⟨_, hx, _⟩ => absurd hx (List.not_mem_nil _)
  | y :: xs, ⟨x, hx, hfail⟩ => by
    rw [List.mapM_cons]
    rcases hf y with h | ⟨z, h⟩ <;> rw [h]
    · rfl
    · rcases List.mem_cons.1 hx with rfl | hx
      · cases h.symm.trans hfail
      · rw [Storage.except_ok_bind, mapM_except_fails hf xs ⟨x, hx, hfail⟩]
        rfl

@[simp] theorem mapM_except_ok (g : β → γ) :
    ∀ xs : List β, xs.mapM (fun x => (Except.ok (g x) : Except ε γ)) = .ok (xs.map g)
  | [] => rfl
  | x :: xs => by rw [List.mapM_cons, mapM_except_ok g xs]; rfl

end Loops

theorem loadCrowds_eq {bs : BMStore} (hload : ∀ st, bs.loadBM st = .ok st.crowd)
    (shards : List WorkflowInstanceWorkerState) : loadCrowds bs shards = .ok (mergedCrowds shards) :=
  foldlM_except_ok (fun value shard => foldlM_except_ok (fun _ st => by rw [hload]; rfl) _ _) _ _

/-- On a store that reads back what it stores, `buildSnapshot` gives the
snapshot of the worker states `getInstanceWorkers` reads. -/
theorem buildSnapshot_of_read
    {scan : Nat → UInt32 → UInt32 → UInt64 → Except String (List WorkflowInstanceWorkerState)}
    {bs : BMStore} (hf : bs.Faithful) (inst : WorkflowInstance)
    (steps : List String) {fuel : Nat} {shards : List WorkflowInstanceWorkerState}
    (hread : getInstanceWorkers scan inst fuel = some (.ok shards)) :
    buildSnapshot scan bs inst steps fuel = some (.ok (snapshotOf inst steps shards)) := by
  have hput : ∀ bm, bs.putBM bm = .ok (bm.getD ∅) := fun bm => by cases bm <;> simp [hf.nil, hf.put]
  simp only [buildSnapshot, hread, Option.map_some', Storage.except_ok_bind, loadCrowds_eq hf.load, hput,
    Storage.except_map_ok, mapM_except_ok]
  rfl

theorem loadCrowds_error {bs : BMStore} {shards : List WorkflowInstanceWorkerState}
    (hfail : ∃ shard ∈ shards, ∃ st ∈ shard.states, ∃ e, bs.loadBM st = .error e) :
    ∃ e, loadCrowds bs shards = .error e := by
  obtain ⟨shard, hshard, st, hst, e, he⟩ := hfail
  unfold loadCrowds
  refine foldlM_except_error _ shards _ ⟨shard, hshard, fun value => ?_⟩
  refine foldlM_except_error _ shard.states value ⟨st, hst, fun value => ⟨e, ?_⟩⟩
  rw [he]
  rfl

/-- A failed load of the crowd of a stored step state makes `buildSnapshot`
fail: it never returns a snapshot that leaves a shard out. -/
theorem buildSnapshot_error_of_load
    {scan : Nat → UInt32 → UInt32 → UInt64 → Except String (List WorkflowInstanceWorkerState)}
    (bs : BMStore) (inst : WorkflowInstance) (steps : List String) {fuel : Nat}
    {shards : List WorkflowInstanceWorkerState} (hread : getInstanceWorkers scan inst fuel = some (.ok shards))
    (hfail : ∃ shard ∈ shards, ∃ st ∈ shard.states, ∃ e, bs.loadBM st = .error e) :
    ∃ e, buildSnapshot scan bs inst steps fuel = some (.error e) := by
  obtain ⟨e, he⟩ := loadCrowds_error hfail
  exact ⟨e, by simp only [buildSnapshot, hread, Option.map_some', Storage.except_ok_bind, he,
    Storage.except_error_bind]⟩

section Merge

variable {u : UInt32} {name : String}

theorem mem_getD_mergeStepState (value : String → Option Bitmap) (name' : String) (bm : Bitmap) :
    u ∈ (mergeStepState value name' bm name).getD ∅ ↔
      u ∈ (value name).getD ∅ ∨ name' = name ∧ u ∈ bm := by
  unfold mergeStepState
  by_cases h : name = name'
  · cases value name <;> simp [h]
  · simp [h, Ne.symm h]

theorem mem_getD_foldl_mergeStepState (states : List StepState) (value : String → Option Bitmap) :
    u ∈ (states.foldl (fun value st => mergeStepState value st.name st.crowd) value name).getD ∅ ↔
      u ∈ (value name).getD ∅ ∨ ∃ st ∈ states, st.name = name ∧ u ∈ st.crowd := by
  induction states generalizing value with
  | nil => simp
  | cons st states ih => simp only [List.foldl_cons, ih, mem_getD_mergeStepState, List.mem_cons,
      exists_eq_or_imp, or_assoc]

theorem mem_mergedCrowds (shards : List WorkflowInstanceWorkerState) :
    u ∈ (mergedCrowds shards name).getD ∅ ↔
      ∃ shard ∈ shards, ∃ st ∈ shard.states, st.name = name ∧ u ∈ st.crowd := by
  suffices h : ∀ value : String → Option Bitmap,
      u ∈ ((shards.foldl (fun value shard => shard.states.foldl (fun value st =>
        mergeStepState value st.name st.crowd) value) value) name).getD ∅ ↔
      u ∈ (value name).getD ∅ ∨ ∃ shard ∈ shards, ∃ st ∈ shard.states, st.name = name ∧ u ∈ st.crowd by
    simpa using h fun _ => none
  induction shards with
  | nil => simp
  | cons shard shards ih =>
    intro value
    simp only [List.foldl_cons, ih, mem_getD_foldl_mergeStepState, List.mem_cons, exists_eq_or_imp, or_assoc]

end Merge

/-- `buildSnapshot` stops the instance and makes one state a step of `steps`,
in order; the crowd of each is every user that some worker state holds in a
step state of that name. -/
theorem snapshotOf_spec (inst : WorkflowInstance) (steps : List String)
    (shards : List WorkflowInstanceWorkerState) :
    (snapshotOf inst steps shards).snapshot = { inst with state := .stopped } ∧
      (snapshotOf inst steps shards).states.map (·.name) = steps ∧
      ∀ state ∈ (snapshotOf inst steps shards).states, ∀ u, u ∈ state.crowd ↔
        ∃ shard ∈ shards, ∃ st ∈ shard.states, st.name = state.name ∧ u ∈ st.crowd := by
  refine ⟨rfl, by simp [snapshotOf, Function.comp_def], ?_⟩
  simp only [snapshotOf, List.mem_map]
  rintro _ ⟨step, -, rfl⟩ u
  exact mem_mergedCrowds shards

/-- The users of the snapshot are those the worker states hold in a step that
`steps` names; a user held in a step the workflow does not list is left out. -/
theorem mem_union_snapshotOf (inst : WorkflowInstance) (steps : List String)
    (shards : List WorkflowInstanceWorkerState) (u : UInt32) :
    u ∈ ((snapshotOf inst steps shards).states.map (·.crowd)).foldr (· ∪ ·) ∅ ↔
      ∃ shard ∈ shards, ∃ st ∈ shard.states, st.name ∈ steps ∧ u ∈ st.crowd := by
  obtain ⟨-, hnames, hcrowd⟩ := snapshotOf_spec inst steps shards
  rw [mem_foldr_union_iff]
  constructor
  · rintro ⟨_, hS, hu⟩
    obtain ⟨state, hstate, rfl⟩ := List.mem_map.1 hS
    obtain ⟨shard, hshard, st, hst, hname, hu⟩ := (hcrowd state hstate u).1 hu
    exact ⟨shard, hshard, st, hst, hnames ▸ hname ▸ List.mem_map_of_mem _ hstate, hu⟩
  · rintro ⟨shard, hshard, st, hst, hname, hu⟩
    obtain ⟨state, hstate, hsname⟩ := List.mem_map.1 (hnames ▸ hname)
    exact ⟨_, List.mem_map_of_mem _ hstate, (hcrowd state hstate u).2 ⟨shard, hshard, st, hst, hsname.symm, hu⟩⟩

def crowdStore : BMStore := ⟨fun st => .ok st.crowd, fun bm => .ok (bm.getD ∅)⟩

theorem crowdStore_faithful : crowdStore.Faithful := ⟨fun _ => rfl, fun _ => rfl, rfl⟩

/-- The workflow of the instance lists the step `A` only, and the state of
shard 0 holds user 1 in step `B` (written before an `UpdateWorkflow` reached
the worker): on a store that reads back what it stores, the snapshot has the
empty crowd for `A`, and user 1 is in no step of the history. -/
theorem buildSnapshot_drops_unlisted_step :
    1 ∈ ((twoShardStore.states.flatMap (·.states)).map (·.crowd)).foldr (· ∪ ·) ∅ ∧
      buildSnapshot (fun _ => twoShardStore.scan) crowdStore (stoppingInstance 2) ["A"] 3 =
        some (.ok (snapshotOf (stoppingInstance 2) ["A"] twoShardStore.states)) ∧
      (snapshotOf (stoppingInstance 2) ["A"] twoShardStore.states).states =
        [⟨"A", ∅, 0⟩] ∧
      1 ∉ (((snapshotOf (stoppingInstance 2) ["A"] twoShardStore.states).states.map (·.crowd)).foldr
        (· ∪ ·) ∅) :=
  ⟨by decide, rfl, rfl, fun h => by
    obtain ⟨shard, hshard, st, hst, hname, -⟩ := (mem_union_snapshotOf _ _ _ 1).1 h
    simp [twoShardStore] at hshard
    rcases hshard with rfl | rfl <;> simp at hst
    subst hst
    simp at hname⟩

end Busybee.Engine
