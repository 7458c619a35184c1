import Busybee.Routing
set_option autoImplicit false

/-!
The range cache of the older engine. `Step` routes a user event by the shard
ranges that `maybeLoadInstanceStateShardRanges` takes from `rangeCache`, or on a
miss computes from the stored instance and caches. A stop stores
`stoppedRange`, the nil slice, under the instance.
-/

namespace Busybee.Engine

/-- The fields of the older engine's `metapb.WorkflowInstance` that its range
cache reads; the crowd is the bitmap `MustParseBM` reads from `Crowd`. -/
structure Metapb.WorkflowInstance where
  id : UInt64
  crowd : Bitmap
  maxPerShard : UInt64
  deriving DecidableEq

/-- `stoppedRange`: the nil slice. -/
def stoppedRange : List (UInt32 × UInt32) := []

/-- `rangeCache`, a `sync.Map` from instance ids to shard ranges, by its `Load`. -/
structure RangeCache where
  load : UInt64 → Option (List (UInt32 × UInt32))

namespace RangeCache

variable (split : Bitmap → UInt64 → List Bitmap)

def empty : RangeCache := ⟨fun _ => none⟩

def store (c : RangeCache) (id : UInt64) (ranges : List (UInt32 × UInt32)) : RangeCache :=
  ⟨fun id' => if id' = id then some ranges else c.load id'⟩

/-- `addShardRangesToCache`: the cached ranges on a hit; on a miss, one range a
shard, stored. -/
def addShardRangesToCache (c : RangeCache) (id : UInt64) (shards : List Bitmap) :
    List (UInt32 × UInt32) × RangeCache :=
  match c.load id with
  | some ranges => (ranges, c)
  | none => (Busybee.Engine.addShardRangesToCache shards,
      c.store id (Busybee.Engine.addShardRangesToCache shards))

/-- `maybeLoadInstanceStateShardRanges`, with `split` for `BMSplit` and `started`
the store's answer to `Get(InstanceStartKey(id))`, `none` for an empty value. -/
def maybeLoadInstanceStateShardRanges (c : RangeCache) (id : UInt64)
    (started : Except String (Option Metapb.WorkflowInstance)) :
    Except String (List (UInt32 × UInt32)) × RangeCache :=
  match c.load id with
  | some ranges => (.ok ranges, c)
  | none =>
    match started with
    | .error err => (.error err, c)
    | .ok none => (.error ("instance " ++ toString id ++ " not started"), c)
    | .ok (some inst) =>
      let r := c.addShardRangesToCache inst.id (split inst.crowd inst.maxPerShard)
      (.ok r.1, r.2)

/-- `engine.Step` against the cache: the ranges of the event's instance, then
the request `step` builds from them. -/
def step (c : RangeCache) (started : Except String (Option Metapb.WorkflowInstance))
    (event : Metapb.Event) : Except String (Option StepInstanceStateShardRequest) × RangeCache :=
  match c.maybeLoadInstanceStateShardRanges split event.instanceID started with
  | (.error err, c) => (.error err, c)
  | (.ok ranges, c) => (Busybee.Engine.step ranges event, c)

def stopWorker (c : RangeCache) (id : UInt64) : RangeCache := c.store id stoppedRange

/-- `doStoppedInstanceEvent`: `stoppedRange` for the instance, then `stopWorker`
for each of its registered workers; `workers` are the instance ids of the
registered workers, in the order `Range` visits them. -/
def doStoppedInstanceEvent (c : RangeCache) (id : UInt64) (workers : List UInt64) : RangeCache :=
  (workers.filter fun w => w = id).foldl stopWorker (c.store id stoppedRange)

/-- What reaches the cache: `InstanceLoadedEvent`, whose `doStartInstanceEvent`
adds the instance's ranges; a `Step` call, with the store's answer to its
`Get`; the `StopAt` timer of a worker of an instance; `InstanceStoppedEvent`,
with the instance ids of the registered workers. -/
inductive Input where
  | instanceLoaded (inst : Metapb.WorkflowInstance)
  | step (event : Metapb.Event) (started : Except String (Option Metapb.WorkflowInstance))
  | stopWorker (id : UInt64)
  | instanceStopped (id : UInt64) (workers : List UInt64)

def handle (c : RangeCache) : Input → RangeCache
  | .instanceLoaded inst => (c.addShardRangesToCache inst.id (split inst.crowd inst.maxPerShard)).2
  | .step event started => (c.step split started event).2
  | .stopWorker id => c.stopWorker id
  | .instanceStopped id workers => c.doStoppedInstanceEvent id workers

def run (c : RangeCache) (inputs : List Input) : RangeCache :=
  inputs.foldl (handle split) c

def Input.stops : Input → UInt64 → Bool
  | .stopWorker id', id => id = id'
  | .instanceStopped id' _, id => id = id'
  | _, _ => false

def freshRanges (inst : Metapb.WorkflowInstance) : List (UInt32 × UInt32) :=
  Busybee.Engine.addShardRangesToCache (split inst.crowd inst.maxPerShard)

variable {c : RangeCache} {id : UInt64}

@[simp] theorem empty_load (id : UInt64) : empty.load id = none := rfl

@[simp] theorem store_load (id' : UInt64) (ranges : List (UInt32 × UInt32)) :
    (c.store id ranges).load id' = if id' = id then some ranges else c.load id' := rfl

theorem store_store (ranges ranges' : List (UInt32 × UInt32)) :
    (c.store id ranges).store id ranges' = c.store id ranges' := by
  simp only [store, RangeCache.mk.injEq]
  funext x
  split_ifs <;> rfl

theorem doStoppedInstanceEvent_eq (workers : List UInt64) :
    c.doStoppedInstanceEvent id workers = c.stopWorker id := by
  suffices ∀ ws : List UInt64, (∀ w ∈ ws, w = id) → ws.foldl stopWorker (c.store id stoppedRange) =
      c.store id stoppedRange from this _ fun w hw => by simpa using (List.mem_filter.1 hw).2
  intro ws hws
  induction ws with
  | nil => rfl
  | cons w ws ih =>
    rw [List.foldl_cons, hws w (List.mem_cons_self ..), stopWorker, store_store]
    exact ih fun w' hw' => hws w' (List.mem_cons_of_mem _ hw')

theorem addShardRangesToCache_of_load {ranges : List (UInt32 × UInt32)} (h : c.load id = some ranges)
    (shards : List Bitmap) : c.addShardRangesToCache id shards = (ranges, c) := by
  simp [addShardRangesToCache, h]

theorem step_of_load {event : Metapb.Event} {ranges : List (UInt32 × UInt32)}
    (h : c.load event.instanceID = some ranges) (started : Except String (Option Metapb.WorkflowInstance)) :
    (c.step split started event).1 = Busybee.Engine.step ranges event := by
  simp [step, maybeLoadInstanceStateShardRanges, h]

theorem step_of_load_eq_none {event : Metapb.Event} (h : c.load event.instanceID = none)
    {started : Except String (Option Metapb.WorkflowInstance)}
    (hstarted : ∀ inst, started = .ok (some inst) → inst.id = event.instanceID) :
    (c.step split started event).1 = (empty.step split started event).1 := by
  rcases started with err | _ | inst
  · simp [step, maybeLoadInstanceStateShardRanges, h]
  · simp [step, maybeLoadInstanceStateShardRanges, h]
  · simp [step, maybeLoadInstanceStateShardRanges, addShardRangesToCache, h,
      hstarted inst rfl]

section Cached

variable (instOf : UInt64 → Metapb.WorkflowInstance)

def Input.Stored : Input → Prop
  | .instanceLoaded inst => inst = instOf inst.id
  | .step _ (.ok (some inst)) => inst = instOf inst.id
  | _ => True

/-- Every instance stopped so far has `stoppedRange`, and every other entry is
the ranges of the stored instance computed afresh. -/
structure Cached (stopped : UInt64 → Bool) (c : RangeCache) : Prop where
  load_stopped : ∀ id, stopped id = true → c.load id = some stoppedRange
  load_fresh : ∀ id ranges, stopped id = false → c.load id = some ranges →
    ranges = freshRanges split (instOf id)

variable {split instOf} {stopped : UInt64 → Bool}

theorem empty_cached : Cached split instOf (fun _ => false) empty :=
  ⟨fun _ h => absurd h Bool.false_ne_true, fun _ _ _ h => absurd h (by simp)⟩

theorem Cached.addShardRangesToCache (h : Cached split instOf stopped c) {inst : Metapb.WorkflowInstance}
    (hinst : inst = instOf inst.id) :
    Cached split instOf stopped (c.addShardRangesToCache inst.id (split inst.crowd inst.maxPerShard)).2 := by
  rcases hl : c.load inst.id with _ | ranges
  · refine ⟨fun id hs => ?_, fun id ranges hs hr => ?_⟩
    · have hne : id ≠ inst.id := fun he => by simp [he, h.load_stopped _ (he ▸ hs)] at hl
      simpa [RangeCache.addShardRangesToCache, hl, hne] using h.load_stopped id hs
    · simp only [RangeCache.addShardRangesToCache, hl, store_load] at hr
      split_ifs at hr with he
      · rw [he, ← Option.some.inj hr, freshRanges, ← hinst]
      · exact h.load_fresh id ranges hs hr
  · rwa [addShardRangesToCache_of_load hl]

theorem Cached.step (h : Cached split instOf stopped c) {event : Metapb.Event}
    {started : Except String (Option Metapb.WorkflowInstance)} (hs : (Input.step event started).Stored instOf) :
    Cached split instOf stopped (c.step split started event).2 := by
  rcases hl : c.load event.instanceID with _ | ranges
  · rcases started with err | _ | inst
    · simpa [RangeCache.step, maybeLoadInstanceStateShardRanges, hl] using h
    · simpa [RangeCache.step, maybeLoadInstanceStateShardRanges, hl] using h
    · simpa [RangeCache.step, maybeLoadInstanceStateShardRanges, hl] using h.addShardRangesToCache hs
  · simpa [RangeCache.step, maybeLoadInstanceStateShardRanges, hl] using h

theorem Cached.stopWorker (h : Cached split instOf stopped c) (id : UInt64) :
    Cached split instOf (fun x => stopped x || x = id) (c.stopWorker id) := by
  refine ⟨fun x hx => ?_, fun x ranges hx hr => ?_⟩
  · by_cases he : x = id
    · simp [RangeCache.stopWorker, he]
    · simpa [RangeCache.stopWorker, he] using h.load_stopped x (by simpa [he] using hx)
  · simp only [Bool.or_eq_false_iff, decide_eq_false_iff_not] at hx
    simpa [RangeCache.stopWorker, hx.2] using h.load_fresh x ranges hx.1 (by simpa [RangeCache.stopWorker, hx.2] using hr)

theorem Cached.handle (h : Cached split instOf stopped c) {i : Input} (hi : i.Stored instOf) :
    Cached split instOf (fun x => stopped x || i.stops x) (handle split c i) := by
  cases i with
  | instanceLoaded inst => simpa [Input.stops] using h.addShardRangesToCache hi
  | step event started => simpa [Input.stops] using h.step hi
  | stopWorker id => simpa [Input.stops] using h.stopWorker id
  | instanceStopped id workers =>
    simpa [Input.stops, RangeCache.handle, doStoppedInstanceEvent_eq] using h.stopWorker id

theorem Cached.run (h : Cached split instOf stopped c) {inputs : List Input}
    (hin : ∀ i ∈ inputs, i.Stored instOf) :
    Cached split instOf (fun x => stopped x || inputs.any (·.stops x)) (run split c inputs) := by
  induction inputs generalizing stopped c with
  | nil => simpa [RangeCache.run] using h
  | cons i is ih =>
    have := ih (h.handle (hin i (List.mem_cons_self ..))) fun j hj => hin j (List.mem_cons_of_mem _ hj)
    simpa [RangeCache.run, Bool.or_assoc] using this

/-- Over every run from a new engine whose inputs carry the stored instances,
`Step` answers nothing for an instance stopped in the run, whatever the store
answers; for any other instance it answers, on a miss, what it answers with no
cache, and on a hit what it answers on the stored instance's ranges computed
afresh. -/
theorem step_after_run (inputs : List Input) (hin : ∀ i ∈ inputs, i.Stored instOf)
    (started : Except String (Option Metapb.WorkflowInstance)) (event : Metapb.Event)
    (hstarted : ∀ inst, started = .ok (some inst) → inst.id = event.instanceID) :
    ((run split empty inputs).step split started event).1 =
      if inputs.any (·.stops event.instanceID) then .ok none
      else if (run split empty inputs).load event.instanceID = none then
        (empty.step split started event).1
      else Busybee.Engine.step (freshRanges split (instOf event.instanceID)) event := by
  have hc := (@empty_cached split instOf).run hin
  split_ifs with hs hl
  · rw [step_of_load split (hc.load_stopped _ (by simpa using hs))]
    rfl
  · exact step_of_load_eq_none split hl hstarted
  · obtain ⟨ranges, hr⟩ := Option.ne_none_iff_exists'.1 hl
    rw [step_of_load split hr, hc.load_fresh _ _ (by simpa using hs) hr]

end Cached

def oneShard : Bitmap → UInt64 → List Bitmap := fun B _ => [B]

def storedCrowd (id : UInt64) : Metapb.WorkflowInstance := ⟨id, {1, 2}, 10⟩

theorem step_after_load :
    (∀ i ∈ [Input.instanceLoaded (storedCrowd 7)], i.Stored storedCrowd) ∧
      (∀ inst : Metapb.WorkflowInstance, (.error "timeout" : Except String _) = .ok (some inst) → inst.id = 7) ∧
      ((run oneShard empty [.instanceLoaded (storedCrowd 7)]).step oneShard (.error "timeout") ⟨7, 1⟩).1 =
        .ok (some ⟨⟨7, 1⟩, 1, 3⟩) := by
  have hin : ∀ i ∈ [Input.instanceLoaded (storedCrowd 7)], i.Stored storedCrowd := by
    simp [Input.Stored, storedCrowd]
  have hstarted : ∀ inst : Metapb.WorkflowInstance, (.error "timeout" : Except String _) = .ok (some inst) → inst.id = 7 :=
    fun _ h => by cases h
  exact ⟨hin, hstarted, (step_after_run _ hin _ ⟨7, 1⟩ hstarted).trans rfl⟩

end RangeCache

end Busybee.Engine
