import Busybee.Crowd

set_option autoImplicit false

/-!
# Starting a workflow instance

`engine.StartInstance`: it loads the requested crowd, takes away the crowd of
the workflow's last instance when that one has stopped, and stores the new
instance with a `StartingInstanceRequest`. A failed storage call leaves the
current instance as it was.
-/

namespace Busybee.Engine

inductive InstanceState where
  | starting
  | running
  | stopping
  | stopped
  deriving DecidableEq

structure Workflow where
  id : Nat
  duration : Int
  deriving DecidableEq

/-- A `metapb.WorkflowInstance`, with the crowd its loader reads. -/
structure WorkflowInstance where
  snapshot : Workflow
  instanceID : Nat
  crowd : Bitmap
  totalCrowd : Nat
  workers : UInt64
  state : InstanceState
  deriving DecidableEq

/-- The outcomes of a handler's storage calls, in order: `false` for a call that
fails. A call past the end succeeds. -/
abbrev Answers := List Bool

/-- One storage call of `StartInstance`; when it fails, `StartInstance` returns
its error. -/
def call : StateT Answers Option Unit := fun answers =>
  match answers with
  | false :: _ => none
  | true :: rest => some ((), rest)
  | [] => some ((), [])

/-- The end of `StartInstance`: `AllocID`, `putBM`, and the
`StartingInstanceRequest` that stores the new instance. -/
def storeInstance (workflow : Workflow) (bm : Bitmap) (workers : UInt64) (id : Nat) :
    StateT Answers Option (Option WorkflowInstance) := do
  call
  call
  call
  pure (some ⟨workflow, id, bm, bm.card, workers, .starting⟩)

/-- `engine.StartInstance(workflow, loader, crowdMeta, workers)`, where
`loadBM(loader, crowdMeta)` gives `bm`, the workflow's current instance is
`current` and `AllocID` gives `id`: the instance it stores, `none` when the last
instance has not stopped. A failing call (`checkExcution`, `loadBM`,
`loadInstance`, ...) makes the whole call fail. -/
def startInstance (workflow : Workflow) (bm : Bitmap) (workers : UInt64) (id : Nat)
    (current : Option WorkflowInstance) : StateT Answers Option (Option WorkflowInstance) := do
  call
  call
  call
  match current with
  | some old =>
    if old.state ≠ .stopped then
      pure none
    else do
      call
      storeInstance workflow (bm \ old.crowd) workers id
  | none => storeInstance workflow bm workers id

/-- A `StartInstance` call: the requested crowd, its workers, the id it
allocates, and the outcomes of its storage calls. -/
structure StartCall where
  bm : Bitmap
  workers : UInt64
  id : Nat
  answers : Answers

/-- The instances a run of `StartInstance` calls for one workflow stores, each
call made once the instance before it has stopped. -/
def startRun (workflow : Workflow) : List StartCall → Option WorkflowInstance → List WorkflowInstance
  | [], _ => []
  | c :: calls, current =>
    match (startInstance workflow c.bm c.workers c.id current).run c.answers with
    | some (some inst, _) => inst :: startRun workflow calls (some { inst with state := .stopped })
    | _ => startRun workflow calls current

theorem call_bind_eq_some {α : Type} {f : Unit → StateT Answers Option α} {answers : Answers}
    {r : α × Answers} (h : (call >>= f).run answers = some r) : ∃ rest, (f ()).run rest = some r := by
  rcases answers with _ | ⟨_ | _, rest⟩
  · exact ⟨[], h⟩
  · cases h
  · exact ⟨rest, h⟩

theorem storeInstance_eq_some {workflow : Workflow} {bm : Bitmap} {workers : UInt64} {id : Nat}
    {answers rest : Answers} {inst : WorkflowInstance}
    (h : (storeInstance workflow bm workers id).run answers = some (some inst, rest)) :
    inst.crowd = bm ∧ inst.totalCrowd = bm.card := by
  obtain ⟨_, h⟩ := call_bind_eq_some h
  obtain ⟨_, h⟩ := call_bind_eq_some h
  obtain ⟨_, h⟩ := call_bind_eq_some h
  cases h
  exact ⟨rfl, rfl⟩

/-- An instance `StartInstance` stores has the requested crowd less the crowd
of the last instance, and that many users; the last instance had stopped. -/
theorem startInstance_eq_some {workflow : Workflow} {bm : Bitmap} {workers : UInt64} {id : Nat}
    {current : Option WorkflowInstance} {answers rest : Answers} {inst : WorkflowInstance}
    (h : (startInstance workflow bm workers id current).run answers = some (some inst, rest)) :
    inst.crowd = (match current with | some old => bm \ old.crowd | none => bm) ∧
      inst.totalCrowd = inst.crowd.card := by
  obtain ⟨_, h⟩ := call_bind_eq_some h
  obtain ⟨_, h⟩ := call_bind_eq_some h
  obtain ⟨_, h⟩ := call_bind_eq_some h
  rcases current with _ | old
  · obtain ⟨hc, ht⟩ := storeInstance_eq_some h
    exact ⟨hc, hc ▸ ht⟩
  · dsimp only at h
    split_ifs at h
    · cases h
    · obtain ⟨_, h⟩ := call_bind_eq_some h
      obtain ⟨hc, ht⟩ := storeInstance_eq_some h
      exact ⟨hc, hc ▸ ht⟩

theorem startRun_chain (workflow : Workflow) (calls : List StartCall) :
    ∀ old a : WorkflowInstance, a.crowd = old.crowd →
      (startRun workflow calls (some old)).Chain (fun x y => Disjoint x.crowd y.crowd) a := by
  induction calls with
  | nil => exact fun _ _ _ => List.Chain.nil
  | cons c calls ih =>
    intro old a ha
    unfold startRun
    split
    · next inst _ heq =>
      have hc : inst.crowd = c.bm \ old.crowd := (startInstance_eq_some heq).1
      refine List.Chain.cons ?_ (ih { inst with state := .stopped } inst rfl)
      rw [ha, hc]
      exact Finset.disjoint_sdiff
    · exact ih old a ha

theorem startRun_totalCrowd (workflow : Workflow) (calls : List StartCall) :
    ∀ current, ∀ inst ∈ startRun workflow calls current, inst.totalCrowd = inst.crowd.card := by
  induction calls with
  | nil => simp [startRun]
  | cons c calls ih =>
    intro current inst hmem
    unfold startRun at hmem
    split at hmem
    · next inst' _ heq =>
      rcases List.mem_cons.1 hmem with rfl | hmem
      · exact (startInstance_eq_some heq).2
      · exact ih _ inst hmem
    · exact ih _ inst hmem

/-- A run of `StartInstance` calls from a workflow with no instance: each
instance's crowd is disjoint from the crowd of the instance just before it, and
its `TotalCrowd` is its size. -/
theorem startRun_disjoint_consecutive (workflow : Workflow) (calls : List StartCall) :
    (startRun workflow calls none).Chain' (fun x y => Disjoint x.crowd y.crowd) ∧
      ∀ inst ∈ startRun workflow calls none, inst.totalCrowd = inst.crowd.card := by
  refine ⟨?_, startRun_totalCrowd workflow calls none⟩
  induction calls with
  | nil => exact List.chain'_nil
  | cons c calls ih =>
    unfold startRun
    split
    · next inst _ _ => exact startRun_chain workflow calls { inst with state := .stopped } inst rfl
    · exact ih

/-- Requested crowds `{1}`, `{1, 2}` and `{1}`, every call succeeding: the third
instance admits user 1 again, whom the first one had. -/
theorem startRun_readmits :
    (startRun ⟨1, 0⟩ [⟨{1}, 1, 1, []⟩, ⟨{1, 2}, 1, 2, []⟩, ⟨{1}, 1, 3, []⟩] none).map (·.crowd) =
      [{1}, {2}, {1}] := by
  decide

end Busybee.Engine
