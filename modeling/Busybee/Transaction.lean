import Busybee.Crowd
set_option autoImplicit false

/-!
The transaction of a state worker: the scratch copy of one shard's crowds that
a tick of the worker changes (`transaction.go` of package `core`).
-/

namespace Busybee.Core

inductive ExecutionType where
  | timer | direct | condition
  deriving DecidableEq, Repr

structure Step where
  name : String
  ttl : Int
  execution : ExecutionType
  deriving DecidableEq, Repr

/-- `who`: one user, or a bulk crowd when `users` is not nil. -/
structure Who where
  user : UInt32
  users : Option Bitmap
  deriving DecidableEq

def Who.members (target : Who) : Bitmap :=
  match target.users with
  | some users => users
  | none => {target.user}

/-- `changedCtx`: a transition of `who` from step `from` to step `to`. -/
structure ChangedCtx where
  «from» : String
  «to» : String
  who : Who
  ttl : Int
  deriving DecidableEq

/-- The first statement of `stepChanged`: a bulk crowd, which a timer step
selects over the whole workflow, is cut to the shard's total crowd. -/
def ChangedCtx.scoped (ctx : ChangedCtx) (total : Bitmap) : ChangedCtx :=
  match ctx.who.users with
  | some users => { ctx with who := { ctx.who with users := some (users ∩ total) } }
  | none => ctx

/-- Modelled from the spec: `changedCtx.add` is not in the sources. The
transaction keeps "`changes` merged by `(from, to)` so repeated single-user
transitions on the same edge coalesce into one bulk record": the users of
`other` join the record's users. -/
def ChangedCtx.add (c other : ChangedCtx) : ChangedCtx :=
  { c with who := { c.who with users := some (c.who.members ∪ other.who.members) } }

/-- The parts of a `stateWorker` that a transaction reads: the steps of its
`state.States`, its crowds, and its direct-step table. The worker is not in the
sources, so `isDirectStep` and `directSteps` are taken as arbitrary; the worker
loads one crowd per step. -/
structure Worker where
  states : List Step
  totalCrowds : Bitmap
  stepCrowds : List Bitmap
  isDirectStep : String → Bool
  directSteps : String → String
  stepCrowds_length : stepCrowds.length = states.length

/-- `transaction`. The worker `w` it points to is passed to each operation. -/
structure Transaction where
  totalCrowds : Bitmap
  stepCrowds : List Bitmap
  err : Option String
  cbs : List Nat
  changes : List ChangedCtx
  crowdChanged : Bool
  deriving DecidableEq

def newTransaction : Transaction := ⟨∅, [], none, [], [], false⟩

namespace Transaction

/-- `start`: copies of the worker's total crowd and step crowds, the step
crowds appended to those already held. -/
def start (w : Worker) (tran : Transaction) : Transaction :=
  { tran with totalCrowds := w.totalCrowds, stepCrowds := tran.stepCrowds ++ w.stepCrowds }

/-- `tran.stepCrowds[idx]`. -/
def crowd (tran : Transaction) (idx : Nat) : Bitmap := tran.stepCrowds.getD idx ∅

def setCrowd (tran : Transaction) (idx : Nat) (crowd : Bitmap) : Transaction :=
  { tran with stepCrowds := tran.stepCrowds.set idx crowd }

/-- `doUpdateCrowd`, on the crowd that `MustParseBMTo` reads from the item. -/
def doUpdateCrowd (crowd : Bitmap) (cb : Option Nat) (tran : Transaction) : Transaction :=
  let tran := match cb with
    | some cb => { tran with cbs := tran.cbs ++ [cb] }
    | none => tran
  if tran.err.isSome then tran
  else
    let newTotal := crowd
    let newAdded := newTotal \ tran.totalCrowds
    { tran with
      totalCrowds := newTotal
      stepCrowds := tran.stepCrowds.mapIdx fun idx sc =>
        (if idx = 0 then sc ∪ newAdded else sc) ∩ newTotal
      crowdChanged := true }

/-- `removeFromStep`. Its result is `false` on every path. -/
def removeFromStep (idx : Nat) (target : Who) (tran : Transaction) : Bool × Transaction :=
  match target.users with
  | some users =>
    let afterChanged := tran.crowd idx \ users
    if (tran.crowd idx).card = afterChanged.card then (false, tran)
    else (false, tran.setCrowd idx afterChanged)
  | none => (false, tran.setCrowd idx ((tran.crowd idx).erase target.user))

/-- `moveToStep`: `true` unless a bulk move leaves the cardinality unchanged. -/
def moveToStep (idx : Nat) (target : Who) (tran : Transaction) : Bool × Transaction :=
  match target.users with
  | some users =>
    let afterChanged := tran.crowd idx ∪ users
    if (tran.crowd idx).card = afterChanged.card then (false, tran)
    else (true, tran.setCrowd idx afterChanged)
  | none => (true, tran.setCrowd idx (insert target.user (tran.crowd idx)))

/-- `addChanged`: merged into the record of the same edge, or appended as a new
record built from an empty crowd. -/
def addChanged (changed : ChangedCtx) (tran : Transaction) : Transaction :=
  match tran.changes.findIdx? fun c => c.from = changed.from && c.«to» = changed.«to» with
  | some idx => { tran with changes := tran.changes.modify (·.add changed) idx }
  | none =>
    let ctx : ChangedCtx := ⟨changed.from, changed.«to», ⟨0, some ∅⟩, changed.ttl⟩
    { tran with changes := tran.changes ++ [ctx.add changed], crowdChanged := true }

end Transaction

/-- The hops recorded by the loop of `maybeTriggerDirectSteps`, from the hop
`(src, dst)` on, and the step where it stops: the first that is not direct.
The loop has no bound; `none` when it has not stopped after `fuel` hops. -/
def Worker.directHops (w : Worker) : Nat → String → String → Option (List (String × String) × String)
  | 0, _, _ => none
  | fuel + 1, src, dst =>
    if w.isDirectStep dst then
      (w.directHops fuel dst (w.directSteps dst)).map fun r => ((src, dst) :: r.1, r.2)
    else some ([(src, dst)], dst)

namespace Transaction

/-- `maybeTriggerDirectSteps`, for the step `ctx.to` at index `idx`. -/
def maybeTriggerDirectSteps (w : Worker) (fuel idx : Nat) (ctx : ChangedCtx)
    (tran : Transaction) : Option Transaction :=
  if !w.isDirectStep ctx.«to» then some tran
  else (w.directHops fuel ctx.«to» (w.directSteps ctx.«to»)).map fun (hops, last) =>
    let tran := hops.foldl (fun tran hop => tran.addChanged ⟨hop.1, hop.2, ctx.who, 0⟩) tran
    let tran := (tran.removeFromStep idx ctx.who).2
    match w.states.findIdx? (·.name = last) with
    | some j => (tran.moveToStep j ctx.who).2
    | none => tran

/-- One iteration of the loop of `stepChanged`, at the step `step` of index `idx`.
The loop's `ctx.ttl` is set before every read of it, so it is set here. -/
def stepChangedAt (w : Worker) (fuel : Nat) (ctx : ChangedCtx) (tran : Transaction)
    (idx : Nat) (step : Step) : Option Transaction :=
  if step.name = ctx.from then some (tran.removeFromStep idx ctx.who).2
  else if step.name = ctx.«to» then
    let ctx := { ctx with ttl := step.ttl }
    match tran.moveToStep idx ctx.who with
    | (true, tran) => (tran.addChanged ctx).maybeTriggerDirectSteps w fuel idx ctx
    | (false, tran) => some tran
  else some tran

/-- `stepChanged`, after its first statement: the loop over the worker's steps. -/
def stepChanged (w : Worker) (fuel : Nat) (ctx : ChangedCtx) (tran : Transaction) :
    Option Transaction :=
  let ctx := ctx.scoped tran.totalCrowds
  w.states.enum.foldlM (fun tran e => tran.stepChangedAt w fuel ctx e.1 e.2) tran

/-- `reset`. The step crowds are released only when the tick recorded a change. -/
def reset (tran : Transaction) : Transaction :=
  { totalCrowds := ∅
    stepCrowds := if tran.changes.length > 0 then [] else tran.stepCrowds
    err := none
    cbs := []
    changes := []
    crowdChanged := false }

variable (tran : Transaction) (idx : Nat) (target : Who)

@[simp] theorem setCrowd_totalCrowds (S : Bitmap) : (tran.setCrowd idx S).totalCrowds = tran.totalCrowds := rfl
@[simp] theorem setCrowd_changes (S : Bitmap) : (tran.setCrowd idx S).changes = tran.changes := rfl
@[simp] theorem setCrowd_stepCrowds (S : Bitmap) :
    (tran.setCrowd idx S).stepCrowds = tran.stepCrowds.set idx S := rfl

@[simp] theorem addChanged_stepCrowds (c : ChangedCtx) : (tran.addChanged c).stepCrowds = tran.stepCrowds := by
  unfold addChanged; split <;> rfl
@[simp] theorem addChanged_totalCrowds (c : ChangedCtx) :
    (tran.addChanged c).totalCrowds = tran.totalCrowds := by
  unfold addChanged; split <;> rfl

theorem crowd_eq_getElem? (i : Nat) : tran.crowd i = tran.stepCrowds[i]?.getD ∅ :=
  List.getD_eq_getElem?_getD ..

theorem setCrowd_crowd : tran.setCrowd idx (tran.crowd idx) = tran := by
  suffices h : tran.stepCrowds.set idx (tran.crowd idx) = tran.stepCrowds by simp [setCrowd, h]
  refine List.ext_getElem? fun j => ?_
  rw [List.getElem?_set, crowd_eq_getElem?]
  split_ifs with h1 h2 <;> simp_all [List.getElem?_eq_getElem]

theorem removeFromStep_snd :
    (tran.removeFromStep idx target).2 = tran.setCrowd idx (tran.crowd idx \ target.members) := by
  rcases target with ⟨user, _ | users⟩
  · simp [removeFromStep, Who.members, Finset.erase_eq]
  · simp only [removeFromStep, Who.members]
    split
    · next h =>
      have hS : tran.crowd idx \ users = tran.crowd idx :=
        Finset.eq_of_subset_of_card_le Finset.sdiff_subset h.le
      rw [hS, setCrowd_crowd]
    · rfl

theorem moveToStep_snd :
    (tran.moveToStep idx target).2 = tran.setCrowd idx (tran.crowd idx ∪ target.members) := by
  rcases target with ⟨user, _ | users⟩
  · simp [moveToStep, Who.members, Finset.insert_eq, Finset.union_comm]
  · simp only [moveToStep, Who.members]
    split
    · next h =>
      have hS : tran.crowd idx ∪ users = tran.crowd idx :=
        (Finset.eq_of_subset_of_card_le Finset.subset_union_left h.ge).symm
      rw [hS, setCrowd_crowd]
    · rfl

theorem moveToStep_fst :
    (tran.moveToStep idx target).1 = true ↔
      target.users = none ∨ ¬target.members ⊆ tran.crowd idx := by
  rcases target with ⟨user, _ | users⟩
  · simp [moveToStep]
  · simp only [moveToStep, Who.members]
    split
    · next h =>
      have hS : tran.crowd idx ∪ users = tran.crowd idx :=
        (Finset.eq_of_subset_of_card_le Finset.subset_union_left h.ge).symm
      simpa using Finset.union_eq_left.1 hS
    · next h => simpa using fun hs => h (by rw [Finset.union_eq_left.2 hs])

theorem crowd_setCrowd (i j : Nat) (S : Bitmap) :
    (tran.setCrowd i S).crowd j = if i = j ∧ i < tran.stepCrowds.length then S else tran.crowd j := by
  simp only [crowd_eq_getElem?, setCrowd_stepCrowds, List.getElem?_set]
  by_cases hij : i = j
  · subst hij
    by_cases hi : i < tran.stepCrowds.length
    · simp [hi]
    · simp [hi, List.getElem?_eq_none (Nat.le_of_not_lt hi)]
  · simp [hij]

theorem doUpdateCrowd_fields (crowd : Bitmap) (cb : Option Nat) :
    (tran.doUpdateCrowd crowd cb).stepCrowds =
        (if tran.err.isSome then tran.stepCrowds else updateTotal tran.stepCrowds tran.totalCrowds crowd) ∧
      (tran.doUpdateCrowd crowd cb).totalCrowds = if tran.err.isSome then tran.totalCrowds else crowd := by
  cases cb <;> by_cases h : tran.err.isSome <;> simp [doUpdateCrowd, updateTotal, h]

theorem partition_doUpdateCrowd (crowd : Bitmap) (cb : Option Nat)
    (h : Partition tran.stepCrowds tran.totalCrowds) (hne : 0 < tran.stepCrowds.length) :
    Partition (tran.doUpdateCrowd crowd cb).stepCrowds (tran.doUpdateCrowd crowd cb).totalCrowds := by
  obtain ⟨h₁, h₂⟩ := doUpdateCrowd_fields tran crowd cb
  rw [h₁, h₂]
  split_ifs
  · exact h
  · exact partition_updateTotal h hne

/-- A crowd update on a transaction whose step crowds partition its total crowd:
the total becomes `N`, the first step takes the newcomers, every step keeps only
users of `N`, the step crowds partition `N`, and the same update again changes
nothing but the callbacks it queues. -/
theorem doUpdateCrowd_spec (N : Bitmap) (cb cb' : Option Nat) (herr : tran.err = none)
    (hne : 0 < tran.stepCrowds.length) (h : Partition tran.stepCrowds tran.totalCrowds) :
    (tran.doUpdateCrowd N cb).totalCrowds = N ∧
      (tran.doUpdateCrowd N cb).stepCrowds = updateTotal tran.stepCrowds tran.totalCrowds N ∧
      Partition (tran.doUpdateCrowd N cb).stepCrowds N ∧
      (tran.doUpdateCrowd N cb).doUpdateCrowd N cb' =
        { tran.doUpdateCrowd N cb with cbs := (tran.doUpdateCrowd N cb).cbs ++ cb'.toList } := by
  obtain ⟨hsteps, htotal⟩ := doUpdateCrowd_fields tran N cb
  simp only [herr, Option.isSome_none, Bool.false_eq_true, if_false] at hsteps htotal
  refine ⟨htotal, hsteps, by simpa only [htotal] using partition_doUpdateCrowd tran N cb h hne, ?_⟩
  cases cb <;> cases cb' <;> simp [doUpdateCrowd, herr, Function.comp_def, Finset.inter_assoc]

theorem doUpdateCrowd_one_step :
    let t : Transaction := ⟨{1}, [{1}], none, [], [], false⟩
    t.err = none ∧ 0 < t.stepCrowds.length ∧ Partition t.stepCrowds t.totalCrowds ∧
      (t.doUpdateCrowd {2} none).totalCrowds = {2} ∧
      (t.doUpdateCrowd {2} none).stepCrowds = updateTotal t.stepCrowds t.totalCrowds {2} ∧
      Partition (t.doUpdateCrowd {2} none).stepCrowds {2} ∧
      (t.doUpdateCrowd {2} none).doUpdateCrowd {2} (some 1) =
        { t.doUpdateCrowd {2} none with cbs := (t.doUpdateCrowd {2} none).cbs ++ (some 1).toList } :=
  ⟨rfl, by decide, by decide,
    doUpdateCrowd_spec ⟨{1}, [{1}], none, [], [], false⟩ {2} none (some 1) rfl (by decide) (by decide)⟩

@[simp] theorem start_stepCrowds (w : Worker) : (tran.start w).stepCrowds = tran.stepCrowds ++ w.stepCrowds := rfl
@[simp] theorem start_totalCrowds (w : Worker) : (tran.start w).totalCrowds = w.totalCrowds := rfl

theorem start_reset (w : Worker) :
    tran.reset.start w = { newTransaction.start w with
      stepCrowds := (if tran.changes = [] then tran.stepCrowds else []) ++ w.stepCrowds } := by
  by_cases h : tran.changes = [] <;> simp [reset, start, newTransaction, h, List.length_pos]

def singleStepWorker : Worker :=
  ⟨[⟨"A", 0, .condition⟩], {1}, [{1}], fun _ => false, fun _ => "", rfl⟩

/-- A tick that records no change (here: no call at all) leaves its step crowds
in the transaction, and the next `start` appends a second set. -/
theorem start_after_quiet_tick :
    ((newTransaction.start singleStepWorker).reset.start singleStepWorker).stepCrowds = [{1}, {1}] ∧
      (newTransaction.start singleStepWorker).stepCrowds = [{1}] := ⟨rfl, rfl⟩

end Transaction

section EraseDups

theorem mem_or_mem_cons_comm {α : Type} {x a : α} {l bs : List α} :
    x ∈ l ∨ x ∈ a :: bs ↔ x ∈ a :: l ∨ x ∈ bs := by
  simp only [List.mem_cons]
  exact or_left_comm.trans or_assoc.symm

variable {α : Type} [BEq α] [LawfulBEq α]

theorem mem_eraseDups_loop (x : α) (l bs : List α) :
    x ∈ List.eraseDups.loop l bs ↔ x ∈ l ∨ x ∈ bs := by
  induction l generalizing bs with
  | nil => simp [List.eraseDups.loop]
  | cons a l ih =>
    cases h : bs.elem a <;> simp only [List.eraseDups.loop, h, ih]
    · exact mem_or_mem_cons_comm
    · have ha : a ∈ bs := List.elem_iff.1 h
      rcases eq_or_ne x a with rfl | hx <;> simp [*]

theorem eraseDups_loop_append (x : α) (l bs : List α) :
    List.eraseDups.loop (l ++ [x]) bs =
      if x ∈ l ∨ x ∈ bs then List.eraseDups.loop l bs else List.eraseDups.loop l bs ++ [x] := by
  induction l generalizing bs with
  | nil => cases h : bs.elem x <;> simp_all [List.eraseDups.loop]
  | cons a l ih =>
    cases h : bs.elem a <;> simp only [List.cons_append, List.eraseDups.loop, h, List.append_eq, ih]
    · exact if_congr mem_or_mem_cons_comm rfl rfl
    · have ha : a ∈ bs := List.elem_iff.1 h
      rcases eq_or_ne x a with rfl | hx <;> simp [*]

@[simp] theorem mem_eraseDups {x : α} {l : List α} : x ∈ l.eraseDups ↔ x ∈ l := by
  simp [List.eraseDups, mem_eraseDups_loop]

theorem eraseDups_append_singleton (l : List α) (x : α) :
    (l ++ [x]).eraseDups = if x ∈ l then l.eraseDups else l.eraseDups ++ [x] := by
  simp [List.eraseDups, eraseDups_loop_append]

theorem nodup_eraseDups (l : List α) : l.eraseDups.Nodup := by
  induction l using List.reverseRecOn with
  | nil => simp [List.eraseDups, List.eraseDups.loop]
  | append_singleton l x ih =>
    rw [eraseDups_append_singleton]
    split_ifs with hx
    · exact ih
    · exact ih.append (List.nodup_singleton x) (by simpa using hx)

end EraseDups

def ChangedCtx.edge (c : ChangedCtx) : String × String := (c.from, c.«to»)

@[simp] theorem ChangedCtx.edge_fst (c : ChangedCtx) : c.edge.1 = c.from := rfl
@[simp] theorem ChangedCtx.edge_snd (c : ChangedCtx) : c.edge.2 = c.«to» := rfl

/-- The record of edge `e` after the changes `cs`: every user moved along `e`,
with the `ttl` of the first such change. -/
def edgeRecord (cs : List ChangedCtx) (e : String × String) : ChangedCtx :=
  ⟨e.1, e.2, ⟨0, some ((cs.filter (·.edge = e)).foldl (fun S c => S ∪ c.who.members) ∅)⟩,
    ((cs.find? (·.edge = e)).map (·.ttl)).getD 0⟩

variable {cs : List ChangedCtx} {c : ChangedCtx} {e : String × String}

theorem edgeRecord_append_of_ne (h : c.edge ≠ e) : edgeRecord (cs ++ [c]) e = edgeRecord cs e := by
  rcases hf : cs.find? (·.edge = e) with _ | c' <;>
    simp [edgeRecord, List.filter_append, List.find?_append, hf, h]

theorem edgeRecord_append_of_mem (h : c.edge ∈ cs.map ChangedCtx.edge) :
    edgeRecord (cs ++ [c]) c.edge = (edgeRecord cs c.edge).add c := by
  obtain ⟨c', hc', he⟩ := List.mem_map.1 h
  have hf : (cs.find? (·.edge = c.edge)).isSome := List.find?_isSome.2 ⟨c', hc', by simpa using he⟩
  obtain ⟨d, hd⟩ := Option.isSome_iff_exists.1 hf
  simp [edgeRecord, ChangedCtx.add, Who.members, List.filter_append, List.find?_append, hd]

theorem edgeRecord_append_of_not_mem (h : c.edge ∉ cs.map ChangedCtx.edge) :
    edgeRecord (cs ++ [c]) c.edge = (⟨c.from, c.«to», ⟨0, some ∅⟩, c.ttl⟩ : ChangedCtx).add c := by
  have hf : cs.filter (·.edge = c.edge) = [] := List.filter_eq_nil_iff.2 fun d hd hde =>
    h (List.mem_map.2 ⟨d, hd, by simpa using hde⟩)
  have hn : cs.find? (·.edge = c.edge) = none := List.find?_eq_none.2 fun d hd hde =>
    h (List.mem_map.2 ⟨d, hd, by simpa using hde⟩)
  simp [edgeRecord, ChangedCtx.add, Who.members, List.filter_append, List.find?_append, hf, hn]

theorem Transaction.changes_addChanged (t : Transaction) :
    (t.addChanged c).changes =
      match t.changes.findIdx? (fun r => r.from = c.from && r.«to» = c.«to») with
      | some idx => t.changes.modify (·.add c) idx
      | none => t.changes ++ [(⟨c.from, c.«to», ⟨0, some ∅⟩, c.ttl⟩ : ChangedCtx).add c] := by
  unfold Transaction.addChanged
  split <;> simp [*]

theorem findIdx?_edgeRecord (E : List (String × String)) (i : Nat) :
    (E.map (edgeRecord cs)).findIdx? (fun r => r.from = c.from && r.«to» = c.«to») i =
      E.findIdx? (· = c.edge) i := by
  induction E generalizing i with
  | nil => rfl
  | cons e E ih =>
    simp only [List.map_cons, List.findIdx?_cons, ih]
    simp [edgeRecord, Prod.ext_iff, ChangedCtx.edge]

theorem modify_findIdx? {β : Type} (g : String × String → β) (f : β → β) {E : List (String × String)}
    (hE : E.Nodup) (hc : e ∈ E) (i : Nat) :
    ∃ k, E.findIdx? (· = e) i = some (i + k) ∧
      (E.map g).modify f k = E.map fun e' => if e' = e then f (g e') else g e' := by
  induction E generalizing i with
  | nil => cases hc
  | cons e₀ E ih =>
    obtain ⟨he₀, hE⟩ := List.nodup_cons.1 hE
    by_cases h : e₀ = e
    · subst h
      refine ⟨0, by simp [List.findIdx?_cons], ?_⟩
      simp only [List.map_cons, List.modify_zero_cons, if_true, List.cons.injEq, true_and]
      exact List.map_congr_left fun e' he' => by rw [if_neg (by rintro rfl; exact he₀ he')]
    · obtain ⟨k, hk, hmod⟩ := ih hE ((List.mem_cons.1 hc).resolve_left (Ne.symm h)) (i + 1)
      refine ⟨k + 1, ?_, ?_⟩
      · rw [List.findIdx?_cons, if_neg (by simpa using h), hk]
        congr 1
        omega
      simp [List.modify_succ_cons, hmod, h]

/-- For any calls of `addChanged` on a transaction with no change yet, the log
holds one record per distinct edge `(from, to)` among the calls, in the order of
their first occurrence; each record holds the users of every call on its edge,
with the `ttl` of the first. -/
theorem changes_foldl_addChanged (cs : List ChangedCtx) (tran : Transaction) (h : tran.changes = []) :
    (cs.foldl (fun t c => t.addChanged c) tran).changes =
      (cs.map ChangedCtx.edge).eraseDups.map (edgeRecord cs) := by
  induction cs using List.reverseRecOn with
  | nil => simp [h, List.eraseDups, List.eraseDups.loop]
  | append_singleton cs c ih =>
    rw [List.foldl_append, List.foldl_cons, List.foldl_nil, List.map_append, List.map_singleton,
      eraseDups_append_singleton]
    have hne : ∀ e ∈ (cs.map ChangedCtx.edge).eraseDups, e ≠ c.edge → edgeRecord (cs ++ [c]) e = edgeRecord cs e :=
      fun e _ he => edgeRecord_append_of_ne (Ne.symm he)
    rw [Transaction.changes_addChanged, ih, findIdx?_edgeRecord]
    split_ifs with hc
    · obtain ⟨k, hk, hmod⟩ := modify_findIdx? (edgeRecord cs) (·.add c) (nodup_eraseDups _)
        (mem_eraseDups.2 hc) 0
      rw [Nat.zero_add] at hk
      rw [hk]
      dsimp only
      rw [hmod]
      refine List.map_congr_left fun e he => ?_
      split_ifs with hec
      · rw [hec, edgeRecord_append_of_mem hc]
      · exact (hne e he hec).symm
    · have hnew : ∀ e ∈ (cs.map ChangedCtx.edge).eraseDups, e ≠ c.edge := fun e he hec =>
        hc (mem_eraseDups.1 (hec ▸ he))
      rw [List.findIdx?_eq_none_iff.2 fun e he => decide_eq_false (hnew e he)]
      dsimp only
      rw [List.map_append, List.map_singleton, edgeRecord_append_of_not_mem hc]
      exact congrArg (· ++ _) (List.map_congr_left fun e he => (hne e he (hnew e he)).symm)

theorem changes_three_moves :
    let cs : List ChangedCtx := [⟨"A", "B", ⟨1, none⟩, 5⟩, ⟨"B", "C", ⟨2, none⟩, 0⟩, ⟨"A", "B", ⟨3, none⟩, 7⟩]
    newTransaction.changes = [] ∧
      (cs.foldl (fun t c => t.addChanged c) newTransaction).changes =
        (cs.map ChangedCtx.edge).eraseDups.map (edgeRecord cs) :=
  ⟨rfl, changes_foldl_addChanged _ newTransaction rfl⟩

example : (([⟨"A", "B", ⟨1, none⟩, 5⟩, ⟨"B", "C", ⟨2, none⟩, 0⟩, ⟨"A", "B", ⟨3, none⟩, 7⟩] :
    List ChangedCtx).foldl (fun t c => t.addChanged c) newTransaction).changes =
      [⟨"A", "B", ⟨0, some {1, 3}⟩, 5⟩, ⟨"B", "C", ⟨0, some {2}⟩, 0⟩] := by decide

end Busybee.Core
