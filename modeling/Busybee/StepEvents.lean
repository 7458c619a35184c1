import Busybee.StepChanged
set_option autoImplicit false

/-!
# The user events of a tick

`doStepUserEvents` hands each user event to the step whose crowd holds the
user, whose `Execute` reports a transition to `stepChanged`. The evaluators are
a parameter (`Sound`). Over the transaction sits the spec's reading of a tick,
`placeEvents`, which the loop refines.
-/

namespace Busybee.Core

structure UserEvent where
  tenantID : UInt64
  workflowID : UInt64
  instanceID : UInt64
  userID : UInt32
  deriving DecidableEq, Repr

/-- The step that holds user `u`: the first step crowd that contains it. -/
def stepOf (crowds : List Bitmap) (u : UInt32) : Option Nat :=
  crowds.findIdx? fun crowd => decide (u ∈ crowd)

/-- A step's evaluator, on the event at the step of index `idx`: an error, no
transition, or a transition to the step of the name it answers. -/
abbrev Evaluator := Nat → UserEvent → Except String (Option String)

/-- Modelled from the spec: a step's `Execute` is not in the sources. It runs
the step's evaluator on the event and reports a transition of `who` from the
step to `stepChanged`; `none` when that call does not return. -/
def execute (w : Worker) (fuel : Nat) (eval : Evaluator) (idx : Nat) (step : Step)
    (event : UserEvent) (who : Who) (tran : Transaction) : Option (Except String Transaction) :=
  match eval idx event with
  | .error err => some (.error err)
  | .ok none => some (.ok tran)
  | .ok (some «to») => (tran.stepChanged w fuel ⟨step.name, «to», who, 0⟩).map .ok

namespace Transaction

/-- The loop of `doStepUserEvents` over the events of an item: an event goes to
the step that holds its user, or is passed over; an error is kept in `err` and
ends the loop. `none` when a call does not return, or when that step is past
the worker's steps, where `States[idx]` panics. -/
def userEvents (w : Worker) (fuel : Nat) (eval : Evaluator) :
    List UserEvent → Transaction → Option Transaction
  | [], tran => some tran
  | event :: events, tran =>
    match stepOf tran.stepCrowds event.userID with
    | none => userEvents w fuel eval events tran
    | some idx =>
      match w.states[idx]? with
      | none => none
      | some step =>
        match execute w fuel eval idx step event ⟨event.userID, none⟩ tran with
        | none => none
        | some (.error err) => some { tran with err := some err }
        | some (.ok tran) => userEvents w fuel eval events tran

def doStepUserEvents (w : Worker) (fuel : Nat) (eval : Evaluator) (events : List UserEvent)
    (cb : Option Nat) (tran : Transaction) : Option Transaction :=
  let tran := match cb with
    | some cb => { tran with cbs := tran.cbs ++ [cb] }
    | none => tran
  if tran.err.isSome then some tran else userEvents w fuel eval events tran

end Transaction

/-- Modelled from the spec: a timer step's `Execute` is not in the sources. Its
evaluator, fired for the step of index `idx` with no user, answers an error,
nothing, or a transition of a crowd selected over the whole workflow to the
step of the name it answers, which `Execute` reports to `stepChanged` as a bulk
move from the timer step. -/
abbrev TimerEvaluator := Nat → Except String (Option (String × Bitmap))

namespace Transaction

/-- `doStepTimerEvent`: the transaction, and the step whose last trigger time
`retryDo("store last trigger", ...)` writes to the store once `Execute`
returns without error. `none` when `stepChanged` does not return, or when `idx`
is past the worker's steps, where `States[idx]` panics. -/
def doStepTimerEvent (w : Worker) (fuel : Nat) (eval : TimerEvaluator) (idx : Nat)
    (tran : Transaction) : Option (Transaction × Option String) :=
  if tran.err.isSome then some (tran, none)
  else
    match w.states[idx]? with
    | none => none
    | some step =>
      if step.execution ≠ .timer then some (tran, none)
      else
        match eval idx with
        | .error err => some ({ tran with err := some err }, none)
        | .ok none => some (tran, some step.name)
        | .ok (some («to», users)) =>
          (tran.stepChanged w fuel ⟨step.name, «to», ⟨0, some users⟩, 0⟩).map (·, some step.name)

end Transaction

abbrev Placement := UInt32 → Option Nat

/-- The step a transition to `to` leaves its users in: where the direct chain
from `to` stops. -/
def Worker.landing (w : Worker) (fuel : Nat) («to» : String) : Option Nat :=
  (w.chainEnd fuel «to»).bind fun r => w.states.findIdx? (·.name = r.2)

/-- One user event as the spec reads it: the step of the user evaluates it, and
a transition moves that user alone to where it lands. A user outside the shard
is passed over. -/
def placeEvent (w : Worker) (fuel : Nat) (eval : Evaluator) (p : Placement) (event : UserEvent) :
    Except String Placement :=
  match p event.userID with
  | none => .ok p
  | some a =>
    match eval a event with
    | .error err => .error err
    | .ok none => .ok p
    | .ok (some «to») => .ok (Function.update p event.userID (w.landing fuel «to»))

/-- The events of an item in order, up to the first error. -/
def placeEvents (w : Worker) (fuel : Nat) (eval : Evaluator) :
    List UserEvent → Placement → Placement × Option String
  | [], p => (p, none)
  | event :: events, p =>
    match placeEvent w fuel eval p event with
    | .error err => (p, some err)
    | .ok p => placeEvents w fuel eval events p

/-- The transitions an evaluator reports are ones `stepChanged` carries out:
the steps have distinct names, and a transition from the step `a` goes to a
step `b` of another name whose direct chain stops, within `fuel` hops, at a
step `f`; when `f` is `a` itself, `a` is listed before `b`. -/
structure Sound (w : Worker) (fuel : Nat) (eval : Evaluator) : Prop where
  names : (w.states.map (·.name)).Nodup
  moves : ∀ a sa event «to», w.states[a]? = some sa → eval a event = .ok (some «to») →
    ∃ b sb hops F f, w.states[b]? = some sb ∧ sb.name = «to» ∧ sa.name ≠ «to» ∧
      w.chainEnd fuel «to» = some (hops, F) ∧ (w.states[f]?).map (·.name) = some F ∧
      (f = a → a < b)

/-- A transaction of the worker `w` in shape: one crowd a step, and the step
crowds split the total crowd. -/
structure Shaped (w : Worker) (t : Transaction) : Prop where
  length : t.stepCrowds.length = w.states.length
  partition : Partition t.stepCrowds t.totalCrowds

section StepOf

variable {crowds : List Bitmap} {total : Bitmap} {u : UInt32} {i : Nat}

theorem stepOf_eq_none : stepOf crowds u = none ↔ ∀ i, ¬Holds crowds i u := by
  simp only [stepOf, List.findIdx?_eq_none_iff, decide_eq_false_iff_not, Holds, not_exists, not_and]
  exact ⟨fun h i S hS => h S (List.mem_iff_getElem?.2 ⟨i, hS⟩),
    fun h S hS => let ⟨i, hi⟩ := List.mem_iff_getElem?.1 hS; h i S hi⟩

theorem holds_of_stepOf (h : stepOf crowds u = some i) : Holds crowds i u := by
  obtain ⟨hi, hu, -⟩ := List.findIdx?_eq_some_iff_getElem.1 h
  exact ⟨_, List.getElem?_eq_getElem hi, by simpa using hu⟩

theorem stepOf_eq_some (h : Partition crowds total) : stepOf crowds u = some i ↔ Holds crowds i u := by
  refine ⟨holds_of_stepOf, fun hi => ?_⟩
  cases hj : stepOf crowds u with
  | none => exact absurd hi (stepOf_eq_none.1 hj i)
  | some j => rw [(partition_iff.1 h u).1 j i (holds_of_stepOf hj) hi]

theorem stepOf_moveUsers (h : Partition crowds total) (hu : u ∈ total) {f : Nat}
    (hf : f < crowds.length) :
    stepOf (moveUsers crowds {u} f) = Function.update (stepOf crowds) u (some f) := by
  have h' := partition_moveUsers h (Finset.singleton_subset_iff.2 hu) hf
  funext v
  refine Option.ext fun j => ?_
  simp only [Option.mem_def, stepOf_eq_some h', holds_moveUsers, Finset.mem_singleton]
  by_cases hv : v = u
  · subst hv
    simp [hf, eq_comm]
  · simp [hv, stepOf_eq_some h]

theorem Shaped.exists_step {w : Worker} {t : Transaction} (ht : Shaped w t) {a : Nat}
    (ha : stepOf t.stepCrowds u = some a) : ∃ sa, w.states[a]? = some sa := by
  obtain ⟨S, hS, -⟩ := holds_of_stepOf ha
  exact ⟨_, List.getElem?_eq_getElem (ht.length ▸ (List.getElem?_eq_some_iff.1 hS).1)⟩

end StepOf

namespace Transaction

variable {w : Worker} {fuel : Nat} {eval : Evaluator} {t : Transaction}

@[simp] theorem addChanged_err (c : ChangedCtx) : (t.addChanged c).err = t.err := by
  unfold addChanged; split <;> rfl

@[simp] theorem addChanged_cbs (c : ChangedCtx) : (t.addChanged c).cbs = t.cbs := by
  unfold addChanged; split <;> rfl

@[simp] theorem crowd_addChanged (c : ChangedCtx) (i : Nat) : (t.addChanged c).crowd i = t.crowd i := by
  simp [crowd]

@[simp] theorem foldl_addChanged_err (cs : List ChangedCtx) :
    (cs.foldl (fun t c => t.addChanged c) t).err = t.err := by
  induction cs generalizing t with
  | nil => rfl
  | cons c cs ih => simp [ih]

@[simp] theorem foldl_addChanged_cbs (cs : List ChangedCtx) :
    (cs.foldl (fun t c => t.addChanged c) t).cbs = t.cbs := by
  induction cs generalizing t with
  | nil => rfl
  | cons c cs ih => simp [ih]

theorem landing_eq {«to» F : String} {hops : List (String × String)} {f : Nat}
    (hnames : (w.states.map (·.name)).Nodup) (hchain : w.chainEnd fuel «to» = some (hops, F))
    (hf : (w.states[f]?).map (·.name) = some F) : w.landing fuel «to» = some f := by
  simp [Worker.landing, hchain, findIdx?_name hnames hf]

theorem stepChanged_user (hs : Sound w fuel eval) (ht : Shaped w t) {u : UInt32} {a : Nat}
    {sa : Step} {event : UserEvent} {«to» : String} (ha : stepOf t.stepCrowds u = some a)
    (hsa : w.states[a]? = some sa) (he : eval a event = .ok (some «to»)) :
    ∃ f t', w.landing fuel «to» = some f ∧ f < t.stepCrowds.length ∧
      t.stepChanged w fuel ⟨sa.name, «to», ⟨u, none⟩, 0⟩ = some t' ∧
      t'.stepCrowds = moveUsers t.stepCrowds {u} f ∧ t'.totalCrowds = t.totalCrowds ∧
      t'.err = t.err ∧ t'.cbs = t.cbs := by
  obtain ⟨b, sb, hops, F, f, hb, hsb, hft, hchain, hf, horder⟩ := hs.moves a sa event «to» hsa he
  obtain ⟨S, hS, hu⟩ := holds_of_stepOf ha
  have hW : ({u} : Bitmap) ⊆ t.crowd a := by
    rw [crowd_eq_getElem?, hS]; exact Finset.singleton_subset_iff.2 hu
  obtain ⟨s, hs', -⟩ := Option.map_eq_some'.1 hf
  refine ⟨f, _, landing_eq hs.names hchain hf,
    ht.length ▸ (List.getElem?_eq_some_iff.1 hs').1,
    stepChanged_eq hs.names ht.length.ge ht.partition hsa rfl hb hsb hft hW hchain hf horder, ?_⟩
  simp [ChangedCtx.scoped, Who.members]

theorem userEvents_cons (hs : Sound w fuel eval) (ht : Shaped w t) (event : UserEvent) :
    (∃ err, placeEvent w fuel eval (stepOf t.stepCrowds) event = .error err ∧
        ∀ events, userEvents w fuel eval (event :: events) t = some { t with err := some err }) ∨
      ∃ t', Shaped w t' ∧ t'.totalCrowds = t.totalCrowds ∧ t'.err = t.err ∧ t'.cbs = t.cbs ∧
        placeEvent w fuel eval (stepOf t.stepCrowds) event = .ok (stepOf t'.stepCrowds) ∧
        ∀ events, userEvents w fuel eval (event :: events) t = userEvents w fuel eval events t' := by
  cases ha : stepOf t.stepCrowds event.userID with
  | none => exact .inr ⟨t, ht, rfl, rfl, rfl, by simp [placeEvent, ha], fun _ => by simp [userEvents, ha]⟩
  | some a =>
    obtain ⟨sa, hsa⟩ := ht.exists_step ha
    cases he : eval a event with
    | error err => exact .inl ⟨err, by simp [placeEvent, ha, he], fun _ => by
        simp [userEvents, ha, hsa, execute, he]⟩
    | ok r =>
      cases r with
      | none => exact .inr ⟨t, ht, rfl, rfl, rfl, by simp [placeEvent, ha, he], fun _ => by
          simp [userEvents, ha, hsa, execute, he]⟩
      | some «to» =>
        obtain ⟨f, t', hland, hfl, hstep, hcrowds, htotal, herr, hcbs⟩ := stepChanged_user hs ht ha hsa he
        have hu : event.userID ∈ t.totalCrowds := ht.partition.subset
          (holds_of_stepOf ha).choose_spec.1 (holds_of_stepOf ha).choose_spec.2
        refine .inr ⟨t', ⟨by simp [hcrowds, ht.length], hcrowds ▸ htotal ▸
          partition_moveUsers ht.partition (Finset.singleton_subset_iff.2 hu) hfl⟩,
          htotal, herr, hcbs, ?_, fun _ => by simp [userEvents, ha, hsa, execute, he, hstep]⟩
        simp [placeEvent, ha, he, hland, hcrowds, stepOf_moveUsers ht.partition hu hfl]

/-- The run of the loop over every list of events, from a transaction in shape:
it returns, in shape, with the same total crowd and callbacks; every user is
where the spec's reading of the events puts it, and the error is the first
evaluator error, if any. -/
theorem userEvents_run (hs : Sound w fuel eval) :
    ∀ (events : List UserEvent) (t : Transaction), Shaped w t →
      ∃ t', userEvents w fuel eval events t = some t' ∧ Shaped w t' ∧
        t'.totalCrowds = t.totalCrowds ∧ t'.cbs = t.cbs ∧
        stepOf t'.stepCrowds = (placeEvents w fuel eval events (stepOf t.stepCrowds)).1 ∧
        t'.err = (placeEvents w fuel eval events (stepOf t.stepCrowds)).2.or t.err
  | [], t, ht => ⟨t, rfl, ht, rfl, rfl, rfl, rfl⟩
  | event :: events, t, ht => by
    rcases userEvents_cons hs ht event with ⟨err, hp, hrun⟩ | ⟨t₁, ht₁, htotal, herr, hcbs, hp, hrun⟩
    · exact ⟨_, hrun events, ⟨ht.length, ht.partition⟩, rfl, rfl,
        by simp [placeEvents, hp], by simp [placeEvents, hp]⟩
    · obtain ⟨t', hrun', ht', htotal', hcbs', hstep', herr'⟩ := userEvents_run hs events t₁ ht₁
      refine ⟨t', (hrun events).trans hrun', ht', htotal'.trans htotal, hcbs'.trans hcbs, ?_, ?_⟩
      · simp [placeEvents, hp, hstep']
      · simp [placeEvents, hp, herr', herr]

section Bulk

variable {ctx : ChangedCtx} {b f : Nat} {sb : Step} {hops : List (String × String)} {F : String}
  {u : UInt32}

theorem stepChangedAt_to_user (hnames : (w.states.map (·.name)).Nodup)
    (hlen : w.states.length ≤ t.stepCrowds.length) (hb : w.states[b]? = some sb)
    (hsb : sb.name = ctx.«to») (hft : ctx.from ≠ ctx.«to») (hchain : w.chainEnd fuel ctx.«to» = some (hops, F))
    (hf : (w.states[f]?).map (·.name) = some F) (hu : u ∈ ctx.who.members) (hub : u ∉ t.crowd b) :
    ∃ t', t.stepChangedAt w fuel ctx b sb = some t' ∧ u ∈ t'.crowd f ∧
      ∀ c, c ≠ b → c ≠ f → t'.crowd c = t.crowd c := by
  have hmove : (t.moveToStep b ctx.who).1 = true :=
    (moveToStep_fst t b ctx.who).2 (.inr fun h => hub (h hu))
  obtain ⟨s, hs, hsn⟩ := Option.map_eq_some'.1 hf
  have hfl : f < t.stepCrowds.length := (List.getElem?_eq_some_iff.1 hs).1.trans_le hlen
  have hbl : b < t.stepCrowds.length := (List.getElem?_eq_some_iff.1 hb).1.trans_le hlen
  rw [stepChangedAt_to _ _ _ _ _ _ (hsb ▸ hft.symm) hsb, if_pos hmove]
  by_cases hd : w.isDirectStep ctx.«to»
  · simp only [Worker.chainEnd, hd, if_true] at hchain
    rw [maybeTriggerDirectSteps_of_direct _ _ _ _ { ctx with ttl := sb.ttl } hd hchain
      (findIdx?_name hnames hf)]
    refine ⟨_, rfl, by simp [crowd_setCrowd, hfl, hu], fun c hcb hcf => ?_⟩
    simp [crowd_setCrowd, Ne.symm hcb, Ne.symm hcf]
  · simp only [Worker.chainEnd, hd, if_false, Option.some.injEq, Prod.mk.injEq] at hchain
    obtain ⟨rfl, rfl⟩ := hchain
    obtain rfl := index_eq_of_name_eq hnames hs hb (hsn.trans hsb.symm)
    rw [maybeTriggerDirectSteps_of_not_direct _ _ _ _ { ctx with ttl := sb.ttl } (by simpa using hd)]
    refine ⟨_, rfl, ?_, fun c hcb _ => ?_⟩
    · simp [crowd_setCrowd, hbl, hu]
    · simp [crowd_setCrowd, Ne.symm hcb]

/-- A move from `from` (index `a`) to `to` (index `b`) whose users hold a user
`u` that the crowd of `to` does not hold: `u` ends in the crowd of the step `F`
(index `f`, not `a`) where the direct chain stops, and the crowd of every step
but `from`, `to` and `F` is left as it was, whether or not it held users of the
move. -/
theorem stepChanged_user_lands {a : Nat} {sa : Step} (hnames : (w.states.map (·.name)).Nodup)
    (hlen : w.states.length ≤ t.stepCrowds.length)
    (ha : w.states[a]? = some sa) (hsa : sa.name = ctx.from)
    (hb : w.states[b]? = some sb) (hsb : sb.name = ctx.«to») (hft : ctx.from ≠ ctx.«to»)
    (hchain : w.chainEnd fuel ctx.«to» = some (hops, F)) (hf : (w.states[f]?).map (·.name) = some F)
    (hfa : f ≠ a) (hu : u ∈ (ctx.scoped t.totalCrowds).who.members) (hub : u ∉ t.crowd b) :
    ∃ t', t.stepChanged w fuel ctx = some t' ∧ u ∈ t'.crowd f ∧
      ∀ c, c ≠ a → c ≠ b → c ≠ f → t'.crowd c = t.crowd c := by
  set ctx' := ctx.scoped t.totalCrowds
  have hab : a ≠ b := fun h => hft (by
    subst h; rw [ha, Option.some.injEq] at hb; rw [← hsa, ← hsb, hb])
  have hid : ∀ e ∈ w.states.enumFrom 0, e.1 ≠ a → e.1 ≠ b → ∀ t : Transaction,
      t.stepChangedAt w fuel ctx' e.1 e.2 = some t := by
    intro e he hea heb t
    rw [← List.enum_eq_enumFrom, List.mem_enum_iff_getElem?] at he
    exact stepChangedAt_of_ne _ _ _ _ _ _
      (fun h => hea (index_eq_of_name_eq hnames he ha (by simp [ctx', h, hsa])))
      (fun h => heb (index_eq_of_name_eq hnames he hb (by simp [ctx', h, hsb])))
  have hA : ∀ t : Transaction, t.stepChangedAt w fuel ctx' a sa =
      some (t.setCrowd a (t.crowd a \ ctx'.who.members)) :=
    fun t => stepChangedAt_from _ _ _ _ _ _ (by simp [ctx', hsa])
  have hB := fun (t : Transaction) (hl : w.states.length ≤ t.stepCrowds.length) (hub : u ∉ t.crowd b) =>
    @stepChangedAt_to_user w fuel t ctx' b f sb hops F u hnames hl hb (by simpa [ctx'] using hsb)
      (by simpa [ctx'] using hft) (by simpa [ctx'] using hchain) hf hu hub
  rw [stepChanged, List.enum_eq_enumFrom]
  rcases Nat.lt_or_gt_of_ne hab with hlt | hlt
  · rw [foldlM_enumFrom_two _ (by simpa using ha) (by simpa using hb) (Nat.zero_le _) hlt _ hid,
      hA, Option.some_bind]
    obtain ⟨t', h', huf, hframe⟩ := hB (t.setCrowd a (t.crowd a \ ctx'.who.members))
      (by simpa using hlen) (by rwa [crowd_setCrowd_ne _ hab])
    exact ⟨t', h', huf, fun c hca hcb hcf => by rw [hframe c hcb hcf, crowd_setCrowd_ne _ (Ne.symm hca)]⟩
  · rw [foldlM_enumFrom_two _ (by simpa using hb) (by simpa using ha) (Nat.zero_le _) hlt _
      fun e he h1 h2 => hid e he h2 h1]
    obtain ⟨t', h', huf, hframe⟩ := hB t hlen hub
    rw [h', Option.some_bind, hA]
    exact ⟨_, rfl, by rwa [crowd_setCrowd_ne _ (Ne.symm hfa)],
      fun c hca hcb hcf => by rw [crowd_setCrowd_ne _ (Ne.symm hca), hframe c hcb hcf]⟩

theorem holds_of_mem_crowd {t : Transaction} {i : Nat} (h : u ∈ t.crowd i) : Holds t.stepCrowds i u := by
  rw [crowd_eq_getElem?] at h
  cases hi : t.stepCrowds[i]? with
  | none => simp [hi] at h
  | some S => exact ⟨S, hi, by simpa [hi] using h⟩

end Bulk

section Timer

variable {eval : TimerEvaluator} {a : Nat} {sa : Step}

theorem doStepTimerEvent_timer (herr : t.err = none) (ha : w.states[a]? = some sa)
    (htimer : sa.execution = .timer) :
    t.doStepTimerEvent w fuel eval a =
      match eval a with
      | .error err => some ({ t with err := some err }, none)
      | .ok none => some (t, some sa.name)
      | .ok (some («to», users)) =>
        (t.stepChanged w fuel ⟨sa.name, «to», ⟨0, some users⟩, 0⟩).map (·, some sa.name) := by
  simp [doStepTimerEvent, herr, ha, htimer]

/-- `retryDo` stores the last trigger time of the timer step exactly when the
transaction had no error and the step's `Execute` returned without one. -/
theorem doStepTimerEvent_stored (ha : w.states[a]? = some sa) {t' : Transaction} {stored : Option String}
    (h : t.doStepTimerEvent w fuel eval a = some (t', stored)) :
    stored = if t.err = none ∧ sa.execution = .timer ∧ (eval a).toBool then some sa.name else none := by
  cases herr : t.err with
  | some err =>
    simp only [doStepTimerEvent, herr, Option.isSome_some, if_true, Option.some.injEq, Prod.mk.injEq] at h
    simp [← h.2]
  | none =>
    by_cases htimer : sa.execution = .timer
    · rw [doStepTimerEvent_timer herr ha htimer] at h
      rcases he : eval a with err | _ | ⟨«to», users⟩ <;> simp only [he] at h
      · simp [← (Prod.mk.inj (Option.some.inj h)).2, he, Except.toBool]
      · simp [← (Prod.mk.inj (Option.some.inj h)).2, htimer, he, Except.toBool]
      · obtain ⟨_, -, hp⟩ := Option.map_eq_some'.1 h
        simp [← (Prod.mk.inj hp).2, htimer, he, Except.toBool]
    · simp only [doStepTimerEvent, herr, ha, htimer, Option.isSome_none, ne_eq, not_false_eq_true,
        if_true, Bool.false_eq_true, if_false, Option.some.injEq, Prod.mk.injEq] at h
      simp [← h.2, htimer]

theorem shaped_doStepTimerEvent (hnames : (w.states.map (·.name)).Nodup) (ht : Shaped w t)
    (ha : w.states[a]? = some sa)
    (hmoves : ∀ «to» users, eval a = .ok (some («to», users)) → users ∩ t.totalCrowds ⊆ t.crowd a ∧
      ∃ b sb hops F f, w.states[b]? = some sb ∧ sb.name = «to» ∧ sa.name ≠ «to» ∧
        w.chainEnd fuel «to» = some (hops, F) ∧ (w.states[f]?).map (·.name) = some F ∧ (f = a → a < b)) :
    ∃ t' stored, t.doStepTimerEvent w fuel eval a = some (t', stored) ∧ Shaped w t' ∧
      t'.totalCrowds = t.totalCrowds := by
  cases herr : t.err with
  | some err => exact ⟨t, none, by simp [doStepTimerEvent, herr], ht, rfl⟩
  | none =>
    by_cases htimer : sa.execution = .timer
    · rw [doStepTimerEvent_timer herr ha htimer]
      rcases he : eval a with err | _ | ⟨«to», users⟩
      · exact ⟨_, _, rfl, ⟨ht.length, ht.partition⟩, rfl⟩
      · exact ⟨t, _, rfl, ht, rfl⟩
      · obtain ⟨hW, b, sb, hops, F, f, hb, hsb, hft, hchain, hf, horder⟩ := hmoves «to» users he
        have heq := @stepChanged_eq w fuel ⟨sa.name, «to», ⟨0, some users⟩, 0⟩ t _ _ _ _ _ _ _ hnames
          ht.length.ge ht.partition ha rfl hb hsb hft hW hchain hf horder
        obtain ⟨s, hs, -⟩ := Option.map_eq_some'.1 hf
        have hfl : f < t.stepCrowds.length := ht.length ▸ (List.getElem?_eq_some_iff.1 hs).1
        refine ⟨_, _, congrArg (Option.map (·, some sa.name)) heq, ⟨by simp [ht.length], ?_⟩,
          by dsimp only; split_ifs <;> simp⟩
        dsimp only
        split_ifs <;> simpa using partition_moveUsers ht.partition
          (hW.trans (ht.partition.subset (getElem?_stepCrowds (ht.length ▸ (List.getElem?_eq_some_iff.1 ha).1))))
          hfl
    · exact ⟨t, none, by simp [doStepTimerEvent, herr, ha, htimer], ht, rfl⟩

/-- A timer event keeps a transaction in shape when every transition its
evaluator may report moves a crowd that, cut to the shard, lies in the timer
step's crowd, to another step whose direct chain stops at a step, listed after
the timer step when it is the timer step itself. -/
theorem doStepTimerEvent_shaped (hnames : (w.states.map (·.name)).Nodup) (ht : Shaped w t)
    (ha : w.states[a]? = some sa)
    (hmoves : ∀ «to» users, eval a = .ok (some («to», users)) → users ∩ t.totalCrowds ⊆ t.crowd a ∧
      ∃ b sb hops F f, w.states[b]? = some sb ∧ sb.name = «to» ∧ sa.name ≠ «to» ∧
        w.chainEnd fuel «to» = some (hops, F) ∧ (w.states[f]?).map (·.name) = some F ∧ (f = a → a < b)) :
    ∃ t' stored, t.doStepTimerEvent w fuel eval a = some (t', stored) ∧ Shaped w t' ∧
      t'.totalCrowds = t.totalCrowds ∧
      stored = if t.err = none ∧ sa.execution = .timer ∧ (eval a).toBool then some sa.name else none := by
  obtain ⟨t', stored, h, hs, htot⟩ := shaped_doStepTimerEvent hnames ht ha hmoves
  exact ⟨t', stored, h, hs, htot, doStepTimerEvent_stored ha h⟩

/-- A timer transition whose crowd holds a user of the shard that sits in a
third step: `stepChanged` cuts the crowd to the shard's total crowd only and
takes its users out of the timer step only, so that user joins the step where
the transition lands and stays where it was, in two steps at once. -/
theorem doStepTimerEvent_duplicates (hnames : (w.states.map (·.name)).Nodup) (ht : Shaped w t)
    (herr : t.err = none) {b f c : Nat} {sb : Step} {«to» F : String} {users : Bitmap}
    {hops : List (String × String)} {u : UInt32} (ha : w.states[a]? = some sa)
    (htimer : sa.execution = .timer) (heval : eval a = .ok (some («to», users)))
    (hb : w.states[b]? = some sb) (hsb : sb.name = «to») (hft : sa.name ≠ «to»)
    (hchain : w.chainEnd fuel «to» = some (hops, F)) (hf : (w.states[f]?).map (·.name) = some F)
    (hfa : f ≠ a) (hu : u ∈ users) (huc : u ∈ t.crowd c) (hca : c ≠ a) (hcb : c ≠ b) (hcf : c ≠ f) :
    ∃ t' stored, t.doStepTimerEvent w fuel eval a = some (t', stored) ∧ u ∈ t'.crowd c ∧ u ∈ t'.crowd f := by
  have hc := holds_of_mem_crowd huc
  have hut : u ∈ t.totalCrowds := ((partition_iff.1 ht.partition u).2).2 ⟨c, hc⟩
  have hub : u ∉ t.crowd b := fun hub => hcb ((partition_iff.1 ht.partition u).1 c b hc (holds_of_mem_crowd hub))
  rw [doStepTimerEvent_timer herr ha htimer, heval]
  obtain ⟨t', h', huf, hframe⟩ := @stepChanged_user_lands w fuel t ⟨sa.name, «to», ⟨0, some users⟩, 0⟩
    _ _ _ _ _ _ _ _ hnames ht.length.ge ha rfl hb hsb hft hchain hf hfa
    (by simp [ChangedCtx.scoped, Who.members, hu, hut]) hub
  exact ⟨t', _, congrArg (Option.map (·, some sa.name)) h', (hframe c hca hcb hcf).symm ▸ huc, huf⟩

end Timer

theorem doStepUserEvents_eq (events : List UserEvent) (cb : Option Nat) (t : Transaction) :
    doStepUserEvents w fuel eval events cb t =
      if t.err.isSome then some { t with cbs := t.cbs ++ cb.toList }
      else userEvents w fuel eval events { t with cbs := t.cbs ++ cb.toList } := by
  cases cb <;> simp [doStepUserEvents]

theorem shaped_doStepUserEvents (hs : Sound w fuel eval) (ht : Shaped w t) (events : List UserEvent)
    (cb : Option Nat) :
    ∃ t', doStepUserEvents w fuel eval events cb t = some t' ∧ Shaped w t' ∧
      t'.totalCrowds = t.totalCrowds := by
  have hcb : Shaped w { t with cbs := t.cbs ++ cb.toList } := ⟨ht.length, ht.partition⟩
  rw [doStepUserEvents_eq]
  split_ifs
  · exact ⟨_, rfl, hcb, rfl⟩
  · obtain ⟨t', hrun, ht', htotal, -⟩ := userEvents_run hs events _ hcb
    exact ⟨t', hrun, ht', htotal⟩

/-- `doStepUserEvents` keeps a transaction in shape, over every list of events,
for every evaluator whose transitions `stepChanged` carries out: it returns,
with one crowd a step, and the step crowds still split the same total crowd. -/
theorem doStepUserEvents_shaped (hs : Sound w fuel eval) (ht : Shaped w t) (events : List UserEvent)
    (cb : Option Nat) :
    ∃ t', doStepUserEvents w fuel eval events cb t = some t' ∧ Shaped w t' ∧
      t'.totalCrowds = t.totalCrowds :=
  shaped_doStepUserEvents hs ht events cb

/-- `doStepUserEvents` refines the spec's reading of its events: from a
transaction in shape with no error, every user ends in the step that
`placeEvents` gives it, the error is the first evaluator error, and the item's
callback is queued. -/
theorem doStepUserEvents_refines (hs : Sound w fuel eval) (ht : Shaped w t) (herr : t.err = none)
    (events : List UserEvent) (cb : Option Nat) :
    ∃ t', doStepUserEvents w fuel eval events cb t = some t' ∧
      stepOf t'.stepCrowds = (placeEvents w fuel eval events (stepOf t.stepCrowds)).1 ∧
      t'.err = (placeEvents w fuel eval events (stepOf t.stepCrowds)).2 ∧
      t'.cbs = t.cbs ++ cb.toList := by
  obtain ⟨t', hrun, -, -, hcbs, hstep, herr'⟩ :=
    userEvents_run hs events { t with cbs := t.cbs ++ cb.toList } ⟨ht.length, ht.partition⟩
  rw [doStepUserEvents_eq, if_neg (by simp [herr])]
  exact ⟨t', hrun, hstep, by simpa [herr] using herr', hcbs⟩

section Frame

variable (t) (e : Option String) (c : List Nat)

theorem addChanged_frame (x : ChangedCtx) :
    ({ t with err := e, cbs := c } : Transaction).addChanged x = { t.addChanged x with err := e, cbs := c } := by
  simp only [addChanged]; split <;> rfl

theorem foldl_addChanged_frame {α : Type} (g : α → ChangedCtx) (xs : List α) :
    xs.foldl (fun t x => t.addChanged (g x)) ({ t with err := e, cbs := c } : Transaction) =
      { xs.foldl (fun t x => t.addChanged (g x)) t with err := e, cbs := c } :=
  List.foldl_hom (fun t : Transaction => { t with err := e, cbs := c }) _ _ xs t
    fun t x => addChanged_frame t e c (g x)

theorem moveToStep_frame (i : Nat) (who : Who) :
    ({ t with err := e, cbs := c } : Transaction).moveToStep i who =
      ((t.moveToStep i who).1, { (t.moveToStep i who).2 with err := e, cbs := c }) := by
  refine Prod.ext ?_ ?_
  · rw [Bool.eq_iff_iff, moveToStep_fst, moveToStep_fst]; rfl
  · rw [moveToStep_snd, moveToStep_snd]; rfl

theorem removeFromStep_frame (i : Nat) (who : Who) :
    (({ t with err := e, cbs := c } : Transaction).removeFromStep i who).2 =
      { (t.removeFromStep i who).2 with err := e, cbs := c } := by
  rw [removeFromStep_snd, removeFromStep_snd]; rfl

theorem maybeTriggerDirectSteps_frame (idx : Nat) (ctx : ChangedCtx) :
    ({ t with err := e, cbs := c } : Transaction).maybeTriggerDirectSteps w fuel idx ctx =
      (t.maybeTriggerDirectSteps w fuel idx ctx).map fun t => { t with err := e, cbs := c } := by
  unfold maybeTriggerDirectSteps
  split
  · rfl
  · cases w.directHops fuel ctx.«to» (w.directSteps ctx.«to») with
    | none => rfl
    | some r =>
      obtain ⟨hops, last⟩ := r
      simp only [Option.map_some', foldl_addChanged_frame, removeFromStep_frame]
      split <;> simp only [moveToStep_frame]

theorem stepChangedAt_frame (ctx : ChangedCtx) (idx : Nat) (step : Step) :
    ({ t with err := e, cbs := c } : Transaction).stepChangedAt w fuel ctx idx step =
      (t.stepChangedAt w fuel ctx idx step).map fun t => { t with err := e, cbs := c } := by
  unfold stepChangedAt
  split_ifs
  · simp [removeFromStep_frame]
  · dsimp only
    rw [moveToStep_frame]
    rcases t.moveToStep idx ctx.who with ⟨_ | _, t'⟩
    · rfl
    · simp only [addChanged_frame, maybeTriggerDirectSteps_frame]
  · rfl

/-- `stepChanged` neither reads nor writes the transaction's error and
callbacks. -/
theorem stepChanged_frame (ctx : ChangedCtx) :
    ({ t with err := e, cbs := c } : Transaction).stepChanged w fuel ctx =
      (t.stepChanged w fuel ctx).map fun t => { t with err := e, cbs := c } := by
  unfold stepChanged
  generalize ctx.scoped t.totalCrowds = ctx
  induction w.states.enum generalizing t with
  | nil => rfl
  | cons x xs ih =>
    simp only [List.foldlM_cons, stepChangedAt_frame]
    cases t.stepChangedAt w fuel ctx x.1 x.2 with
    | none => rfl
    | some t' => exact ih t'

theorem stepChanged_err_cbs {ctx : ChangedCtx} {t' : Transaction} (h : t.stepChanged w fuel ctx = some t') :
    t'.err = t.err ∧ t'.cbs = t.cbs := by
  have h' : t.stepChanged w fuel ctx = (t.stepChanged w fuel ctx).map fun r => { r with err := t.err, cbs := t.cbs } :=
    stepChanged_frame t t.err t.cbs ctx
  rw [h, Option.map_some', Option.some.injEq] at h'
  exact ⟨by rw [h'], by rw [h']⟩

theorem stepChanged_withCbs (ctx : ChangedCtx) :
    ({ t with cbs := c } : Transaction).stepChanged w fuel ctx =
      (t.stepChanged w fuel ctx).map fun t => { t with cbs := c } := by
  rw [stepChanged_frame t t.err c]
  exact Option.map_congr fun r hr => by rw [← (stepChanged_err_cbs t hr).1]

theorem userEvents_withCbs (events : List UserEvent) :
    userEvents w fuel eval events { t with cbs := c } = (userEvents w fuel eval events t).map fun t => { t with cbs := c } := by
  induction events generalizing t with
  | nil => rfl
  | cons event events ih =>
    dsimp only [userEvents]
    cases stepOf t.stepCrowds event.userID with
    | none => exact ih t
    | some idx =>
      dsimp only
      cases w.states[idx]? with
      | none => rfl
      | some step =>
        simp only [execute]
        rcases eval idx event with err | _ | «to»
        · rfl
        · exact ih t
        · dsimp only
          rw [stepChanged_withCbs]
          cases t.stepChanged w fuel _ with
          | none => rfl
          | some t' => exact ih t'

theorem userEvents_cbs {events : List UserEvent} {t' : Transaction}
    (h : userEvents w fuel eval events t = some t') : t'.cbs = t.cbs := by
  have h' : userEvents w fuel eval events t = (userEvents w fuel eval events t).map fun r => { r with cbs := t.cbs } :=
    userEvents_withCbs t t.cbs events
  rw [h, Option.map_some', Option.some.injEq] at h'
  rw [h']

theorem userEvents_append (xs ys : List UserEvent) (herr : t.err = none) :
    userEvents w fuel eval (xs ++ ys) t =
      (userEvents w fuel eval xs t).bind fun t' => if t'.err.isSome then some t' else userEvents w fuel eval ys t' := by
  induction xs generalizing t with
  | nil => simp [userEvents, herr]
  | cons event xs ih =>
    simp only [List.cons_append, userEvents]
    cases stepOf t.stepCrowds event.userID with
    | none => exact ih t herr
    | some idx =>
      dsimp only
      cases w.states[idx]? with
      | none => rfl
      | some step =>
        simp only [execute]
        rcases eval idx event with err | _ | «to»
        · rfl
        · exact ih t herr
        · dsimp only
          cases h : t.stepChanged w fuel _ with
          | none => rfl
          | some t' => exact ih t' ((stepChanged_err_cbs t h).1.trans herr)

end Frame

/-- Two queue items in a row are one item with both lists of events: the
transaction after the second is the one after the concatenation, with the
second callback queued after the first. -/
theorem doStepUserEvents_append (xs ys : List UserEvent) (cb₁ cb₂ : Option Nat) (t : Transaction) :
    (doStepUserEvents w fuel eval xs cb₁ t).bind (doStepUserEvents w fuel eval ys cb₂) =
      (doStepUserEvents w fuel eval (xs ++ ys) cb₁ t).map fun t' => { t' with cbs := t'.cbs ++ cb₂.toList } := by
  rw [doStepUserEvents_eq, doStepUserEvents_eq]
  split_ifs with h
  · simp [doStepUserEvents_eq, h]
  · rw [userEvents_append _ _ _ (by simpa using h), Option.map_bind]
    refine Option.bind_congr fun t' _ => ?_
    rw [doStepUserEvents_eq, Function.comp_apply]
    split_ifs
    · rfl
    · rw [userEvents_withCbs]
      exact Option.map_congr fun r hr => by rw [userEvents_cbs _ hr]

end Transaction

def tickWorker : Worker :=
  ⟨[⟨"A", 0, .condition⟩, ⟨"B", 0, .condition⟩], {1, 2, 3, 4}, [{1, 2, 3, 4}, ∅], fun _ => false,
    fun _ => "", rfl⟩

def evenToB : Evaluator := fun a event =>
  if a = 0 ∧ event.userID.toNat % 2 = 0 then .ok (some "B") else .ok none

theorem evenToB_sound : Sound tickWorker 1 evenToB := by
  refine ⟨by decide, fun a sa event «to» ha he => ?_⟩
  simp only [evenToB] at he
  split_ifs at he with h
  · obtain ⟨rfl, -⟩ := h
    simp only [Except.ok.injEq, Option.some.injEq] at he
    simp only [tickWorker, List.getElem?_cons_zero, Option.some.injEq] at ha
    subst he ha
    exact ⟨1, _, [], "B", 1, rfl, rfl, by decide, rfl, rfl, by decide⟩
  · simp at he

theorem tickWorker_start_shaped : Shaped tickWorker (newTransaction.start tickWorker) :=
  ⟨rfl, by decide⟩

def tickEvents : List UserEvent := [⟨0, 0, 0, 1⟩, ⟨0, 0, 0, 2⟩, ⟨0, 0, 0, 3⟩, ⟨0, 0, 0, 4⟩, ⟨0, 0, 0, 5⟩]

theorem doStepUserEvents_tick :
    Sound tickWorker 1 evenToB ∧ Shaped tickWorker (newTransaction.start tickWorker) ∧
      ∃ t', Transaction.doStepUserEvents tickWorker 1 evenToB tickEvents none
          (newTransaction.start tickWorker) = some t' ∧ Shaped tickWorker t' ∧
        t'.totalCrowds = (newTransaction.start tickWorker).totalCrowds :=
  ⟨evenToB_sound, tickWorker_start_shaped,
    Transaction.doStepUserEvents_shaped evenToB_sound tickWorker_start_shaped _ _⟩

theorem doStepUserEvents_refines_tick :
    Sound tickWorker 1 evenToB ∧ Shaped tickWorker (newTransaction.start tickWorker) ∧
      (newTransaction.start tickWorker).err = none ∧
      ∃ t', Transaction.doStepUserEvents tickWorker 1 evenToB tickEvents (some 7)
          (newTransaction.start tickWorker) = some t' ∧
        stepOf t'.stepCrowds = (placeEvents tickWorker 1 evenToB tickEvents
          (stepOf (newTransaction.start tickWorker).stepCrowds)).1 ∧
        t'.err = (placeEvents tickWorker 1 evenToB tickEvents
          (stepOf (newTransaction.start tickWorker).stepCrowds)).2 ∧
        t'.cbs = (newTransaction.start tickWorker).cbs ++ (some 7).toList :=
  ⟨evenToB_sound, tickWorker_start_shaped, rfl,
    Transaction.doStepUserEvents_refines evenToB_sound tickWorker_start_shaped rfl _ _⟩

def timerWorker : Worker :=
  ⟨[⟨"A", 0, .timer⟩, ⟨"B", 0, .condition⟩, ⟨"C", 0, .condition⟩], {1, 2}, [{1}, ∅, {2}],
    fun _ => false, fun _ => "", rfl⟩

def timerToB (users : Bitmap) : TimerEvaluator := fun _ => .ok (some ("B", users))

theorem doStepTimerEvent_own_crowd :
    (timerWorker.states.map (·.name)).Nodup ∧ Shaped timerWorker (newTransaction.start timerWorker) ∧
      ∃ t' stored, (newTransaction.start timerWorker).doStepTimerEvent timerWorker 1 (timerToB {1}) 0 =
          some (t', stored) ∧
        Shaped timerWorker t' ∧ t'.totalCrowds = (newTransaction.start timerWorker).totalCrowds ∧
        stored = if (newTransaction.start timerWorker).err = none ∧ (⟨"A", 0, .timer⟩ : Step).execution = .timer ∧
          (timerToB {1} 0).toBool then some "A" else none :=
  ⟨by decide, ⟨rfl, by decide⟩, Transaction.doStepTimerEvent_shaped (by decide) ⟨rfl, by decide⟩ rfl
    fun «to» users he => by
      simp only [timerToB, Except.ok.injEq, Option.some.injEq, Prod.mk.injEq] at he
      obtain ⟨rfl, rfl⟩ := he
      exact ⟨by decide, 1, _, [], "B", 1, rfl, rfl, by decide, rfl, rfl, by decide⟩⟩

theorem doStepTimerEvent_user_in_two_steps :
    (timerWorker.states.map (·.name)).Nodup ∧ Shaped timerWorker (newTransaction.start timerWorker) ∧
      (2 : UInt32) ∈ (newTransaction.start timerWorker).crowd 2 ∧
      ∃ t' stored, (newTransaction.start timerWorker).doStepTimerEvent timerWorker 1 (timerToB {1, 2}) 0 =
          some (t', stored) ∧
        (2 : UInt32) ∈ t'.crowd 2 ∧ (2 : UInt32) ∈ t'.crowd 1 :=
  ⟨by decide, ⟨rfl, by decide⟩, by decide,
    @Transaction.doStepTimerEvent_duplicates timerWorker 1 (newTransaction.start timerWorker) (timerToB {1, 2})
      0 ⟨"A", 0, .timer⟩ (by decide) ⟨rfl, by decide⟩ rfl 1 1 2 ⟨"B", 0, .condition⟩ "B" "B" {1, 2} [] 2
      rfl rfl rfl rfl rfl (by decide) rfl rfl (by decide) (by decide) (by decide) (by decide) (by decide)
      (by decide)⟩

example : (Transaction.doStepUserEvents tickWorker 1 evenToB [⟨0, 0, 0, 1⟩, ⟨0, 0, 0, 2⟩, ⟨0, 0, 0, 5⟩]
    none (newTransaction.start tickWorker)).map (·.stepCrowds) = some [{1, 3, 4}, {2}] := by decide

end Busybee.Core
