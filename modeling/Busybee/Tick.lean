import Busybee.StepEvents
set_option autoImplicit false

/-!
# A tick of a state worker

The worker's loop is not in the sources; the spec describes one tick: the
transaction is started on the worker, takes each item of the tick in queue
order, "directly by variant", and is committed.
-/

namespace Busybee.Core

/-- Modelled from the spec: an item of a tick, with the callback of a queue item. -/
inductive Item where
  | timer (idx : Nat)
  | userEvents (events : List UserEvent) (cb : Option Nat)
  | updateCrowd (crowd : Bitmap) (cb : Option Nat)

namespace Transaction

variable (w : Worker) (fuel : Nat) (eval : Evaluator) (timer : Transaction → TimerEvaluator)

/-- Modelled from the spec: one item, handed to the transaction by its variant;
the timer's evaluator reads the transaction. The last trigger time a timer
stores goes to the store, not to the transaction. -/
def doItem (t : Transaction) : Item → Option Transaction
  | .timer idx => (t.doStepTimerEvent w fuel (timer t) idx).map Prod.fst
  | .userEvents events cb => doStepUserEvents w fuel eval events cb t
  | .updateCrowd crowd cb => some (t.doUpdateCrowd crowd cb)

/-- Modelled from the spec: the items of a tick in queue order; `none` when one
does not return. -/
def doItems (t : Transaction) (items : List Item) : Option Transaction :=
  items.foldlM (doItem w fuel eval timer) t

end Transaction

/-- Each transition a timer reports on a transaction in shape moves users that,
cut to the shard, lie in the timer step's crowd, to another step whose direct
chain stops at a step, listed after the timer step when it is the timer step. -/
def TimerSound (w : Worker) (fuel : Nat) (timer : Transaction → TimerEvaluator) : Prop :=
  ∀ t a sa «to» users, Shaped w t → w.states[a]? = some sa → timer t a = .ok (some («to», users)) →
    users ∩ t.totalCrowds ⊆ t.crowd a ∧
      ∃ b sb hops F f, w.states[b]? = some sb ∧ sb.name = «to» ∧ sa.name ≠ «to» ∧
        w.chainEnd fuel «to» = some (hops, F) ∧ (w.states[f]?).map (·.name) = some F ∧ (f = a → a < b)

namespace Transaction

variable {w : Worker} {fuel : Nat} {eval : Evaluator} {timer : Transaction → TimerEvaluator}
  {t : Transaction}

theorem shaped_doUpdateCrowd (ht : Shaped w t) (hne : 0 < w.states.length) (crowd : Bitmap)
    (cb : Option Nat) : Shaped w (t.doUpdateCrowd crowd cb) := by
  refine ⟨?_, partition_doUpdateCrowd t crowd cb ht.partition (ht.length ▸ hne)⟩
  rw [(doUpdateCrowd_fields t crowd cb).1]
  split_ifs <;> simp [ht.length]

theorem shaped_doItem (hs : Sound w fuel eval) (htimer : TimerSound w fuel timer)
    (hne : 0 < w.states.length) (ht : Shaped w t) (i : Item)
    (hidx : ∀ idx, i = .timer idx → idx < w.states.length) :
    ∃ t', doItem w fuel eval timer t i = some t' ∧ Shaped w t' := by
  cases i with
  | timer idx =>
    obtain ⟨sa, ha⟩ : ∃ sa, w.states[idx]? = some sa :=
      ⟨_, List.getElem?_eq_getElem (hidx idx rfl)⟩
    obtain ⟨t', _, h, ht', -⟩ := shaped_doStepTimerEvent hs.names ht ha
      fun «to» users he => htimer t idx sa «to» users ht ha he
    exact ⟨t', by simp [doItem, h], ht'⟩
  | userEvents events cb =>
    obtain ⟨t', h, ht', -⟩ := shaped_doStepUserEvents hs ht events cb
    exact ⟨t', h, ht'⟩
  | updateCrowd crowd cb => exact ⟨_, rfl, shaped_doUpdateCrowd ht hne crowd cb⟩

/-- Over every list of items whose timers name steps of the worker, from a
transaction in shape of a worker with a step, the items return, and the
transaction is in shape: one crowd a step, and each user of the total crowd in
exactly one step. -/
theorem doItems_shaped (hs : Sound w fuel eval) (htimer : TimerSound w fuel timer)
    (hne : 0 < w.states.length) :
    ∀ (items : List Item) (t : Transaction), Shaped w t →
      (∀ idx, .timer idx ∈ items → idx < w.states.length) →
      ∃ t', doItems w fuel eval timer t items = some t' ∧ Shaped w t'
  | [], t, ht, _ => ⟨t, rfl, ht⟩
  | i :: items, t, ht, hidx => by
    obtain ⟨t₁, h₁, ht₁⟩ := shaped_doItem hs htimer hne ht i fun idx h => hidx idx (h ▸ List.mem_cons_self ..)
    obtain ⟨t', h', ht'⟩ := doItems_shaped hs htimer hne items t₁ ht₁
      fun idx h => hidx idx (List.mem_cons_of_mem _ h)
    exact ⟨t', by simp [doItems, List.foldlM_cons, h₁, ← h'], ht'⟩

end Transaction

def drainA : Transaction → TimerEvaluator := fun t a =>
  if a = 0 then .ok (some ("B", t.crowd 0)) else .ok none

def stayPut : Evaluator := fun _ _ => .ok none

theorem drainA_sound : TimerSound timerWorker 1 drainA := by
  intro t a sa «to» users _ ha he
  simp only [drainA] at he
  split_ifs at he with h
  · subst h
    simp only [Except.ok.injEq, Option.some.injEq, Prod.mk.injEq] at he
    obtain ⟨rfl, rfl⟩ := he
    simp only [timerWorker, List.getElem?_cons_zero, Option.some.injEq] at ha
    subst ha
    exact ⟨Finset.inter_subset_left, 1, _, [], "B", 1, rfl, rfl, by decide, rfl, rfl, by decide⟩
  · cases he

def tickItems : List Item :=
  [.timer 0, .userEvents [⟨0, 0, 0, 2⟩] none, .updateCrowd {1, 2, 3} (some 4), .timer 0]

theorem doItems_timer_events_update :
    Sound timerWorker 1 stayPut ∧ TimerSound timerWorker 1 drainA ∧ 0 < timerWorker.states.length ∧
      Shaped timerWorker (newTransaction.start timerWorker) ∧
      (∀ idx, .timer idx ∈ tickItems → idx < timerWorker.states.length) ∧
      ∃ t', Transaction.doItems timerWorker 1 stayPut drainA (newTransaction.start timerWorker) tickItems =
        some t' ∧ Shaped timerWorker t' := by
  have hs : Sound timerWorker 1 stayPut := ⟨by decide, fun _ _ _ _ _ he => by simp [stayPut] at he⟩
  have hst : Shaped timerWorker (newTransaction.start timerWorker) := ⟨rfl, by decide⟩
  have hidx : ∀ idx, .timer idx ∈ tickItems → idx < timerWorker.states.length := by
    intro idx h
    simp [tickItems] at h
    simp [h, timerWorker]
  exact ⟨hs, drainA_sound, by decide, hst, hidx,
    Transaction.doItems_shaped hs drainA_sound (by decide) _ _ hst hidx⟩

end Busybee.Core
