import Busybee.QueueAppend

set_option autoImplicit false

/-!
# The clean step of a queue append

Once more than `countToClean` items lie past `removedOffset`, `exec` scans the
consumer records for `low`, the lowest committed offset of a live consumer, and
deletes the items below it.
-/

namespace Busybee.Storage

theorem uint64_le_iff (a b : UInt64) : a ≤ b ↔ a.toNat ≤ b.toNat := by
  simp [UInt64.le_def, BitVec.le_def, UInt64.toNat]

namespace QueueBatch

theorem consumerLow_cons (now : Int) (value : Bytes) (values : List Bytes) (low : UInt64) :
    consumerLow now (value :: values) low = (decodeConsumer value).bind fun e =>
      consumerLow now values (if alive now e.2 ∧ e.1 < low then e.1 else low) :=
  rfl

theorem consumerLow_le {now : Int} {values : List Bytes} {low low' : UInt64}
    (h : consumerLow now values low = .ok low') :
    low' ≤ low ∧ ∀ value ∈ values, ∀ v ts, decodeConsumer value = .ok (v, ts) →
      alive now ts = true → low' ≤ v := by
  induction values generalizing low with
  | nil => cases h; exact ⟨UInt64.le_refl _, by simp⟩
  | cons value values ih =>
    rw [consumerLow_cons] at h
    rcases hd : decodeConsumer value with _ | ⟨v, ts⟩ <;> rw [hd] at h
    · cases h
    obtain ⟨hlow, hrest⟩ := ih h
    simp only [uint64_le_iff, uint64_lt_iff] at hlow hrest ⊢
    refine ⟨by split_ifs at hlow <;> omega, List.forall_mem_cons.2 ⟨fun v' ts' hd' hal => ?_, hrest⟩⟩
    rw [hd] at hd'
    obtain ⟨rfl, rfl⟩ := Prod.mk.inj (Except.ok.inj hd')
    split_ifs at hlow with hc
    · exact hlow
    · have : ¬v.toNat < low.toNat := fun hv => hc ⟨hal, hv⟩
      omega

/-- Whether a consumer record counts as live at `now`; a record too short to
decode makes the scan panic whatever the clock. -/
def consumerAlive (now : Int) (value : Bytes) : Bool :=
  match decodeConsumer value with
  | .ok (_, ts) => alive now ts
  | .error _ => false

theorem consumerLow_congr {t1 t2 : Int} {values : List Bytes}
    (h : ∀ value ∈ values, consumerAlive t1 value = consumerAlive t2 value) (low : UInt64) :
    consumerLow t1 values low = consumerLow t2 values low := by
  induction values generalizing low with
  | nil => rfl
  | cons value values ih =>
    have hv := h value (List.mem_cons_self _ _)
    rw [consumerLow_cons, consumerLow_cons]
    rcases hd : decodeConsumer value with _ | ⟨v, ts⟩
    · rfl
    · simp only [consumerAlive, hd] at hv
      simp only [Except.bind, hv, ih fun w hw => h w (List.mem_cons_of_mem _ hw)]

/-- The clean step, once its scan has found `low`: with `low > removedOffset`
it deletes `[removedOffset, low+1)` and stops the process, whatever
`RangeDelete` returns. -/
theorem clean_eq {s : Store} {faults : Faults} {now : Int} {qb : QueueBatch} {low : UInt64}
    (hscan : faults.scan = none) (hlow : consumerLow now (s.scanConsumers qb.queueKey) maxUint64 = .ok low) :
    qb.clean s faults now =
      if qb.removedOffset < low then
        (if faults.rangeDelete.isNone then s.rangeDelete qb.queueKey qb.removedOffset (low + 1) else s,
         .error (.fatal ("exec queue add batch failed with " ++ faults.rangeDelete.getD "<nil>")))
      else (s, .ok qb) := by
  simp only [clean, hscan, hlow, gt_iff_lt]

theorem clean_congr {s : Store} {faults : Faults} {t1 t2 : Int} {qb : QueueBatch}
    (h : ∀ value ∈ s.scanConsumers qb.queueKey, consumerAlive t1 value = consumerAlive t2 value) :
    qb.clean s faults t1 = qb.clean s faults t2 := by
  simp only [clean, consumerLow_congr h]

theorem exec_congr {s : Store} {faults : Faults} {t1 t2 : Int} {wb : WriteBatch} {qb : QueueBatch}
    (h : ∀ value ∈ s.scanConsumers qb.queueKey, consumerAlive t1 value = consumerAlive t2 value) :
    qb.exec s faults t1 wb = qb.exec s faults t2 wb := by
  simp only [exec, clean_congr h]

/-- With a 16-byte record buffer and a `Scan` that succeeds, `exec` returns
exactly when it has no clean step to run, or its scan finds no offset past
`removedOffset` to delete up to. -/
theorem exec_returns_iff {s : Store} {faults : Faults} {now : Int} {wb : WriteBatch}
    {qb : QueueBatch} (hlen : qb.maxAndCleanOffsetValue.length = 16) (hscan : faults.scan = none) :
    (∃ s' r, qb.exec s faults now wb = (s', .ok r)) ↔
      (0 < qb.maxOffset → countToClean < qb.maxOffset - qb.removedOffset →
        ∃ low, consumerLow now (s.scanConsumers qb.queueKey) maxUint64 = .ok low ∧
          low ≤ qb.removedOffset) := by
  unfold exec
  by_cases hpos : 0 < qb.maxOffset
  · by_cases hclean : countToClean < qb.maxOffset - qb.removedOffset
    · simp only [hpos, hclean, if_true, true_implies]
      rcases hlow : consumerLow now (s.scanConsumers qb.queueKey) maxUint64 with h | low
      · simp [clean, hscan, hlow]
      · by_cases hr : qb.removedOffset < low
        · simp [clean_eq hscan hlow, hr]
        · simp [clean_eq hscan hlow, hr, encodeRecord_eq _ _ hlen, UInt64.not_lt.1 hr]
    · simp [hpos, hclean, encodeRecord_eq _ _ hlen]
  · simp [hpos]

theorem exec_returns_without_consumer :
    (⟨true, 5001, 0, [7], recordBytes 5000 0, []⟩ : QueueBatch).maxAndCleanOffsetValue.length = 16 ∧
      ({} : Faults).scan = none ∧
      ((∃ s' r, (⟨true, 5001, 0, [7], recordBytes 5000 0, []⟩ : QueueBatch).exec Store.empty {} 0 [] =
          (s', .ok r)) ↔
        (0 < (5001 : UInt64) → countToClean < (5001 : UInt64) - 0 →
          ∃ low, consumerLow 0 (Store.empty.scanConsumers [7]) maxUint64 = .ok low ∧ low ≤ 0)) :=
  ⟨rfl, rfl, exec_returns_iff rfl rfl⟩

/-- With a live consumer whose committed offset is at most `M < math.MaxUint64`,
`low ≤ M`, so the end offset `low+1` does not wrap and the deleted range is
`[removedOffset, low]`. -/
theorem consumerLow_bounded {now : Int} {values : List Bytes} {low M : UInt64}
    (h : consumerLow now values maxUint64 = .ok low) (hM : M < maxUint64)
    (hlive : ∃ value ∈ values, ∃ v ts, decodeConsumer value = .ok (v, ts) ∧ alive now ts = true ∧ v ≤ M) :
    low ≤ M ∧ (low + 1).toNat = low.toNat + 1 := by
  obtain ⟨value, hmem, v, ts, hd, hal, hvM⟩ := hlive
  have hle := (consumerLow_le h).2 value hmem v ts hd hal
  have hmax : maxUint64.toNat = 2 ^ 64 - 1 := rfl
  rw [uint64_le_iff] at hle hvM ⊢
  rw [uint64_lt_iff, hmax] at hM
  refine ⟨by omega, ?_⟩
  have h1 : (1 : UInt64).toNat = 1 := rfl
  rw [uint64_toNat_add, h1]
  omega

theorem consumerLow_one_consumer :
    consumerLow 0 [beBytes 8 10 ++ beBytes 8 0] maxUint64 = .ok 10 ∧ (10 : UInt64) < maxUint64 ∧
      (∃ value ∈ [beBytes 8 10 ++ beBytes 8 0], ∃ v ts,
        decodeConsumer value = .ok (v, ts) ∧ alive 0 ts = true ∧ v ≤ 10) ∧
      (10 : UInt64) ≤ 10 ∧ ((10 : UInt64) + 1).toNat = (10 : UInt64).toNat + 1 := by
  have h : consumerLow 0 [beBytes 8 10 ++ beBytes 8 0] maxUint64 = .ok 10 := rfl
  have hlive : ∃ value ∈ [beBytes 8 10 ++ beBytes 8 0], ∃ v ts,
      decodeConsumer value = .ok (v, ts) ∧ alive 0 ts = true ∧ v ≤ 10 :=
    ⟨_, List.mem_singleton_self _, 10, 0, rfl, rfl, by decide⟩
  exact ⟨h, by decide, hlive, consumerLow_bounded h (by decide) hlive⟩

theorem clean_store (s : Store) (faults : Faults) (now : Int) (qb : QueueBatch) :
    (qb.clean s faults now).1 = s ∨
      ∃ low h, qb.clean s faults now = (s.rangeDelete qb.queueKey qb.removedOffset (low + 1), .error h) := by
  unfold clean
  split
  · exact .inl rfl
  · split
    · exact .inl rfl
    · split_ifs
      · exact .inr ⟨_, _, rfl⟩
      · exact .inl rfl
      · exact .inl rfl

/-- `exec` touches the store only through the clean step: either the store is
as it was, or `exec` stops the process after the clean step's `RangeDelete`. -/
theorem exec_store (s : Store) (faults : Faults) (now : Int) (wb : WriteBatch) (qb : QueueBatch) :
    (qb.exec s faults now wb).1 = s ∨
      ∃ low h, qb.exec s faults now wb = (s.rangeDelete qb.queueKey qb.removedOffset (low + 1), .error h) := by
  unfold exec
  split_ifs
  · rcases hc : qb.clean s faults now with ⟨s', r⟩
    rcases clean_store s faults now qb with h | ⟨low, h, hlow⟩
    · rw [hc] at h
      exact .inl h
    · rw [hc] at hlow
      obtain ⟨rfl, rfl⟩ := Prod.mk.inj hlow
      exact .inr ⟨low, h, rfl⟩
  all_goals exact .inl rfl

end QueueBatch

namespace Batch

/-- `Execute` depends on the clock only through which consumer records count
as live. -/
theorem execute_congr_alive (s : Store) (faults : Faults) (b : Batch) (t1 t2 : Int)
    (h : ∀ value ∈ s.scanConsumers b.qb.queueKey,
      QueueBatch.consumerAlive t1 value = QueueBatch.consumerAlive t2 value) :
    b.execute s faults t1 = b.execute s faults t2 := by
  simp only [execute, QueueBatch.exec_congr h]

/-- A failing `Execute` (a halt, or a `Write` error) leaves the store as it was
or with the items of `[removedOffset, low+1)` deleted: the clean step deletes
outside the write batch. A `Write` error leaves it as it was. -/
theorem execute_failure_store (s : Store) (faults : Faults) (now : Int) (b : Batch) :
    (∀ h, (b.execute s faults now).2 = .error h →
      (b.execute s faults now).1 = s ∨
        ∃ low, (b.execute s faults now).1 = s.rangeDelete b.qb.queueKey b.qb.removedOffset (low + 1)) ∧
    (∀ b' err, (b.execute s faults now).2 = .ok (b', .error err) → (b.execute s faults now).1 = s) := by
  unfold execute
  rcases QueueBatch.exec_store s faults now [] b.qb with hs | ⟨low, h, he⟩
  · rcases he : b.qb.exec s faults now [] with ⟨s', _ | ⟨qb, wb⟩⟩ <;>
      obtain rfl : s' = s := by rw [he] at hs; exact hs
    · exact ⟨fun _ _ => .inl rfl, fun _ _ h => nomatch h⟩
    · cases faults.write <;> simp
  · simp only [he]
    exact ⟨fun _ _ => .inr ⟨low, rfl⟩, fun _ _ h => nomatch h⟩

end Batch

def consumerRecord (v ts : Nat) : Bytes :=
  beBytes 8 v ++ beBytes 8 ts

def fullStore : Store :=
  Store.empty.set (.maxAndCleanOffset [7]) (recordBytes 5000 0)

def consumedStore : Store :=
  fullStore.set (.consumer [7] [1]) (consumerRecord 10 0)

/-- One more item takes the queue past `countToClean`; the live consumer gives
`low = 10 > 0`, and `Execute` stops the process though every call of the store
succeeds. -/
theorem clean_step_stops :
    (run {} [.add 1 (queueAdd [7] [[1]]), .execute 0] consumedStore newBatch).2 =
      ([.added (some 5001)], some (.fatal "exec queue add batch failed with <nil>")) :=
  rfl

/-- With no consumer record, `low` stays `math.MaxUint64`, above the new
`maxOffset` 5001, and the end offset `low+1` wraps to 0. -/
theorem clean_without_consumer :
    QueueBatch.consumerLow 0 (fullStore.scanConsumers [7]) maxUint64 = .ok maxUint64 ∧
      (5001 : UInt64) < maxUint64 ∧ maxUint64 + 1 = 0 ∧
      (run {} [.add 1 (queueAdd [7] [[1]]), .execute 0] fullStore newBatch).2 =
        ([.added (some 5001)], some (.fatal "exec queue add batch failed with <nil>")) :=
  ⟨rfl, by decide, rfl, rfl⟩

def clockStore : Store :=
  (fullStore.set (.consumer [7] [1]) (consumerRecord 50 0)).set (.item [7] 30) [9]

/-- At time 0 the consumer is live and the clean step deletes the offsets up to
50; seven days later it is not, `low+1` wraps to 0, and the item stays. -/
theorem execute_depends_on_clock :
    (run {} [.add 1 (queueAdd [7] [[1]]), .execute 0] clockStore newBatch).1.get (.item [7] 30) = [] ∧
    (run {} [.add 1 (queueAdd [7] [[1]]), .execute 604800] clockStore newBatch).1.get
      (.item [7] 30) = [9] :=
  ⟨rfl, rfl⟩

def oneItemBatch : Batch :=
  ⟨1, 0, 0, ⟨true, 5001, 0, [7], recordBytes 5000 0, [(.item [7] 5001, [1])]⟩⟩

theorem execute_same_liveness :
    oneItemBatch.execute clockStore {} 0 = oneItemBatch.execute clockStore {} 100 :=
  Batch.execute_congr_alive clockStore {} oneItemBatch 0 100 (by decide)

/-- `Execute` at clock 0 on `clockStore` stops the process after its clean step
deleted the offsets up to 50 on the store: the item at offset 30 is gone while
the queue's record still reads `(5000, 0)`. -/
theorem execute_halts_after_delete :
    (∃ h, (oneItemBatch.execute clockStore {} 0).2 = .error h) ∧
      clockStore.get (.item [7] 30) = [9] ∧
      (oneItemBatch.execute clockStore {} 0).1.get (.item [7] 30) = [] ∧
      (oneItemBatch.execute clockStore {} 0).1.get (.maxAndCleanOffset [7]) =
        clockStore.get (.maxAndCleanOffset [7]) :=
  ⟨⟨_, rfl⟩, rfl, rfl, rfl⟩

end Busybee.Storage
