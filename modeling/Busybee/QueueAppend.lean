import Busybee.QueueBatch

set_option autoImplicit false

/-!
# Appending to a queue

One batch of `QueueAdd` requests on a fresh `queueBatch`: each item gets the
next offset after the stored `maxOffset`, each request is answered with the
offset of its last item, and `exec` writes the items and the record.
-/

namespace Busybee.Storage

def recordBytes (m r : UInt64) : Bytes :=
  beBytes 8 m.toNat ++ beBytes 8 r.toNat

@[simp] theorem length_recordBytes (m r : UInt64) : (recordBytes m r).length = 16 := by
  simp [recordBytes]

@[simp] theorem byte2UInt64_beBytes (m : UInt64) (rest : Bytes) :
    byte2UInt64 (beBytes 8 m.toNat ++ rest) = .ok m := by
  have hm : m.toNat < 256 ^ 8 := m.toNat_lt_size
  rw [byte2UInt64, if_neg (by simp), List.take_left' (length_beBytes 8 _), beValue_beBytes,
    Nat.mod_eq_of_lt hm, uint64_ofNat_toNat]

@[simp] theorem byte2UInt64_recordBytes (m r : UInt64) : byte2UInt64 (recordBytes m r) = .ok m :=
  byte2UInt64_beBytes m _

@[simp] theorem byte2UInt64_beBytes_eight (r : UInt64) : byte2UInt64 (beBytes 8 r.toNat) = .ok r := by
  simpa using byte2UInt64_beBytes r []

theorem sliceFrom_of_le {s : Bytes} {i : Nat} (h : i ≤ s.length) : sliceFrom s i = .ok (s.drop i) :=
  if_pos h

theorem goCopy_of_length_eq {dst src : Bytes} (h : src.length = dst.length) : goCopy dst src = src := by
  simp [goCopy, ← h]

@[simp] theorem sliceFrom_recordBytes (m r : UInt64) :
    sliceFrom (recordBytes m r) 8 = .ok (beBytes 8 r.toNat) := by
  rw [sliceFrom_of_le (by simp), recordBytes, List.drop_left' (length_beBytes 8 _)]

theorem uint64ToBytesTo_of_le {v : UInt64} {ret : Bytes} (h : 8 ≤ ret.length) :
    uint64ToBytesTo v ret = .ok (beBytes 8 v.toNat ++ ret.drop 8) :=
  if_neg (Nat.not_lt.2 h)

namespace QueueBatch

theorem encodeRecord_eq (m r : UInt64) {buf : Bytes} (h : buf.length = 16) :
    encodeRecord m r buf = .ok (recordBytes m r) := by
  have h8 : 8 ≤ buf.length := by omega
  simp [encodeRecord, uint64ToBytesTo_of_le h8, sliceFrom_of_le, uint64ToBytesTo_of_le, h,
    recordBytes, List.take_left', List.drop_left']

/-- The record under `maxAndCleanOffsetKey(K)` reads as `(m, r)`: it is absent
and `(m, r) = (0, 0)`, or it is the 16 bytes `exec` writes. -/
def StoredRecord (s : Store) (K : Bytes) (m r : UInt64) : Prop :=
  s.get (.maxAndCleanOffset K) = [] ∧ m = 0 ∧ r = 0 ∨ s.get (.maxAndCleanOffset K) = recordBytes m r

theorem load_newQueueBatch {s : Store} {faults : Faults} {K : Bytes} {m r : UInt64}
    (hget : faults.get = none) (hrec : StoredRecord s K m r) :
    ∃ buf : Bytes, buf.length = 16 ∧ newQueueBatch.load s faults K =
      .ok ⟨true, m, r, K, buf, []⟩ := by
  rcases hrec with ⟨hv, rfl, rfl⟩ | hv
  · exact ⟨newQueueBatch.maxAndCleanOffsetValue, rfl, by simp [load, hget, hv, newQueueBatch]⟩
  · refine ⟨recordBytes m r, length_recordBytes m r, ?_⟩
    have hcopy (dst : Bytes) (h : dst.length = 16) : goCopy dst (recordBytes m r) = recordBytes m r :=
      goCopy_of_length_eq (by simp [h])
    simp [load, hget, hv, hcopy, newQueueBatch]

/-- The pairs `add` builds for `items` after offset `m`: the `i`-th item,
counting from 1, under the item key of offset `m + i`. -/
def itemPairs (K : Bytes) (m : UInt64) (items : List Bytes) : List (Key × Bytes) :=
  (items.enumFrom 1).map fun p => (.item K (m + UInt64.ofNat p.1), p.2)

theorem itemPairs_cons (K : Bytes) (m : UInt64) (x : Bytes) (xs : List Bytes) :
    itemPairs K m (x :: xs) = (.item K (m + 1), x) :: itemPairs K (m + 1) xs := by
  have hshift := List.map_fst_add_enumFrom_eq_enumFrom xs 1 1
  simp only [itemPairs, List.enumFrom_cons, List.map_cons, UInt64.ofNat_one, ← hshift,
    List.map_map, List.cons.injEq, true_and]
  refine List.map_congr_left fun p _ => ?_
  simp [uint64_ofNat_add, add_assoc, add_comm]

theorem appendItems_eq (K : Bytes) (items : List Bytes) (qb : QueueBatch) :
    qb.appendItems K items = { qb with maxOffset := qb.maxOffset + UInt64.ofNat items.length,
                                       pairs := qb.pairs ++ itemPairs K qb.maxOffset items } := by
  induction items generalizing qb with
  | nil => simp [appendItems, itemPairs]
  | cons x xs ih =>
    simp only [appendItems, List.foldl_cons] at ih ⊢
    rw [ih, itemPairs_cons, List.length_cons, uint64_ofNat_add, UInt64.ofNat_one]
    simp [add_assoc, add_comm]

@[simp] theorem maxOffset_appendItems (K : Bytes) (items : List Bytes) (qb : QueueBatch) :
    (qb.appendItems K items).maxOffset = qb.maxOffset + UInt64.ofNat items.length := by
  rw [appendItems_eq]

@[simp] theorem loaded_appendItems (K : Bytes) (items : List Bytes) (qb : QueueBatch) :
    (qb.appendItems K items).loaded = qb.loaded := by
  rw [appendItems_eq]

theorem appendItems_append (K : Bytes) (xs ys : List Bytes) (qb : QueueBatch) :
    qb.appendItems K (xs ++ ys) = (qb.appendItems K xs).appendItems K ys :=
  List.foldl_append _ _ _ _

theorem add_of_loaded {s : Store} {faults : Faults} {K : Bytes} {items : List Bytes}
    {qb : QueueBatch} (h : qb.loaded = true) : qb.add s faults K items = .ok (qb.appendItems K items) := by
  simp [add, h]

theorem foldl_appendItems (reqs : List (Bytes × List Bytes)) (qb : QueueBatch) :
    ∃ m new, reqs.foldl (fun qb q => qb.appendItems q.1 q.2) qb =
      { qb with maxOffset := m, pairs := qb.pairs ++ new } ∧ ∀ p ∈ new, ∃ K o, p.1 = .item K o := by
  induction reqs generalizing qb with
  | nil => exact ⟨qb.maxOffset, [], by simp, by simp⟩
  | cons q reqs ih =>
    obtain ⟨m, new, h, hnew⟩ := ih (qb.appendItems q.1 q.2)
    refine ⟨m, itemPairs q.1 qb.maxOffset q.2 ++ new, ?_, ?_⟩
    · rw [List.foldl_cons, h, appendItems_eq]
      simp
    · simp only [List.mem_append, itemPairs, List.mem_map]
      rintro p (⟨_, -, rfl⟩ | hp)
      exacts [⟨_, _, rfl⟩, hnew p hp]

theorem foldl_appendItems_queue (K : Bytes) (Ls : List (List Bytes)) (qb : QueueBatch) :
    (Ls.map (K, ·)).foldl (fun qb q => qb.appendItems q.1 q.2) qb = qb.appendItems K Ls.flatten := by
  induction Ls generalizing qb with
  | nil => rfl
  | cons L Ls ih => rw [List.map_cons, List.foldl_cons, ih, List.flatten_cons, appendItems_append]

theorem itemPairs_keys_nodup (K : Bytes) (m : UInt64) {items : List Bytes}
    (h : items.length ≤ 2 ^ 64) : ((itemPairs K m items).map Prod.fst).Nodup := by
  have hkeys : (itemPairs K m items).map Prod.fst =
      (List.range' 1 items.length).map fun i => Key.item K (m + UInt64.ofNat i) := by
    simp [itemPairs, ← List.enumFrom_map_fst, List.map_map, Function.comp_def]
  rw [hkeys]
  refine List.Nodup.map_on (fun i hi j hj hij => ?_) (List.nodup_range' _ _)
  simp only [List.mem_range'_1] at hi hj
  have hofs : UInt64.ofNat i = UInt64.ofNat j := add_left_cancel (Key.item.inj hij).2
  have := congrArg UInt64.toNat hofs
  simp only [uint64_toNat_ofNat] at this
  omega

theorem clean_ok {s s' : Store} {faults : Faults} {now : Int} {qb qb' : QueueBatch}
    (h : qb.clean s faults now = (s', .ok qb')) : s' = s ∧ qb' = qb := by
  unfold clean at h
  split at h
  · cases h
  · split at h
    · cases h
    · split_ifs at h <;> cases h
      exact ⟨rfl, rfl⟩

/-- When `exec` returns, it has left the store as it was and has put the record
(when `maxOffset > 0`) and then every item pair into the write batch. -/
theorem exec_ok {s s' : Store} {faults : Faults} {now : Int} {wb wb' : WriteBatch}
    {qb qb' : QueueBatch} (hlen : qb.maxAndCleanOffsetValue.length = 16)
    (h : qb.exec s faults now wb = (s', .ok (qb', wb'))) :
    s' = s ∧ wb' = wb ++ (if 0 < qb.maxOffset then
      [(.maxAndCleanOffset qb.queueKey, recordBytes qb.maxOffset qb.removedOffset)] else []) ++
      qb.pairs := by
  unfold exec at h
  split_ifs at h with hpos hclean
  on_goal 1 =>
    rcases hc : qb.clean s faults now with ⟨s1, _ | qb1⟩ <;> simp only [hc] at h
    · simp at h
    obtain ⟨rfl, rfl⟩ := clean_ok hc
  all_goals
    simp [encodeRecord_eq _ _ hlen] at h
    obtain ⟨rfl, -, rfl⟩ := h
    simp [hpos]

end QueueBatch

def queueAdd (K : Bytes) (items : List Bytes) : Request :=
  ⟨.queueAdd, K, items⟩

/-- The answers `s(1), …, s(k)` to `QueueAdd` requests with item lists `Ls` on a
queue whose last offset is `m`: the offset of each request's last item. -/
def offsetAnswers (m : UInt64) (Ls : List (List Bytes)) : List (Option UInt64) :=
  (List.range Ls.length).map fun j => some (m + UInt64.ofNat (Ls.take (j + 1)).flatten.length)

theorem offsetAnswers_cons (m : UInt64) (L : List Bytes) (Ls : List (List Bytes)) :
    offsetAnswers m (L :: Ls) =
      some (m + UInt64.ofNat L.length) :: offsetAnswers (m + UInt64.ofNat L.length) Ls := by
  simp [offsetAnswers, List.range_succ_eq_map, uint64_ofNat_add, add_assoc]

namespace Batch

theorem add_queueAdd {s : Store} {faults : Faults} {shard : UInt64} {K : Bytes}
    {items : List Bytes} {b : Batch} {qb : QueueBatch} (hsh : b.shard = 0 ∨ b.shard = shard)
    (h : b.qb.add s faults K items = .ok qb) :
    b.add s faults shard (queueAdd K items) = .ok ({ b with shard := shard, qb := qb }, some qb.maxOffset) := by
  have hok : ¬(b.shard ≠ 0 ∧ b.shard ≠ shard) := by tauto
  simp [add, hok, queueAdd, QueueBatch.addReq, h]

theorem add_newBatch {s : Store} {faults : Faults} {K : Bytes} {m0 r0 : UInt64}
    (hget : faults.get = none) (hrec : QueueBatch.StoredRecord s K m0 r0) :
    ∃ buf : Bytes, buf.length = 16 ∧ ∀ shard L, newBatch.add s faults shard (queueAdd K L) =
      .ok ({ newBatch with shard := shard, qb := QueueBatch.appendItems K L ⟨true, m0, r0, K, buf, []⟩ },
        some (QueueBatch.appendItems K L ⟨true, m0, r0, K, buf, []⟩).maxOffset) := by
  obtain ⟨buf, hbuf, hload⟩ := QueueBatch.load_newQueueBatch hget hrec
  refine ⟨buf, hbuf, fun shard L => add_queueAdd (Or.inl rfl) ?_⟩
  have hnew : newQueueBatch.loaded = false := rfl
  show newQueueBatch.add s faults K L = _
  simp only [QueueBatch.add, hnew, hload, Bool.false_eq_true, if_false, except_ok_bind, except_pure]

theorem addAll_loaded (s : Store) (faults : Faults) (shard : UInt64) (reqs : List (Bytes × List Bytes))
    (b : Batch) (hl : b.qb.loaded = true) (hsh : b.shard = shard) :
    b.addAll s faults shard (reqs.map fun q => queueAdd q.1 q.2) =
      .ok ({ b with qb := reqs.foldl (fun qb q => qb.appendItems q.1 q.2) b.qb },
        offsetAnswers b.qb.maxOffset (reqs.map Prod.snd)) := by
  induction reqs generalizing b with
  | nil => simp [addAll, offsetAnswers]
  | cons q reqs ih =>
    subst hsh
    have hadd : b.add s faults b.shard (queueAdd q.1 q.2) =
        .ok ({ b with qb := b.qb.appendItems q.1 q.2 }, some (b.qb.appendItems q.1 q.2).maxOffset) :=
      add_queueAdd (Or.inr rfl) (QueueBatch.add_of_loaded hl)
    simp only [List.map_cons, addAll, hadd, except_ok_bind,
      ih { b with qb := b.qb.appendItems q.1 q.2 } (by simp [hl]) rfl]
    simp [offsetAnswers_cons]

theorem addAll_queueAdd_loaded (s : Store) (faults : Faults) (shard : UInt64) (K : Bytes)
    (Ls : List (List Bytes)) (b : Batch) (hl : b.qb.loaded = true) (hsh : b.shard = shard) :
    b.addAll s faults shard (Ls.map (queueAdd K)) =
      .ok ({ b with qb := b.qb.appendItems K Ls.flatten }, offsetAnswers b.qb.maxOffset Ls) := by
  have h := addAll_loaded s faults shard (Ls.map (K, ·)) b hl hsh
  simp only [List.map_map, Function.comp_def, QueueBatch.foldl_appendItems_queue, List.map_id'] at h
  exact h

/-- A batch of `QueueAdd` requests for one queue `K` on a fresh batch, over a
store whose record reads `(m0, r0)`: each request is answered with `s(j)`, the
stored `maxOffset` plus the items so far (in `uint64`); the items are numbered
on from `m0` with no gap, and no two share an offset; and `exec`, when it
returns, writes the record `(s(k), r0)` unless `s(k)` is 0, then every item. -/
theorem queueAdd_offsets (s : Store) (faults : Faults) (now : Int) (shard : UInt64)
    (K : Bytes) (m0 r0 : UInt64) (Ls : List (List Bytes)) (hne : Ls ≠ [])
    (hget : faults.get = none) (hrec : QueueBatch.StoredRecord s K m0 r0) :
    ∃ b : Batch, newBatch.addAll s faults shard (Ls.map (queueAdd K)) = .ok (b, offsetAnswers m0 Ls) ∧
      b.qb.pairs = QueueBatch.itemPairs K m0 Ls.flatten ∧
      (Ls.flatten.length ≤ 2 ^ 64 → (b.qb.pairs.map Prod.fst).Nodup) ∧
      ∀ (s' : Store) (qb' : QueueBatch) (wb : WriteBatch),
        b.qb.exec s faults now [] = (s', .ok (qb', wb)) →
        wb = (if 0 < m0 + UInt64.ofNat Ls.flatten.length then
          [(.maxAndCleanOffset K, recordBytes (m0 + UInt64.ofNat Ls.flatten.length) r0)] else []) ++
          QueueBatch.itemPairs K m0 Ls.flatten := by
  obtain ⟨L, Ls, rfl⟩ := List.exists_cons_of_ne_nil hne
  obtain ⟨buf, hbuf, hadd⟩ := add_newBatch hget hrec
  have hrest := addAll_queueAdd_loaded s faults shard K Ls
    ⟨shard, newBatch.writtenBytes, newBatch.changedBytes,
      QueueBatch.appendItems K L ⟨true, m0, r0, K, buf, []⟩⟩ (by simp) rfl
  rw [List.map_cons, addAll, hadd shard L]
  simp only [except_ok_bind]
  rw [hrest]
  refine ⟨_, congrArg Except.ok (Prod.ext rfl ?answers), ?pairs, fun h => ?nodup,
    fun s' qb' wb hexec => ?exec⟩
  case answers => simp [offsetAnswers_cons]
  all_goals dsimp only at *
  all_goals rw [← QueueBatch.appendItems_append, QueueBatch.appendItems_eq] at *
  case pairs => simp
  case nodup => simpa using QueueBatch.itemPairs_keys_nodup K m0 h
  case exec => simpa using (QueueBatch.exec_ok hbuf hexec).2

def recordStore : Store :=
  Store.empty.set (.maxAndCleanOffset [7]) (recordBytes 3 1)

theorem queueAdd_offsets_from_three :
    ∃ b : Batch, newBatch.addAll recordStore {} 1 ([[[1]], [[2], [3]]].map (queueAdd [7])) =
        .ok (b, offsetAnswers 3 [[[1]], [[2], [3]]]) ∧
      b.qb.pairs = QueueBatch.itemPairs [7] 3 [[[1]], [[2], [3]]].flatten ∧
      ([[[1]], [[2], [3]]].flatten.length ≤ 2 ^ 64 → (b.qb.pairs.map Prod.fst).Nodup) ∧
      ∀ (s' : Store) (qb' : QueueBatch) (wb : WriteBatch),
        b.qb.exec recordStore {} 0 [] = (s', .ok (qb', wb)) →
        wb = (if 0 < 3 + UInt64.ofNat [[[1]], [[2], [3]]].flatten.length then
          [(.maxAndCleanOffset [7],
            recordBytes (3 + UInt64.ofNat [[[1]], [[2], [3]]].flatten.length) 1)] else []) ++
          QueueBatch.itemPairs [7] 3 [[[1]], [[2], [3]]].flatten :=
  queueAdd_offsets recordStore {} 0 1 [7] 3 1 _ (by decide) rfl (Or.inr rfl)

/-- A batch whose one request has no item, on an empty store: answered 0, and
`exec` returns without writing any record. -/
theorem queueAdd_without_items :
    ∃ b : Batch, newBatch.addAll Store.empty {} 1 [queueAdd [7] []] = .ok (b, [some 0]) ∧
      b.qb.exec Store.empty {} 0 [] = (Store.empty, .ok (b.qb, [])) :=
  ⟨_, rfl, rfl⟩

/-- `QueueAdd` requests on several queues in one batch share the counter loaded
from the first queue's record: each is answered that record's `maxOffset` plus
the items added so far, whatever queue it names, and `exec` writes the offset
record of the first queue only. -/
theorem queueAdd_shared_offsets (s : Store) (faults : Faults) (now : Int) (shard : UInt64)
    (K : Bytes) (L : List Bytes) (reqs : List (Bytes × List Bytes)) (m0 r0 : UInt64)
    (hget : faults.get = none) (hrec : QueueBatch.StoredRecord s K m0 r0) :
    ∃ b : Batch, newBatch.addAll s faults shard (((K, L) :: reqs).map fun q => queueAdd q.1 q.2) =
        .ok (b, offsetAnswers m0 (L :: reqs.map Prod.snd)) ∧
      ∀ (s' : Store) (qb' : QueueBatch) (wb : WriteBatch),
        b.qb.exec s faults now [] = (s', .ok (qb', wb)) →
        ∀ K' v, (.maxAndCleanOffset K', v) ∈ wb → K' = K := by
  obtain ⟨buf, hbuf, hadd⟩ := add_newBatch hget hrec
  rw [List.map_cons, addAll, hadd shard L]
  simp only [except_ok_bind]
  rw [addAll_loaded s faults shard reqs _ (by simp) rfl]
  obtain ⟨m, new, hfold, hitems⟩ :=
    QueueBatch.foldl_appendItems reqs (QueueBatch.appendItems K L ⟨true, m0, r0, K, buf, []⟩)
  refine ⟨_, congrArg Except.ok (Prod.ext rfl ?answers), fun s' qb' wb hexec K' v hmem => ?record⟩
  case answers => simp [offsetAnswers_cons]
  case record =>
    dsimp only at hexec
    rw [hfold, QueueBatch.appendItems_eq] at hexec
    obtain ⟨-, rfl⟩ := QueueBatch.exec_ok hbuf hexec
    simp only [List.nil_append, List.mem_append] at hmem
    rcases hmem with hrecord | hpair | hpair
    · split_ifs at hrecord
      · exact Key.maxAndCleanOffset.inj (Prod.mk.inj (List.mem_singleton.1 hrecord)).1
      · cases hrecord
    · simp [QueueBatch.itemPairs] at hpair
    · obtain ⟨_, _, h⟩ := hitems _ hpair
      cases h

theorem queueAdd_two_queues :
    ({} : Faults).get = none ∧ QueueBatch.StoredRecord recordStore [7] 3 1 ∧
      ∃ b : Batch, newBatch.addAll recordStore {} 1
          ((([7], [[1]]) :: [([8], [[2]])]).map fun q => queueAdd q.1 q.2) =
          .ok (b, offsetAnswers 3 ([[1]] :: [([8], [[2]])].map Prod.snd)) ∧
        ∀ (s' : Store) (qb' : QueueBatch) (wb : WriteBatch),
          b.qb.exec recordStore {} 0 [] = (s', .ok (qb', wb)) →
          ∀ K' v, (.maxAndCleanOffset K', v) ∈ wb → K' = [7] := by
  have hrec : QueueBatch.StoredRecord recordStore [7] 3 1 := .inr rfl
  exact ⟨rfl, hrec, queueAdd_shared_offsets recordStore {} 0 1 [7] [[1]] [([8], [[2]])] 3 1 rfl hrec⟩

/-- `Reset` gives back the fresh batch, except that the record buffer has
length 0. -/
theorem reset_eq (b : Batch) :
    b.reset = { newBatch with qb := { newQueueBatch with maxAndCleanOffsetValue := [] } } := by
  simp [reset, QueueBatch.reset, newBatch, newQueueBatch]

end Batch

namespace QueueBatch

theorem load_of_empty_buffer {s : Store} {faults : Faults} {K : Bytes} {qb : QueueBatch}
    (hbuf : qb.maxAndCleanOffsetValue = []) (hget : faults.get = none)
    (hv : s.get (.maxAndCleanOffset K) ≠ []) :
    qb.load s faults K = .error (indexOutOfRange 7 0) := by
  have hpos : 0 < (s.get (.maxAndCleanOffset K)).length := List.length_pos.2 hv
  simp [load, hget, hbuf, hpos, goCopy, byte2UInt64]

theorem load_of_no_record {s : Store} {faults : Faults} {K : Bytes} {qb : QueueBatch}
    (hget : faults.get = none) (hv : s.get (.maxAndCleanOffset K) = []) :
    qb.load s faults K = .ok { qb with queueKey := K, loaded := true } := by
  simp [load, hget, hv]

theorem exec_of_empty_buffer {s : Store} {faults : Faults} {now : Int} {wb : WriteBatch}
    {qb : QueueBatch} (hbuf : qb.maxAndCleanOffsetValue = []) (hpos : 0 < qb.maxOffset) :
    ∃ h, (qb.exec s faults now wb).2 = .error h := by
  have henc (m r : UInt64) : encodeRecord m r [] = .error (indexOutOfRange 7 0) := by
    simp [encodeRecord, uint64ToBytesTo]
  unfold exec
  rw [if_pos hpos]
  split_ifs
  · rcases hc : qb.clean s faults now with ⟨s1, h | qb1⟩
    · exact ⟨h, by simp [hc]⟩
    · obtain ⟨-, rfl⟩ := clean_ok hc
      exact ⟨indexOutOfRange 7 0, by simp [hc, hbuf, henc]⟩
  · exact ⟨indexOutOfRange 7 0, by simp [hbuf, henc]⟩

end QueueBatch

namespace Batch

theorem execute_of_exec_error {s : Store} {faults : Faults} {now : Int} {b : Batch} {h : Halt}
    (hx : (b.qb.exec s faults now []).2 = .error h) : (b.execute s faults now).2 = .error h := by
  rcases hexec : b.qb.exec s faults now [] with ⟨s', _ | _⟩ <;> rw [hexec] at hx <;> cases hx
  simp [execute, hexec]

/-- After `Reset`, whatever came before, a `QueueAdd` of at least one item
never gets through both `Add` and `Execute`: with a stored record `Add`
panics (`load_of_empty_buffer`), and without one `Execute` halts. -/
theorem reset_queueAdd_halts (b : Batch) (s : Store) (faults : Faults) (now : Int)
    (shard : UInt64) (K : Bytes) (items : List Bytes) (hget : faults.get = none)
    (hitems : 0 < items.length ∧ items.length < 2 ^ 64) (b' : Batch) (resp : Option UInt64)
    (hadd : b.reset.add s faults shard (queueAdd K items) = .ok (b', resp)) :
    ∃ h, (b'.execute s faults now).2 = .error h := by
  have hreset : b.reset.qb = { newQueueBatch with maxAndCleanOffsetValue := [] } := by
    rw [reset_eq]
  by_cases hv : s.get (.maxAndCleanOffset K) = []
  · have hqb : b.reset.qb.add s faults K items =
        .ok (QueueBatch.appendItems K items ⟨true, 0, 0, K, [], []⟩) := by
      simp [QueueBatch.add, hreset, QueueBatch.load_of_no_record hget hv, newQueueBatch]
    rw [add_queueAdd (Or.inl (by simp [reset_eq, newBatch])) hqb] at hadd
    obtain ⟨rfl, -⟩ := Prod.mk.inj (Except.ok.inj hadd)
    have hpos : 0 < UInt64.ofNat items.length := by
      rw [uint64_lt_iff, uint64_toNat_ofNat, Nat.mod_eq_of_lt hitems.2]; exact hitems.1
    obtain ⟨h, hh⟩ := @QueueBatch.exec_of_empty_buffer s faults now []
      (QueueBatch.appendItems K items ⟨true, 0, 0, K, [], []⟩)
      (by simp [QueueBatch.appendItems_eq]) (by simpa [QueueBatch.appendItems_eq] using hpos)
    exact ⟨h, execute_of_exec_error hh⟩
  · have hload := @QueueBatch.load_of_empty_buffer s faults K b.reset.qb (by simp [hreset]) hget hv
    have hnl : b.reset.qb.loaded = false := by simp [hreset, newQueueBatch]
    have hsh : b.reset.shard = 0 := rfl
    simp [add, queueAdd, QueueBatch.addReq, QueueBatch.add, hnl, hload, hsh] at hadd

theorem reset_queueAdd_empty_store :
    ({} : Faults).get = none ∧ (0 < [[(1 : UInt8)]].length ∧ [[(1 : UInt8)]].length < 2 ^ 64) ∧
      ∃ b' resp, newBatch.reset.add Store.empty {} 1 (queueAdd [7] [[1]]) = .ok (b', resp) ∧
        ∃ h, (b'.execute Store.empty {} 0).2 = .error h := by
  obtain ⟨⟨b', resp⟩, hadd⟩ : ∃ r, newBatch.reset.add Store.empty {} 1 (queueAdd [7] [[1]]) = .ok r :=
    ⟨_, rfl⟩
  exact ⟨rfl, by decide, b', resp, hadd,
    reset_queueAdd_halts newBatch Store.empty {} 0 1 [7] [[1]] rfl (by decide) b' resp hadd⟩

end Batch

/-- A reused batch: the first batch appends one item to the empty queue `[7]`
and is reset; the next `QueueAdd` then panics, where a fresh batch over the
same store answers offset 2 and executes. -/
theorem reset_batch_panics :
    (run {} [.add 1 (queueAdd [7] [[1]]), .execute 0, .reset, .add 1 (queueAdd [7] [[2]])]
        Store.empty newBatch).2 =
      ([.added (some 1), .executed (.ok (0, 0)), .reset], some (indexOutOfRange 7 0)) ∧
    (run {} [.add 1 (queueAdd [7] [[2]]), .execute 0]
        (run {} [.add 1 (queueAdd [7] [[1]]), .execute 0] Store.empty newBatch).1 newBatch).2 =
      ([.added (some 2), .executed (.ok (0, 0))], none) :=
  ⟨rfl, rfl⟩

end Busybee.Storage
