import Mathlib.Data.UInt
import Mathlib.Data.List.Basic

set_option autoImplicit false

/-!
# The queue append batch

`src/pkg/storage/batch.go`: the `batch` that collects the write requests of one
Raft shard, with its one batch type `queueBatch`, which serves `QueueAdd`.
`log.Fatalf` and a runtime panic are both a `Halt`; the store's calls fail as
`Faults` says.
-/

namespace Busybee.Storage

abbrev Bytes := List UInt8

def beValue : Bytes → Nat
  | [] => 0
  | b :: bs => b.toNat * 256 ^ bs.length + beValue bs

def beBytes : Nat → Nat → Bytes
  | 0, _ => []
  | k + 1, n => UInt8.ofNat (n / 256 ^ k) :: beBytes k n

@[simp] theorem length_beBytes (k n : Nat) : (beBytes k n).length = k := by
  induction k <;> simp [beBytes, *]

theorem beValue_beBytes (k n : Nat) : beValue (beBytes k n) = n % 256 ^ k := by
  induction k with
  | zero => simp [beBytes, beValue, Nat.mod_one]
  | succ k ih =>
    have h8 : (UInt8.ofNat (n / 256 ^ k)).toNat = n / 256 ^ k % 256 := by
      simp [UInt8.toNat, UInt8.ofNat, BitVec.toNat_ofNat]
    rw [beBytes, beValue, length_beBytes, ih, h8, Nat.mod_pow_succ, Nat.mul_comm, Nat.add_comm]

theorem uint64_toNat_ofNat (n : Nat) : (UInt64.ofNat n).toNat = n % 2 ^ 64 := by
  simp [UInt64.toNat, UInt64.ofNat, BitVec.toNat_ofNat]

theorem uint64_toNat_add (a b : UInt64) : (a + b).toNat = (a.toNat + b.toNat) % 2 ^ 64 := by
  simp [UInt64.toNat, UInt64.add_def, BitVec.toNat_add]

theorem uint64_lt_iff (a b : UInt64) : a < b ↔ a.toNat < b.toNat := by
  simp [UInt64.lt_def, BitVec.lt_def, UInt64.toNat]

@[simp] theorem uint64_ofNat_toNat (a : UInt64) : UInt64.ofNat a.toNat = a :=
  UInt64.toNat.inj (by rw [uint64_toNat_ofNat]; exact Nat.mod_eq_of_lt a.toNat_lt_size)

theorem uint64_ofNat_add (a b : Nat) : UInt64.ofNat (a + b) = UInt64.ofNat a + UInt64.ofNat b :=
  UInt64.toNat.inj (by simp only [uint64_toNat_add, uint64_toNat_ofNat]; omega)

/-- How a call ends when it does not return: a Go runtime panic, or
`log.Fatalf`, which exits the process. -/
inductive Halt where
  | panic (msg : String)
  | fatal (msg : String)
  deriving DecidableEq

section ExceptLemmas

variable {ε α β : Type}

@[simp] theorem except_pure (a : α) : (pure a : Except ε α) = .ok a := rfl

@[simp] theorem except_ok_bind (a : α) (f : α → Except ε β) : (Except.ok a >>= f) = f a := rfl

@[simp] theorem except_error_bind (e : ε) (f : α → Except ε β) : (Except.error e >>= f) = .error e := rfl

@[simp] theorem except_map_ok (f : α → β) (a : α) : (f <$> (Except.ok a : Except ε α)) = .ok (f a) := rfl

end ExceptLemmas

def indexOutOfRange (i n : Nat) : Halt :=
  .panic ("runtime error: index out of range [" ++ toString i ++ "] with length " ++ toString n)

/-- The slice expression `s[i:]`, which panics when `i` exceeds the length. -/
def sliceFrom (s : Bytes) (i : Nat) : Except Halt Bytes :=
  if i ≤ s.length then .ok (s.drop i)
  else .error (.panic ("runtime error: slice bounds out of range [" ++ toString i ++ ":" ++
    toString s.length ++ "]"))

/-- Go's `copy(dst, src)`: overwrites the first `min (len dst) (len src)` bytes
of `dst`. -/
def goCopy (dst src : Bytes) : Bytes :=
  src.take dst.length ++ dst.drop src.length

/-- goetty's `Byte2UInt64`, that is `binary.BigEndian.Uint64`: the first 8 bytes
big-endian; a shorter slice panics at its bounds check on index 7. -/
def byte2UInt64 (data : Bytes) : Except Halt UInt64 :=
  if data.length < 8 then .error (indexOutOfRange 7 data.length)
  else .ok (UInt64.ofNat (beValue (data.take 8)))

/-- An unsigned 64-bit value read as Go's two's-complement `int64`. -/
def toInt64 (n : Nat) : Int :=
  if n < 2 ^ 63 then n else n - 2 ^ 64

/-- goetty's `Byte2Int64`: the first 8 bytes as a big-endian `int64`, read one
index at a time, so a shorter slice panics at its first missing index. -/
def byte2Int64 (data : Bytes) : Except Halt Int :=
  if data.length < 8 then .error (indexOutOfRange data.length data.length)
  else .ok (toInt64 (beValue (data.take 8)))

/-- goetty's `Uint64ToBytesTo`, that is `binary.BigEndian.PutUint64`: writes `v`
into the first 8 bytes of `ret`. -/
def uint64ToBytesTo (v : UInt64) (ret : Bytes) : Except Halt Bytes :=
  if ret.length < 8 then .error (indexOutOfRange 7 ret.length)
  else .ok (beBytes 8 v.toNat ++ ret.drop 8)

/-- Go's `int64` subtraction result, wrapped into the signed 64-bit range. -/
def wrapInt64 (x : Int) : Int :=
  (x + 2 ^ 63) % 2 ^ 64 - 2 ^ 63

/-- A key of the shard's data storage, by what it names. The key builders
(`itemKey`, `maxAndCleanOffsetKey`, `consumerStartKey`, `consumerEndKey`) are
not among the sources: a queue's item keys sort by offset, and its consumer
records lie between its consumer start and end keys. -/
inductive Key where
  | item (queue : Bytes) (offset : UInt64)
  | maxAndCleanOffset (queue : Bytes)
  | consumer (queue : Bytes) (id : Bytes)
  | other (raw : Bytes)
  deriving DecidableEq

/-- The data storage of one shard: its records, each key at most once. -/
structure Store where
  entries : List (Key × Bytes)
  keys_nodup : (entries.map Prod.fst).Nodup

abbrev WriteBatch := List (Key × Bytes)

structure Faults where
  get : Option String := none
  scan : Option String := none
  rangeDelete : Option String := none
  write : Option String := none

namespace Store

def empty : Store := ⟨[], List.nodup_nil⟩

/-- `Get`: the value under `k`, the empty slice when there is none. -/
def get (s : Store) (k : Key) : Bytes :=
  (s.entries.lookup k).getD []

def set (s : Store) (k : Key) (v : Bytes) : Store where
  entries := (k, v) :: s.entries.filter (fun e => e.1 != k)
  keys_nodup := by
    refine List.nodup_cons.2 ⟨?_, (List.filter_sublist _).map Prod.fst |>.nodup s.keys_nodup⟩
    simp

/-- `Scan(consumerStartKey(q), consumerEndKey(q))`: the values of queue `q`'s
consumer records. -/
def scanConsumers (s : Store) (q : Bytes) : List Bytes :=
  s.entries.filterMap fun e =>
    match e.1 with
    | .consumer q' _ => if q' = q then some e.2 else none
    | _ => none

def inItemRange (q : Bytes) (a b : UInt64) : Key → Bool
  | .item q' o => q' = q ∧ a ≤ o ∧ o < b
  | _ => false

def rangeDelete (s : Store) (q : Bytes) (a b : UInt64) : Store where
  entries := s.entries.filter fun e => !inItemRange q a b e.1
  keys_nodup := (List.filter_sublist _).map Prod.fst |>.nodup s.keys_nodup

def write (s : Store) (wb : WriteBatch) : Store :=
  wb.foldl (fun s e => s.set e.1 e.2) s

end Store

def countToClean : UInt64 := 4096

/-- `maxConsumerAlive`: seven days, in seconds. -/
def maxConsumerAlive : Int := 7 * 24 * 60 * 60

def maxUint64 : UInt64 := 18446744073709551615

/-- A `queueBatch`. Its four keys are built from the request key together, so
the model keeps that key (`queueKey`) and builds them where they are used; the
flat `pairs` slice of alternating keys and values is a list of pairs, so its
even-length check in `exec` always passes. -/
structure QueueBatch where
  loaded : Bool
  maxOffset : UInt64
  removedOffset : UInt64
  queueKey : Bytes
  maxAndCleanOffsetValue : Bytes
  pairs : List (Key × Bytes)
  deriving DecidableEq

def newQueueBatch : QueueBatch where
  loaded := false
  maxOffset := 0
  removedOffset := 0
  queueKey := []
  maxAndCleanOffsetValue := List.replicate 16 0
  pairs := []

namespace QueueBatch

/-- The `!qb.loaded` part of `queueBatch.add`: reads the queue's
`(maxOffset, removedOffset)` record into the record buffer. -/
def load (s : Store) (faults : Faults) (key : Bytes) (qb : QueueBatch) :
    Except Halt QueueBatch := do
  let value ← match faults.get with
    | some err => throw (.fatal ("load max queue offset failed with " ++ err))
    | none => pure (s.get (.maxAndCleanOffset key))
  let qb := { qb with queueKey := key }
  if value.length > 0 then
    let buf := goCopy qb.maxAndCleanOffsetValue value
    let m ← byte2UInt64 buf
    let r ← byte2UInt64 (← sliceFrom buf 8)
    pure { qb with maxAndCleanOffsetValue := buf, maxOffset := m, removedOffset := r,
                   loaded := true }
  else
    pure { qb with loaded := true }

def appendItems (key : Bytes) (items : List Bytes) (qb : QueueBatch) : QueueBatch :=
  items.foldl (fun qb item =>
    { qb with maxOffset := qb.maxOffset + 1,
              pairs := qb.pairs ++ [(.item key (qb.maxOffset + 1), item)] }) qb

def add (s : Store) (faults : Faults) (key : Bytes) (items : List Bytes) (qb : QueueBatch) :
    Except Halt QueueBatch := do
  let qb ← if qb.loaded then pure qb else qb.load s faults key
  pure (qb.appendItems key items)

/-- Whether a consumer record with fetch timestamp `ts` counts as live at `now`
(`now-ts < maxConsumerAlive`, in `int64`). -/
def alive (now ts : Int) : Bool :=
  wrapInt64 (now - ts) < maxConsumerAlive

/-- The first two lines of the clean step's `Scan` callback: a consumer
record's committed offset and fetch timestamp. -/
def decodeConsumer (value : Bytes) : Except Halt (UInt64 × Int) := do
  let v ← byte2UInt64 value
  let ts ← byte2Int64 (← sliceFrom value 8)
  pure (v, ts)

/-- The clean step's `Scan` callback, run over the consumer records: the
lowest committed offset of a live consumer below `low`. -/
def consumerLow (now : Int) : List Bytes → UInt64 → Except Halt UInt64
  | [], low => .ok low
  | value :: values, low => do
    let (v, ts) ← decodeConsumer value
    consumerLow now values (if alive now ts ∧ v < low then v else low)

/-- The clean step of `queueBatch.exec`. Once it finds `low > removedOffset`
it deletes the items in `[removedOffset, low+1)` and stops the process: the
`log.Fatalf` after `RangeDelete` is not guarded by its error. -/
def clean (s : Store) (faults : Faults) (now : Int) (qb : QueueBatch) :
    Store × Except Halt QueueBatch :=
  match faults.scan with
  | some err => (s, .error (.fatal ("exec queue add batch failed with " ++ err)))
  | none =>
    match consumerLow now (s.scanConsumers qb.queueKey) maxUint64 with
    | .error h => (s, .error h)
    | .ok low =>
      if low > qb.removedOffset then
        let s' := if faults.rangeDelete.isNone then
          s.rangeDelete qb.queueKey qb.removedOffset (low + 1) else s
        (s', .error (.fatal ("exec queue add batch failed with " ++
          (faults.rangeDelete.getD "<nil>"))))
      else (s, .ok qb)

/-- The record update of `queueBatch.exec`: `maxOffset` into the first 8 bytes
of the record buffer and `removedOffset` into the next 8, through the subslice
`[8:]`. -/
def encodeRecord (m r : UInt64) (buf : Bytes) : Except Halt Bytes := do
  let buf ← uint64ToBytesTo m buf
  let tail ← uint64ToBytesTo r (← sliceFrom buf 8)
  pure (buf.take 8 ++ tail)

/-- `queueBatch.exec`: the clean step when more than `countToClean` items lie
past `removedOffset`, then the record and the item pairs into `wb`. -/
def exec (s : Store) (faults : Faults) (now : Int) (wb : WriteBatch) (qb : QueueBatch) :
    Store × Except Halt (QueueBatch × WriteBatch) :=
  if qb.maxOffset > 0 then
    let (s, r) := if qb.maxOffset - qb.removedOffset > countToClean then qb.clean s faults now
      else (s, .ok qb)
    (s, do
      let qb ← r
      let buf ← encodeRecord qb.maxOffset qb.removedOffset qb.maxAndCleanOffsetValue
      pure ({ qb with maxAndCleanOffsetValue := buf },
        wb ++ (.maxAndCleanOffset qb.queueKey, buf) :: qb.pairs))
  else (s, .ok (qb, wb ++ qb.pairs))

/-- `queueBatch.reset`: every slice is cut to length 0, the record buffer too. -/
def reset (qb : QueueBatch) : QueueBatch where
  loaded := false
  maxOffset := 0
  removedOffset := 0
  queueKey := qb.queueKey.take 0
  maxAndCleanOffsetValue := qb.maxAndCleanOffsetValue.take 0
  pairs := qb.pairs.take 0

end QueueBatch

/-- The request types; `queueBatch` supports `QueueAdd` only. -/
inductive RpcType where
  | queueAdd
  | other (code : Nat)
  deriving DecidableEq

structure Request where
  custemType : RpcType
  key : Bytes
  items : List Bytes

structure Batch where
  shard : UInt64
  writtenBytes : UInt64
  changedBytes : Int
  qb : QueueBatch
  deriving DecidableEq

def newBatch : Batch := ⟨0, 0, 0, newQueueBatch⟩

namespace QueueBatch

/-- `queueBatch.addReq`: adds a `QueueAdd` request's items and answers the new
`maxOffset`. -/
def addReq (s : Store) (faults : Faults) (req : Request) (qb : QueueBatch) :
    Except Halt (QueueBatch × UInt64) :=
  match req.custemType with
  | .queueAdd => do
    let qb ← qb.add s faults req.key req.items
    pure (qb, qb.maxOffset)
  | .other code => throw (.fatal ("BUG: not supoprt rpctype: " ++ toString code))

end QueueBatch

namespace Batch

def add (s : Store) (faults : Faults) (shard : UInt64) (req : Request) (b : Batch) :
    Except Halt (Batch × Option UInt64) := do
  if b.shard ≠ 0 ∧ b.shard ≠ shard then
    throw (.fatal ("BUG: diffent shard opts in a batch, " ++ toString b.shard ++ ", " ++
      toString shard))
  let b := { b with shard := shard }
  match req.custemType with
  | .queueAdd => do
    let (qb, v) ← b.qb.addReq s faults req
    pure ({ b with qb := qb }, some v)
  | .other _ => pure (b, none)

def execute (s : Store) (faults : Faults) (now : Int) (b : Batch) :
    Store × Except Halt (Batch × Except String (UInt64 × Int)) :=
  match b.qb.exec s faults now [] with
  | (s, .error h) => (s, .error h)
  | (s, .ok (qb, wb)) =>
    let b := { b with qb := qb }
    match faults.write with
    | some err => (s, .ok (b, .error err))
    | none => (s.write wb, .ok (b, .ok (b.writtenBytes, b.changedBytes)))

/-- `batch.Reset`. -/
def reset (b : Batch) : Batch :=
  ⟨0, 0, 0, b.qb.reset⟩

/-- The `Add` calls a Raft apply makes on one batch, in order, with their
answers. -/
def addAll (s : Store) (faults : Faults) (shard : UInt64) :
    List Request → Batch → Except Halt (Batch × List (Option UInt64))
  | [], b => .ok (b, [])
  | req :: reqs, b => do
    let (b, resp) ← b.add s faults shard req
    let (b, resps) ← addAll s faults shard reqs b
    pure (b, resp :: resps)

end Batch

/-- A call on a batch: the Raft apply loop `Add`s the requests of a log entry,
`Execute`s the batch at the clock reading `now`, and `Reset`s it. -/
inductive Call where
  | add (shard : UInt64) (req : Request)
  | execute (now : Int)
  | reset

inductive Reply where
  | added (resp : Option UInt64)
  | executed (result : Except String (UInt64 × Int))
  | reset

/-- A run of calls: the replies until the process stops, the halt if it does,
and the store as the run leaves it. -/
def run (faults : Faults) : List Call → Store → Batch → Store × List Reply × Option Halt
  | [], s, _ => (s, [], none)
  | .add shard req :: calls, s, b =>
    match b.add s faults shard req with
    | .error h => (s, [], some h)
    | .ok (b, resp) =>
      let (s, rs, h) := run faults calls s b
      (s, .added resp :: rs, h)
  | .execute now :: calls, s, b =>
    match b.execute s faults now with
    | (s, .error h) => (s, [], some h)
    | (s, .ok (b, r)) =>
      let (s, rs, h) := run faults calls s b
      (s, .executed r :: rs, h)
  | .reset :: calls, s, b =>
    let (s, rs, h) := run faults calls s b.reset
    (s, .reset :: rs, h)

end Busybee.Storage
