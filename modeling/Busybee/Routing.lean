import Busybee.Crowd
set_option autoImplicit false

/-!
The shard ranges of an instance and the range lookup of the old `engine.Step`.
`addShardRangesToCache` turns each shard that `BMSplit` gave into the range
`[Minimum, Maximum+1)`, in uint32 arithmetic. `Step` sends an event of user `u`
to the first range that holds `u`, and answers an error when none does.
-/

namespace Busybee.Engine

structure Metapb.Event where
  instanceID : UInt64
  userID : UInt32
  deriving DecidableEq, Repr

structure StepInstanceStateShardRequest where
  event : Metapb.Event
  start : UInt32
  «end» : UInt32
  deriving DecidableEq, Repr

/-- `addShardRangesToCache` on a miss of the range cache: one range a shard. A
hit returns what the miss stored for the same instance. -/
def addShardRangesToCache (shards : List Bitmap) : List (UInt32 × UInt32) :=
  shards.map fun shard => (shard.minimum, shard.maximum + 1)

/-- The loop of `Step` over the ranges: the first `r` with `r[0] ≤ u < r[1]`,
and `(0, 0)` when there is none. -/
def findRange (ranges : List (UInt32 × UInt32)) (u : UInt32) : UInt32 × UInt32 :=
  (ranges.find? fun r => decide (r.1 ≤ u) && decide (u < r.2)).getD (0, 0)

/-- `engine.Step`, once `maybeLoadInstanceStateShardRanges` has answered
`ranges`: nothing for a stopped instance, else the request it hands to
`ExecCommand`. -/
def step (ranges : List (UInt32 × UInt32)) (event : Metapb.Event) :
    Except String (Option StepInstanceStateShardRequest) :=
  if ranges.isEmpty then .ok none
  else
    let r := findRange ranges event.userID
    if r.1 = 0 ∧ r.2 = 0 then
      .error ("instance state range not found by user " ++ toString event.instanceID)
    else .ok (some ⟨event, r.1, r.2⟩)

def RangesDisjoint (a b : Bitmap) : Prop :=
  a.maximum.toNat < b.minimum.toNat ∨ b.maximum.toNat < a.minimum.toNat

theorem find?_eq_some_of_unique {α : Type} {p : α → Bool} {l : List α} {a : α} (ha : a ∈ l)
    (hp : p a = true) (huniq : ∀ b ∈ l, p b = true → b = a) : l.find? p = some a := by
  induction l with
  | nil => simp at ha
  | cons x l ih =>
    by_cases hx : p x = true
    · rw [List.find?_cons_of_pos _ hx, huniq x (List.mem_cons_self x l) hx]
    · rw [List.find?_cons_of_neg _ hx]
      refine ih ((List.mem_cons.1 ha).resolve_left ?_) fun b hb => huniq b (List.mem_cons_of_mem x hb)
      rintro rfl
      exact hx hp

/-- Off the user 4294967295, the range of a shard holds exactly the users
between its minimum and its maximum. -/
theorem range_holds_iff {b : Bitmap} (hne : b.Nonempty) (htop : 4294967295 ∉ b) (u : UInt32) :
    (decide (b.minimum ≤ u) && decide (u < b.maximum + 1)) = true ↔
      b.minimum.toNat ≤ u.toNat ∧ u.toNat ≤ b.maximum.toNat := by
  simp only [Bool.and_eq_true, decide_eq_true_eq, uint32_le_iff, uint32_lt_iff,
    Bitmap.maximum_add_one_toNat hne htop]
  omega

/-- A member `u` of one of the shards `BMSplit` gives (non-empty, with
disjoint value ranges) is sent to that shard, as long as no shard holds the
user 4294967295. -/
theorem step_of_mem {shards : List Bitmap} {shard : Bitmap} {event : Metapb.Event}
    (hne : ∀ b ∈ shards, b.Nonempty) (hdisj : shards.Pairwise RangesDisjoint)
    (htop : ∀ b ∈ shards, 4294967295 ∉ b) (hmem : shard ∈ shards) (hu : event.userID ∈ shard) :
    step (addShardRangesToCache shards) event = .ok (some ⟨event, shard.minimum, shard.maximum + 1⟩) := by
  have hrange (b) (hb : b ∈ shards) := range_holds_iff (hne b hb) (htop b hb) event.userID
  have hs : shard.minimum.toNat ≤ event.userID.toNat ∧ event.userID.toNat ≤ shard.maximum.toNat :=
    ⟨(Bitmap.minimum_mem_le (hne _ hmem)).2 _ hu, (Bitmap.maximum_mem_le (hne _ hmem)).2 _ hu⟩
  have hfind : shards.find? (fun b => decide (b.minimum ≤ event.userID) &&
      decide (event.userID < b.maximum + 1)) = some shard := by
    refine find?_eq_some_of_unique hmem ((hrange _ hmem).2 hs) fun b hb hp => ?_
    by_contra hne'
    have hbu := (hrange b hb).1 hp
    rcases hdisj.forall (fun _ _ h => h.symm) hb hmem hne' with h | h <;> omega
  have hend : shard.maximum + 1 ≠ 0 := fun h => by
    simpa [h] using Bitmap.maximum_add_one_toNat (hne _ hmem) (htop _ hmem)
  simp [step, findRange, addShardRangesToCache, List.find?_map, Function.comp_def, hfind, hend,
    List.ne_nil_of_mem hmem]

theorem step_of_mem_two_shards :
    (∀ b ∈ [({1, 2} : Bitmap), {5}], b.Nonempty) ∧ [({1, 2} : Bitmap), {5}].Pairwise RangesDisjoint ∧
      (∀ b ∈ [({1, 2} : Bitmap), {5}], 4294967295 ∉ b) ∧
      step (addShardRangesToCache [{1, 2}, {5}]) ⟨7, 5⟩ = .ok (some ⟨⟨7, 5⟩, 5, 6⟩) := by
  have hne : ∀ b ∈ [({1, 2} : Bitmap), {5}], b.Nonempty := by decide
  have hdisj : [({1, 2} : Bitmap), {5}].Pairwise RangesDisjoint :=
    List.pairwise_pair.2 (.inl (by decide))
  have htop : ∀ b ∈ [({1, 2} : Bitmap), {5}], 4294967295 ∉ b := by decide
  exact ⟨hne, hdisj, htop, (step_of_mem hne hdisj htop
    (show ({5} : Bitmap) ∈ [({1, 2} : Bitmap), {5}] by simp) (by decide)).trans rfl⟩

/-- The crowd `{1, 4294967295}`, split one user a shard. User 1 is sent to its
shard; user 4294967295, the only member of the second, gets the range
`[4294967295, 0)` and is refused. -/
theorem step_range_not_found :
    addShardRangesToCache [{1}, {4294967295}] = [(1, 2), (4294967295, 0)] ∧
      step (addShardRangesToCache [{1}, {4294967295}]) ⟨7, 1⟩ = .ok (some ⟨⟨7, 1⟩, 1, 2⟩) ∧
      step (addShardRangesToCache [{1}, {4294967295}]) ⟨7, 4294967295⟩ =
        .error "instance state range not found by user 7" :=
  ⟨rfl, rfl, rfl⟩

end Busybee.Engine
