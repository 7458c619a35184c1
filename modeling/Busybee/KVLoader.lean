import Busybee.Crowd
import Mathlib.Data.Finset.Sort
set_option autoImplicit false

/-!
`kvLoader.Get` loads a crowd that the KV store keeps under a key, one page a
`BMRange` request: the members from `start` on, at most `limit` of them. The
next page starts one past the maximum loaded so far, in uint32 arithmetic. The
bytes counted in `total` are only logged.
-/

namespace Busybee.Crowd

def limit : UInt64 := 80000

/-- The loop of `kvLoader.Get`, from `start`, with the bitmap `bm` loaded so
far; the store answers `BMRange(key, start, limit)` with `range start limit`.
The loop has no bound; `none` when it has not stopped after `fuel` pages. -/
def getFrom (range : UInt32 → UInt64 → Except String (List UInt32)) :
    Nat → UInt32 → Bitmap → Option (Except String Bitmap)
  | 0, _, _ => none
  | fuel + 1, start, bm =>
    match range start limit with
    | .error err => some (.error err)
    | .ok values =>
      if values.isEmpty then some (.ok bm)
      else
        let bm := bm ∪ values.toFinset
        getFrom range fuel (bm.maximum + 1) bm

/-- `kvLoader.Get`. -/
def get (range : UInt32 → UInt64 → Except String (List UInt32)) (fuel : Nat) :
    Option (Except String Bitmap) :=
  getFrom range fuel 0 ∅

def ascendingFrom (B : Bitmap) (start : UInt32) : List Nat :=
  ((B.filter (start ≤ ·)).image UInt32.toNat).sort (· ≤ ·)

/-- Modelled from the spec: the store's `BMRange` is not in the sources. It
answers the first `n` members of the bitmap `B` that are `≥ start`, in
ascending order. -/
def bmRange (B : Bitmap) (start : UInt32) (n : UInt64) : List UInt32 :=
  ((ascendingFrom B start).take n.toNat).map UInt32.ofNat

def storeRange (B : Bitmap) : UInt32 → UInt64 → Except String (List UInt32) :=
  fun start n => .ok (bmRange B start n)

theorem mem_take_of_le {L : List Nat} (hL : L.Sorted (· < ·)) {k x y : Nat}
    (hy : y ∈ L.take k) (hx : x ∈ L) (hxy : x ≤ y) : x ∈ L.take k := by
  induction L generalizing k with
  | nil => simp at hx
  | cons a L ih =>
    obtain ⟨ha, hL⟩ := List.sorted_cons.1 hL
    cases k with
    | zero => simp at hy
    | succ k =>
      simp only [List.take_succ_cons, List.mem_cons] at hy hx ⊢
      rcases hx with rfl | hx
      · exact .inl rfl
      · rcases hy with rfl | hy
        · exact absurd (ha x hx) (Nat.not_lt.2 hxy)
        · exact .inr (ih hL hy hx)

variable {B : Bitmap} {start x y : UInt32} {n : UInt64}

theorem mem_ascendingFrom {m : Nat} :
    m ∈ ascendingFrom B start ↔ ∃ x ∈ B, start.toNat ≤ x.toNat ∧ x.toNat = m := by
  simp [ascendingFrom, Finset.mem_sort, uint32_le_iff, and_assoc]

theorem mem_bmRange : x ∈ bmRange B start n ↔ x.toNat ∈ (ascendingFrom B start).take n.toNat := by
  simp only [bmRange, List.mem_map]
  refine ⟨?_, fun h => ⟨_, h, uint32_ofNat_toNat x⟩⟩
  rintro ⟨m, hm, rfl⟩
  obtain ⟨y, -, -, rfl⟩ := mem_ascendingFrom.1 (List.mem_of_mem_take hm)
  rwa [uint32_ofNat_toNat]

theorem mem_bmRange_ge (h : x ∈ bmRange B start n) : x ∈ B ∧ start.toNat ≤ x.toNat := by
  obtain ⟨y, hy, hs, hyx⟩ := mem_ascendingFrom.1 (List.mem_of_mem_take (mem_bmRange.1 h))
  obtain rfl : y = x := UInt32.toNat.inj hyx
  exact ⟨hy, hs⟩

theorem mem_bmRange_of_le (hx : x ∈ B) (hsx : start.toNat ≤ x.toNat) (hy : y ∈ bmRange B start n)
    (hxy : x.toNat ≤ y.toNat) : x ∈ bmRange B start n :=
  mem_bmRange.2 <| mem_take_of_le (Finset.sort_sorted_lt _) (mem_bmRange.1 hy)
    (mem_ascendingFrom.2 ⟨x, hx, hsx, rfl⟩) hxy

theorem bmRange_eq_nil (hn : 0 < n.toNat) :
    bmRange B start n = [] ↔ ∀ x ∈ B, x.toNat < start.toNat := by
  rw [bmRange, List.map_eq_nil_iff, List.take_eq_nil_iff, or_iff_right (Nat.pos_iff_ne_zero.1 hn),
    List.eq_nil_iff_forall_not_mem]
  simp only [mem_ascendingFrom, not_exists, not_and]
  exact ⟨fun h x hx => Nat.lt_of_not_le fun hs => h _ x hx hs rfl,
    fun h _ x hx hs _ => absurd (h x hx) (Nat.not_lt.2 hs)⟩

theorem getFrom_storeRange (fuel : Nat) (start : UInt32) (bm : Bitmap) :
    getFrom (storeRange B) (fuel + 1) start bm =
      if bmRange B start limit = [] then some (.ok bm)
      else getFrom (storeRange B) fuel ((bm ∪ (bmRange B start limit).toFinset).maximum + 1)
        (bm ∪ (bmRange B start limit).toFinset) := by
  simp only [getFrom, storeRange, List.isEmpty_iff]

theorem limit_pos : 0 < limit.toNat := by decide

/-- When `B` holds the user 4294967295, every start is at most it, every page
is non-empty, and the loop never stops. -/
theorem getFrom_eq_none (htop : 4294967295 ∈ B) :
    ∀ fuel start bm, getFrom (storeRange B) fuel start bm = none
  | 0, _, _ => rfl
  | fuel + 1, start, bm => by
    rw [getFrom_storeRange, if_neg, getFrom_eq_none htop fuel]
    rw [bmRange_eq_nil limit_pos]
    have := start.toNat_lt_size
    exact fun h => absurd (h _ htop) (by simp only [UInt32.size] at this; simp; omega)

theorem mem_union_bmRange {bm : Bitmap} (hbm : bm = B.filter (·.toNat < start.toNat))
    (hne : bmRange B start n ≠ []) (x : UInt32) :
    x ∈ bm ∪ (bmRange B start n).toFinset ↔
      x ∈ B ∧ x.toNat ≤ (bm ∪ (bmRange B start n).toFinset).maximum.toNat := by
  subst hbm
  have hnonempty : (B.filter (·.toNat < start.toNat) ∪ (bmRange B start n).toFinset).Nonempty := by
    obtain ⟨y, hy⟩ := List.exists_mem_of_ne_nil _ hne
    exact ⟨y, Finset.mem_union_right _ (List.mem_toFinset.2 hy)⟩
  obtain ⟨hmax, hle⟩ := Bitmap.maximum_mem_le hnonempty
  simp only [Finset.mem_union, Finset.mem_filter, List.mem_toFinset] at hmax hle ⊢
  refine ⟨fun hx => ⟨hx.elim (·.1) fun h => (mem_bmRange_ge h).1, hle x hx⟩, fun ⟨hx, hxm⟩ => ?_⟩
  by_cases hs : x.toNat < start.toNat
  · exact .inl ⟨hx, hs⟩
  · rcases hmax with hmax | hmax
    · omega
    · exact .inr (mem_bmRange_of_le hx (Nat.le_of_not_lt hs) hmax hxm)

theorem union_bmRange_next (htop : 4294967295 ∉ B) {bm : Bitmap}
    (hbm : bm = B.filter (·.toNat < start.toNat)) (hne : bmRange B start n ≠ []) :
    bm ∪ (bmRange B start n).toFinset =
        B.filter (·.toNat < (Bitmap.maximum (bm ∪ (bmRange B start n).toFinset) + 1).toNat) ∧
      (B.filter ((Bitmap.maximum (bm ∪ (bmRange B start n).toFinset) + 1).toNat ≤ ·.toNat)).card <
        (B.filter (start.toNat ≤ ·.toNat)).card := by
  have hmem := mem_union_bmRange hbm hne
  obtain ⟨y, hy⟩ := List.exists_mem_of_ne_nil _ hne
  have hy' : y ∈ bm ∪ (bmRange B start n).toFinset := Finset.mem_union_right _ (List.mem_toFinset.2 hy)
  obtain ⟨hyB, hsy⟩ := mem_bmRange_ge hy
  have hym := ((hmem y).1 hy').2
  have hend := Bitmap.maximum_add_one_toNat ⟨y, hy'⟩ fun h => htop ((hmem _).1 h).1
  refine ⟨Finset.ext fun x => by rw [hmem, Finset.mem_filter, hend, Nat.lt_succ_iff],
    Finset.card_lt_card (Finset.ssubset_iff_of_subset (fun x hx => ?_) |>.2 ⟨y, ?_, ?_⟩)⟩
  · simp only [Finset.mem_filter, hend] at hx ⊢
    exact ⟨hx.1, by omega⟩
  · exact Finset.mem_filter.2 ⟨hyB, hsy⟩
  · simp only [Finset.mem_filter, hend]
    exact fun h => absurd h.2 (by omega)

/-- Off the user 4294967295, the loop from `start`, with every member below
`start` loaded, returns `B` once it has more pages than members left. -/
theorem getFrom_eq_some (htop : 4294967295 ∉ B) :
    ∀ fuel start bm, bm = B.filter (·.toNat < start.toNat) →
      (B.filter (start.toNat ≤ ·.toNat)).card < fuel →
      getFrom (storeRange B) fuel start bm = some (.ok B)
  | 0, _, _, _, h => absurd h (Nat.not_lt_zero _)
  | fuel + 1, start, bm, hbm, hfuel => by
    rw [getFrom_storeRange]
    split_ifs with hnil
    · rw [hbm, Finset.filter_true_of_mem ((bmRange_eq_nil limit_pos).1 hnil)]
    · obtain ⟨hbm', hcard⟩ := union_bmRange_next htop hbm hnil
      exact getFrom_eq_some htop fuel _ _ hbm' (by omega)

/-- Off the user 4294967295, `Get` returns the stored bitmap, once it may load
more pages than the bitmap has members. -/
theorem get_eq_some (htop : 4294967295 ∉ B) {fuel : Nat} (hfuel : B.card < fuel) :
    get (storeRange B) fuel = some (.ok B) :=
  getFrom_eq_some htop fuel 0 ∅ (by simp) (by simpa using hfuel)

theorem get_two_members :
    4294967295 ∉ ({1, 2} : Bitmap) ∧ ({1, 2} : Bitmap).card < 3 ∧
      get (storeRange {1, 2}) 3 = some (.ok {1, 2}) :=
  ⟨by decide, by decide, get_eq_some (by decide) (by decide)⟩

/-- The stored crowd `{1, 4294967295}`: its first page holds both members, the
next starts at `4294967295 + 1 = 0`, and `Get` fetches the first page again and
again, whatever the number of pages allowed. -/
theorem get_never_returns (fuel : Nat) : get (storeRange {1, 4294967295}) fuel = none :=
  getFrom_eq_none (by decide) fuel 0 ∅

end Busybee.Crowd
