import Mathlib.Data.Finset.Card
import Mathlib.Data.Finset.Max
set_option autoImplicit false

/-!
Crowds. A crowd is a roaring bitmap of 32-bit user ids. The transaction and the
engine use only its set operations (`Or`, `And`, `AndNot`, `Add`, `Remove`,
`Contains`, `GetCardinality`), so a crowd is modelled by its members.
-/

namespace Busybee

/-- A roaring bitmap, by its members. -/
abbrev Bitmap := Finset UInt32

/-- The step crowds split `total`: they are pairwise disjoint and their union is `total`. -/
def Partition (crowds : List Bitmap) (total : Bitmap) : Prop :=
  crowds.Pairwise Disjoint ∧ crowds.foldr (· ∪ ·) ∅ = total

instance (crowds : List Bitmap) (total : Bitmap) : Decidable (Partition crowds total) :=
  inferInstanceAs (Decidable (_ ∧ _))

def Holds (crowds : List Bitmap) (i : Nat) (u : UInt32) : Prop :=
  ∃ S, crowds[i]? = some S ∧ u ∈ S

theorem mem_foldr_union_iff {crowds : List Bitmap} {u : UInt32} :
    u ∈ crowds.foldr (· ∪ ·) ∅ ↔ ∃ S ∈ crowds, u ∈ S := by
  induction crowds with
  | nil => simp
  | cons S rest ih => simp [ih]

theorem mem_foldr_union {crowds : List Bitmap} {u : UInt32} :
    u ∈ crowds.foldr (· ∪ ·) ∅ ↔ ∃ i, Holds crowds i u := by
  simp only [mem_foldr_union_iff, List.mem_iff_getElem?, Holds]
  exact ⟨fun ⟨S, ⟨i, hi⟩, hu⟩ => ⟨i, S, hi, hu⟩, fun ⟨i, S, hi, hu⟩ => ⟨S, ⟨i, hi⟩, hu⟩⟩

theorem pairwise_disjoint_iff {crowds : List Bitmap} :
    crowds.Pairwise Disjoint ↔ ∀ u i j, Holds crowds i u → Holds crowds j u → i = j := by
  constructor
  · rintro h u i j ⟨S, hS, hu⟩ ⟨T, hT, hu'⟩
    obtain ⟨hi, rfl⟩ := List.getElem?_eq_some_iff.1 hS
    obtain ⟨hj, rfl⟩ := List.getElem?_eq_some_iff.1 hT
    by_contra hij
    rcases Nat.lt_or_gt_of_ne hij with hlt | hlt
    · exact Finset.disjoint_left.1 (List.pairwise_iff_getElem.1 h i j hi hj hlt) hu hu'
    · exact Finset.disjoint_left.1 (List.pairwise_iff_getElem.1 h j i hj hi hlt) hu' hu
  · refine fun h => List.pairwise_iff_getElem.2 fun i j hi hj hlt => ?_
    exact Finset.disjoint_left.2 fun u hu hu' => Nat.ne_of_lt hlt <|
      h u i j ⟨_, List.getElem?_eq_getElem hi, hu⟩ ⟨_, List.getElem?_eq_getElem hj, hu'⟩

/-- The partition user by user: each user is held at one position at most, and
at some position exactly when it belongs to `total`. -/
theorem partition_iff {crowds : List Bitmap} {total : Bitmap} :
    Partition crowds total ↔
      ∀ u, (∀ i j, Holds crowds i u → Holds crowds j u → i = j) ∧
        (u ∈ total ↔ ∃ i, Holds crowds i u) := by
  simp only [Partition, pairwise_disjoint_iff, Finset.ext_iff, mem_foldr_union, forall_and]
  exact and_congr_right fun _ => forall_congr' fun _ => Iff.comm

/-- What a move does to the step crowds: the users `W` leave every crowd and
join the crowd at position `f`. -/
def moveUsers (crowds : List Bitmap) (W : Bitmap) (f : Nat) : List Bitmap :=
  crowds.mapIdx fun i S => S \ W ∪ if i = f then W else ∅

/-- What a crowd update does to the step crowds: newcomers (`N \ T`) join the
first crowd, and every crowd keeps only users of the new total `N`. -/
def updateTotal (crowds : List Bitmap) (T N : Bitmap) : List Bitmap :=
  crowds.mapIdx fun i S => (if i = 0 then S ∪ N \ T else S) ∩ N

@[simp] theorem length_moveUsers (crowds : List Bitmap) (W : Bitmap) (f : Nat) :
    (moveUsers crowds W f).length = crowds.length := List.length_mapIdx ..

@[simp] theorem length_updateTotal (crowds : List Bitmap) (T N : Bitmap) :
    (updateTotal crowds T N).length = crowds.length := List.length_mapIdx ..

@[simp] theorem moveUsers_empty (crowds : List Bitmap) (f : Nat) : moveUsers crowds ∅ f = crowds :=
  List.ext_getElem? fun i => by simp [moveUsers, List.getElem?_mapIdx]

theorem holds_moveUsers {crowds : List Bitmap} {W : Bitmap} {f i : Nat} {u : UInt32} :
    Holds (moveUsers crowds W f) i u ↔
      u ∈ W ∧ i = f ∧ f < crowds.length ∨ u ∉ W ∧ Holds crowds i u := by
  by_cases hi : i < crowds.length
  · obtain rfl | hf := eq_or_ne i f <;> by_cases hw : u ∈ W <;>
      simp [Holds, moveUsers, List.getElem?_eq_getElem hi, hi, hw, *]
  · simp [Holds, moveUsers, List.getElem?_eq_none (Nat.le_of_not_lt hi)]
    omega

theorem holds_updateTotal {crowds : List Bitmap} {T N : Bitmap} {i : Nat} {u : UInt32} :
    Holds (updateTotal crowds T N) i u ↔
      u ∈ N ∧ (Holds crowds i u ∨ i = 0 ∧ u ∉ T ∧ 0 < crowds.length) := by
  by_cases hi : i < crowds.length
  · obtain rfl | h0 := eq_or_ne i 0 <;>
      simp [Holds, updateTotal, List.getElem?_eq_getElem hi, hi, *] <;> tauto
  · simp [Holds, updateTotal, List.getElem?_eq_none (Nat.le_of_not_lt hi)]
    rintro - rfl -
    exact List.length_eq_zero.1 (by omega)

/-- A move keeps the partition, whatever crowds the users came from, as long as
they belong to the total crowd and the target position exists. -/
theorem partition_moveUsers {crowds : List Bitmap} {total W : Bitmap} {f : Nat}
    (h : Partition crowds total) (hW : W ⊆ total) (hf : f < crowds.length) :
    Partition (moveUsers crowds W f) total := by
  refine partition_iff.2 fun u => ?_
  obtain ⟨huniq, hmem⟩ := partition_iff.1 h u
  simp only [holds_moveUsers]
  by_cases hw : u ∈ W
  · simp only [hw, true_and, not_true_eq_false, false_and, or_false]
    exact ⟨fun i j hi hj => hi.1.trans hj.1.symm, iff_of_true (hW hw) ⟨f, rfl, hf⟩⟩
  · simpa [hw] using ⟨huniq, hmem⟩

/-- A crowd update keeps the partition, moved onto the new total, as long as
there is a first step to take the newcomers. -/
theorem partition_updateTotal {crowds : List Bitmap} {T N : Bitmap}
    (h : Partition crowds T) (hne : 0 < crowds.length) :
    Partition (updateTotal crowds T N) N := by
  refine partition_iff.2 fun u => ?_
  obtain ⟨huniq, hmem⟩ := partition_iff.1 h u
  simp only [holds_updateTotal, hne, and_true]
  by_cases hT : u ∈ T
  · have hold : ∀ i, u ∈ N ∧ (Holds crowds i u ∨ i = 0 ∧ u ∉ T) → Holds crowds i u :=
      fun i hi => hi.2.resolve_right (·.2 hT)
    obtain ⟨i, hi⟩ := hmem.1 hT
    exact ⟨fun i j hi hj => huniq i j (hold i hi) (hold j hj),
      fun hN => ⟨i, hN, .inl hi⟩, fun ⟨_, hN, _⟩ => hN⟩
  · have hnew : ∀ i, u ∈ N ∧ (Holds crowds i u ∨ i = 0 ∧ u ∉ T) → i = 0 :=
      fun i hi => (hi.2.resolve_left fun h => hT (hmem.2 ⟨i, h⟩)).1
    exact ⟨fun i j hi hj => (hnew i hi).trans (hnew j hj).symm,
      fun hN => ⟨0, hN, .inr ⟨rfl, hT⟩⟩, fun ⟨_, hN, _⟩ => hN⟩

theorem Partition.subset {crowds : List Bitmap} {total S : Bitmap} {a : Nat}
    (h : Partition crowds total) (ha : crowds[a]? = some S) : S ⊆ total :=
  fun u hu => ((partition_iff.1 h u).2).2 ⟨a, S, ha, hu⟩

theorem Partition.disjoint_of_ne {crowds : List Bitmap} {total S T W : Bitmap} {a i : Nat}
    (h : Partition crowds total) (ha : crowds[a]? = some S) (hW : W ⊆ S)
    (hi : crowds[i]? = some T) (hne : i ≠ a) : Disjoint T W :=
  Finset.disjoint_left.2 fun u hT hu =>
    hne ((partition_iff.1 h u).1 i a ⟨T, hi, hT⟩ ⟨S, ha, hW hu⟩)

theorem Partition.moveUsers_eq_set {crowds : List Bitmap} {total S Sf W : Bitmap} {a f : Nat}
    (h : Partition crowds total) (ha : crowds[a]? = some S) (hW : W ⊆ S)
    (hf : crowds[f]? = some Sf) :
    moveUsers crowds W f = (crowds.set a (S \ W)).set f ((if f = a then S \ W else Sf) ∪ W) := by
  have hfl : f < crowds.length := (List.getElem?_eq_some_iff.1 hf).1
  have hal : a < crowds.length := (List.getElem?_eq_some_iff.1 ha).1
  refine List.ext_getElem? fun i => ?_
  simp only [Busybee.moveUsers, List.getElem?_mapIdx, List.getElem?_set, List.length_set, hfl, hal,
    if_true]
  by_cases hif : f = i
  · subst hif
    by_cases hfa : f = a
    · subst hfa; simp [ha]
    · simp [hf, hfa, Finset.sdiff_union_self_eq_union]
  · by_cases hia : a = i
    · subst hia; simp [ha, hif, Ne.symm hif]
    · rcases hi : crowds[i]? with _ | T
      · simp [hif, hia]
      · simp [hif, hia, Ne.symm hif,
          Finset.sdiff_eq_self_of_disjoint (h.disjoint_of_ne ha hW hi (Ne.symm hia))]

theorem uint32_toNat_ofNat (n : Nat) : (UInt32.ofNat n).toNat = n % 2 ^ 32 := by
  simp [UInt32.toNat, UInt32.ofNat, BitVec.toNat_ofNat]

theorem uint32_toNat_add (a b : UInt32) : (a + b).toNat = (a.toNat + b.toNat) % 2 ^ 32 := by
  simp [UInt32.toNat, UInt32.add_def, BitVec.toNat_add]

theorem uint32_le_iff (a b : UInt32) : a ≤ b ↔ a.toNat ≤ b.toNat := by
  simp [UInt32.le_def, BitVec.le_def, UInt32.toNat]

theorem uint32_lt_iff (a b : UInt32) : a < b ↔ a.toNat < b.toNat := by
  simp [UInt32.lt_def, BitVec.lt_def, UInt32.toNat]

@[simp] theorem uint32_ofNat_toNat (a : UInt32) : UInt32.ofNat a.toNat = a :=
  UInt32.toNat.inj (by rw [uint32_toNat_ofNat]; exact Nat.mod_eq_of_lt a.toNat_lt_size)

theorem uint32_toNat_add_one {a : UInt32} (h : a.toNat < 4294967295) : (a + 1).toNat = a.toNat + 1 := by
  have h1 : (1 : UInt32).toNat = 1 := rfl
  rw [uint32_toNat_add, h1]
  omega

/-- `Minimum()`. Roaring does not answer it for an empty bitmap; the model
answers 0 there, which no caller reads. -/
def Bitmap.minimum (b : Bitmap) : UInt32 :=
  if h : b.Nonempty then UInt32.ofNat ((b.image UInt32.toNat).min' (h.image _)) else 0

/-- `Maximum()`, with the same convention for an empty bitmap. -/
def Bitmap.maximum (b : Bitmap) : UInt32 :=
  if h : b.Nonempty then UInt32.ofNat ((b.image UInt32.toNat).max' (h.image _)) else 0

variable {b : Bitmap}

theorem Bitmap.minimum_mem_le (h : b.Nonempty) :
    b.minimum ∈ b ∧ ∀ x ∈ b, b.minimum.toNat ≤ x.toNat := by
  obtain ⟨y, hy, hmin⟩ := Finset.mem_image.1 ((b.image UInt32.toNat).min'_mem (h.image _))
  rw [Bitmap.minimum, dif_pos h, ← hmin, uint32_ofNat_toNat]
  exact ⟨hy, fun x hx => hmin ▸ Finset.min'_le _ _ (Finset.mem_image_of_mem _ hx)⟩

theorem Bitmap.maximum_mem_le (h : b.Nonempty) :
    b.maximum ∈ b ∧ ∀ x ∈ b, x.toNat ≤ b.maximum.toNat := by
  obtain ⟨y, hy, hmax⟩ := Finset.mem_image.1 ((b.image UInt32.toNat).max'_mem (h.image _))
  rw [Bitmap.maximum, dif_pos h, ← hmax, uint32_ofNat_toNat]
  exact ⟨hy, fun x hx => hmax ▸ Finset.le_max' _ _ (Finset.mem_image_of_mem _ hx)⟩

theorem Bitmap.maximum_add_one_toNat (hne : b.Nonempty) (htop : 4294967295 ∉ b) :
    (b.maximum + 1).toNat = b.maximum.toNat + 1 := by
  refine uint32_toNat_add_one (Nat.lt_of_le_of_ne (Nat.le_of_lt_succ b.maximum.toNat_lt_size) fun h => ?_)
  exact htop (UInt32.toNat.inj (show b.maximum.toNat = (4294967295 : UInt32).toNat from h) ▸
    (Bitmap.maximum_mem_le hne).1)

end Busybee
