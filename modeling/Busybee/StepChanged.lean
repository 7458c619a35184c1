import Busybee.Transaction
set_option autoImplicit false

/-!
What `stepChanged` does to the step crowds and to the recorded changes, and when
it keeps the step crowds a partition of the shard's total crowd.
-/

namespace Busybee.Core

section Loop

variable {β σ : Type} (body : σ → Nat × β → Option σ)

theorem foldlM_eq_some_of_forall (xs : List (Nat × β)) (t : σ)
    (h : ∀ e ∈ xs, ∀ t, body t e = some t) : xs.foldlM body t = some t := by
  induction xs generalizing t with
  | nil => rfl
  | cons e xs ih =>
    simp only [List.foldlM_cons, h e (List.mem_cons_self ..), Option.bind_eq_bind, Option.some_bind]
    exact ih t fun e he => h e (List.mem_cons_of_mem _ he)

theorem foldlM_eq_some_of_fixed (xs : List (Nat × β)) (t : σ) (h : ∀ e ∈ xs, body t e = some t) :
    xs.foldlM body t = some t := by
  induction xs with
  | nil => rfl
  | cons e xs ih =>
    simp only [List.foldlM_cons, h e (List.mem_cons_self ..), Option.bind_eq_bind, Option.some_bind]
    exact ih fun e he => h e (List.mem_cons_of_mem _ he)

theorem getElem?_sub_succ {xs : List β} {z x : β} {n a : Nat} (h : n < a)
    (hx : (z :: xs)[a - n]? = some x) : xs[a - (n + 1)]? = some x := by
  rwa [show a - n = a - (n + 1) + 1 by omega, List.getElem?_cons_succ] at hx

theorem foldlM_enumFrom_one {xs : List β} {n a : Nat} {x : β} (hx : xs[a - n]? = some x)
    (hna : n ≤ a) (t : σ) (hid : ∀ e ∈ xs.enumFrom n, e.1 ≠ a → ∀ t, body t e = some t) :
    (xs.enumFrom n).foldlM body t = body t (a, x) := by
  induction xs generalizing n t with
  | nil => simp at hx
  | cons y xs ih =>
    simp only [List.enumFrom_cons, List.foldlM_cons, Option.bind_eq_bind] at hid ⊢
    have hrest : ∀ e ∈ xs.enumFrom (n + 1), e.1 ≠ a → ∀ t, body t e = some t :=
      fun e he => hid e (List.mem_cons_of_mem _ he)
    obtain rfl | hlt := Nat.eq_or_lt_of_le hna
    · simp only [Nat.sub_self, List.getElem?_cons_zero, Option.some.injEq] at hx
      subst hx
      have hall : ∀ e ∈ xs.enumFrom (n + 1), ∀ t, body t e = some t := fun e he =>
        hrest e he (Nat.ne_of_gt (List.le_fst_of_mem_enumFrom he))
      simp [foldlM_eq_some_of_forall body _ _ hall]
    · rw [hid (n, y) (List.mem_cons_self ..) (Nat.ne_of_lt hlt), Option.some_bind]
      exact ih (getElem?_sub_succ hlt hx) hlt t hrest

theorem foldlM_enumFrom_two {xs : List β} {n a b : Nat} {x y : β} (hx : xs[a - n]? = some x)
    (hy : xs[b - n]? = some y) (hna : n ≤ a) (hab : a < b) (t : σ)
    (hid : ∀ e ∈ xs.enumFrom n, e.1 ≠ a → e.1 ≠ b → ∀ t, body t e = some t) :
    (xs.enumFrom n).foldlM body t = (body t (a, x)).bind fun t => body t (b, y) := by
  induction xs generalizing n t with
  | nil => simp at hx
  | cons z xs ih =>
    simp only [List.enumFrom_cons, List.foldlM_cons, Option.bind_eq_bind] at hid ⊢
    have hrest : ∀ e ∈ xs.enumFrom (n + 1), e.1 ≠ a → e.1 ≠ b → ∀ t, body t e = some t :=
      fun e he => hid e (List.mem_cons_of_mem _ he)
    have hy' := getElem?_sub_succ (by omega) hy
    obtain rfl | hlt := Nat.eq_or_lt_of_le hna
    · simp only [Nat.sub_self, List.getElem?_cons_zero, Option.some.injEq] at hx
      subst hx
      congr 1; funext t
      exact foldlM_enumFrom_one body hy' (by omega) t fun e he hb =>
        hrest e he (Nat.ne_of_gt (List.le_fst_of_mem_enumFrom he)) hb
    · rw [hid (n, z) (List.mem_cons_self ..) (Nat.ne_of_lt hlt) (by omega), Option.some_bind]
      exact ih (getElem?_sub_succ hlt hx) hy' hlt t hrest

end Loop

/-- Where a move into step `dst` stops: the hops of the direct chain from `dst`
and the step it ends at; no hop, and `dst` itself, when `dst` is not direct. -/
def Worker.chainEnd (w : Worker) (fuel : Nat) (dst : String) :
    Option (List (String × String) × String) :=
  if w.isDirectStep dst then w.directHops fuel dst (w.directSteps dst) else some ([], dst)

/-- The records `maybeTriggerDirectSteps` passes to `addChanged`, one per hop. -/
def hopRecords (who : Who) (hops : List (String × String)) : List ChangedCtx :=
  hops.map fun hop => ⟨hop.1, hop.2, who, 0⟩

theorem Worker.isDirectStep_of_directHops (w : Worker) {fuel : Nat} {src dst last : String}
    {hops : List (String × String)} (h : w.directHops fuel src dst = some (hops, last)) :
    w.isDirectStep last = false := by
  induction fuel generalizing src dst hops with
  | zero => simp [directHops] at h
  | succ fuel ih =>
    unfold directHops at h
    split at h
    · obtain ⟨⟨hops', last'⟩, hr, heq⟩ := Option.map_eq_some'.1 h
      obtain ⟨-, rfl⟩ := Prod.mk.inj heq
      exact ih hr
    · next hd => obtain ⟨-, rfl⟩ := Prod.mk.inj (Option.some.inj h); simpa using hd

theorem Worker.chainEnd_ne (w : Worker) {fuel : Nat} {dst F : String}
    {hops : List (String × String)} (h : w.chainEnd fuel dst = some (hops, F))
    (hd : w.isDirectStep dst = true) : F ≠ dst := by
  rintro rfl
  simp only [chainEnd, hd, if_true] at h
  simp [w.isDirectStep_of_directHops h] at hd

theorem Worker.directHops_eq_none_of_closed (w : Worker) (D : String → Prop)
    (hD : ∀ s, D s → w.isDirectStep s = true ∧ D (w.directSteps s)) :
    ∀ fuel src dst, D dst → w.directHops fuel src dst = none := by
  intro fuel
  induction fuel with
  | zero => exact fun _ _ _ => rfl
  | succ fuel ih =>
    intro src dst hdst
    obtain ⟨hdir, hnext⟩ := hD dst hdst
    simp [directHops, hdir, ih _ _ hnext]

/-- Modelled from the spec: what `checkExcution` ensures of a workflow before
`StartInstance` and `UpdateWorkflow` hand it to a worker, that no chain of direct
steps leads back to where it started. -/
def Worker.NoDirectCycle (w : Worker) : Prop :=
  ∀ s k, (∀ j ≤ k, w.isDirectStep (w.directSteps^[j] s) = true) → w.directSteps^[k + 1] s ≠ s

theorem Worker.directHops_isSome (w : Worker) :
    ∀ fuel src dst, (∃ j < fuel, w.isDirectStep (w.directSteps^[j] dst) = false) →
      (w.directHops fuel src dst).isSome
  | 0, _, _, ⟨_, hj, _⟩ => absurd hj (Nat.not_lt_zero _)
  | fuel + 1, src, dst, ⟨j, hj, hnd⟩ => by
    unfold directHops
    split
    · next hd =>
      cases j with
      | zero => exact absurd hd (by simpa using hnd)
      | succ j =>
        rw [Option.isSome_map']
        exact w.directHops_isSome fuel dst _ ⟨j, by omega, by rwa [Function.iterate_succ_apply] at hnd⟩
    · rfl

/-- With no cycle of direct steps, and every direct step a step of the worker,
the chain from any step meets a step that is not direct within as many hops as
the worker has steps: else two of its first steps coincide, closing a cycle. -/
theorem Worker.exists_not_direct (w : Worker)
    (hsteps : ∀ s, w.isDirectStep s = true → s ∈ w.states.map (·.name)) (hcycle : w.NoDirectCycle)
    (s : String) : ∃ j ≤ w.states.length, w.isDirectStep (w.directSteps^[j] s) = false := by
  by_contra hall
  simp only [not_exists, not_and, Bool.not_eq_false] at hall
  have hcard : (w.states.map (·.name)).toFinset.card < (Finset.range (w.states.length + 1)).card := by
    simpa using (List.toFinset_card_le _).trans_lt (by simp)
  obtain ⟨x, hx, y, hy, hxy, heq⟩ := Finset.exists_ne_map_eq_of_card_lt_of_maps_to hcard
    (f := fun j => w.directSteps^[j] s) fun j hj =>
      List.mem_toFinset.2 (hsteps _ (hall j (Nat.lt_succ_iff.1 (Finset.mem_range.1 hj))))
  have hle : ∀ j, j ∈ Finset.range (w.states.length + 1) → j ≤ w.states.length :=
    fun j hj => Nat.lt_succ_iff.1 (Finset.mem_range.1 hj)
  -- the chain from the earlier of the two positions comes back to it
  have key : ∀ i k, i + k + 1 ≤ w.states.length → w.directSteps^[i + k + 1] s ≠ w.directSteps^[i] s :=
    fun i k hik h => hcycle (w.directSteps^[i] s) k
      (fun j hj => by rw [← Function.iterate_add_apply]; exact hall _ (by omega))
      (by rwa [← Function.iterate_add_apply, show k + 1 + i = i + k + 1 by omega])
  rcases Nat.lt_or_gt_of_ne hxy with h | h
  · exact key x (y - x - 1) (by have := hle y hy; omega) (by rw [show x + (y - x - 1) + 1 = y by omega]; exact heq.symm)
  · exact key y (x - y - 1) (by have := hle x hx; omega) (by rw [show y + (x - y - 1) + 1 = x by omega]; exact heq)

namespace Transaction

variable (t : Transaction)

@[simp] theorem length_setCrowd (i : Nat) (S : Bitmap) :
    (t.setCrowd i S).stepCrowds.length = t.stepCrowds.length := List.length_set ..

theorem setCrowd_setCrowd (i : Nat) (S S' : Bitmap) :
    (t.setCrowd i S).setCrowd i S' = t.setCrowd i S' := by
  simp [setCrowd, List.set_set]

theorem setCrowd_comm {i j : Nat} (h : i ≠ j) (S S' : Bitmap) :
    (t.setCrowd i S).setCrowd j S' = (t.setCrowd j S').setCrowd i S := by
  simp [setCrowd, List.set_comm _ _ _ h]

theorem addChanged_setCrowd (c : ChangedCtx) (i : Nat) (S : Bitmap) :
    (t.setCrowd i S).addChanged c = (t.addChanged c).setCrowd i S := by
  simp only [addChanged, setCrowd]; split <;> rfl

theorem foldl_addChanged_setCrowd (cs : List ChangedCtx) (i : Nat) (S : Bitmap) :
    cs.foldl (fun t c => t.addChanged c) (t.setCrowd i S) =
      (cs.foldl (fun t c => t.addChanged c) t).setCrowd i S := by
  induction cs generalizing t with
  | nil => rfl
  | cons c cs ih => simp [addChanged_setCrowd, ih]

@[simp] theorem foldl_addChanged_stepCrowds (cs : List ChangedCtx) :
    (cs.foldl (fun t c => t.addChanged c) t).stepCrowds = t.stepCrowds := by
  induction cs generalizing t with
  | nil => rfl
  | cons c cs ih => simp [ih]

@[simp] theorem foldl_addChanged_totalCrowds (cs : List ChangedCtx) :
    (cs.foldl (fun t c => t.addChanged c) t).totalCrowds = t.totalCrowds := by
  induction cs generalizing t with
  | nil => rfl
  | cons c cs ih => simp [ih]

@[simp] theorem crowd_foldl_addChanged (cs : List ChangedCtx) (i : Nat) :
    (cs.foldl (fun t c => t.addChanged c) t).crowd i = t.crowd i := by
  simp [crowd]

theorem crowd_setCrowd_self {i : Nat} (h : i < t.stepCrowds.length) (S : Bitmap) :
    (t.setCrowd i S).crowd i = S := by
  simp [crowd_setCrowd, h]

theorem crowd_setCrowd_ne {i j : Nat} (h : i ≠ j) (S : Bitmap) :
    (t.setCrowd i S).crowd j = t.crowd j := by
  simp [crowd_setCrowd, h]

theorem setCrowd_eq_self {i : Nat} {S : Bitmap} (h : t.crowd i = S) : t.setCrowd i S = t :=
  h ▸ setCrowd_crowd t i

variable (w : Worker) (fuel idx : Nat) (ctx : ChangedCtx) (step : Step)

theorem stepChangedAt_of_ne (h₁ : step.name ≠ ctx.from) (h₂ : step.name ≠ ctx.«to») :
    t.stepChangedAt w fuel ctx idx step = some t := by
  simp [stepChangedAt, h₁, h₂]

theorem stepChangedAt_from (h : step.name = ctx.from) :
    t.stepChangedAt w fuel ctx idx step = some (t.setCrowd idx (t.crowd idx \ ctx.who.members)) := by
  simp [stepChangedAt, h, removeFromStep_snd]

theorem stepChangedAt_to (h₁ : step.name ≠ ctx.from) (h₂ : step.name = ctx.«to») :
    t.stepChangedAt w fuel ctx idx step =
      if (t.moveToStep idx ctx.who).1 then
        ((t.setCrowd idx (t.crowd idx ∪ ctx.who.members)).addChanged { ctx with ttl := step.ttl }
          ).maybeTriggerDirectSteps w fuel idx { ctx with ttl := step.ttl }
      else some (t.setCrowd idx (t.crowd idx ∪ ctx.who.members)) := by
  rw [stepChangedAt, if_neg h₁, if_pos h₂]
  rcases hm : t.moveToStep idx ctx.who with ⟨_ | _, t'⟩ <;>
    simp [← moveToStep_snd, hm]

theorem maybeTriggerDirectSteps_of_not_direct (h : w.isDirectStep ctx.«to» = false) :
    t.maybeTriggerDirectSteps w fuel idx ctx = some t := by
  simp [maybeTriggerDirectSteps, h]

theorem maybeTriggerDirectSteps_of_loop (h : w.isDirectStep ctx.«to» = true)
    (hc : w.directHops fuel ctx.«to» (w.directSteps ctx.«to») = none) :
    t.maybeTriggerDirectSteps w fuel idx ctx = none := by
  simp [maybeTriggerDirectSteps, h, hc]

theorem maybeTriggerDirectSteps_of_direct {hops : List (String × String)} {last : String} {f : Nat}
    (h : w.isDirectStep ctx.«to» = true)
    (hc : w.directHops fuel ctx.«to» (w.directSteps ctx.«to») = some (hops, last))
    (hf : w.states.findIdx? (·.name = last) = some f) :
    t.maybeTriggerDirectSteps w fuel idx ctx =
      let t := (hopRecords ctx.who hops).foldl (fun t c => t.addChanged c) t
      let t := t.setCrowd idx (t.crowd idx \ ctx.who.members)
      some (t.setCrowd f (t.crowd f ∪ ctx.who.members)) := by
  simp [maybeTriggerDirectSteps, h, hc, hf, hopRecords, List.foldl_map, removeFromStep_snd,
    moveToStep_snd]

end Transaction

@[simp] theorem ChangedCtx.scoped_from (ctx : ChangedCtx) (total : Bitmap) :
    (ctx.scoped total).from = ctx.from := by
  unfold ChangedCtx.scoped; split <;> rfl

@[simp] theorem ChangedCtx.scoped_to (ctx : ChangedCtx) (total : Bitmap) :
    (ctx.scoped total).«to» = ctx.«to» := by
  unfold ChangedCtx.scoped; split <;> rfl

theorem index_eq_of_name_eq {l : List Step} (hn : (l.map (·.name)).Nodup) {i j : Nat}
    {s s' : Step} (hi : l[i]? = some s) (hj : l[j]? = some s') (h : s.name = s'.name) : i = j := by
  obtain ⟨hil, hi'⟩ := List.getElem?_eq_some_iff.1 (by simp [hi] : (l.map (·.name))[i]? = some s.name)
  obtain ⟨hjl, hj'⟩ := List.getElem?_eq_some_iff.1 (by simp [hj] : (l.map (·.name))[j]? = some s'.name)
  exact hn.getElem_inj_iff.1 (hi'.trans (h.trans hj'.symm))

theorem findIdx?_name {l : List Step} (hn : (l.map (·.name)).Nodup) {f : Nat} {F : String}
    (hf : (l[f]?).map (·.name) = some F) : l.findIdx? (·.name = F) = some f := by
  obtain ⟨s, hs, rfl⟩ := Option.map_eq_some'.1 hf
  obtain ⟨hfl, rfl⟩ := List.getElem?_eq_some_iff.1 hs
  refine List.findIdx?_eq_some_iff_getElem.2 ⟨hfl, by simp, fun j hj heq => ?_⟩
  have := index_eq_of_name_eq hn (List.getElem?_eq_getElem (show j < l.length by omega)) hs
    (by simpa using heq)
  omega

namespace Transaction

theorem moveToStep_fst_of_disjoint (t : Transaction) (idx : Nat) (target : Who)
    (h : Disjoint (t.crowd idx) target.members) :
    (t.moveToStep idx target).1 = decide target.members.Nonempty := by
  rw [Bool.eq_iff_iff, moveToStep_fst, decide_eq_true_iff]
  rcases target with ⟨user, _ | users⟩
  · simp [Who.members]
  · simp only [Who.members, reduceCtorEq, false_or]
    exact ⟨fun hs => Finset.not_subset.1 hs |>.imp fun _ h => h.1,
      fun ⟨u, hu⟩ hs => Finset.disjoint_left.1 h (hs hu) hu⟩

variable {w : Worker} {fuel : Nat} {ctx : ChangedCtx} {t : Transaction} {b f : Nat} {sb : Step}
  {hops : List (String × String)} {F : String}

theorem stepChangedAt_to_eq (hnames : (w.states.map (·.name)).Nodup)
    (hb : w.states[b]? = some sb) (hsb : sb.name = ctx.«to») (hft : ctx.from ≠ ctx.«to»)
    (hbl : b < t.stepCrowds.length) (hdisj : Disjoint (t.crowd b) ctx.who.members)
    (hchain : w.chainEnd fuel ctx.«to» = some (hops, F))
    (hf : (w.states[f]?).map (·.name) = some F) :
    t.stepChangedAt w fuel ctx b sb = some
      (if ctx.who.members.Nonempty then
        ((⟨ctx.from, ctx.«to», ctx.who, sb.ttl⟩ :: hopRecords ctx.who hops).foldl
          (fun t c => t.addChanged c) t).setCrowd f (t.crowd f ∪ ctx.who.members)
      else t) := by
  rw [stepChangedAt_to _ _ _ _ _ _ (hsb ▸ hft.symm) hsb, moveToStep_fst_of_disjoint _ _ _ hdisj]
  by_cases hne : ctx.who.members.Nonempty
  · rw [decide_eq_true hne, if_pos hne, if_pos rfl, List.foldl_cons]
    by_cases hd : w.isDirectStep ctx.«to»
    · have hF := w.chainEnd_ne hchain hd
      simp only [Worker.chainEnd, hd, if_true] at hchain
      have hfb : f ≠ b := fun h => hF (by
        subst h; simpa [hb, hsb] using hf.symm)
      rw [maybeTriggerDirectSteps_of_direct _ _ _ _ { ctx with ttl := sb.ttl } hd hchain
        (findIdx?_name hnames hf)]
      simp only [addChanged_setCrowd, foldl_addChanged_setCrowd, Option.some.injEq]
      generalize hR : List.foldl _ _ _ = R
      have hRc : ∀ i, R.crowd i = t.crowd i := fun i => by rw [← hR]; simp [crowd]
      have hRl : b < R.stepCrowds.length := by rw [← hR]; simpa using hbl
      simp only [crowd_setCrowd_self _ hRl, setCrowd_setCrowd, crowd_setCrowd_ne _ (Ne.symm hfb),
        hRc, Finset.union_sdiff_cancel_right hdisj, setCrowd_eq_self R (hRc b)]
    · simp only [Worker.chainEnd, hd, if_false, Option.some.injEq, Prod.mk.injEq] at hchain
      obtain ⟨rfl, rfl⟩ := hchain
      obtain ⟨s, hs, hsn⟩ := Option.map_eq_some'.1 hf
      obtain rfl := index_eq_of_name_eq hnames hs hb (hsn.trans hsb.symm)
      rw [maybeTriggerDirectSteps_of_not_direct _ _ _ _ { ctx with ttl := sb.ttl } (by simpa using hd)]
      simp [hopRecords, addChanged_setCrowd]
  · rw [Finset.not_nonempty_iff_eq_empty] at hne
    simp [hne, setCrowd_crowd]

theorem getElem?_stepCrowds {t : Transaction} {i : Nat} (h : i < t.stepCrowds.length) :
    t.stepCrowds[i]? = some (t.crowd i) := by
  rw [crowd_eq_getElem?, List.getElem?_eq_getElem h]; rfl

theorem stepChangedAt_other {a : Nat} {sa : Step} (hnames : (w.states.map (·.name)).Nodup)
    (ha : w.states[a]? = some sa) (hsa : sa.name = ctx.from)
    (hb : w.states[b]? = some sb) (hsb : sb.name = ctx.«to») {e : Nat × Step}
    (he : e ∈ w.states.enumFrom 0) (hea : e.1 ≠ a) (heb : e.1 ≠ b) (t : Transaction) :
    t.stepChangedAt w fuel ctx e.1 e.2 = some t := by
  rw [← List.enum_eq_enumFrom, List.mem_enum_iff_getElem?] at he
  exact stepChangedAt_of_ne _ _ _ _ _ _ (fun h => hea (index_eq_of_name_eq hnames he ha (h.trans hsa.symm)))
    (fun h => heb (index_eq_of_name_eq hnames he hb (h.trans hsb.symm)))

/-- What `stepChanged` does, for a move from the step `from` (index `a`) to the
step `to` (index `b`) of a worker with unique step names, whose users `W` lie in
the crowd of `from`, and whose direct chain from `to` stops at an existing step
`F` (index `f`), unless `F` is `from` listed after `to`: `W` leaves every crowd
and joins the crowd of `F`; when `W` is not empty, the hop `(from, to)` and then
each hop of the chain are recorded. -/
theorem stepChanged_eq {a : Nat} {sa : Step}
    (hnames : (w.states.map (·.name)).Nodup)
    (hlen : w.states.length ≤ t.stepCrowds.length)
    (hpart : Partition t.stepCrowds t.totalCrowds)
    (ha : w.states[a]? = some sa) (hsa : sa.name = ctx.from)
    (hb : w.states[b]? = some sb) (hsb : sb.name = ctx.«to») (hft : ctx.from ≠ ctx.«to»)
    (hW : (ctx.scoped t.totalCrowds).who.members ⊆ t.crowd a)
    (hchain : w.chainEnd fuel ctx.«to» = some (hops, F))
    (hf : (w.states[f]?).map (·.name) = some F) (horder : f = a → a < b) :
    t.stepChanged w fuel ctx = some
      (let who := (ctx.scoped t.totalCrowds).who
      { (if who.members.Nonempty then
          (⟨ctx.from, ctx.«to», who, sb.ttl⟩ :: hopRecords who hops).foldl
            (fun t c => t.addChanged c) t
        else t) with stepCrowds := moveUsers t.stepCrowds who.members f }) := by
  set ctx' := ctx.scoped t.totalCrowds
  set W := ctx'.who.members
  have hal : a < t.stepCrowds.length := (List.getElem?_eq_some_iff.1 ha).1.trans_le hlen
  have hbl : b < t.stepCrowds.length := (List.getElem?_eq_some_iff.1 hb).1.trans_le hlen
  have hfl : f < t.stepCrowds.length := by
    obtain ⟨s, hs, -⟩ := Option.map_eq_some'.1 hf
    exact (List.getElem?_eq_some_iff.1 hs).1.trans_le hlen
  have hab : a ≠ b := fun h => hft (by
    subst h; rw [ha, Option.some.injEq] at hb; rw [← hsa, ← hsb, hb])
  have hid : ∀ e ∈ w.states.enumFrom 0, e.1 ≠ a → e.1 ≠ b → ∀ t : Transaction,
      t.stepChangedAt w fuel ctx' e.1 e.2 = some t :=
    fun _ he hea heb => stepChangedAt_other hnames ha (by simp [ctx', hsa]) hb (by simp [ctx', hsb]) he hea heb
  have hA : ∀ t : Transaction, t.stepChangedAt w fuel ctx' a sa =
      some (t.setCrowd a (t.crowd a \ W)) :=
    fun t => stepChangedAt_from _ _ _ _ _ _ (by simp [ctx', hsa])
  have hB := fun (t : Transaction) (hd : Disjoint (t.crowd b) W) (hl : b < t.stepCrowds.length) =>
    @stepChangedAt_to_eq w fuel ctx' t b f sb hops F hnames hb (by simpa [ctx'] using hsb)
      (by simpa [ctx'] using hft) hl hd (by simpa [ctx'] using hchain) hf
  have hSa := getElem?_stepCrowds hal
  have hdisj : ∀ i, i < t.stepCrowds.length → i ≠ a → Disjoint (t.crowd i) W :=
    fun i hi hia => hpart.disjoint_of_ne hSa hW (getElem?_stepCrowds hi) hia
  have hmove := hpart.moveUsers_eq_set hSa hW (getElem?_stepCrowds hfl)
  simp only [ChangedCtx.scoped_from, ChangedCtx.scoped_to, ctx'] at hB
  rw [stepChanged, List.enum_eq_enumFrom]
  rcases Nat.lt_or_gt_of_ne hab with hlt | hlt
  · rw [foldlM_enumFrom_two _ (by simpa using ha) (by simpa using hb) (Nat.zero_le _) hlt _ hid,
      hA, Option.some_bind, hB _ (by rw [crowd_setCrowd_ne _ hab]; exact hdisj b hbl (Ne.symm hab))
        (by simpa using hbl)]
    by_cases hne : W.Nonempty
    · rw [if_pos hne, foldl_addChanged_setCrowd, crowd_setCrowd]
      simp [hne, hmove, setCrowd, hal, eq_comm (a := f), W]
    · have hW0 : (ctx.scoped t.totalCrowds).who.members = ∅ := Finset.not_nonempty_iff_eq_empty.1 hne
      simp [Finset.not_nonempty_iff_eq_empty.1 hne, hW0, setCrowd_crowd]
  · have hfa : f ≠ a := fun h => absurd (horder h) (Nat.lt_asymm hlt)
    rw [foldlM_enumFrom_two _ (by simpa using hb) (by simpa using ha) (Nat.zero_le _) hlt _
      fun e he h1 h2 => hid e he h2 h1, hB _ (hdisj b hbl (Ne.symm hab)) hbl]
    by_cases hne : W.Nonempty
    · rw [if_pos hne, Option.some_bind, hA, crowd_setCrowd_ne _ hfa, crowd_foldl_addChanged,
        setCrowd_comm _ hfa]
      simp [hne, hmove, setCrowd, hfa, W]
    · have hW0 : (ctx.scoped t.totalCrowds).who.members = ∅ := Finset.not_nonempty_iff_eq_empty.1 hne
      rw [Option.some_bind, hA]
      simp [Finset.not_nonempty_iff_eq_empty.1 hne, hW0, setCrowd_crowd]

/-- A move whose direct chain comes back to `from`, listed after `to`: the
loop puts the users into `from` at `to`, and takes them out again at `from`. -/
theorem stepChanged_eq_of_back {a : Nat} {sa : Step}
    (hnames : (w.states.map (·.name)).Nodup)
    (hlen : w.states.length ≤ t.stepCrowds.length)
    (ha : w.states[a]? = some sa) (hsa : sa.name = ctx.from)
    (hb : w.states[b]? = some sb) (hsb : sb.name = ctx.«to») (hft : ctx.from ≠ ctx.«to»)
    (hdisj : Disjoint (t.crowd b) (ctx.scoped t.totalCrowds).who.members)
    (hchain : w.chainEnd fuel ctx.«to» = some (hops, F))
    (hf : (w.states[a]?).map (·.name) = some F) (hba : b < a) :
    t.stepChanged w fuel ctx = some
      (let who := (ctx.scoped t.totalCrowds).who
      (if who.members.Nonempty then
          (⟨ctx.from, ctx.«to», who, sb.ttl⟩ :: hopRecords who hops).foldl (fun t c => t.addChanged c) t
        else t).setCrowd a (t.crowd a \ who.members)) := by
  dsimp only
  set ctx' := ctx.scoped t.totalCrowds
  have hal : a < t.stepCrowds.length := (List.getElem?_eq_some_iff.1 ha).1.trans_le hlen
  have hbl : b < t.stepCrowds.length := (List.getElem?_eq_some_iff.1 hb).1.trans_le hlen
  have hB := @stepChangedAt_to_eq w fuel ctx' t b a sb hops F hnames hb (by simpa [ctx'] using hsb)
    (by simpa [ctx'] using hft) hbl hdisj (by simpa [ctx'] using hchain) hf
  simp only [ChangedCtx.scoped_from, ChangedCtx.scoped_to, ctx'] at hB
  rw [stepChanged, List.enum_eq_enumFrom, foldlM_enumFrom_two _ (by simpa using hb) (by simpa using ha)
    (Nat.zero_le _) hba _ fun _ he h1 h2 =>
      stepChangedAt_other hnames ha (by simp [ctx', hsa]) hb (by simp [ctx', hsb]) he h2 h1,
    hB, Option.some_bind, stepChangedAt_from _ _ _ _ _ _ (by simp [ctx', hsa])]
  split_ifs with hne
  · simp [crowd_setCrowd, setCrowd_setCrowd, hal, Finset.union_sdiff_right]
  · rfl

/-- `stepChanged` on a move from `from` (index `a`) to `to` (index `b`) of a
worker with unique step names, whose users `W` lie in `from`'s crowd and whose
direct chain from `to` stops at an existing step `F` (index `f`), with `from`
not `to`, and `from` listed before `to` when `F` is `from`: every step crowd `S`
becomes `S \ W`, and `S \ W ∪ W` for `F`; the total crowd is kept, and with it
the partition; and when `W` is not empty, the hop `(from, to)` and then each hop
of the chain, in chain order, are passed to `addChanged`. -/
theorem stepChanged_spec {a : Nat} {sa : Step}
    (hnames : (w.states.map (·.name)).Nodup)
    (hlen : w.states.length ≤ t.stepCrowds.length)
    (hpart : Partition t.stepCrowds t.totalCrowds)
    (ha : w.states[a]? = some sa) (hsa : sa.name = ctx.from)
    (hb : w.states[b]? = some sb) (hsb : sb.name = ctx.«to») (hft : ctx.from ≠ ctx.«to»)
    (hW : (ctx.scoped t.totalCrowds).who.members ⊆ t.crowd a)
    (hchain : w.chainEnd fuel ctx.«to» = some (hops, F))
    (hf : (w.states[f]?).map (·.name) = some F) (horder : f = a → a < b) :
    ∃ t', t.stepChanged w fuel ctx = some t' ∧
      t'.stepCrowds = moveUsers t.stepCrowds (ctx.scoped t.totalCrowds).who.members f ∧
      t'.totalCrowds = t.totalCrowds ∧
      (t'.changes =
        if (ctx.scoped t.totalCrowds).who.members.Nonempty then
          ((⟨ctx.from, ctx.«to», (ctx.scoped t.totalCrowds).who, sb.ttl⟩ ::
            hopRecords (ctx.scoped t.totalCrowds).who hops).foldl (fun t c => t.addChanged c) t).changes
        else t.changes) ∧
      Partition t'.stepCrowds t'.totalCrowds := by
  have hal : a < t.stepCrowds.length := (List.getElem?_eq_some_iff.1 ha).1.trans_le hlen
  obtain ⟨s, hs, -⟩ := Option.map_eq_some'.1 hf
  have hfl : f < t.stepCrowds.length := (List.getElem?_eq_some_iff.1 hs).1.trans_le hlen
  have hmove := partition_moveUsers hpart (hW.trans (hpart.subset (getElem?_stepCrowds hal))) hfl
  refine ⟨_, stepChanged_eq hnames hlen hpart ha hsa hb hsb hft hW hchain hf horder, rfl, ?_, ?_, ?_⟩ <;>
    dsimp only <;> split_ifs <;> simp [hmove]

end Transaction

def loopBackWorker : Worker :=
  ⟨[⟨"A", 0, .direct⟩, ⟨"B", 0, .condition⟩], {1}, [∅, {1}], (· = "A"), fun _ => "B", rfl⟩

/-- User 1 moves from `B` to `A`, whose direct chain leads back to `B`. The loop
reaches `A` first and puts the user back into `B`; it then reaches `B`, the step
the user came from, and removes it: the user is in no step. -/
theorem stepChanged_loses_user :
    Partition (newTransaction.start loopBackWorker).stepCrowds {1} ∧
      ((newTransaction.start loopBackWorker).stepChanged loopBackWorker 1
        ⟨"B", "A", ⟨1, none⟩, 0⟩).map (fun t => (t.stepCrowds, t.totalCrowds)) =
        some ([∅, ∅], {1}) ∧
      ¬Partition [∅, ∅] ({1} : Bitmap) := by
  decide

def soloWorker : Worker :=
  ⟨[⟨"A", 0, .condition⟩], {1}, [{1}], fun _ => false, fun _ => "", rfl⟩

/-- User 1 moves from `A` to `A`. The loop's first branch takes it out of `A`,
and the `else if` never puts it back: the user is in no step. -/
theorem stepChanged_self_transition :
    Partition (newTransaction.start soloWorker).stepCrowds {1} ∧
      ((newTransaction.start soloWorker).stepChanged soloWorker 1
        ⟨"A", "A", ⟨1, none⟩, 0⟩).map (fun t => (t.stepCrowds, t.totalCrowds)) =
        some ([∅], {1}) ∧
      ¬Partition [∅] ({1} : Bitmap) := by
  decide

def cycleWorker : Worker :=
  ⟨[⟨"A", 0, .direct⟩, ⟨"B", 0, .direct⟩, ⟨"C", 0, .condition⟩], {1}, [∅, ∅, {1}],
    (fun s => s = "A" ∨ s = "B"), (fun s => if s = "A" then "B" else "A"), rfl⟩

/-- User 1 moves from `C` into `A`. The hop loop goes `A → B → A → …`: the move
does not finish, whatever the number of hops allowed. -/
theorem stepChanged_direct_cycle (fuel : Nat) :
    (newTransaction.start cycleWorker).stepChanged cycleWorker fuel ⟨"C", "A", ⟨1, none⟩, 0⟩ = none := by
  have hloop (t : Transaction) :
      t.maybeTriggerDirectSteps cycleWorker fuel 0 ⟨"C", "A", ⟨1, none⟩, 0⟩ = none :=
    Transaction.maybeTriggerDirectSteps_of_loop t _ _ _ _ rfl
      (cycleWorker.directHops_eq_none_of_closed (fun s => s = "A" ∨ s = "B")
        (by rintro s (rfl | rfl) <;> decide) fuel "A" "B" (.inr rfl))
  have hs : cycleWorker.states.enum =
      [(0, ⟨"A", 0, .direct⟩), (1, ⟨"B", 0, .direct⟩), (2, ⟨"C", 0, .condition⟩)] := rfl
  simp only [Transaction.stepChanged, ChangedCtx.scoped, hs, List.foldlM_cons]
  rw [Transaction.stepChangedAt_to _ _ _ _ _ _ (by decide) rfl]
  split_ifs with hmove
  · simp only [hloop, Option.bind_eq_bind, Option.none_bind]
  · exact absurd rfl hmove

/-- With as many hops as the worker has steps, the move is still running. -/
theorem stepChanged_direct_cycle_steps :
    (newTransaction.start cycleWorker).stepChanged cycleWorker cycleWorker.states.length
      ⟨"C", "A", ⟨1, none⟩, 0⟩ = none :=
  stepChanged_direct_cycle _

/-- Under what `checkExcution` ensures, no cycle of direct steps and every direct
step a step of the worker, the hop loop of `maybeTriggerDirectSteps` stops within
as many hops as the worker has steps. -/
theorem Transaction.maybeTriggerDirectSteps_terminates {w : Worker}
    (hsteps : ∀ s, w.isDirectStep s = true → s ∈ w.states.map (·.name)) (hcycle : w.NoDirectCycle)
    (t : Transaction) (idx : Nat) (ctx : ChangedCtx) :
    (t.maybeTriggerDirectSteps w w.states.length idx ctx).isSome := by
  unfold maybeTriggerDirectSteps
  split
  · rfl
  · next hd =>
    obtain ⟨j, hj, hnd⟩ := w.exists_not_direct hsteps hcycle ctx.«to»
    cases j with
    | zero => exact absurd hnd (by simpa using hd)
    | succ j =>
      rw [Option.isSome_map']
      exact w.directHops_isSome _ _ _ ⟨j, hj, by rwa [Function.iterate_succ_apply] at hnd⟩

def chainWorker : Worker :=
  ⟨[⟨"A", 0, .condition⟩, ⟨"B", 5, .direct⟩, ⟨"C", 0, .condition⟩], {1}, [{1}, ∅, ∅],
    (· = "B"), fun _ => "C", rfl⟩

theorem maybeTriggerDirectSteps_terminates_chain :
    (∀ s, chainWorker.isDirectStep s = true → s ∈ chainWorker.states.map (·.name)) ∧
      chainWorker.NoDirectCycle ∧
      ((newTransaction.start chainWorker).maybeTriggerDirectSteps chainWorker chainWorker.states.length 0
        ⟨"A", "B", ⟨1, none⟩, 0⟩).isSome := by
  have hsteps : ∀ s, chainWorker.isDirectStep s = true → s ∈ chainWorker.states.map (·.name) := by
    intro s h
    obtain rfl : s = "B" := by simpa [chainWorker] using h
    decide
  have hcycle : chainWorker.NoDirectCycle := by
    intro s k h
    obtain rfl : s = "B" := by simpa [chainWorker] using h 0 (Nat.zero_le _)
    cases k with
    | zero => decide
    | succ k => exact absurd (h 1 (by omega)) (by decide)
  exact ⟨hsteps, hcycle, Transaction.maybeTriggerDirectSteps_terminates hsteps hcycle _ _ _⟩

theorem stepChanged_spec_chain :
    ∃ t', (newTransaction.start chainWorker).stepChanged chainWorker 1 ⟨"A", "B", ⟨1, none⟩, 0⟩ = some t' ∧
      t'.stepCrowds = moveUsers [{1}, ∅, ∅] {1} 2 ∧ t'.totalCrowds = {1} ∧
      (t'.changes = if ({1} : Bitmap).Nonempty then
        (([⟨"A", "B", ⟨1, none⟩, 5⟩, ⟨"B", "C", ⟨1, none⟩, 0⟩] : List ChangedCtx).foldl
          (fun t c => t.addChanged c) (newTransaction.start chainWorker)).changes
        else []) ∧ Partition t'.stepCrowds t'.totalCrowds :=
  @Transaction.stepChanged_spec chainWorker 1 ⟨"A", "B", ⟨1, none⟩, 0⟩
    (newTransaction.start chainWorker) 1 2 ⟨"B", 5, .direct⟩ [("B", "C")] "C" 0 ⟨"A", 0, .condition⟩
    (by decide) (by decide) (by decide) rfl rfl rfl rfl (by decide) (by decide) (by decide) rfl
    (by decide)

def pairWorker : Worker :=
  ⟨[⟨"A", 0, .condition⟩, ⟨"B", 0, .condition⟩], {1}, [{1}, ∅], fun _ => false, fun _ => "", rfl⟩

example :
    Partition (newTransaction.start pairWorker).stepCrowds {1} ∧
      ((newTransaction.start pairWorker).stepChanged pairWorker 1
        ⟨"A", "B", ⟨0, some {2}⟩, 0⟩).map (·.changes) = some [] := by
  decide

theorem moveUsers_moveUsers (crowds : List Bitmap) (W : Bitmap) (f : Nat) :
    moveUsers (moveUsers crowds W f) W f = moveUsers crowds W f := by
  refine List.ext_getElem? fun i => ?_
  simp only [moveUsers, List.getElem?_mapIdx]
  cases crowds[i]? with
  | none => rfl
  | some S =>
    simp only [Option.map_some', Option.some.injEq]
    ext u
    split_ifs <;> simp [or_and_right, em']

theorem getD_moveUsers (crowds : List Bitmap) (W : Bitmap) (f i : Nat) :
    (moveUsers crowds W f).getD i ∅ = crowds.getD i ∅ \ W ∪ if i = f ∧ i < crowds.length then W else ∅ := by
  simp only [List.getD_eq_getElem?_getD, moveUsers, List.getElem?_mapIdx]
  by_cases hi : i < crowds.length
  · simp [List.getElem?_eq_getElem hi, hi]
  · simp [List.getElem?_eq_none (Nat.le_of_not_lt hi), hi]

theorem findIdx?_modify {α : Type} {p : α → Bool} {f : α → α} (hf : ∀ x, p (f x) = p x) :
    ∀ (l : List α) (n i : Nat), (l.modify f n).findIdx? p i = l.findIdx? p i
  | [], n, _ => by cases n <;> rfl
  | a :: l, 0, i => by simp [List.modify_zero_cons, List.findIdx?_cons, hf]
  | a :: l, n + 1, i => by simp [List.modify_succ_cons, List.findIdx?_cons, findIdx?_modify hf l n]

theorem findIdx?_modify_add (c c' : ChangedCtx) (l : List ChangedCtx) (n : Nat) :
    (l.modify (·.add c') n).findIdx? (fun r => r.from = c.from && r.«to» = c.«to») =
      l.findIdx? (fun r => r.from = c.from && r.«to» = c.«to») := by
  apply findIdx?_modify
  intro; rfl

theorem ChangedCtx.add_of_subset {r c : ChangedCtx} {U : Bitmap} (hU : r.who.users = some U)
    (hc : c.who.members ⊆ U) : r.add c = r := by
  rcases r with ⟨_, _, ⟨u, users⟩, _⟩
  obtain rfl : users = some U := hU
  have hm : (⟨u, some U⟩ : Who).members = U := rfl
  simp only [ChangedCtx.add, hm, Finset.union_eq_left.2 hc]

theorem ChangedCtx.scoped_with_ttl (ctx : ChangedCtx) (total : Bitmap) (ttl : Int) :
    { ctx.scoped total with ttl := ttl } = ⟨ctx.from, ctx.«to», (ctx.scoped total).who, ttl⟩ := by
  unfold ChangedCtx.scoped; split <;> rfl

namespace Transaction

/-- The first record of the edge of `c` in the change log holds the users of `c`. -/
def Absorbs (t : Transaction) (c : ChangedCtx) : Prop :=
  ∃ i r U, t.changes.findIdx? (fun r => r.from = c.from && r.«to» = c.«to») = some i ∧
    t.changes[i]? = some r ∧ r.who.users = some U ∧ c.who.members ⊆ U

variable {t : Transaction} {c : ChangedCtx}

theorem Absorbs.addChanged_eq (h : t.Absorbs c) : t.addChanged c = t := by
  obtain ⟨i, r, U, hi, hr, hU, hc⟩ := h
  have hmod : t.changes.modify (·.add c) i = t.changes := List.ext_getElem? fun m => by
    rw [List.getElem?_modify]
    by_cases him : i = m
    · subst him; simp [hr, ChangedCtx.add_of_subset hU hc]
    · simp [him]
  simp only [addChanged, hi, hmod]

theorem absorbs_addChanged (t : Transaction) (c : ChangedCtx) : (t.addChanged c).Absorbs c := by
  rcases hi : t.changes.findIdx? (fun r => r.from = c.from && r.«to» = c.«to») with _ | i
  · have hch : (t.addChanged c).changes =
        t.changes ++ [(⟨c.from, c.«to», ⟨0, some ∅⟩, c.ttl⟩ : ChangedCtx).add c] := by
      rw [changes_addChanged, hi]
    refine ⟨t.changes.length, (⟨c.from, c.«to», ⟨0, some ∅⟩, c.ttl⟩ : ChangedCtx).add c, _, ?_, ?_, rfl,
      Finset.subset_union_right⟩
    · rw [hch, List.findIdx?_append, hi]; simp [ChangedCtx.add]
    · rw [hch, List.getElem?_concat_length]
  · have hil := (List.findIdx?_eq_some_iff_getElem.1 hi).1
    have hch : (t.addChanged c).changes = t.changes.modify (·.add c) i := by rw [changes_addChanged, hi]
    refine ⟨i, t.changes[i].add c, _, ?_, ?_, rfl, Finset.subset_union_right⟩
    · rw [hch, findIdx?_modify_add, hi]
    · rw [hch, List.getElem?_modify, List.getElem?_eq_getElem hil]; simp

theorem Absorbs.addChanged (h : t.Absorbs c) (c' : ChangedCtx) : (t.addChanged c').Absorbs c := by
  obtain ⟨i, r, U, hi, hr, hU, hc⟩ := h
  have hil : i < t.changes.length := (List.getElem?_eq_some_iff.1 hr).1
  rcases hj : t.changes.findIdx? (fun r => r.from = c'.from && r.«to» = c'.«to») with _ | j
  · have hch : (t.addChanged c').changes =
        t.changes ++ [(⟨c'.from, c'.«to», ⟨0, some ∅⟩, c'.ttl⟩ : ChangedCtx).add c'] := by
      rw [changes_addChanged, hj]
    refine ⟨i, r, U, ?_, ?_, hU, hc⟩
    · rw [hch, List.findIdx?_append, hi]; rfl
    · rw [hch, List.getElem?_append_left hil, hr]
  · have hch : (t.addChanged c').changes = t.changes.modify (·.add c') j := by rw [changes_addChanged, hj]
    have hfind : (t.addChanged c').changes.findIdx? (fun r => r.from = c.from && r.«to» = c.«to») = some i := by
      rw [hch, findIdx?_modify_add, hi]
    by_cases hji : j = i
    · subst hji
      refine ⟨j, r.add c', _, hfind, by simp [hch, List.getElem?_modify, hr], rfl, ?_⟩
      exact hc.trans (by simp [ChangedCtx.add, Who.members, hU])
    · exact ⟨i, r, U, hfind, by simp [hch, List.getElem?_modify, hr, hji], hU, hc⟩

theorem Absorbs.foldl (h : t.Absorbs c) (cs : List ChangedCtx) :
    (cs.foldl (fun t c => t.addChanged c) t).Absorbs c := by
  induction cs generalizing t with
  | nil => exact h
  | cons c' cs ih => exact ih (h.addChanged c')

theorem absorbs_foldl (t : Transaction) :
    ∀ cs : List ChangedCtx, ∀ c ∈ cs, (cs.foldl (fun t c => t.addChanged c) t).Absorbs c
  | [] => by simp
  | c' :: cs => fun c hc => by
    rcases List.mem_cons.1 hc with rfl | hc
    · exact (absorbs_addChanged t c).foldl cs
    · exact absorbs_foldl (t.addChanged c') cs c hc

theorem foldl_addChanged_of_absorbs :
    ∀ {cs : List ChangedCtx}, (∀ c ∈ cs, t.Absorbs c) → cs.foldl (fun t c => t.addChanged c) t = t
  | [], _ => rfl
  | c :: cs, h => by
    rw [List.foldl_cons, (h c (List.mem_cons_self ..)).addChanged_eq]
    exact foldl_addChanged_of_absorbs fun c' hc' => h c' (List.mem_cons_of_mem _ hc')

variable {w : Worker} {fuel : Nat} {ctx : ChangedCtx} {a b f : Nat} {sa sb : Step}
  {hops : List (String × String)} {F : String}

/-- A move whose users already sit in the step `f` where its chain stops and in
no other, and whose records already hold them, gives the transaction back, when
the chain does not stop at `from`. -/
theorem stepChanged_of_landed (hnames : (w.states.map (·.name)).Nodup)
    (hlen : w.states.length ≤ t.stepCrowds.length)
    (ha : w.states[a]? = some sa) (hsa : sa.name = ctx.from)
    (hb : w.states[b]? = some sb) (hsb : sb.name = ctx.«to») (hft : ctx.from ≠ ctx.«to»)
    (hchain : w.chainEnd fuel ctx.«to» = some (hops, F))
    (hf : (w.states[f]?).map (·.name) = some F) (hfa : f ≠ a)
    (hWf : (ctx.scoped t.totalCrowds).who.members ⊆ t.crowd f)
    (hWi : ∀ i, i ≠ f → Disjoint (t.crowd i) (ctx.scoped t.totalCrowds).who.members)
    (habs : (ctx.scoped t.totalCrowds).who.members.Nonempty →
      ∀ c ∈ (⟨ctx.from, ctx.«to», (ctx.scoped t.totalCrowds).who, sb.ttl⟩ ::
        hopRecords (ctx.scoped t.totalCrowds).who hops), t.Absorbs c) :
    t.stepChanged w fuel ctx = some t := by
  refine foldlM_eq_some_of_fixed _ _ _ fun ⟨i, s⟩ he => ?_
  have hs : w.states[i]? = some s := List.mem_enum_iff_getElem?.1 he
  have hil : i < t.stepCrowds.length := (List.getElem?_eq_some_iff.1 hs).1.trans_le hlen
  by_cases h1 : s.name = ctx.from
  · -- the users are already out of `from`
    have hia : i = a := index_eq_of_name_eq hnames hs ha (h1.trans hsa.symm)
    rw [stepChangedAt_from _ _ _ _ _ _ (by simpa using h1),
      Finset.sdiff_eq_self_of_disjoint (hWi i (hia ▸ Ne.symm hfa)), setCrowd_crowd]
  by_cases h2 : s.name = ctx.«to»
  swap
  · exact stepChangedAt_of_ne _ _ _ _ _ _ (by simpa using h1) (by simpa using h2)
  obtain rfl : s = sb := by
    rw [index_eq_of_name_eq hnames hs hb (h2.trans hsb.symm)] at hs
    exact Option.some.inj (hs.symm.trans hb)
  by_cases hif : i = f
  · -- the users stay in `to`, which is not direct
    have hnd : w.isDirectStep ctx.«to» = false := by
      have hF : F = ctx.«to» := by
        rw [← hif, hs] at hf
        exact (Option.some.inj hf).symm.trans h2
      cases hd : w.isDirectStep ctx.«to»
      · rfl
      · exact absurd hF (w.chainEnd_ne hchain hd)
    rw [stepChangedAt_to _ _ _ _ _ _ (by simpa using h1) (by simpa using h2),
      Finset.union_eq_left.2 (hif ▸ hWf), setCrowd_crowd]
    split_ifs with hm
    · have hne : (ctx.scoped t.totalCrowds).who.members.Nonempty := by
        rcases (moveToStep_fst _ _ _).1 hm with hu | hns
        · simp [Who.members, hu]
        · exact absurd (hif ▸ hWf) hns
      rw [ChangedCtx.scoped_with_ttl, (habs hne _ (List.mem_cons_self ..)).addChanged_eq]
      exact maybeTriggerDirectSteps_of_not_direct _ _ _ _ _ hnd
    · rfl
  · -- the users are out of `to`: the move records what is recorded and lands where they are
    rw [stepChangedAt_to_eq hnames hs (by simpa using h2) (by simpa using hft) hil (hWi i hif)
      (by simpa using hchain) hf]
    simp only [ChangedCtx.scoped_from, ChangedCtx.scoped_to]
    split_ifs with hne
    · rw [foldl_addChanged_of_absorbs (habs hne), Finset.union_eq_left.2 hWf, setCrowd_crowd]
    · rfl

theorem stepChanged_idempotent_of_order
    (hnames : (w.states.map (·.name)).Nodup)
    (hlen : w.states.length ≤ t.stepCrowds.length)
    (hpart : Partition t.stepCrowds t.totalCrowds)
    (ha : w.states[a]? = some sa) (hsa : sa.name = ctx.from)
    (hb : w.states[b]? = some sb) (hsb : sb.name = ctx.«to») (hft : ctx.from ≠ ctx.«to»)
    (hW : (ctx.scoped t.totalCrowds).who.members ⊆ t.crowd a)
    (hchain : w.chainEnd fuel ctx.«to» = some (hops, F))
    (hf : (w.states[f]?).map (·.name) = some F) (horder : f = a → a < b) :
    ∃ t', t.stepChanged w fuel ctx = some t' ∧ t'.stepChanged w fuel ctx = some t' := by
  set who := (ctx.scoped t.totalCrowds).who
  obtain ⟨t', h1, hsteps, htotal, habs⟩ : ∃ t', t.stepChanged w fuel ctx = some t' ∧
      t'.stepCrowds = moveUsers t.stepCrowds who.members f ∧ t'.totalCrowds = t.totalCrowds ∧
      (who.members.Nonempty →
        ∀ c ∈ (⟨ctx.from, ctx.«to», who, sb.ttl⟩ :: hopRecords who hops), t'.Absorbs c) :=
    ⟨_, stepChanged_eq hnames hlen hpart ha hsa hb hsb hft hW hchain hf horder, rfl,
      by dsimp only; split_ifs <;> simp,
      fun hne c hc => by dsimp only; rw [if_pos hne]; exact absorbs_foldl t _ c hc⟩
  refine ⟨t', h1, ?_⟩
  have hscoped : ctx.scoped t'.totalCrowds = ctx.scoped t.totalCrowds := by rw [htotal]
  have hlen' : w.states.length ≤ t'.stepCrowds.length := by rwa [hsteps, length_moveUsers]
  have hfl : f < t.stepCrowds.length := by
    obtain ⟨s, hs, -⟩ := Option.map_eq_some'.1 hf
    exact (List.getElem?_eq_some_iff.1 hs).1.trans_le hlen
  have hcrowd (i : Nat) : t'.crowd i = t.crowd i \ who.members ∪
      if i = f ∧ i < t.stepCrowds.length then who.members else ∅ := by
    rw [crowd, hsteps, getD_moveUsers]; rfl
  have hWf : who.members ⊆ t'.crowd f := by rw [hcrowd]; simp [hfl]
  by_cases hfa : f = a
  · -- the chain ends where the users come from: the second move takes them out and back
    have hpart' : Partition t'.stepCrowds t'.totalCrowds := by
      rw [hsteps, htotal]
      exact partition_moveUsers hpart (hW.trans (hpart.subset (getElem?_stepCrowds (hfa ▸ hfl)))) hfl
    rw [stepChanged_eq hnames hlen' hpart' ha hsa hb hsb hft (by rw [hscoped, ← hfa]; exact hWf) hchain hf
      horder]
    simp only [hscoped]
    split_ifs with hne
    · rw [foldl_addChanged_of_absorbs (habs hne), hsteps, moveUsers_moveUsers, ← hsteps]
    · rw [hsteps, moveUsers_moveUsers, ← hsteps]
  · exact stepChanged_of_landed hnames hlen' ha hsa hb hsb hft hchain hf hfa (by rwa [hscoped])
      (fun i hi => by rw [hscoped, hcrowd]; simp [hi, Finset.sdiff_disjoint]) (by rwa [hscoped])

theorem stepChanged_idempotent_of_back
    (hnames : (w.states.map (·.name)).Nodup)
    (hlen : w.states.length ≤ t.stepCrowds.length)
    (hpart : Partition t.stepCrowds t.totalCrowds)
    (ha : w.states[a]? = some sa) (hsa : sa.name = ctx.from)
    (hb : w.states[b]? = some sb) (hsb : sb.name = ctx.«to») (hft : ctx.from ≠ ctx.«to»)
    (hW : (ctx.scoped t.totalCrowds).who.members ⊆ t.crowd a)
    (hchain : w.chainEnd fuel ctx.«to» = some (hops, F))
    (hf : (w.states[a]?).map (·.name) = some F) (hba : b < a) :
    ∃ t', t.stepChanged w fuel ctx = some t' ∧ t'.stepChanged w fuel ctx = some t' := by
  have hal : a < t.stepCrowds.length := (List.getElem?_eq_some_iff.1 ha).1.trans_le hlen
  have hbl : b < t.stepCrowds.length := (List.getElem?_eq_some_iff.1 hb).1.trans_le hlen
  have hdisj := hpart.disjoint_of_ne (getElem?_stepCrowds hal) hW (getElem?_stepCrowds hbl) (Nat.ne_of_lt hba)
  refine ⟨_, stepChanged_eq_of_back hnames hlen ha hsa hb hsb hft hdisj hchain hf hba, ?_⟩
  dsimp only
  set W := (ctx.scoped t.totalCrowds).who
  set cs := (⟨ctx.from, ctx.«to», W, sb.ttl⟩ :: hopRecords W hops)
  set R := if W.members.Nonempty then cs.foldl (fun t c => t.addChanged c) t else t
  have hR : R.totalCrowds = t.totalCrowds ∧ R.stepCrowds = t.stepCrowds := by
    simp only [R]; split_ifs <;> simp
  have hscoped : ctx.scoped (R.setCrowd a (t.crowd a \ W.members)).totalCrowds = ctx.scoped t.totalCrowds := by
    rw [setCrowd_totalCrowds, hR.1]
  have hRl : a < R.stepCrowds.length := hR.2 ▸ hal
  have hRc : ∀ i, R.crowd i = t.crowd i := fun i => by simp only [crowd, hR.2]
  rw [stepChanged_eq_of_back hnames (by simpa [hR.2] using hlen) ha hsa hb hsb hft
    (by rw [hscoped, crowd_setCrowd_ne _ (Nat.ne_of_gt hba), hRc]; exact hdisj) hchain hf hba]
  simp only [hscoped, crowd_setCrowd_self _ hRl, sdiff_idem]
  split_ifs with hne
  · have habs : ∀ c ∈ cs, (R.setCrowd a (t.crowd a \ W.members)).Absorbs c := fun c hc => by
      simp only [R, if_pos hne]
      exact absorbs_foldl t cs c hc
    rw [foldl_addChanged_of_absorbs habs, setCrowd_setCrowd]
  · rw [setCrowd_setCrowd]

/-- A move that meets the conditions of `stepChanged_eq` but its order of `from`
and `to`, made a second time, leaves the transaction as the first left it: when
the chain stops elsewhere or after `to`, its users already sit where it stops
and the records of its hops already hold them; when it comes back to `from`,
listed after `to`, the second move puts the users into `from` and takes them out
again, as the first did. -/
theorem stepChanged_idempotent
    (hnames : (w.states.map (·.name)).Nodup)
    (hlen : w.states.length ≤ t.stepCrowds.length)
    (hpart : Partition t.stepCrowds t.totalCrowds)
    (ha : w.states[a]? = some sa) (hsa : sa.name = ctx.from)
    (hb : w.states[b]? = some sb) (hsb : sb.name = ctx.«to») (hft : ctx.from ≠ ctx.«to»)
    (hW : (ctx.scoped t.totalCrowds).who.members ⊆ t.crowd a)
    (hchain : w.chainEnd fuel ctx.«to» = some (hops, F))
    (hf : (w.states[f]?).map (·.name) = some F) :
    ∃ t', t.stepChanged w fuel ctx = some t' ∧ t'.stepChanged w fuel ctx = some t' := by
  by_cases horder : f = a → a < b
  · exact stepChanged_idempotent_of_order hnames hlen hpart ha hsa hb hsb hft hW hchain hf horder
  · obtain ⟨rfl, hnlt⟩ := Classical.not_imp.1 horder
    have hfb : f ≠ b := fun h => hft (by subst h; rw [ha, Option.some.injEq] at hb; rw [← hsa, ← hsb, hb])
    exact stepChanged_idempotent_of_back hnames hlen hpart ha hsa hb hsb hft hW hchain hf
      (Nat.lt_of_le_of_ne (Nat.le_of_not_lt hnlt) (Ne.symm hfb))

end Transaction

theorem stepChanged_idempotent_chain :
    ∃ t', (newTransaction.start chainWorker).stepChanged chainWorker 1 ⟨"A", "B", ⟨1, none⟩, 0⟩ = some t' ∧
      t'.stepChanged chainWorker 1 ⟨"A", "B", ⟨1, none⟩, 0⟩ = some t' :=
  @Transaction.stepChanged_idempotent (newTransaction.start chainWorker) chainWorker 1 ⟨"A", "B", ⟨1, none⟩, 0⟩
    0 1 2 ⟨"A", 0, .condition⟩ ⟨"B", 5, .direct⟩ [("B", "C")] "C"
    (by decide) (by decide) (by decide) rfl rfl rfl rfl (by decide) (by decide) (by decide) rfl

end Busybee.Core
