/-
  Subject: Bookkeeping of nested quotas over runs of transactions.

  Committing, rolling back and expiring are one change of the tables with different
  amounts (`Db.settle`). `Inv`: a usage's `reserved` is what the live ordinary reservations
  hold, and a quota's `allocated` is its initial value with the live and the committed
  allocated reservations.
  * `nested_bookkeeping`: so it is in every run in which no allocated reservation with a negative
    delta expires; and expiring is rolling back exactly where none does.
  * `expiry_keeps_deallocation`: a negative one that expires stays subtracted.
-/
import Mitaka.Lib.Run
import Mitaka.Cinder.NestedQuota

namespace Mitaka.Cinder.NestedQuota

open List

/-! ## 1. Sums over reservations -/

/-- The sum over the reservations that point to the row. -/
def sumOf (pointer : Reservation → Option ℕ) (f : Reservation → ℤ) (id : ℕ) (l : List Reservation) : ℤ :=
  (l.map fun r => if pointer r = some id then f r else 0).sum

variable {pointer : Reservation → Option ℕ} {f g : Reservation → ℤ} {id : ℕ} {l l' : List Reservation} {r : Reservation}

theorem sumOf_nil : sumOf pointer f id [] = 0 := rfl

theorem sumOf_cons : sumOf pointer f id (r :: l) = (if pointer r = some id then f r else 0) + sumOf pointer f id l :=
  sum_cons

theorem sumOf_append : sumOf pointer f id (l ++ l') = sumOf pointer f id l + sumOf pointer f id l' := by
  rw [sumOf, map_append, sum_append, sumOf, sumOf]

theorem sumOf_filter (p : Reservation → Bool) (l : List Reservation) :
    sumOf pointer f id l = sumOf pointer f id (l.filter p) + sumOf pointer f id (l.filter fun r => !p r) := by
  induction l with
  | nil => rfl
  | cons r l ih =>
    rw [sumOf_cons, ih]
    cases hp : p r with
    | true =>
      rw [filter_cons_of_pos hp, filter_cons_of_neg (by rw [hp]; exact Bool.false_ne_true), sumOf_cons]
      omega
    | false =>
      rw [filter_cons_of_neg (by rw [hp]; exact Bool.false_ne_true), filter_cons_of_pos (by rw [hp]; rfl),
        sumOf_cons]
      omega

theorem sumOf_eq_zero (h : ∀ r ∈ l, pointer r ≠ some id) : sumOf pointer f id l = 0 :=
  sum_eq_zero fun x hx => by
    obtain ⟨r, hr, rfl⟩ := List.mem_map.mp hx
    exact if_neg (h r hr)

theorem sumOf_congr (h : ∀ r ∈ l, pointer r = some id → f r = g r) : sumOf pointer f id l = sumOf pointer g id l := by
  refine congrArg List.sum (map_congr_left fun r hr => ?_)
  split
  next hid => exact h r hr hid
  next => rfl

theorem sumOf_le (h : ∀ r ∈ l, f r ≤ g r) : sumOf pointer f id l ≤ sumOf pointer g id l := by
  refine sum_le_sum fun r hr => ?_
  split
  · exact h r hr
  · exact le_rfl

/-- A sum of larger numbers is no larger only where all are the same. -/
theorem sumOf_eq_iff (h : ∀ r ∈ l, f r ≤ g r) :
    sumOf pointer f id l = sumOf pointer g id l ↔ ∀ r ∈ l, pointer r = some id → f r = g r := by
  refine ⟨fun heq => ?_, sumOf_congr⟩
  induction l with
  | nil => exact nofun
  | cons s l ih =>
    have hs := h s mem_cons_self
    have hl := fun r hr => h r (mem_cons_of_mem s hr)
    have hle : sumOf pointer f id l ≤ sumOf pointer g id l := sumOf_le hl
    rw [sumOf_cons, sumOf_cons] at heq
    intro r hr hid
    rcases mem_cons.mp hr with rfl | hr
    · rw [if_pos hid, if_pos hid] at heq
      omega
    · refine ih hl ?_ r hr hid
      split at heq <;> omega

/-! ## 2. Ending reservations -/

/-- What the reservation holds of its usage. -/
def Reservation.held (r : Reservation) : ℤ := max r.delta 0

theorem release_reserved (r : Reservation) (u : QuotaUsage) : r.release u = { u with reserved := u.reserved - r.held } := by
  rw [Reservation.release, Reservation.held]
  split
  next h => rw [max_eq_left h]
  next h => rw [max_eq_right (le_of_lt (not_le.mp h)), sub_zero]

/-- The usage gives back what the reservations hold, and gets `used`. -/
def settleUsage (l : List Reservation) (used : Reservation → ℤ) (u : QuotaUsage) : QuotaUsage :=
  { u with
    inUse := u.inUse + sumOf Reservation.usageId used u.id l
    reserved := u.reserved - sumOf Reservation.usageId Reservation.held u.id l }

/-- The quota gives back `freed`. -/
def settleQuota (l : List Reservation) (freed : Reservation → ℤ) (q : Quota) : Quota :=
  { q with allocated := q.allocated - sumOf Reservation.allocatedId freed q.id l }

theorem settleUsage_eq_self {used : Reservation → ℤ} {u : QuotaUsage} (h : ∀ r ∈ l, r.usageId ≠ some u.id) :
    settleUsage l used u = u := by
  rw [settleUsage, sumOf_eq_zero h, sumOf_eq_zero h, add_zero, sub_zero]

theorem settleQuota_eq_self {freed : Reservation → ℤ} {q : Quota} (h : ∀ r ∈ l, r.allocatedId ≠ some q.id) :
    settleQuota l freed q = q := by
  rw [settleQuota, sumOf_eq_zero h, sub_zero]

theorem not_mem_uuids_cons {s : Reservation} : s.uuid ∉ (r :: l).map Reservation.uuid ↔
    s.uuid ∉ l.map Reservation.uuid ∧ s.uuid ≠ r.uuid := by
  rw [map_cons, mem_cons, not_or, and_comm]

namespace Db

variable (db : Db)

/-- The reservations are ended. -/
def settle (l : List Reservation) (used freed : Reservation → ℤ) : Db :=
  { db with
    usages := db.usages.map (settleUsage l used)
    quotas := db.quotas.map (settleQuota l freed)
    reservations := db.reservations.filter fun r => r.uuid ∉ l.map Reservation.uuid }

/-- The reservation points to a row, of a usage or of a quota. -/
def Points (r : Reservation) : Prop :=
  (r.allocatedId = none ∧ ∃ id ∈ db.usages.map QuotaUsage.id, r.usageId = some id) ∨
    (r.usageId = none ∧ ∃ id ∈ db.quotas.map Quota.id, r.allocatedId = some id)

variable {db} {used freed : Reservation → ℤ}

theorem settle_nil : db.settle [] used freed = db := by
  have husages : db.usages.map (settleUsage [] used) = db.usages :=
    (map_congr_left fun _ _ => settleUsage_eq_self fun _ hr => absurd hr not_mem_nil).trans (List.map_id _)
  have hquotas : db.quotas.map (settleQuota [] freed) = db.quotas :=
    (map_congr_left fun _ _ => settleQuota_eq_self fun _ hr => absurd hr not_mem_nil).trans (List.map_id _)
  have hreservations : db.reservations.filter (fun r => r.uuid ∉ ([] : List Reservation).map Reservation.uuid) =
      db.reservations := filter_eq_self.mpr fun _ _ => decide_eq_true not_mem_nil
  rw [settle, husages, hquotas, hreservations]

/-- One after the other is all at once. -/
theorem settle_cons : (db.settle [r] used freed).settle l used freed = db.settle (r :: l) used freed := by
  have hone : ∀ pointer : Reservation → Option ℕ, ∀ f id,
      sumOf pointer f id [r] + sumOf pointer f id l = sumOf pointer f id (r :: l) := fun _ _ _ => sumOf_append.symm
  rw [settle, settle, settle, Db.mk.injEq]
  refine ⟨?_, ?_, ?_, rfl⟩
  · rw [List.map_map]
    refine map_congr_left fun u _ => ?_
    rw [settleUsage, ← hone, ← hone, ← add_assoc, ← sub_sub]
    rfl
  · rw [List.map_map]
    refine map_congr_left fun q _ => ?_
    rw [settleQuota, ← hone, ← sub_sub]
    rfl
  · rw [List.filter_filter]
    refine filter_congr fun s _ => ?_
    rw [← Bool.decide_and]
    refine decide_eq_decide.mpr (Iff.trans ?_ not_mem_uuids_cons.symm)
    exact and_congr_right' (not_mem_uuids_cons.trans (and_iff_right not_mem_nil))

theorem settle_points {l : List Reservation} {s : Reservation} : (db.settle l used freed).Points s ↔ db.Points s := by
  have hu : (db.settle l used freed).usages.map QuotaUsage.id = db.usages.map QuotaUsage.id := by
    rw [settle, List.map_map]
    rfl
  have hq : (db.settle l used freed).quotas.map Quota.id = db.quotas.map Quota.id := by
    rw [settle, List.map_map]
    rfl
  rw [Points, hu, hq, Points]

/-- **A loop that ends each reservation ends all of them.** -/
theorem foldlM_settle {f : Db → Reservation → Option Db}
    (hone : ∀ (db : Db) r, db.Points r → f db r = some (db.settle [r] used freed)) (l : List Reservation)
    (hl : ∀ r ∈ l, db.Points r) : l.foldlM f db = some (db.settle l used freed) := by
  induction l generalizing db with
  | nil => rw [settle_nil]; rfl
  | cons r l ih =>
    rw [foldlM_cons, hone db r (hl r mem_cons_self)]
    have hrest : l.foldlM f (db.settle [r] used freed) = some ((db.settle [r] used freed).settle l used freed) :=
      ih fun s hs => settle_points.mpr (hl s (mem_cons_of_mem _ hs))
    rw [settle_cons] at hrest
    exact hrest

theorem updateUsage_eq (hr : db.Points r) (hnone : r.allocatedId = none) (f : QuotaUsage → QuotaUsage) :
    ∃ id, r.usageId = some id ∧ db.updateUsage r f = some (db.modifyUsage id f) := by
  rcases hr with ⟨-, id, hid, heq⟩ | ⟨-, id, -, heq⟩
  · obtain ⟨u, hu, rfl⟩ := List.mem_map.mp hid
    obtain ⟨v, hv⟩ := @Table.find_of_mem _ QuotaUsage.id _ _ hu
    refine ⟨u.id, heq, ?_⟩
    rw [updateUsage, heq, Option.bind_eq_bind, Option.bind_some, hv]
    rfl
  · rw [hnone] at heq
    cases heq

theorem updateQuota_eq (hr : db.Points r) (hsome : r.allocatedId.isSome) (f : Quota → Quota) :
    ∃ id, r.allocatedId = some id ∧ db.updateQuota r f = some (db.modifyQuota id f) := by
  rcases hr with ⟨heq, -⟩ | ⟨-, id, hid, heq⟩
  · rw [heq] at hsome
    cases hsome
  · obtain ⟨q, hq, rfl⟩ := List.mem_map.mp hid
    obtain ⟨q', hq'⟩ := @Table.find_of_mem _ Quota.id _ _ hq
    refine ⟨q.id, heq, ?_⟩
    rw [updateQuota, heq, Option.bind_eq_bind, Option.bind_some, hq']
    rfl

/-- Ending an ordinary reservation. -/
theorem settle_usage {id : ℕ} (hid : r.usageId = some id) (hnone : r.allocatedId = none) {f : QuotaUsage → QuotaUsage}
    (hf : ∀ u, f u = { u with inUse := u.inUse + used r, reserved := u.reserved - r.held }) :
    (db.modifyUsage id f).deleteReservation r.uuid = db.settle [r] used freed := by
  rw [settle, modifyUsage, deleteReservation, Db.mk.injEq]
  refine ⟨?_, ?_, ?_, rfl⟩
  · refine map_congr_left fun u _ => ?_
    by_cases hu : u.id = id
    · have hid' : r.usageId = some u.id := hid.trans (congrArg some hu.symm)
      rw [if_pos hu, hf, settleUsage, sumOf_cons, sumOf_cons, sumOf_nil, sumOf_nil, if_pos hid', if_pos hid', add_zero,
        add_zero]
    · rw [if_neg hu, settleUsage_eq_self fun s hs heq => hu ?_]
      rw [mem_singleton.mp hs, hid] at heq
      exact (Option.some.inj heq).symm
  · refine ((map_congr_left fun q _ => settleQuota_eq_self fun s hs heq => ?_).trans (List.map_id _)).symm
    rw [mem_singleton.mp hs, hnone] at heq
    cases heq
  · exact filter_congr fun s _ => decide_eq_decide.mpr
      (not_mem_uuids_cons.trans (and_iff_right not_mem_nil)).symm

/-- Ending an allocated reservation. -/
theorem settle_quota {id : ℕ} (hnone : r.usageId = none) (hid : r.allocatedId = some id) {f : Quota → Quota}
    (hf : ∀ q, f q = { q with allocated := q.allocated - freed r }) :
    (db.modifyQuota id f).deleteReservation r.uuid = db.settle [r] used freed := by
  rw [settle, modifyQuota, deleteReservation, Db.mk.injEq]
  refine ⟨?_, ?_, ?_, rfl⟩
  · refine ((map_congr_left fun u _ => settleUsage_eq_self fun s hs heq => ?_).trans (List.map_id _)).symm
    rw [mem_singleton.mp hs, hnone] at heq
    cases heq
  · refine map_congr_left fun q _ => ?_
    by_cases hq : q.id = id
    · rw [if_pos hq, hf, settleQuota, sumOf_cons, sumOf_nil, if_pos (hid.trans (congrArg some hq.symm)), add_zero]
    · rw [if_neg hq, settleQuota_eq_self fun s hs heq => hq ?_]
      rw [mem_singleton.mp hs, hid] at heq
      exact (Option.some.inj heq).symm
  · exact filter_congr fun s _ => decide_eq_decide.mpr
      (not_mem_uuids_cons.trans (and_iff_right not_mem_nil)).symm

/-- A reservation that changes no row. -/
theorem settle_none (husage : r.usageId ≠ none → used r = 0 ∧ r.held = 0) (hquota : r.allocatedId ≠ none → freed r = 0) :
    db.deleteReservation r.uuid = db.settle [r] used freed := by
  rw [settle, deleteReservation, Db.mk.injEq]
  refine ⟨((map_congr_left fun u _ => ?_).trans (List.map_id _)).symm,
    ((map_congr_left fun q _ => ?_).trans (List.map_id _)).symm, ?_, rfl⟩
  · rw [settleUsage, sumOf_cons, sumOf_cons, sumOf_nil, sumOf_nil]
    split
    next h =>
      obtain ⟨hused, hheld⟩ := husage (by rw [h]; exact nofun)
      rw [hused, hheld, add_zero, add_zero, sub_zero]
      rfl
    next =>
      rw [add_zero, add_zero, sub_zero]
      rfl
  · rw [settleQuota, sumOf_cons, sumOf_nil]
    split
    next h =>
      rw [hquota (by rw [h]; exact nofun), add_zero, sub_zero]
      rfl
    next =>
      rw [add_zero, sub_zero]
      rfl
  · exact filter_congr fun s _ => decide_eq_decide.mpr
      (not_mem_uuids_cons.trans (and_iff_right not_mem_nil)).symm

theorem commitReservation_eq (hr : db.Points r) :
    db.commitReservation r = some (db.settle [r] Reservation.delta fun _ => 0) := by
  rw [commitReservation]
  by_cases hnone : r.allocatedId = none
  · obtain ⟨id, hid, heq⟩ := updateUsage_eq hr hnone fun u => { r.release u with inUse := u.inUse + r.delta }
    have hsettle := @settle_usage r db Reservation.delta (fun _ => 0) id hid hnone
      (fun u => { r.release u with inUse := u.inUse + r.delta }) fun u => by rw [release_reserved]
    rw [hnone, Option.isNone_none, if_pos rfl, heq, ← hsettle]
    rfl
  · have hnone' : r.usageId = none := (hr.resolve_left fun h => hnone h.1).1
    rw [if_neg fun h => hnone (Option.isNone_iff_eq_none.mp h), ← settle_none (fun h => absurd hnone' h) fun _ => rfl]
    rfl

theorem rollbackReservation_eq (hr : db.Points r) :
    db.rollbackReservation r = some (db.settle [r] (fun _ => 0) Reservation.delta) := by
  rw [rollbackReservation]
  by_cases hnone : r.allocatedId = none
  · obtain ⟨id, hid, heq⟩ := updateUsage_eq hr hnone r.release
    have hsettle := @settle_usage r db (fun _ => 0) Reservation.delta id hid hnone r.release fun u => by
      rw [release_reserved, add_zero]
    rw [hnone, Option.isSome_none, if_neg Bool.false_ne_true, heq, ← hsettle]
    rfl
  · have hsome := Option.isSome_iff_ne_none.mpr hnone
    obtain ⟨id, hid, heq⟩ := updateQuota_eq hr hsome r.deallocate
    have hnone' : r.usageId = none := (hr.resolve_left fun h => hnone h.1).1
    have hsettle := @settle_quota r db (fun _ => 0) Reservation.delta id hnone' hid r.deallocate fun _ => rfl
    rw [if_pos hsome, heq, ← hsettle]
    rfl

theorem expireReservation_eq (hr : db.Points r) :
    db.expireReservation r = some (db.settle [r] (fun _ => 0) Reservation.held) := by
  by_cases hpos : 0 ≤ r.delta
  · -- as rolled back
    have hheld : r.held = r.delta := max_eq_left hpos
    have hroll := rollbackReservation_eq hr
    have hsame : db.settle [r] (fun _ => 0) Reservation.delta = db.settle [r] (fun _ => 0) Reservation.held := by
      have hquota : settleQuota [r] Reservation.delta = settleQuota [r] Reservation.held := by
        funext q
        rw [settleQuota, settleQuota, sumOf_congr fun s hs _ => by rw [mem_singleton.mp hs, ← hheld]]
      rw [settle, settle, hquota]
    rw [← hsame, ← hroll, expireReservation, if_pos hpos, rollbackReservation]
  · have hheld : r.held = 0 := max_eq_right (le_of_lt (not_le.mp hpos))
    rw [expireReservation, if_neg hpos, ← settle_none (fun _ => ⟨rfl, hheld⟩) fun _ => hheld]
    rfl

/-! ## 3. The invariant -/

/-- A usage's `reserved` is what is held of it, and a quota's `allocated` its initial value with what is allocated. -/
structure Inv (initial : ℕ → ℤ) (committed : List Reservation) (db : Db) : Prop where
  quotaIds : (db.quotas.map Quota.id).Pairwise (· < ·)
  uuids : Table.Ordered Reservation.uuid db.reservations
  usage_lt : ∀ id ∈ db.usages.map QuotaUsage.id, id < db.nextId
  quota_lt : ∀ id ∈ db.quotas.map Quota.id, id < db.nextId
  uuid_lt : ∀ r ∈ db.reservations, r.uuid < db.nextId
  points : ∀ r ∈ db.reservations, db.Points r
  reserved : ∀ u ∈ db.usages, u.reserved = sumOf Reservation.usageId Reservation.held u.id db.reservations
  allocated : ∀ q ∈ db.quotas, q.allocated = initial q.id +
    sumOf Reservation.allocatedId Reservation.delta q.id db.reservations +
    sumOf Reservation.allocatedId Reservation.delta q.id committed
  fresh : ∀ id, db.nextId ≤ id → initial id = 0 ∧ ∀ r ∈ committed, r.allocatedId ≠ some id

variable {initial : ℕ → ℤ} {committed : List Reservation}

/-- Nothing points to a key that is not given out. -/
theorem Inv.sumOf_fresh (h : Inv initial committed db) {f : Reservation → ℤ} :
    sumOf Reservation.usageId f db.nextId db.reservations = 0 ∧
      sumOf Reservation.allocatedId f db.nextId db.reservations = 0 := by
  refine ⟨sumOf_eq_zero fun r hr heq => ?_, sumOf_eq_zero fun r hr heq => ?_⟩
  · rcases h.points r hr with ⟨-, id, hid, heq'⟩ | ⟨heq', -⟩
    · rw [heq] at heq'
      cases heq'
      exact absurd (h.usage_lt _ hid) (lt_irrefl _)
    · rw [heq] at heq'
      cases heq'
  · rcases h.points r hr with ⟨heq', -⟩ | ⟨-, id, hid, heq'⟩
    · rw [heq] at heq'
      cases heq'
    · rw [heq] at heq'
      cases heq'
      exact absurd (h.quota_lt _ hid) (lt_irrefl _)

theorem Points.mono {db' : Db} (h : db.Points r) (hu : db.usages.map QuotaUsage.id ⊆ db'.usages.map QuotaUsage.id)
    (hq : db.quotas.map Quota.id ⊆ db'.quotas.map Quota.id) : db'.Points r :=
  h.imp (fun ⟨hn, id, hid, heq⟩ => ⟨hn, id, hu hid, heq⟩) fun ⟨hn, id, hid, heq⟩ => ⟨hn, id, hq hid, heq⟩

theorem Inv.addUsage (h : Inv initial committed db) {u : QuotaUsage} (hid : u.id = db.nextId) (hzero : u.reserved = 0) :
    Inv initial committed (db.addUsage u) where
  quotaIds := h.quotaIds
  uuids := h.uuids
  usage_lt id hmem := by
    rw [Db.addUsage, map_append, mem_append] at hmem
    rcases hmem with hmem | hmem
    · exact Nat.lt_succ_of_lt (h.usage_lt id hmem)
    · rw [mem_singleton.mp hmem, hid]
      exact Nat.lt_succ_self _
  quota_lt id hmem := Nat.lt_succ_of_lt (h.quota_lt id hmem)
  uuid_lt s hs := Nat.lt_succ_of_lt (h.uuid_lt s hs)
  points s hs := (h.points s hs).mono (by rw [Db.addUsage, map_append]; exact subset_append_left _ _)
    (Subset.refl _)
  reserved v hv := by
    rcases mem_append.mp hv with hv | hv
    · exact h.reserved v hv
    · rw [mem_singleton.mp hv, hid, hzero]
      exact h.sumOf_fresh.1.symm
  allocated := h.allocated
  fresh id hid' := h.fresh id (Nat.le_of_succ_le hid')

theorem Inv.addQuota (h : Inv initial committed db) {q : Quota} (hid : q.id = db.nextId) (hzero : q.allocated = 0) :
    Inv initial committed (db.addQuota q) where
  quotaIds := by
    rw [Db.addQuota, map_append, pairwise_append]
    refine ⟨h.quotaIds, pairwise_singleton _ _, fun id hmem id' hid' => ?_⟩
    rw [mem_singleton.mp hid', hid]
    exact h.quota_lt id hmem
  uuids := h.uuids
  usage_lt id hmem := Nat.lt_succ_of_lt (h.usage_lt id hmem)
  quota_lt id hmem := by
    rw [Db.addQuota, map_append, mem_append] at hmem
    rcases hmem with hmem | hmem
    · exact Nat.lt_succ_of_lt (h.quota_lt id hmem)
    · rw [mem_singleton.mp hmem, hid]
      exact Nat.lt_succ_self _
  uuid_lt s hs := Nat.lt_succ_of_lt (h.uuid_lt s hs)
  points s hs := (h.points s hs).mono (Subset.refl _)
    (by rw [Db.addQuota, map_append]; exact subset_append_left _ _)
  reserved := h.reserved
  allocated p hp := by
    rcases mem_append.mp hp with hp | hp
    · exact h.allocated p hp
    · obtain ⟨hinitial, hcommitted⟩ := h.fresh db.nextId le_rfl
      rw [mem_singleton.mp hp, hid, hzero, hinitial, sumOf_eq_zero hcommitted]
      change (0 : ℤ) = 0 + sumOf Reservation.allocatedId Reservation.delta db.nextId db.reservations + 0
      rw [h.sumOf_fresh.2]
      rfl
  fresh id hid' := h.fresh id (Nat.le_of_succ_le hid')

/-- A change that is neither of the key nor of `reserved`. -/
theorem Inv.modifyUsage (h : Inv initial committed db) (id : ℕ) {f : QuotaUsage → QuotaUsage} (hid : ∀ u, (f u).id = u.id)
    (hreserved : ∀ u, (f u).reserved = u.reserved) : Inv initial committed (db.modifyUsage id f) := by
  have hids : (db.modifyUsage id f).usages.map QuotaUsage.id = db.usages.map QuotaUsage.id := Table.map_key_modify hid
  refine ⟨h.quotaIds, h.uuids, fun i hi => h.usage_lt i (hids ▸ hi), h.quota_lt, h.uuid_lt, fun s hs => ?_, fun v hv => ?_,
    h.allocated, h.fresh⟩
  · exact (h.points s hs).mono (by rw [hids]; exact Subset.refl _) (Subset.refl _)
  · obtain ⟨u, hu, rfl⟩ := List.mem_map.mp hv
    have heq : (if u.id = id then f u else u).reserved = u.reserved := by
      split
      · exact hreserved u
      · rfl
    rw [Table.key_ite hid u, heq]
    exact h.reserved u hu

/-- A new reservation, with the rows changed by what it holds or allocates. -/
theorem Inv.addReservation (h : Inv initial committed db) {usages : List QuotaUsage} {quotas : List Quota}
    (husages : usages.map QuotaUsage.id = db.usages.map QuotaUsage.id)
    (hquotas : quotas.map Quota.id = db.quotas.map Quota.id) (hr : db.Points r) (huuid : r.uuid = db.nextId)
    (hreserved : ∀ u ∈ usages, u.reserved = sumOf Reservation.usageId Reservation.held u.id db.reservations +
      if r.usageId = some u.id then r.held else 0)
    (hallocated : ∀ q ∈ quotas, q.allocated = initial q.id +
      (sumOf Reservation.allocatedId Reservation.delta q.id db.reservations +
        if r.allocatedId = some q.id then r.delta else 0) +
      sumOf Reservation.allocatedId Reservation.delta q.id committed) :
    Inv initial committed ⟨usages, quotas, db.reservations ++ [r], db.nextId + 1⟩ where
  quotaIds := hquotas ▸ h.quotaIds
  uuids := h.uuids.append fun s hs => by
    rw [huuid]
    exact h.uuid_lt s hs
  usage_lt id hid := Nat.lt_succ_of_lt (h.usage_lt id (husages ▸ hid))
  quota_lt id hid := Nat.lt_succ_of_lt (h.quota_lt id (hquotas ▸ hid))
  uuid_lt s hs := by
    rcases mem_append.mp hs with hs | hs
    · exact Nat.lt_succ_of_lt (h.uuid_lt s hs)
    · rw [mem_singleton.mp hs, huuid]
      exact Nat.lt_succ_self _
  points s hs := by
    have hp : db.Points s := by
      rcases mem_append.mp hs with hs | hs
      · exact h.points s hs
      · rw [mem_singleton.mp hs]
        exact hr
    exact hp.mono (by rw [husages]; exact Subset.refl _) (by rw [hquotas]; exact Subset.refl _)
  reserved u hu := by
    rw [hreserved u hu, sumOf_append, sumOf_cons, sumOf_nil, add_zero]
  allocated q hq := by
    rw [hallocated q hq, sumOf_append, sumOf_cons, sumOf_nil, add_zero]
  fresh id hid := h.fresh id (Nat.le_of_succ_le hid)

end Db

/-! ## 4. Reserving -/

variable {req : ReserveRequest} {initial : ℕ → ℤ} {committed : List Reservation} {s : Session}

/-- The session's `usages` are rows of its table. -/
structure Session.Inv (initial : ℕ → ℤ) (committed : List Reservation) (s : Session) : Prop where
  db : s.db.Inv initial committed
  rows : ∀ res id, s.usages.get res = some id → id ∈ s.db.usages.map QuotaUsage.id

theorem Session.Inv.quotaUsageCreate (h : s.Inv initial committed) (resource : String) (untilRefresh : Option ℤ) :
    (s.quotaUsageCreate resource untilRefresh).Inv initial committed := by
  refine ⟨h.db.addUsage rfl rfl, fun res id hget => ?_⟩
  have hget : (s.usages.set resource s.db.nextId).get res = some id := hget
  rw [Dict.get_set] at hget
  change id ∈ (s.db.usages ++ [_]).map QuotaUsage.id
  rw [map_append, mem_append]
  split at hget
  · cases hget
    exact .inr (mem_singleton.mpr rfl)
  · exact .inl (h.rows res id hget)

theorem Session.Inv.update (h : s.Inv initial committed) (resource : String) {f : QuotaUsage → QuotaUsage}
    (hid : ∀ u, (f u).id = u.id) (hreserved : ∀ u, (f u).reserved = u.reserved) :
    (s.update resource f).Inv initial committed := by
  rw [Session.update]
  split
  next i _ =>
    refine ⟨h.db.modifyUsage i hid hreserved, fun res id hget => ?_⟩
    have hids : (s.db.modifyUsage i f).usages.map QuotaUsage.id = s.db.usages.map QuotaUsage.id :=
      Table.map_key_modify hid
    exact hids ▸ h.rows res id hget
  next => exact h

theorem Session.Inv.needsRefresh (h : s.Inv initial committed) (resource : String) :
    (needsRefresh req s resource).2.Inv initial committed := by
  rw [NestedQuota.needsRefresh]
  split
  next => exact h.quotaUsageCreate resource _
  next =>
    split
    · exact h
    · split
      · exact h.update resource (fun _ => rfl) fun _ => rfl
      · exact h

theorem Session.Inv.refreshResource (h : s.Inv initial committed) (entry : String × ℤ) :
    (refreshResource req s entry).Inv initial committed := by
  rw [NestedQuota.refreshResource]
  split
  next => exact h.update entry.1 (fun _ => rfl) fun _ => rfl
  next => exact (h.quotaUsageCreate entry.1 _).update entry.1 (fun _ => rfl) fun _ => rfl

/-- **Refreshing changes no reserved amount.** -/
theorem Session.Inv.refreshUsages (h : s.Inv initial committed) (work done : List String) :
    (refreshUsages req work done s).Inv initial committed := by
  induction work generalizing done s with
  | nil => exact h
  | cons resource work ih =>
    rw [NestedQuota.refreshUsages]
    split
    · exact ih h done
    · have hs : (NestedQuota.needsRefresh req s resource).2.Inv initial committed := h.needsRefresh resource
      dsimp only
      split
      · refine ih ?_ _
        generalize NestedQuota.needsRefresh req s resource = next at hs
        generalize req.sync resource = updates
        induction updates generalizing next with
        | nil => exact hs
        | cons entry updates ihu => exact ihu ⟨next.1, NestedQuota.refreshResource req next.2 entry⟩ (hs.refreshResource entry)
      · exact ih hs done

namespace Db

variable {db : Db}

theorem mem_quotaGet {resource : String} {q : Quota} (h : db.quotaGet resource = some q) : q ∈ db.quotas :=
  mem_of_find?_eq_some h

/-- The quota that is charged is a row, as the table has it. -/
theorem Inv.allocatedQuota (h : db.Inv initial committed) (resource : String) :
    (allocatedQuota req db resource).1 ∈ (allocatedQuota req db resource).2.quotas ∧
      (allocatedQuota req db resource).2.Inv initial committed := by
  rw [NestedQuota.allocatedQuota]
  split
  next quota hget => exact ⟨mem_quotaGet hget, h⟩
  next => exact ⟨mem_append_right _ (mem_singleton.mpr rfl), h.addQuota rfl rfl⟩

/-- An allocated reservation is added to its quota at once. -/
theorem Inv.allocate (h : db.Inv initial committed) {quota : Quota} (hq : quota ∈ db.quotas) (resource : String)
    (delta expire : ℤ) :
    ((db.modifyQuota quota.id fun q => { q with allocated := quota.allocated + delta }).addReservation
      ⟨db.nextId, none, some quota.id, resource, delta, expire⟩).Inv initial committed := by
  have hids : (Table.modify Quota.id db.quotas quota.id fun q => { q with allocated := quota.allocated + delta }).map
      Quota.id = db.quotas.map Quota.id := Table.map_key_modify fun _ => rfl
  refine h.addReservation rfl hids (.inr ⟨rfl, quota.id, List.mem_map_of_mem hq, rfl⟩) rfl (fun u hu => ?_) fun p hp => ?_
  · rw [if_neg nofun, add_zero]
    exact h.reserved u hu
  · obtain ⟨q, hqm, rfl⟩ := List.mem_map.mp hp
    by_cases hid : q.id = quota.id
    · have hsame : q = quota := Table.Ordered.eq (pairwise_map.mp h.quotaIds) hqm hq hid
      subst hsame
      rw [if_pos rfl, if_pos rfl, h.allocated q hqm]
      dsimp only
      omega
    · rw [if_neg hid, if_neg fun heq => hid (Option.some.inj heq).symm, h.allocated q hqm, add_zero]

/-- An ordinary reservation holds back what it may add. -/
theorem Inv.hold (h : db.Inv initial committed) {id : ℕ} (hid : id ∈ db.usages.map QuotaUsage.id) (resource : String)
    (delta expire : ℤ) :
    (if 0 < delta then (db.addReservation ⟨db.nextId, some id, none, resource, delta, expire⟩).modifyUsage id
        fun u => { u with reserved := u.reserved + delta }
      else db.addReservation ⟨db.nextId, some id, none, resource, delta, expire⟩).Inv initial committed := by
  have hpoints : db.Points ⟨db.nextId, some id, none, resource, delta, expire⟩ := .inl ⟨rfl, id, hid, rfl⟩
  have hquotas : ∀ q ∈ db.quotas, q.allocated = initial q.id +
      (sumOf Reservation.allocatedId Reservation.delta q.id db.reservations + if none = some q.id then delta else 0) +
      sumOf Reservation.allocatedId Reservation.delta q.id committed := fun q hq => by
    rw [if_neg nofun, add_zero]
    exact h.allocated q hq
  split
  next hpos =>
    have hheld : Reservation.held ⟨db.nextId, some id, none, resource, delta, expire⟩ = delta := max_eq_left hpos.le
    have hids : (Table.modify QuotaUsage.id db.usages id fun u => { u with reserved := u.reserved + delta }).map
        QuotaUsage.id = db.usages.map QuotaUsage.id := Table.map_key_modify fun _ => rfl
    refine h.addReservation hids rfl hpoints rfl (fun v hv => ?_) hquotas
    obtain ⟨u, hu, rfl⟩ := List.mem_map.mp hv
    rw [hheld]
    by_cases hid' : u.id = id
    · rw [if_pos hid', if_pos (congrArg some hid'.symm), ← h.reserved u hu]
    · rw [if_neg hid', if_neg fun heq => hid' (Option.some.inj heq).symm, add_zero]
      exact h.reserved u hu
  next hneg =>
    have hheld : Reservation.held ⟨db.nextId, some id, none, resource, delta, expire⟩ = 0 := max_eq_right (not_lt.mp hneg)
    refine h.addReservation rfl rfl hpoints rfl (fun u hu => ?_) hquotas
    rw [hheld, ite_self, add_zero]
    exact h.reserved u hu

theorem Inv.reserveResource (h : db.Inv initial committed) {usages : Dict String ℕ}
    (hrows : req.isAllocatedReserve = false → ∀ res id, usages.get res = some id → id ∈ db.usages.map QuotaUsage.id)
    (entry : String × ℤ) : (reserveResource req usages db entry).Inv initial committed := by
  rw [NestedQuota.reserveResource]
  split
  next =>
    have hquota := @Inv.allocatedQuota req _ _ db h entry.1
    exact hquota.2.allocate hquota.1 entry.1 entry.2 req.expire
  next hnot =>
    split
    next => exact h
    next id hget => exact h.hold (hrows (eq_false_of_ne_true hnot) entry.1 id hget) entry.1 entry.2 req.expire

theorem reserveResource_usageIds (usages : Dict String ℕ) (db : Db) (entry : String × ℤ)
    (hreq : req.isAllocatedReserve = false) :
    (NestedQuota.reserveResource req usages db entry).usages.map QuotaUsage.id = db.usages.map QuotaUsage.id := by
  rw [NestedQuota.reserveResource, hreq, if_neg Bool.false_ne_true]
  split
  next => rfl
  next id _ =>
    dsimp only
    split
    · exact Table.map_key_modify fun _ => rfl
    · rfl

theorem getQuotaUsages_rows {res : String} {id : ℕ} (h : db.getQuotaUsages.get res = some id) :
    id ∈ db.usages.map QuotaUsage.id := by
  have hfold : ∀ (l : List QuotaUsage) (d : Dict String ℕ), (∀ res id, d.get res = some id → id ∈ db.usages.map QuotaUsage.id) →
      (∀ u ∈ l, u ∈ db.usages) → ∀ res id, (l.foldl (fun d row => d.set row.resource row.id) d).get res = some id →
        id ∈ db.usages.map QuotaUsage.id := by
    intro l
    induction l with
    | nil => exact fun d hd _ => hd
    | cons u l ih =>
      intro d hd hl
      refine ih _ (fun res id hget => ?_) fun v hv => hl v (mem_cons_of_mem _ hv)
      rw [Dict.get_set] at hget
      split at hget
      · cases hget
        exact List.mem_map_of_mem (hl u mem_cons_self)
      · exact hd res id hget
  exact hfold db.usages [] (fun _ _ hget => nomatch hget) (fun _ hu => hu) res id h

/-- **Reserving keeps the invariant**, also where the quota is exceeded. -/
theorem Inv.quotaReserve (h : db.Inv initial committed) (req : ReserveRequest) :
    (quotaReserve req db).1.Inv initial committed := by
  have hs : (refreshUsages req req.order [] ⟨db, db.getQuotaUsages⟩).Inv initial committed :=
    Session.Inv.refreshUsages ⟨h, fun _ _ => getQuotaUsages_rows⟩ req.order []
  rw [NestedQuota.quotaReserve]
  generalize refreshUsages req req.order [] ⟨db, db.getQuotaUsages⟩ = s at hs
  dsimp only
  split
  next =>
    have hfold : ∀ (l : Dict String ℤ) (d : Db), d.Inv initial committed →
        (req.isAllocatedReserve = false → ∀ res id, s.usages.get res = some id → id ∈ d.usages.map QuotaUsage.id) →
        (l.foldl (NestedQuota.reserveResource req s.usages) d).Inv initial committed := by
      intro l
      induction l with
      | nil => exact fun d hd _ => hd
      | cons entry l ih =>
        intro d hd hrows
        refine ih _ (hd.reserveResource hrows entry) fun hreq res id hget => ?_
        rw [reserveResource_usageIds s.usages d entry hreq]
        exact hrows hreq res id hget
    exact hfold req.deltas s.db hs.db fun _ => hs.rows
  next => exact hs.db

/-! ## 5. Runs -/

/-- A uuid is one reservation's. -/
theorem Inv.mem_uuids (h : db.Inv initial committed) (p : Reservation → Bool) {r : Reservation} (hr : r ∈ db.reservations) :
    r.uuid ∈ (db.reservations.filter p).map Reservation.uuid ↔ p r = true := by
  rw [List.mem_map]
  refine ⟨fun ⟨s, hs, heq⟩ => ?_, fun hp => ⟨r, mem_filter.mpr ⟨hr, hp⟩, rfl⟩⟩
  obtain ⟨hmem, hp⟩ := mem_filter.mp hs
  exact h.uuids.eq hmem hr heq ▸ hp

theorem Inv.settle (h : db.Inv initial committed) (p : Reservation → Bool) {used freed : Reservation → ℤ}
    {committed' : List Reservation}
    (hmem : ∀ r ∈ committed', r ∈ committed ∨ r ∈ db.reservations)
    (hsum : ∀ id, sumOf Reservation.allocatedId Reservation.delta id (db.reservations.filter p) +
      sumOf Reservation.allocatedId Reservation.delta id committed -
      sumOf Reservation.allocatedId freed id (db.reservations.filter p) =
        sumOf Reservation.allocatedId Reservation.delta id committed') :
    (db.settle (db.reservations.filter p) used freed).Inv initial committed' := by
  have hrest : (db.settle (db.reservations.filter p) used freed).reservations = db.reservations.filter fun r => !p r := by
    refine filter_congr fun r hr => ?_
    rw [Bool.eq_iff_iff, decide_eq_true_iff, h.mem_uuids p hr, Bool.not_eq_true', Bool.not_eq_true]
  have hids : (db.settle (db.reservations.filter p) used freed).usages.map QuotaUsage.id = db.usages.map QuotaUsage.id := by
    rw [Db.settle, List.map_map]
    rfl
  have hqids : (db.settle (db.reservations.filter p) used freed).quotas.map Quota.id = db.quotas.map Quota.id := by
    rw [Db.settle, List.map_map]
    rfl
  have hsub : ∀ r ∈ (db.settle (db.reservations.filter p) used freed).reservations, r ∈ db.reservations := fun r hr =>
    (mem_filter.mp hr).1
  refine ⟨hqids ▸ h.quotaIds, h.uuids.filter _, fun id hid => h.usage_lt id (hids ▸ hid), fun id hid => h.quota_lt id (hqids ▸ hid),
    fun r hr => h.uuid_lt r (hsub r hr), fun r hr => settle_points.mpr (h.points r (hsub r hr)), fun v hv => ?_, fun v hv => ?_,
    fun id hid => ⟨(h.fresh id hid).1, fun r hr heq => ?_⟩⟩
  · obtain ⟨u, hu, rfl⟩ := List.mem_map.mp hv
    rw [hrest, settleUsage]
    dsimp only
    rw [h.reserved u hu, sumOf_filter p db.reservations]
    omega
  · obtain ⟨q, hq, rfl⟩ := List.mem_map.mp hv
    rw [hrest, settleQuota]
    dsimp only
    rw [h.allocated q hq, sumOf_filter p db.reservations, ← hsum q.id]
    omega
  · rcases hmem r hr with hr | hr
    · exact (h.fresh id hid).2 r hr heq
    · rcases h.points r hr with ⟨hnone, -⟩ | ⟨-, id', hid', heq'⟩
      · rw [heq] at hnone
        cases hnone
      · rw [heq] at heq'
        cases heq'
        exact absurd (h.quota_lt id hid') (not_lt.mpr hid)

theorem Inv.reservationCommit_eq (h : db.Inv initial committed) (uuids : List ℕ) :
    db.reservationCommit uuids = some (db.settle (db.quotaReservations uuids) Reservation.delta fun _ => 0) :=
  foldlM_settle (fun _ _ => commitReservation_eq) _ fun r hr => h.points r (mem_filter.mp hr).1

theorem Inv.reservationRollback_eq (h : db.Inv initial committed) (uuids : List ℕ) :
    db.reservationRollback uuids = some (db.settle (db.quotaReservations uuids) (fun _ => 0) Reservation.delta) :=
  foldlM_settle (fun _ _ => rollbackReservation_eq) _ fun r hr => h.points r (mem_filter.mp hr).1

theorem Inv.reservationExpire_eq (h : db.Inv initial committed) (currentTime : ℤ) :
    db.reservationExpire currentTime =
      some (db.settle (db.reservations.filter fun r => r.expire < currentTime) (fun _ => 0) Reservation.held) :=
  foldlM_settle (fun _ _ => expireReservation_eq) _ fun r hr => h.points r (mem_filter.mp hr).1

/-- The reservations that are past their time. -/
def expired (db : Db) (currentTime : ℤ) : List ℕ :=
  (db.reservations.filter fun r => r.expire < currentTime).map Reservation.uuid

/-- No allocated reservation with a negative delta is past its time. -/
def NoneNegative (db : Db) (currentTime : ℤ) : Prop :=
  ∀ r ∈ db.reservations, r.expire < currentTime → r.allocatedId ≠ none → 0 ≤ r.delta

/-- **Expiring is rolling back** exactly where no allocated reservation with a negative delta expires. -/
theorem Inv.expire_eq_rollback_iff (h : db.Inv initial committed) (currentTime : ℤ) :
    db.reservationExpire currentTime = db.reservationRollback (db.expired currentTime) ↔ db.NoneNegative currentTime := by
  have hsame : db.quotaReservations (db.expired currentTime) = db.reservations.filter fun r => r.expire < currentTime := by
    refine filter_congr fun r hr => ?_
    rw [Bool.eq_iff_iff, decide_eq_true_iff, expired, h.mem_uuids _ hr]
  rw [h.reservationExpire_eq, h.reservationRollback_eq, hsame, Option.some.injEq, Db.settle, Db.settle, Db.mk.injEq]
  have hle : ∀ r ∈ db.reservations.filter (fun r => r.expire < currentTime), r.delta ≤ r.held := fun r _ =>
    le_max_left _ _
  constructor
  · rintro ⟨-, hquotas, -, -⟩ r hr hexp hsome
    obtain ⟨-, id, hid, heq⟩ := (h.points r hr).resolve_left fun hn => hsome hn.1
    obtain ⟨q, hq, rfl⟩ := List.mem_map.mp hid
    have hq' := congrArg Quota.allocated (map_inj_left.mp hquotas q hq)
    rw [settleQuota, settleQuota] at hq'
    dsimp only at hq'
    have hsums : sumOf Reservation.allocatedId Reservation.delta q.id (db.reservations.filter fun r => r.expire < currentTime) =
        sumOf Reservation.allocatedId Reservation.held q.id (db.reservations.filter fun r => r.expire < currentTime) := by
      omega
    have hsum := (sumOf_eq_iff hle).mp hsums r (mem_filter.mpr ⟨hr, decide_eq_true hexp⟩) heq
    rw [hsum]
    exact le_max_right _ _
  · intro hnone
    refine ⟨rfl, map_inj_left.mpr fun q _ => ?_, rfl, rfl⟩
    have hsum : sumOf Reservation.allocatedId Reservation.delta q.id (db.reservations.filter fun r => r.expire < currentTime) =
        sumOf Reservation.allocatedId Reservation.held q.id (db.reservations.filter fun r => r.expire < currentTime) := by
      refine sumOf_congr fun r hr heq => ?_
      obtain ⟨hmem, hexp⟩ := mem_filter.mp hr
      exact (max_eq_left (hnone r hmem (of_decide_eq_true hexp) (by rw [heq]; exact nofun))).symm
    rw [settleQuota, settleQuota, hsum]

end Db

/-- A transaction. -/
inductive Action
  | reserve (req : ReserveRequest)
  | commit (uuids : List ℕ)
  | rollback (uuids : List ℕ)
  | expire (currentTime : ℤ)

/-- The tables, with the reservations that have been committed. An exception rolls the transaction back. -/
def step (s : Db × List Reservation) : Action → Option (Db × List Reservation)
  | .reserve req => some ((quotaReserve req s.1).1, s.2)
  | .commit uuids => some (match s.1.reservationCommit uuids with
    | some db => (db, s.2 ++ s.1.quotaReservations uuids)
    | none => s)
  | .rollback uuids => some ((s.1.reservationRollback uuids).getD s.1, s.2)
  | .expire currentTime => some ((s.1.reservationExpire currentTime).getD s.1, s.2)

/-- No allocated reservation with a negative delta expires. -/
def Sparing (s : Db × List Reservation) : Action → Prop
  | .expire currentTime => s.1.NoneNegative currentTime
  | _ => True

/-- **Every sparing transaction keeps the invariant.** -/
theorem inv_step {initial : ℕ → ℤ} {s s' : Db × List Reservation} {a : Action} (h : s.1.Inv initial s.2) (hsparing : Sparing s a)
    (hstep : step s a = some s') : s'.1.Inv initial s'.2 := by
  cases a with
  | reserve req =>
    cases hstep
    exact h.quotaReserve req
  | commit uuids =>
    rw [step, h.reservationCommit_eq uuids] at hstep
    cases hstep
    refine h.settle _ (fun r hr => (mem_append.mp hr).imp_right fun hr => (mem_filter.mp hr).1) fun id => ?_
    have hzero : sumOf Reservation.allocatedId (fun _ => 0) id (s.1.quotaReservations uuids) = 0 :=
      sum_eq_zero fun x hx => by
        obtain ⟨r, -, rfl⟩ := List.mem_map.mp hx
        exact ite_self 0
    change _ + _ - sumOf Reservation.allocatedId (fun _ => 0) id (s.1.quotaReservations uuids) = _
    rw [hzero, sub_zero, sumOf_append, add_comm]
    rfl
  | rollback uuids =>
    rw [step, h.reservationRollback_eq uuids] at hstep
    cases hstep
    refine h.settle _ (fun r hr => .inl hr) fun id => ?_
    exact add_sub_cancel_left _ _
  | expire currentTime =>
    have heq := (h.expire_eq_rollback_iff currentTime).mpr hsparing
    rw [step, heq, h.reservationRollback_eq] at hstep
    cases hstep
    refine h.settle _ (fun r hr => .inl hr) fun id => ?_
    exact add_sub_cancel_left _ _

/-- The tables before any reservation. -/
structure Db.Start (db : Db) : Prop where
  quotaIds : (db.quotas.map Quota.id).Pairwise (· < ·)
  usage_lt : ∀ id ∈ db.usages.map QuotaUsage.id, id < db.nextId
  quota_lt : ∀ id ∈ db.quotas.map Quota.id, id < db.nextId
  reserved : ∀ u ∈ db.usages, u.reserved = 0
  reservations : db.reservations = []

/-- What a quota has allocated at the start; a quota created later has nothing. -/
def Db.initialAllocated (db : Db) (id : ℕ) : ℤ := ((Table.find Quota.id db.quotas id).map Quota.allocated).getD 0

theorem Db.Start.inv {db : Db} (h : db.Start) : db.Inv db.initialAllocated [] where
  quotaIds := h.quotaIds
  uuids := h.reservations ▸ List.Pairwise.nil
  usage_lt := h.usage_lt
  quota_lt := h.quota_lt
  uuid_lt r hr := absurd (h.reservations ▸ hr) not_mem_nil
  points r hr := absurd (h.reservations ▸ hr) not_mem_nil
  reserved u hu := by
    rw [h.reserved u hu, h.reservations]
    rfl
  allocated q hq := by
    have hfind : Table.find Quota.id db.quotas q.id = some q :=
      Table.Ordered.find_eq_some (pairwise_map.mp h.quotaIds) |>.mpr ⟨hq, rfl⟩
    rw [Db.initialAllocated, hfind, h.reservations, sumOf_nil, add_zero, add_zero]
    rfl
  fresh id hid := by
    refine ⟨?_, nofun⟩
    cases hfind : Table.find Quota.id db.quotas id with
    | none =>
      rw [Db.initialAllocated, hfind]
      rfl
    | some q =>
      obtain ⟨hq, rfl⟩ := Table.find_some hfind
      exact absurd (h.quota_lt q.id (List.mem_map_of_mem hq)) (not_lt.mpr hid)

/-- **The bookkeeping is exact** in every run in which no allocated reservation with a negative delta expires. -/
theorem nested_bookkeeping {start : Db} (h0 : start.Start) {s : Db × List Reservation} (h : Reach step Sparing (start, []) s) :
    (∀ u ∈ s.1.usages, u.reserved = sumOf Reservation.usageId (fun r => max r.delta 0) u.id s.1.reservations) ∧
    (∀ q ∈ s.1.quotas, q.allocated = start.initialAllocated q.id +
      sumOf Reservation.allocatedId Reservation.delta q.id s.1.reservations +
      sumOf Reservation.allocatedId Reservation.delta q.id s.2) ∧
    ∀ currentTime, s.1.reservationExpire currentTime = s.1.reservationRollback (s.1.expired currentTime) ↔
      s.1.NoneNegative currentTime := by
  have hinv : s.1.Inv start.initialAllocated s.2 := by
    induction h with
    | refl => exact h0.inv
    | tail _ hsparing hstep ih => exact inv_step ih hsparing hstep
  exact ⟨hinv.reserved, hinv.allocated, hinv.expire_eq_rollback_iff⟩

/-! ## 6. An expired deallocation -/

/-- A quota with five allocated. -/
def five : Db := ⟨[], [⟨1, "volumes", 10, 5⟩], [], 2⟩

/-- A child project gives back three. -/
def giveBack : ReserveRequest where
  quotas := [("volumes", 10)]
  deltas := [("volumes", -3)]
  expire := 100
  untilRefresh := none
  isAllocatedReserve := true
  order := ["volumes"]
  sync _ := [("volumes", 0)]
  aged _ := false
  deltas_nodup := nodup_singleton _
  order_perm := List.Perm.refl _

theorem five_start : five.Start := by
  refine ⟨pairwise_singleton _ _, nofun, fun id hid => ?_, nofun, rfl⟩
  rw [mem_singleton.mp hid]
  exact Nat.one_lt_two

/-- **A reservation to give back that expires** stays taken off; rolled back, it is put on again. -/
theorem expiry_keeps_deallocation : ∃ s expired : Db × List Reservation,
    Reach step (fun _ _ => True) (five, []) s ∧ step s (.expire 200) = some expired ∧
      expired.1.reservations = [] ∧ expired.2 = [] ∧ expired.1.quotas = [⟨1, "volumes", 10, 2⟩] ∧
      (s.1.reservationRollback (s.1.expired 200)).map Db.quotas = some [⟨1, "volumes", 10, 5⟩] := by
  refine ⟨((quotaReserve giveBack five).1, []), _, Reach.refl.tail (a := .reserve giveBack) trivial rfl, rfl, ?_, rfl, ?_, ?_⟩
  · decide +kernel
  · decide +kernel
  · decide +kernel

/-- It is committed. -/
theorem nested_bookkeeping_committed : ∃ s : Db × List Reservation, Reach step Sparing (five, []) s ∧
    ∀ q ∈ s.1.quotas, q.allocated = five.initialAllocated q.id +
      sumOf Reservation.allocatedId Reservation.delta q.id s.1.reservations +
      sumOf Reservation.allocatedId Reservation.delta q.id s.2 := by
  have h : Reach step Sparing (five, []) _ :=
    (Reach.refl.tail (a := .reserve giveBack) trivial rfl).tail (a := .commit [3]) trivial rfl
  exact ⟨_, h, (nested_bookkeeping five_start h).2.1⟩

end Mitaka.Cinder.NestedQuota
